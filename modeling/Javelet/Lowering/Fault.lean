import Javelet.Diagnostic
import Javelet.Syntax.Expr
import Javelet.Types.Table

/-!
# Faults of lowering

What can still be wrong with a program whose types and names are in order: a member that the
type of a receiver does not have, or an operation on values of a type that has none.
-/
namespace Javelet.Lowering

/-- What the steps of an access chain so far have reached. -/
inductive Receiver where
  /-- The name at the root of `System.out`; nothing is on the stack. -/
  | system
  /-- The print stream is on the stack. -/
  | printStream
  /-- A value is on the stack. A call without a result reaches the type `void`. -/
  | value (type : Ty)
  deriving DecidableEq, Repr

/-- A step of an access chain, without its arguments. -/
inductive Member where
  | field (name : String)
  | method (name : String)
  | index
  deriving DecidableEq, Repr

/-- The number of arguments that a call can pass. -/
def argumentLimit : Nat := 254

/-- A fault of lowering. -/
inductive Fault where
  | undefinedType (fault : Types.TableFault)
  | undefinedVariable (name : String)
  | undefinedProperty (name className : String)
  | undefinedMethod (signature : String) (receiver : Ty)
  | noConstructor (signature className : String)
  | noSelectorSlot
  | voidAsValue
  | systemAsValue
  | conditionNotBoolean (type : Ty)
  | operandTypes (op : BinaryOp) (left right : Ty)
  | compoundTypes (op : Arithmetic) (target value : Ty)
  | lengthNotInt (type : Ty)
  | indexNotInt (type : Ty)
  | selectorNotInt (type : Ty)
  | noMember (member : Member) (receiver : Receiver)
  | noPrintMethod (name : String)
  | staticCall (name : String)
  | tooManyArguments (count : Nat)
  | badTarget
  | badCaseLabel
  | strayBreak
  | strayContinue
  deriving DecidableEq, Repr

namespace Fault

/-- Whether the fault is a name without a meaning. -/
def isUnresolved : Fault → Bool
  | undefinedType _ | undefinedVariable _ | undefinedProperty _ _ | undefinedMethod _ _
  | noConstructor _ _ | noSelectorSlot => true
  | _ => false

def code (f : Fault) : Code :=
  if f.isUnresolved then .unresolvedSymbol else .unsupportedOperation

def memberText : Member → String
  | .field name => "field '" ++ name ++ "'"
  | .method name => "method '" ++ name ++ "'"
  | .index => "an index"

def receiverText : Receiver → String
  | .system => "on 'System'"
  | .printStream => "on 'System.out'"
  | .value type => "on a value of type '" ++ type.text ++ "'"

/-- The wording for an operator between two types. -/
def operatorText (op : String) (left right : Ty) : String :=
  "Operator '" ++ op ++ "' cannot be applied to '" ++ left.text ++ "' and '" ++ right.text ++ "'"

def message : Fault → String
  | undefinedType fault => fault.message
  | undefinedVariable name => "Undefined variable '" ++ name ++ "'"
  | undefinedProperty name className =>
    "Undefined property '" ++ name ++ "' in '" ++ className ++ "'"
  | undefinedMethod signature receiver =>
    "Undefined method '" ++ signature ++ "' in '" ++ receiver.text ++ "'"
  | noConstructor signature className =>
    "No constructor '" ++ signature ++ "' in class '" ++ className ++ "'"
  | noSelectorSlot => "Switch statement has no selector slot"
  | voidAsValue => "A method returning void cannot be used as a value"
  | systemAsValue => "'System' and 'System.out' cannot be used as values"
  | conditionNotBoolean type => "Condition must be boolean, found '" ++ type.text ++ "'"
  | operandTypes op left right => operatorText op.text left right
  | compoundTypes op target value =>
    operatorText ((BinaryOp.arithmetic op).text ++ "=") target value
  | lengthNotInt type => "Array length must be an int, found '" ++ type.text ++ "'"
  | indexNotInt type => "Array index must be an int, found '" ++ type.text ++ "'"
  | selectorNotInt type =>
    "Switch selector must be int, char or boolean, found '" ++ type.text ++ "'"
  | noMember member receiver => "Cannot access " ++ memberText member ++ " " ++ receiverText receiver
  | noPrintMethod name => "Unsupported method 'System.out." ++ name ++ "'"
  | staticCall name => "Cannot call the static method '" ++ name ++ "' on an object"
  | tooManyArguments count =>
    "A call can pass at most " ++ argumentLimit.repr ++ " arguments, found " ++ count.repr
  | badTarget => "Invalid assignment target"
  | badCaseLabel => "Case labels must be integer, character or boolean literals"
  | strayBreak => "'break' outside of a loop or switch"
  | strayContinue => "'continue' outside of a loop"

instance : Explained Fault := ⟨code, message, fun _ => none⟩

end Fault

end Javelet.Lowering
