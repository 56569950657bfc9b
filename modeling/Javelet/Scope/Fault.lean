import Javelet.Diagnostic
import Javelet.Types.Table

/-!
# Faults in the use of names
-/
namespace Javelet.Scope

/-- What needs a receiver. -/
inductive InstanceUse where
  | this
  | property (name : String)
  | method (name : String)
  deriving DecidableEq, Repr

def InstanceUse.text : InstanceUse → String
  | this => "'this'"
  | property name => "property '" ++ name ++ "'"
  | method name => "method '" ++ name ++ "'"

/-- The number of slots that a method can use. -/
def slotLimit : Nat := 65535

/-- A fault in the declaration or the use of a name. -/
inductive Fault where
  | undefinedClass (name : String)
  | undefinedType (fault : Types.TableFault)
  | parameterDeclared (name : String)
  | variableDeclared (name : String)
  | typeAsValue (name : String)
  | undefinedVariable (name : String)
  | undefinedMethod (name className : String)
  | staticContext (use : InstanceUse)
  | tooManyLocals
  deriving DecidableEq, Repr

namespace Fault

def code : Fault → Code
  | undefinedClass _ => .undefinedType
  | undefinedType _ => .undefinedType
  | parameterDeclared _ => .duplicateParameter
  | variableDeclared _ => .duplicateVariable
  | typeAsValue _ => .undefinedVariable
  | undefinedVariable _ => .undefinedVariable
  | undefinedMethod _ _ => .undefinedMethod
  | staticContext _ => .thisInStaticContext
  | tooManyLocals => .tooManyLocals

def message : Fault → String
  | undefinedClass name => "Undefined class '" ++ name ++ "'"
  | undefinedType fault => fault.message
  | parameterDeclared name => "Parameter '" ++ name ++ "' is already declared in this scope"
  | variableDeclared name => "Variable '" ++ name ++ "' is already declared in this scope"
  | typeAsValue name => "'" ++ name ++ "' is a type and cannot be used as a value"
  | undefinedVariable name => "Undefined variable '" ++ name ++ "'"
  | undefinedMethod name className =>
    "Undefined method '" ++ name ++ "' in class '" ++ className ++ "'"
  | staticContext use => "Cannot use " ++ use.text ++ " in the static method 'main'"
  | tooManyLocals => "A method can use at most " ++ slotLimit.repr ++ " local slots"

instance : Explained Fault := ⟨code, message, fun _ => none⟩

end Fault

end Javelet.Scope
