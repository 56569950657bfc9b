import Javelet.Lowering.Env
import Javelet.Scope.Usage

/-!
# Lowering of expressions

The code of an expression leaves its value on the stack. Conditions are zero or one there.
Operands are lowered from left to right; the operators `&&` and `||` skip the right operand
when the left one decides. An access chain is lowered step by step, each step working on
what the steps before it have left.
-/
namespace Javelet.Lowering

open Assembly

/-- Code that leaves a value, and the type of the value. -/
structure Typed where
  code : Segment
  type : Ty

/-- Code that leaves arguments, and their types. -/
structure Arguments where
  code : Segment
  types : List Ty

/-- Code of the steps of a chain, and what they reach. -/
structure Reached where
  code : Segment
  receiver : Receiver

/-- The value of a literal that is held as an integer. -/
def intValue? : Literal → Option Int32
  | .int value => some value
  | .char value => some (Int32.ofNat value.toNat)
  | .boolean value => some (if value then 1 else 0)
  | _ => none

/-- Push a literal. -/
def literal : Literal → Typed
  | .int value => ⟨[.op (.pushInt value)], .int⟩
  | .char value => ⟨[.op (.pushInt (Int32.ofNat value.toNat))], .char⟩
  | .boolean value => ⟨[.op (.pushBoolean value)], .boolean⟩
  | .string value => ⟨[.op (.pushString value)], .string⟩
  | .null => ⟨[.op .pushNull], .null⟩

/-! ## Operators -/

/-- Code that leaves one value or another, by where it is entered: at its start the value
`first`, at the label `other` the opposite one. -/
def choice (first : Bool) (other finish : Label) : Segment :=
  [.op (.pushBoolean first), .op (.goto finish), .alternative, .label other,
    .op (.pushBoolean !first), .label finish]

/-- An arithmetic operation on two integers. -/
def arithmetic (op : BinaryOp) (p : Position) (left right : Lower Typed) : Lower Typed := do
  let l ← left
  let r ← right
  match op.arithmetic? with
  | some instruction =>
    if l.type.isInteger && r.type.isInteger then
      return ⟨l.code ++ r.code ++ ops [.arithmetic instruction], .int⟩
    else refuse (.operandTypes op l.type r.type) p
  | none => refuse (.operandTypes op l.type r.type) p

/-- The conditional jump of a comparison. Integers can be compared by every relation,
references for being the same. -/
def comparisonJump? (op : BinaryOp) (left right : Ty) (target : Label) : Option Instruction :=
  if left.isInteger && right.isInteger then
    some (.jumpInts (op.relation?.getD .equal) target)
  else if left.isReference && right.isReference then
    match op with
    | .relation .equal => some (.jumpReferences true target)
    | .relation .notEqual => some (.jumpReferences false target)
    | _ => none
  else none

/-- A comparison. -/
def comparison (op : BinaryOp) (p : Position) (left right : Lower Typed) : Lower Typed := do
  let l ← left
  let r ← right
  let yes ← freshLabel
  let finish ← freshLabel
  let jump ← require (comparisonJump? op l.type r.type yes) (.operandTypes op l.type r.type) p
  return ⟨l.code ++ r.code ++ .op jump :: choice false yes finish, .boolean⟩

/-- A value that has to be a condition. -/
def asCondition (p : Position) (value : Lower Typed) : Lower Segment := do
  let v ← value
  if v.type = .boolean then return v.code else refuse (.conditionNotBoolean v.type) p

/-- A connective of two conditions. The first operand that decides skips the rest. -/
def connective (op : BinaryOp) (left right : Lower Segment) : Lower Typed := do
  let decided ← freshLabel
  let finish ← freshLabel
  let isAnd := decide (op = .connective .and)
  let skip := if isAnd then Instruction.jumpZero decided else .jumpNonzero decided
  let l ← left
  let r ← right
  return ⟨l ++ .op skip :: r ++ .op skip :: choice isAnd decided finish, .boolean⟩

/-! ## Members -/

/-- The property of a name on a class, with the name of its owner. -/
def property (env : Env) (className name : String) (p : Position) : Lower (String × Ty) :=
  match env.table.findProperty className name with
  | some (owner, info) => pure (owner.name, info.type)
  | none => refuse (.undefinedProperty name className) p

/-- A name at the head of a chain: a local variable, a property of the receiver or the root
of the print stream. -/
def nameHead (env : Env) (name : String) (p : Position) : Lower Reached :=
  match env.local? name with
  | some l => pure ⟨ops [l.load], .value l.type⟩
  | none =>
    match env.table.findProperty env.className name with
    | some (owner, info) =>
      pure ⟨ops [.loadThis, .getField owner.name name info.type], .value info.type⟩
    | none =>
      if name = Scope.systemRoot then pure ⟨[], .system⟩
      else refuse (.undefinedVariable name) p

/-- Calls pass at most `argumentLimit` arguments: the machine counts the cells of a call,
receiver included, in one byte. -/
def checkCount (count : Nat) (p : Position) : Lower Unit :=
  if count ≤ argumentLimit then pure () else refuse (.tooManyArguments count) p

/-- Call a method on a receiver that is on the stack. -/
def call (env : Env) (receiver : Ty) (name : String) (p : Position) (args : Arguments) :
    Lower Reached := do
  let (owner, m) ← require (env.table.resolveMethod receiver.name name args.types)
    (.undefinedMethod (signatureText name args.types) receiver) p
  if m.isStatic then refuse (.staticCall name) p
  checkCount args.types.length p
  let invoke := if owner.isInterface then
      Instruction.invokeInterface owner.name name m.params m.returns
    else .invokeVirtual owner.name name m.params m.returns
  return ⟨args.code ++ ops [invoke], .value m.returns⟩

/-- Create an object. -/
def construct (env : Env) (className : String) (p : Position) (args : Arguments) :
    Lower Typed := do
  let m ← require (env.table.resolveConstructor className args.types)
    (.noConstructor (signatureText className args.types) className) p
  checkCount args.types.length p
  return ⟨ops [.new className, .dup] ++ args.code ++ ops [.invokeConstructor className m.params],
    .plain className⟩

/-- Create an array. -/
def constructArray (element : String) (p : Position) (length : Typed) : Lower Typed := do
  let ty := Ty.plain element
  if length.type.isInteger then
    return ⟨length.code ++ ops [.newArray (.ofTy ty) (internalName element)], ty.arrayOf⟩
  else refuse (.lengthNotInt length.type) p

/-- An index, which has to be an integer. -/
def asIndex (p : Position) (value : Typed) : Lower Segment :=
  if value.type.isInteger then pure value.code else refuse (.indexNotInt value.type) p

/-- The field step of a chain. -/
def fieldStep (env : Env) (receiver : Receiver) (name : String) (p : Position) :
    Lower Reached :=
  match receiver with
  | .system =>
    if name = "out" then pure ⟨ops [.getPrintStream], .printStream⟩
    else refuse (.noMember (.field name) receiver) p
  | .printStream => refuse (.noMember (.field name) receiver) p
  | .value ty =>
    if ty.isArray && name == "length" then pure ⟨ops [.arrayLength], .value .int⟩
    else if !ty.isArray && ty.isReference then do
      let (owner, fieldType) ← property env ty.name name p
      return ⟨ops [.getField owner name fieldType], .value fieldType⟩
    else refuse (.noMember (.field name) receiver) p

/-- Whether a print method of this name takes so many arguments, and whether it ends the
line. -/
def printMethod? (name : String) (count : Nat) : Option Bool :=
  if name = "println" ∧ count ≤ 1 then some true
  else if name = "print" ∧ count = 1 then some false
  else none

/-! ## Expressions -/

mutual

/-- Lower an expression. -/
def expr (env : Env) : Expr → Lower Typed
  | .literal _ value => pure (literal value)
  | .binary op left right =>
    match op with
    | .connective _ => connective op (asCondition left.position (expr env left))
        (asCondition right.position (expr env right))
    | .relation _ => comparison op left.position (expr env left) (expr env right)
    | .arithmetic _ => arithmetic op left.position (expr env left) (expr env right)
  | .access c => do
    let v ← chain env c
    if v.type.isVoid then refuse .voidAsValue c.position
    return v
  | .newObject p className args => do
    let as ← arguments env args
    construct env className p as
  | .newArray p element length => do
    let n ← expr env length
    constructArray element p n

def arguments (env : Env) : List Expr → Lower Arguments
  | [] => pure ⟨[], []⟩
  | e :: rest => do
    let v ← expr env e
    let vs ← arguments env rest
    return ⟨v.code ++ vs.code, v.type :: vs.types⟩

/-- Lower an access chain. A call without a result gives the type `void`. -/
def chain (env : Env) : Chain → Lower Typed
  | .mk h ls => do
    let start ← head env h
    let reached ← links env start ls
    match reached.receiver with
    | .value ty => return ⟨reached.code, ty⟩
    | _ => refuse .systemAsValue h.position

/-- Lower the head of a chain. -/
def head (env : Env) : Head → Lower Reached
  | .this _ => pure ⟨ops [.loadThis], .value env.thisType⟩
  | .name p name => nameHead env name p
  | .call p name args => do
    let as ← arguments env args
    let result ← call env env.thisType name p as
    return ⟨.op .loadThis :: result.code, result.receiver⟩

/-- Lower a step of a chain behind what is reached. -/
def link (env : Env) (receiver : Receiver) : Link → Lower Reached
  | .field p name => fieldStep env receiver name p
  | .call p name args =>
    match receiver with
    | .system => refuse (.noMember (.method name) receiver) p
    | .printStream => do
      let line ← require (printMethod? name args.length) (.noPrintMethod name) p
      let as ← arguments env args
      return ⟨as.code ++ ops [.print line as.types.head?], .value .void⟩
    | .value ty =>
      if !ty.isArray && ty.isReference then do
        let as ← arguments env args
        call env ty name p as
      else refuse (.noMember (.method name) receiver) p
  | .index p index =>
    match receiver with
    | .value ty =>
      if ty.isArray then do
        let v ← expr env index
        let code ← asIndex index.position v
        return ⟨code ++ ops [.arrayLoad (.ofTy ty.element)], .value ty.element⟩
      else refuse (.noMember .index receiver) p
    | _ => refuse (.noMember .index receiver) p

def links (env : Env) (start : Reached) : List Link → Lower Reached
  | [] => pure start
  | l :: rest => do
    let next ← link env start.receiver l
    links env ⟨start.code ++ next.code, next.receiver⟩ rest

end

/-- Lower a condition. -/
def condition (env : Env) (e : Expr) : Lower Segment := asCondition e.position (expr env e)

/-- Lower an index. -/
def index (env : Env) (e : Expr) : Lower Segment := do
  let v ← expr env e
  asIndex e.position v

end Javelet.Lowering
