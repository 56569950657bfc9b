import Javelet.Lowering.Expr
import Javelet.Syntax.Statement

/-!
# Lowering of assignments

The target is lowered up to its last step, which leaves the object or the array to store
into on the stack. A compound assignment loads the old value from there before the new one is
computed.
-/
namespace Javelet.Lowering

open Assembly

/-- The value to store: the given one, or the old value on the stack combined with it. -/
def assignedValue (op : AssignOp) (target : Ty) (p : Position) (value : Typed) :
    Lower Segment :=
  match op with
  | .plain => pure value.code
  | .compound op =>
    if target.isInteger && value.type.isInteger then
      pure (value.code ++ ops [.arithmetic op])
    else refuse (.compoundTypes op target value.type) p

/-- Instructions that a compound assignment needs to load the old value. -/
def oldValue (op : AssignOp) (instructions : List Instruction) : Segment :=
  match op with
  | .plain => []
  | .compound _ => ops instructions

/-- Assign to a local variable. -/
def storeLocal (l : Local) (op : AssignOp) (p : Position) (value : Typed) : Lower Segment := do
  let code ← assignedValue op l.type p value
  return oldValue op [l.load] ++ code ++ ops [l.store]

/-- Assign to a field of the object on the stack. -/
def storeField (owner name : String) (ty : Ty) (op : AssignOp) (p : Position) (value : Typed) :
    Lower Segment := do
  let code ← assignedValue op ty p value
  return oldValue op [.dup, .getField owner name ty] ++ code ++ ops [.putField owner name ty]

/-- Assign to the element at the index of the array, both on the stack. -/
def storeElement (ty : Ty) (op : AssignOp) (p : Position) (value : Typed) : Lower Segment := do
  let element := Element.ofTy ty
  let code ← assignedValue op ty p value
  return oldValue op [.dup2, .arrayLoad element] ++ code ++ ops [.arrayStore element]

/-- Assign to a bare name: a local variable or a property of the receiver. -/
def assignName (env : Env) (name : String) (p : Position) (op : AssignOp) (value : Expr) :
    Lower Segment :=
  match env.local? name with
  | some l => do
    let v ← expr env value
    storeLocal l op p v
  | none => do
    let (owner, ty) ← property env env.className name p
    let v ← expr env value
    let code ← storeField owner name ty op p v
    return .op .loadThis :: code

/-- Assign to what a last step names on the receiver on the stack. `start` is where the whole
target stands. -/
def assignLink (env : Env) (receiver : Receiver) (start : Position) (last : Link)
    (op : AssignOp) (value : Expr) : Lower Segment :=
  match last, receiver with
  | .field p name, .value object =>
    if !object.isArray && object.isReference then do
      let (owner, ty) ← property env object.name name p
      let v ← expr env value
      storeField owner name ty op start v
    else refuse .badTarget p
  | .index p i, .value array =>
    if array.isArray then do
      let indexCode ← index env i
      let v ← expr env value
      let code ← storeElement array.element op p v
      return indexCode ++ code
    else refuse .badTarget p
  | link, _ => refuse .badTarget link.position

/-- Lower an assignment. -/
def assignment (env : Env) (a : Assignment) : Lower Segment :=
  let target := a.target
  match target.links.getLast? with
  | none =>
    match target.head with
    | .name p name => assignName env name p a.op a.value
    | h => refuse .badTarget h.position
  | some last => do
    let start ← head env target.head
    let reached ← links env start target.links.dropLast
    let code ← assignLink env reached.receiver target.position last a.op a.value
    return reached.code ++ code

/-- Lower the declaration of a local variable. -/
def variable_ (env : Env) (v : Variable) : Lower Segment := do
  let l ← require (env.local? v.name) (.undefinedVariable v.name) v.position
  match v.value with
  | some value =>
    let typed ← expr env value
    storeLocal l .plain v.position typed
  | none => return ops [.pushDefault l.type, l.store]

end Javelet.Lowering
