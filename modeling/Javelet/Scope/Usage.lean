import Javelet.Scope.Arena
import Javelet.Scope.Fault

/-!
# The use of names in expressions

Only the head of an access chain is looked up here: what its links mean depends on the type
of the head. A name at the head is a local variable, a property of the class or of one of
its superclasses, or the root of the print stream, in this order.
-/
namespace Javelet.Scope

/-- The name at the root of `System.out`. -/
def systemRoot : String := "System"

/-- The place from which names are looked up. -/
structure Context where
  table : Types.Table
  className : String
  /-- Whether there is no receiver. -/
  isStatic : Bool
  scope : ScopeId

namespace Context

/-- A use that needs a receiver is a fault where there is none. -/
def instanceFault (ctx : Context) (use : InstanceUse) : Option Fault :=
  if ctx.isStatic then some (.staticContext use) else none

/-- What is wrong with a bare name at the head of a chain. -/
def nameFault (ctx : Context) (arena : Arena) (name : String) : Option Fault :=
  let outside :=
    if (ctx.table.findProperty ctx.className name).isSome then ctx.instanceFault (.property name)
    else if name = systemRoot then none
    else some (.undefinedVariable name)
  match arena.lookup ctx.scope name with
  | none => outside
  | some entry =>
    if entry.isLocal then none
    else match entry.meaning with
      | .variable _ => ctx.instanceFault (.property name)
      | .type => some (.typeAsValue name)
      | .method _ => outside

/-- What is wrong with the head of a chain. -/
def headFault (ctx : Context) (arena : Arena) : Head → Option Fault
  | .this _ => ctx.instanceFault .this
  | .name _ name => ctx.nameFault arena name
  | .call _ name _ =>
    if (ctx.table.methodsNamed ctx.className name).isEmpty then
      some (.undefinedMethod name ctx.className)
    else ctx.instanceFault (.method name)

/-- What is wrong with the class of a creation. -/
def classFault (ctx : Context) (className : String) : Option Fault :=
  if (ctx.table.find? className).any fun info => info.isClass then none
  else some (.undefinedClass className)

/-- What is wrong with a type as it is written. -/
def typeFault (ctx : Context) (ty : Ty) : Option Fault :=
  match ctx.table.resolve ty with
  | .ok _ => none
  | .error fault => some (.undefinedType fault)

end Context

/-- A cause, if there is one, at a place. -/
def faultAt (fault : Option Fault) (p : Position) : List (Located Fault) :=
  fault.toList.map fun f => ⟨f, p⟩

mutual

/-- The faults of an expression, in reading order. -/
def exprFaults (ctx : Context) (arena : Arena) : Expr → List (Located Fault)
  | .literal _ _ => []
  | .binary _ left right => exprFaults ctx arena left ++ exprFaults ctx arena right
  | .access chain => chainFaults ctx arena chain
  | .newObject p className args =>
    faultAt (ctx.classFault className) p ++ exprsFaults ctx arena args
  | .newArray p element length =>
    faultAt (ctx.typeFault (.plain element)) p ++ exprFaults ctx arena length

def exprsFaults (ctx : Context) (arena : Arena) : List Expr → List (Located Fault)
  | [] => []
  | e :: rest => exprFaults ctx arena e ++ exprsFaults ctx arena rest

/-- The faults of an access chain: those of its head, then those of arguments and
indices. -/
def chainFaults (ctx : Context) (arena : Arena) : Chain → List (Located Fault)
  | .mk head links => headFaults ctx arena head ++ linksFaults ctx arena links

def headFaults (ctx : Context) (arena : Arena) : Head → List (Located Fault)
  | .this p => faultAt (ctx.headFault arena (.this p)) p
  | .name p name => faultAt (ctx.headFault arena (.name p name)) p
  | .call p name args =>
    faultAt (ctx.headFault arena (.call p name args)) p ++ exprsFaults ctx arena args

def linkFaults (ctx : Context) (arena : Arena) : Link → List (Located Fault)
  | .field _ _ => []
  | .call _ _ args => exprsFaults ctx arena args
  | .index _ index => exprFaults ctx arena index

def linksFaults (ctx : Context) (arena : Arena) : List Link → List (Located Fault)
  | [] => []
  | link :: rest => linkFaults ctx arena link ++ linksFaults ctx arena rest

end

/-- The faults of an assignment: its target, then its value. -/
def assignmentFaults (ctx : Context) (arena : Arena) (a : Assignment) : List (Located Fault) :=
  chainFaults ctx arena a.target ++ exprFaults ctx arena a.value

def actionFaults (ctx : Context) (arena : Arena) : Action → List (Located Fault)
  | .assignment a => assignmentFaults ctx arena a
  | .call chain => chainFaults ctx arena chain

def jumpFaults (ctx : Context) (arena : Arena) : Jump → List (Located Fault)
  | .return_ (some value) => exprFaults ctx arena value
  | _ => []

end Javelet.Scope
