import Javelet.Assembly.Listing
import Javelet.Lowering.Fault
import Javelet.Scope.Arena

/-!
# The surroundings of a lowered node

Lowering takes a node to code. It looks names up in the scope that is attached to the node,
jumps to the targets around it, and draws fresh labels from one counter for the whole
program.
-/
namespace Javelet.Lowering

open Assembly

/-- Where `break` and `continue` lead. A switch has no target for `continue`. -/
structure Targets where
  continue_ : Option Label
  break_ : Label
  deriving DecidableEq, Repr

/-- A local variable: its slot and its type. -/
structure Local where
  slot : Nat
  type : Ty
  deriving DecidableEq, Repr

/-- The surroundings of a node. -/
structure Env where
  table : Types.Table
  arena : Arena
  className : String
  scope : ScopeId
  /-- The loops and switches around the node, innermost first. -/
  targets : List Targets

namespace Env

/-- The surroundings inside a node: its scope, if it has one. -/
def enter (env : Env) (node : NodeId) : Env :=
  { env with scope := (env.arena.scopeOf node).getD env.scope }

/-- The surroundings inside a loop or a switch. -/
def inside (env : Env) (targets : Targets) : Env :=
  { env with targets := targets :: env.targets }

def breakTarget? (env : Env) : Option Label := env.targets.head?.map Targets.break_

/-- The target of the innermost loop; switches do not count. -/
def continueTarget? (env : Env) : Option Label := env.targets.findSome? Targets.continue_

/-- The local variable of a name. -/
def local? (env : Env) (name : String) : Option Local := do
  let entry ← env.arena.lookup env.scope name
  return ⟨← entry.slot, ← entry.type?⟩

/-- The type of the receiver. -/
def thisType (env : Env) : Ty := .plain env.className

end Env

namespace Local

def load (l : Local) : Instruction := .load (.ofTy l.type) l.slot

def store (l : Local) : Instruction := .store (.ofTy l.type) l.slot

end Local

/-- Lowering draws labels from a counter and stops at the first fault. -/
abbrev Lower (α : Type) := StateT Label (Except (Located Fault)) α

/-- The first of several fresh labels with consecutive numbers. -/
def freshLabels (count : Nat) : Lower Label := do
  let first ← get
  set (first + count)
  return first

/-- A fresh label. -/
def freshLabel : Lower Label := freshLabels 1

/-- Stop with a fault. -/
def refuse {α : Type} (fault : Fault) (p : Position) : Lower α := throw ⟨fault, p⟩

/-- The value of an option, or a fault. -/
def require {α : Type} (x : Option α) (fault : Fault) (p : Position) : Lower α :=
  match x with
  | some a => pure a
  | none => refuse fault p

/-- A segment of instructions alone. -/
def ops (instructions : List Instruction) : Segment := instructions.map .op

end Javelet.Lowering
