import Javelet.Dictionary
import Javelet.Syntax.Statement
import Std.Data.TreeMap

/-!
# Scopes

Scopes are kept in an arena and refer to the scope around them by its index, which is
smaller than their own. A scope is attached to the node that opened it, so that a later
stage finds it again without repeating the walk that opened it. An entry is never replaced.
-/
namespace Javelet

/-- The index of a scope in its arena. -/
abbrev ScopeId := Nat

namespace Scope

/-- What opened a scope. -/
inductive Kind where
  | program | class_ | interface | method | block | loop | case
  deriving DecidableEq, Repr

/-- What a name stands for. -/
inductive Meaning where
  | variable (type : Ty)
  | method (returns : Ty)
  | type
  deriving DecidableEq, Repr

/-- What a name stands for, and where it is held if it is a local variable. -/
structure Entry where
  meaning : Meaning
  slot : Option Nat
  deriving DecidableEq, Repr

/-- Parameters and local variables are held in slots; properties, methods and types are
not. -/
def Entry.isLocal (e : Entry) : Bool := e.slot.isSome

/-- The type of a variable or a property. -/
def Entry.type? (e : Entry) : Option Ty :=
  match e.meaning with
  | .variable ty => some ty
  | _ => none

end Scope

/-- A scope: what opened it, how deep it lies and what is declared in it. -/
structure Scope where
  name : String
  level : Nat
  kind : Scope.Kind
  parent : Option ScopeId
  entries : Dictionary Scope.Entry

/-- All scopes of a program, and what is known of the nodes that opened them. -/
structure Arena where
  scopes : Array Scope
  /-- The scopes that nodes opened. -/
  attached : Std.TreeMap NodeId ScopeId
  /-- The hidden slots in which switches keep their selectors. -/
  reserved : Std.TreeMap NodeId Nat
  /-- The number of slots that methods need. -/
  locals : Std.TreeMap NodeId Nat

namespace Arena

/-- The index of the scope of the whole program. -/
def root : ScopeId := 0

/-- The arena with the scope of the program alone. -/
def initial : Arena :=
  ⟨#[⟨"<program>", 0, .program, none, .empty⟩], ∅, ∅, ∅⟩

def size (a : Arena) : Nat := a.scopes.size

def get? (a : Arena) (id : ScopeId) : Option Scope := a.scopes[id]?

/-- The level of a scope. -/
def level (a : Arena) (id : ScopeId) : Nat := (a.get? id).elim 0 Scope.level

/-- Open a scope inside another one. It gets the index `a.size`. -/
def push (a : Arena) (name : String) (kind : Scope.Kind) (parent : ScopeId) : Arena :=
  { a with scopes := a.scopes.push ⟨name, a.level parent + 1, kind, some parent, .empty⟩ }

/-- What a name stands for in one scope. -/
def lookupLocal (a : Arena) (id : ScopeId) (name : String) : Option Scope.Entry :=
  (a.get? id).bind fun scope => scope.entries.find? name

/-- What a name stands for, seen from a scope: the entry of the nearest scope around it that
has one. -/
def lookup (a : Arena) (id : ScopeId) (name : String) : Option Scope.Entry :=
  match a.get? id with
  | none => none
  | some scope =>
    match scope.entries.find? name with
    | some entry => some entry
    | none =>
      match scope.parent with
      | none => none
      | some parent => if _ : parent < id then a.lookup parent name else none
termination_by id

/-- Put an entry under a name that is free in the scope. -/
def put (a : Arena) (id : ScopeId) (name : String) (entry : Scope.Entry) : Arena :=
  { a with scopes := a.scopes.modify id fun scope =>
      { scope with entries := scope.entries.insert name entry } }

/-- Declare a name in a scope, or give the entry that holds the name already. -/
def insert (a : Arena) (id : ScopeId) (name : String) (entry : Scope.Entry) :
    Except Scope.Entry Arena :=
  match a.lookupLocal id name with
  | some existing => .error existing
  | none => .ok (a.put id name entry)

/-- Declare a name in a scope where it is free; where it is not, the first entry stays. -/
def insertNew (a : Arena) (id : ScopeId) (name : String) (entry : Scope.Entry) : Arena :=
  match a.insert id name entry with
  | .ok a => a
  | .error _ => a

/-- Record the scope that a node opened. -/
def attach (a : Arena) (node : NodeId) (id : ScopeId) : Arena :=
  { a with attached := a.attached.insert node id }

/-- The scope that a node opened. -/
def scopeOf (a : Arena) (node : NodeId) : Option ScopeId := a.attached[node]?

/-- Record the hidden slot of a switch. -/
def reserve (a : Arena) (node : NodeId) (slot : Nat) : Arena :=
  { a with reserved := a.reserved.insert node slot }

/-- The hidden slot of a switch. -/
def reservedSlot (a : Arena) (node : NodeId) : Option Nat := a.reserved[node]?

/-- Record how many slots a method needs. -/
def setLocals (a : Arena) (node : NodeId) (count : Nat) : Arena :=
  { a with locals := a.locals.insert node count }

/-- How many slots a method needs. -/
def localsOf (a : Arena) (node : NodeId) : Option Nat := a.locals[node]?

@[simp] theorem size_push (a : Arena) (name : String) (kind : Scope.Kind) (parent : ScopeId) :
    (a.push name kind parent).size = a.size + 1 := by
  simp [push, size]

@[simp] theorem size_put (a : Arena) (id : ScopeId) (name : String) (entry : Scope.Entry) :
    (a.put id name entry).size = a.size := by
  simp [put, size]

/-- A clash leaves the arena as it is and shows the entry that is there. -/
theorem insert_eq_error_iff {a : Arena} {id : ScopeId} {name : String}
    {entry existing : Scope.Entry} :
    a.insert id name entry = .error existing ↔ a.lookupLocal id name = some existing := by
  unfold insert
  split <;> simp_all

@[simp] theorem scopeOf_attach_self (a : Arena) (node : NodeId) (id : ScopeId) :
    (a.attach node id).scopeOf node = some id := by
  simp [attach, scopeOf]

theorem scopeOf_attach_of_ne (a : Arena) {node other : NodeId} (h : other ≠ node)
    (id : ScopeId) : (a.attach node id).scopeOf other = a.scopeOf other := by
  simp [attach, scopeOf, Std.TreeMap.getElem?_insert, Ne.symm h]

/-- Every node of which something is known, in ascending order. -/
def nodes (a : Arena) : List NodeId :=
  let all := a.reserved.keys.foldl (fun m n => m.insert n 0) a.attached
  (a.locals.keys.foldl (fun m n => m.insert n 0) all).keys

end Arena

end Javelet
