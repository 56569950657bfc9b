import Javelet.Proofs.Syntax.Names
import Javelet.Scope.Resolve

/-!
# How the arena grows

The walk over a program only adds to the arena: scopes are opened behind those that are there, and
names are declared where they are free. What is declared while a method is walked is held in slots
that were free before.
-/
namespace Javelet

namespace Arena

variable {a a' : Arena} {id : ScopeId} {name : String}

/-- The scope around a scope. -/
def parentOf (a : Arena) (id : ScopeId) : Option ScopeId := (a.get? id).bind Scope.parent

theorem get?_push {n : String} {kind : Scope.Kind} {parent : ScopeId} (h : id < a.size) :
    (a.push n kind parent).get? id = a.get? id := by
  simp only [get?, push]
  rw [Array.getElem?_push_lt h, Array.getElem?_eq_getElem h]

theorem get?_push_size (a : Arena) (n : String) (kind : Scope.Kind) (parent : ScopeId) :
    (a.push n kind parent).get? a.size =
      some ⟨n, a.level parent + 1, kind, some parent, .empty⟩ := by
  simp [get?, push, size]

theorem get?_eq_none (h : a.size ≤ id) : a.get? id = none := by
  simpa [get?, size] using h

/-- A scope is opened without entries. -/
@[simp] theorem lookupLocal_push (a : Arena) (n : String) (kind : Scope.Kind) (parent id : ScopeId)
    (name : String) : (a.push n kind parent).lookupLocal id name = a.lookupLocal id name := by
  rcases Nat.lt_trichotomy id a.size with h | rfl | h
  · rw [lookupLocal, get?_push h, lookupLocal]
  · rw [lookupLocal, get?_push_size, lookupLocal, get?_eq_none (Nat.le_refl _)]
    rfl
  · rw [lookupLocal, get?_eq_none (by rw [size_push]; exact h), lookupLocal,
      get?_eq_none (Nat.le_of_lt h)]

theorem parentOf_push {n : String} {kind : Scope.Kind} {parent : ScopeId} (h : id < a.size) :
    (a.push n kind parent).parentOf id = a.parentOf id := by
  rw [parentOf, get?_push h, parentOf]

theorem parentOf_push_size (a : Arena) (n : String) (kind : Scope.Kind) (parent : ScopeId) :
    (a.push n kind parent).parentOf a.size = some parent := by
  rw [parentOf, get?_push_size]
  rfl

theorem get?_put (a : Arena) (scope id : ScopeId) (n : String) (e : Scope.Entry) :
    (a.put scope n e).get? id = (a.get? id).map fun s =>
      if scope = id then { s with entries := s.entries.insert n e } else s := by
  simp only [get?, put, Array.getElem?_modify]
  split
  · rfl
  · simp

@[simp] theorem parentOf_put (a : Arena) (scope id : ScopeId) (n : String) (e : Scope.Entry) :
    (a.put scope n e).parentOf id = a.parentOf id := by
  rw [parentOf, get?_put, parentOf]
  cases a.get? id with
  | none => rfl
  | some s =>
    simp only [Option.map_some, Option.bind_some]
    split <;> rfl

/-- A name that is put somewhere is found there and nowhere else. -/
theorem lookupLocal_put_of_ne {scope : ScopeId} {n : String} {e : Scope.Entry}
    (h : id ≠ scope ∨ name ≠ n) :
    (a.put scope n e).lookupLocal id name = a.lookupLocal id name := by
  rw [lookupLocal, get?_put, lookupLocal]
  cases a.get? id with
  | none => rfl
  | some s =>
    simp only [Option.map_some, Option.bind_some]
    split
    · rename_i heq
      have hn : name ≠ n := h.resolve_left fun hne => hne heq.symm
      exact Dictionary.find?_insert_of_ne _ hn _
    · rfl

theorem lookupLocal_put_self {scope : ScopeId} {n : String} {e e' : Scope.Entry}
    (h : (a.put scope n e).lookupLocal scope n = some e') : e' = e := by
  rw [lookupLocal, get?_put] at h
  cases hs : a.get? scope with
  | none =>
    rw [hs] at h
    cases h
  | some s =>
    rw [hs] at h
    simp only [Option.map_some, Option.bind_some, if_true, Dictionary.find?_insert_self] at h
    exact (Option.some.inj h).symm

theorem lookupLocal_put {scope : ScopeId} (h : scope < a.size) (n : String) (e : Scope.Entry) :
    (a.put scope n e).lookupLocal scope n = some e := by
  have hget : a.get? scope = some a.scopes[scope] := Array.getElem?_eq_getElem h
  rw [lookupLocal, get?_put, hget]
  simp only [Option.map_some, Option.bind_some, if_true, Dictionary.find?_insert_self]

theorem lookupLocal_insertNew {scope : ScopeId} (h : scope < a.size) (key name : String) (e : Scope.Entry) :
    (a.insertNew scope key e).lookupLocal scope name =
      (a.lookupLocal scope name).or (if key = name then some e else none) := by
  unfold insertNew insert
  cases hkey : a.lookupLocal scope key with
  | some existing =>
    by_cases hname : key = name
    · subst hname
      simp [hkey]
    · simp [hname]
  | none =>
    by_cases hname : key = name
    · subst hname
      simp [hkey, lookupLocal_put h]
    · simp [lookupLocal_put_of_ne (.inr (Ne.symm hname)), hname]

@[simp] theorem size_insertNew (a : Arena) (scope : ScopeId) (key : String) (e : Scope.Entry) :
    (a.insertNew scope key e).size = a.size := by
  unfold insertNew insert
  cases a.lookupLocal scope key with
  | some existing => rfl
  | none => exact size_put ..

theorem size_foldl_insertNew {α : Type} {scope : ScopeId} (key : α → String) (entry : α → Scope.Entry) (xs : List α)
    (a : Arena) :
    (xs.foldl (fun a x => a.insertNew scope (key x) (entry x)) a).size = a.size := by
  induction xs generalizing a with
  | nil => rfl
  | cons x xs ih => rw [List.foldl_cons, ih, size_insertNew]

/-- Among entries that are put under one name, the first one stays. -/
theorem lookupLocal_foldl_insertNew {α : Type} {scope : ScopeId} (key : α → String) (entry : α → Scope.Entry)
    (h : scope < a.size) (xs : List α) (name : String) :
    (xs.foldl (fun a x => a.insertNew scope (key x) (entry x)) a).lookupLocal scope name =
      (a.lookupLocal scope name).or ((xs.find? fun x => key x = name).map entry) := by
  induction xs generalizing a with
  | nil => simp
  | cons x xs ih =>
    rw [List.foldl_cons, ih (by rwa [size_insertNew]), lookupLocal_insertNew h, Option.or_assoc]
    by_cases hname : key x = name
    · simp [hname]
    · simp [hname]

@[simp] theorem size_attach (a : Arena) (node : NodeId) (id : ScopeId) :
    (a.attach node id).size = a.size := rfl

@[simp] theorem lookupLocal_attach (a : Arena) (node : NodeId) (scope id : ScopeId)
    (name : String) : (a.attach node scope).lookupLocal id name = a.lookupLocal id name := rfl

@[simp] theorem parentOf_attach (a : Arena) (node : NodeId) (scope id : ScopeId) :
    (a.attach node scope).parentOf id = a.parentOf id := rfl

/-- Two arenas know the same of a node. -/
structure SameAt (node : NodeId) (a a' : Arena) : Prop where
  scopeOf : a'.scopeOf node = a.scopeOf node
  reservedSlot : a'.reservedSlot node = a.reservedSlot node
  localsOf : a'.localsOf node = a.localsOf node

theorem SameAt.refl (node : NodeId) (a : Arena) : a.SameAt node a := ⟨rfl, rfl, rfl⟩

theorem SameAt.trans {node : NodeId} {a'' : Arena} (h : SameAt node a a')
    (h' : SameAt node a' a'') : SameAt node a a'' :=
  ⟨h'.scopeOf.trans h.scopeOf, h'.reservedSlot.trans h.reservedSlot, h'.localsOf.trans h.localsOf⟩

theorem sameAt_push (node : NodeId) (a : Arena) (n : String) (kind : Scope.Kind)
    (parent : ScopeId) : SameAt node a (a.push n kind parent) :=
  ⟨rfl, rfl, rfl⟩

theorem sameAt_attach {node other : NodeId} (h : other ≠ node) (a : Arena) (id : ScopeId) :
    SameAt other a (a.attach node id) :=
  ⟨scopeOf_attach_of_ne a h id, rfl, rfl⟩

theorem sameAt_reserve {node other : NodeId} (h : other ≠ node) (a : Arena) (slot : Nat) :
    SameAt other a (a.reserve node slot) := by
  refine ⟨rfl, ?_, rfl⟩
  simp [reserve, Arena.reservedSlot, Std.TreeMap.getElem?_insert, Ne.symm h]

theorem reservedSlot_reserve_self (a : Arena) (node : NodeId) (slot : Nat) :
    (a.reserve node slot).reservedSlot node = some slot := by
  simp [reserve, reservedSlot]

theorem localsOf_setLocals_self (a : Arena) (node : NodeId) (count : Nat) :
    (a.setLocals node count).localsOf node = some count := by
  simp [setLocals, localsOf]

theorem sameAt_setLocals {node other : NodeId} (h : other ≠ node) (a : Arena) (count : Nat) :
    SameAt other a (a.setLocals node count) := by
  refine ⟨rfl, rfl, ?_⟩
  simp [setLocals, Arena.localsOf, Std.TreeMap.getElem?_insert, Ne.symm h]

@[simp] theorem scopeOf_push (a : Arena) (n : String) (kind : Scope.Kind) (parent : ScopeId)
    (node : NodeId) : (a.push n kind parent).scopeOf node = a.scopeOf node := rfl

@[simp] theorem scopeOf_put (a : Arena) (scope : ScopeId) (n : String) (e : Scope.Entry)
    (node : NodeId) : (a.put scope n e).scopeOf node = a.scopeOf node := rfl

/-- What is added to an arena, in the scopes that it has, are variables in slots from `slot` on. -/
structure Extends (slot : Nat) (a a' : Arena) : Prop where
  size : a.size ≤ a'.size
  parent : ∀ id < a.size, a'.parentOf id = a.parentOf id
  kept : ∀ id name e, a.lookupLocal id name = some e → a'.lookupLocal id name = some e
  added : ∀ id < a.size, ∀ name e, a'.lookupLocal id name = some e →
    a.lookupLocal id name = some e ∨ ∃ ty s, e = ⟨.variable ty, some s⟩ ∧ slot ≤ s

/-- Variables in slots have types of values. -/
def HoldsValues (a : Arena) : Prop :=
  ∀ id name ty s, a.lookupLocal id name = some ⟨.variable ty, some s⟩ → ty.IsValue

theorem Extends.refl (slot : Nat) (a : Arena) : a.Extends slot a :=
  ⟨Nat.le_refl _, fun _ _ => rfl, fun _ _ _ h => h, fun _ _ _ _ h => .inl h⟩

theorem Extends.trans {slot slot' : Nat} {a'' : Arena} (h : a.Extends slot a')
    (h' : a'.Extends slot' a'') (hs : slot ≤ slot') : a.Extends slot a'' := by
  refine ⟨Nat.le_trans h.size h'.size, ?_, ?_, ?_⟩
  · intro id hid
    rw [h'.parent id (Nat.lt_of_lt_of_le hid h.size), h.parent id hid]
  · intro id name e he
    exact h'.kept id name e (h.kept id name e he)
  · intro id hid name e he
    rcases h'.added id (Nat.lt_of_lt_of_le hid h.size) name e he with he | ⟨ty, s, rfl, hle⟩
    · exact h.added id hid name e he
    · exact .inr ⟨ty, s, rfl, Nat.le_trans hs hle⟩

end Arena

namespace Scope

/-- What the walk over a part of a method does: it only adds, and what it declares is held in the
slots that it hands out. -/
structure Filled (r r' : Resolved) : Prop extends
    Arena.Extends r.nextSlot r.arena r'.arena where
  nextSlot : r.nextSlot ≤ r'.nextSlot
  slots : ∀ id name e s, r'.arena.lookupLocal id name = some e → e.slot = some s →
    r.arena.lookupLocal id name = some e ∨ s < r'.nextSlot
  values : r.arena.HoldsValues → r'.arena.HoldsValues
  faults : r'.faults = #[] → r.faults = #[]

/-- What the walk over a node does that is declared in `scope`: no other scope gets an entry, and
something is recorded of the nodes `nodes` only. -/
structure Walked (scope : ScopeId) (nodes : List NodeId) (r r' : Resolved) : Prop extends
    Filled r r' where
  outside : ∀ id < r.arena.size, id ≠ scope → ∀ name,
    r'.arena.lookupLocal id name = r.arena.lookupLocal id name
  attached : ∀ node, node ∉ nodes → r.arena.SameAt node r'.arena

namespace Filled

variable {r r' r'' : Resolved}

theorem refl (r : Resolved) : Filled r r :=
  ⟨.refl _ _, Nat.le_refl _, fun _ _ _ _ h _ => .inl h, id, id⟩

theorem trans (h : Filled r r') (h' : Filled r' r'') : Filled r r'' := by
  refine ⟨h.toExtends.trans h'.toExtends h.nextSlot, Nat.le_trans h.nextSlot h'.nextSlot, ?_,
    fun hv => h'.values (h.values hv), fun hf => h.faults (h'.faults hf)⟩
  intro id name e s he hs
  rcases h'.slots id name e s he hs with he | hlt
  · rcases h.slots id name e s he hs with he | hlt
    · exact .inl he
    · exact .inr (Nat.lt_of_lt_of_le hlt h'.nextSlot)
  · exact .inr hlt

end Filled

namespace Walked

variable {r r' r'' : Resolved} {scope : ScopeId} {nodes nodes' : List NodeId}

theorem refl (r : Resolved) : Walked scope nodes r r :=
  ⟨.refl r, fun _ _ _ _ => rfl, fun node _ => .refl node _⟩

theorem trans (h : Walked scope nodes r r') (h' : Walked scope nodes' r' r'') :
    Walked scope (nodes ++ nodes') r r'' := by
  refine ⟨h.toFilled.trans h'.toFilled, ?_, ?_⟩
  · intro id hid hne name
    rw [h'.outside id (Nat.lt_of_lt_of_le hid h.size) hne, h.outside id hid hne]
  · intro node hnode
    rw [List.mem_append, not_or] at hnode
    exact (h.attached node hnode.1).trans (h'.attached node hnode.2)

theorem mono (h : Walked scope nodes r r') (hsub : ∀ n ∈ nodes, n ∈ nodes') :
    Walked scope nodes' r r' :=
  ⟨h.toFilled, h.outside, fun node hnode => h.attached node fun hm => hnode (hsub node hm)⟩

/-- A step that attaches nothing, behind a walk. -/
theorem followedBy (h : Walked scope nodes r r') (h' : Walked scope [] r' r'') :
    Walked scope nodes r r'' := by
  simpa using h.trans h'

end Walked

namespace Resolved

variable {r : Resolved} {scope : ScopeId}

/-- Only the faults and the number of slots in use may differ. -/
theorem walked_of_arena_eq {r' : Resolved} (ha : r'.arena = r.arena)
    (hn : r.nextSlot ≤ r'.nextSlot) (hf : r'.faults = #[] → r.faults = #[]) :
    Walked scope [] r r' := by
  refine ⟨⟨?_, hn, ?_, ?_, hf⟩, ?_, ?_⟩
  · rw [ha]
    exact .refl _ _
  · intro id name e s he _
    exact .inl (ha ▸ he)
  · rw [ha]
    exact id
  · intro id _ _ name
    rw [ha]
  · intro node _
    rw [ha]
    exact .refl node _

theorem walked_report (r : Resolved) (faults : List (Located Fault)) :
    Walked scope [] r (r.report faults) := by
  refine walked_of_arena_eq rfl (Nat.le_refl _) ?_
  intro h
  have hlist : (r.faults ++ faults).toList = [] := congrArg Array.toList h
  rw [Array.toList_appendList, List.append_eq_nil_iff] at hlist
  exact Array.toList_eq_nil_iff.1 hlist.1

theorem walked_expr (ctx : Context) (r : Resolved) (e : Expr) : Walked scope [] r (r.expr ctx e) :=
  walked_report r _

/-- The declaration of a variable whose name is free. -/
theorem walked_put {name : String} {ty : Ty} (ht : ty.IsValue)
    (hfree : r.arena.lookupLocal scope name = none) :
    Walked scope [] r { r with
      arena := r.arena.put scope name ⟨.variable ty, some r.nextSlot⟩
      nextSlot := r.nextSlot + 1 } := by
  -- an entry is either the one that is declared or was there before
  have hcase : ∀ id n e, (r.arena.put scope name ⟨.variable ty, some r.nextSlot⟩).lookupLocal id n =
      some e → e = ⟨.variable ty, some r.nextSlot⟩ ∨ r.arena.lookupLocal id n = some e := by
    intro id n e he
    by_cases hself : id = scope ∧ n = name
    · obtain ⟨rfl, rfl⟩ := hself
      exact .inl (Arena.lookupLocal_put_self he)
    · rw [Arena.lookupLocal_put_of_ne (Decidable.not_and_iff_not_or_not.1 hself)] at he
      exact .inr he
  refine ⟨⟨⟨?_, ?_, ?_, ?_⟩, Nat.le_succ _, ?_, ?_, id⟩, ?_, fun _ _ => ⟨rfl, rfl, rfl⟩⟩
  · exact Nat.le_of_eq (Arena.size_put ..).symm
  · intro id _
    exact Arena.parentOf_put ..
  · intro id n e he
    rw [Arena.lookupLocal_put_of_ne]
    · exact he
    · apply Decidable.not_and_iff_not_or_not.1
      rintro ⟨rfl, rfl⟩
      cases hfree.symm.trans he
  · intro id _ n e he
    rcases hcase id n e he with rfl | he
    · exact .inr ⟨ty, _, rfl, Nat.le_refl _⟩
    · exact .inl he
  · intro id n e s he hs
    rcases hcase id n e he with rfl | he
    · cases hs
      exact .inr (Nat.lt_succ_self _)
    · exact .inl he
  · intro hv id n t s he
    rcases hcase id n _ he with heq | he
    · cases heq
      exact ht
    · exact hv id n t s he
  · intro id _ hne n
    rw [Arena.lookupLocal_put_of_ne (.inl hne)]

theorem walked_declare {name : String} {ty : Ty} (ht : ty.IsValue) (kind : LocalKind)
    (p : Position) : Walked scope [] r (r.declare scope kind name ty p) := by
  unfold declare
  split
  · exact walked_report r _
  · rename_i hfree
    unfold allocate
    split
    · rename_i heq
      split at heq
      · cases heq
      · cases heq
        exact walked_report r _
    · rename_i heq
      split at heq
      · cases heq
        exact walked_put ht (by simpa using hfree)
      · cases heq

/-- The selector of a switch takes a slot without a name. -/
theorem walked_selector (ctx : Context) (r : Resolved) (node : NodeId) (e : Expr) :
    Walked scope [node] r (r.selector ctx node e) := by
  refine Walked.trans (walked_expr ctx r e) ?_
  unfold selector allocate
  split
  · rename_i heq
    split at heq
    · cases heq
    · cases heq
      exact (walked_report _ _).mono nofun
  · rename_i heq
    split at heq
    · cases heq
      refine ⟨⟨⟨Nat.le_refl _, fun _ _ => rfl, fun _ _ _ h => h, fun _ _ _ _ h => .inl h⟩,
        Nat.le_succ _, fun _ _ _ _ h _ => .inl h, id, id⟩, fun _ _ _ _ => rfl, ?_⟩
      intro other hother
      exact Arena.sameAt_reserve (fun he => hother (List.mem_singleton.2 he)) _ _
    · cases heq

/-- A scope that is opened, and what is walked inside of it. -/
theorem walked_enter {r' : Resolved} {parent : ScopeId} {name : String} {kind : Kind}
    {node : NodeId} {nodes : List NodeId}
    (h : Walked r.arena.size nodes (r.enter parent name kind node).1 r') :
    Walked scope (node :: nodes) r r' := by
  have hsize : r.arena.size ≤ r'.arena.size :=
    Nat.le_trans (Nat.le_trans (Nat.le_succ _) (Nat.le_of_eq (Arena.size_push ..).symm)) h.size
  have hlt : ∀ id < r.arena.size, id < (r.enter parent name kind node).1.arena.size := by
    intro id hid
    exact Nat.lt_of_lt_of_le hid
      (Nat.le_trans (Nat.le_succ _) (Nat.le_of_eq (Arena.size_push ..).symm))
  have hlocal : ∀ id n, (r.enter parent name kind node).1.arena.lookupLocal id n =
      r.arena.lookupLocal id n :=
    fun id n => Arena.lookupLocal_push _ _ _ _ id n
  refine ⟨⟨⟨hsize, ?_, ?_, ?_⟩, h.nextSlot, ?_, ?_, h.faults⟩, ?_, ?_⟩
  · intro id hid
    rw [h.parent id (hlt id hid)]
    exact Arena.parentOf_push hid
  · intro id n e he
    exact h.kept id n e (hlocal id n ▸ he)
  · intro id hid n e he
    rw [← hlocal]
    exact h.added id (hlt id hid) n e he
  · intro id n e s he hs
    rw [← hlocal]
    exact h.slots id n e s he hs
  · intro hv
    apply h.values
    intro id n ty s he
    exact hv id n ty s (hlocal id n ▸ he)
  · intro id hid hne n
    rw [h.outside id (hlt id hid) (Nat.ne_of_lt hid), hlocal]
  · intro other hother
    rw [List.mem_cons, not_or] at hother
    have hopen := (Arena.sameAt_push other r.arena name kind parent).trans
      (Arena.sameAt_attach hother.1 _ r.arena.size)
    exact hopen.trans (h.attached other hother.2)

end Resolved

end Scope

end Javelet
