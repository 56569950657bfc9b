import Javelet.Proofs.Scope.Chain
import Mathlib.Order.Monotone.Basic

/-!
# Arenas in other arenas

The scopes of one arena may stand in another one behind scopes that are there already, with the
root in common. Names mean the same then. Opening, filling and attaching scopes in both arenas in
the same way keeps them so, and leaves alone what stands before.
-/
namespace Javelet

/-- The index of a scope behind `first` scopes. The root stays where it is. -/
def Scope.placed (first : ScopeId) : ScopeId → ScopeId
  | 0 => 0
  | id + 1 => first + id

namespace Arena

open Scope (placed)

theorem placed_succ (first : ScopeId) {id : ScopeId} (h : 0 < id) :
    placed first (id + 1) = placed first id + 1 := by
  cases id with
  | zero => cases h
  | succ id => rfl

theorem placed_strictMono {first : ScopeId} (h : 0 < first) : StrictMono (placed first) := by
  refine strictMono_nat_of_lt_succ fun id => ?_
  cases id with
  | zero => exact h
  | succ id => exact Nat.lt_succ_self _

theorem le_placed (first : ScopeId) {id : ScopeId} (h : 0 < id) : first ≤ placed first id := by
  cases id with
  | zero => cases h
  | succ id => exact Nat.le_add_right _ _

variable {first : ScopeId} {nodes : List NodeId} {a a' base : Arena}

/-! ## Scopes -/

/-- The scopes of `a` stand in `a'`, the inner ones from `first` on. -/
structure Placed (first : ScopeId) (a a' : Arena) : Prop where
  first_pos : 0 < first
  size_pos : 0 < a.size
  size : a'.size = placed first a.size
  lookupLocal : ∀ id name, a'.lookupLocal (placed first id) name = a.lookupLocal id name
  parentOf : ∀ id, a'.parentOf (placed first id) = (a.parentOf id).map (placed first)

namespace Placed

/-- A name means the same in both arenas. -/
theorem lookup (h : Placed first a a') (id : ScopeId) (name : String) :
    a'.lookup (placed first id) name = a.lookup id name := by
  induction id using Nat.strongRecOn with
  | ind id ih =>
    cases hlocal : a.lookupLocal id name with
    | some e =>
      rw [lookup_of_lookupLocal hlocal, lookup_of_lookupLocal ((h.lookupLocal id name).trans hlocal)]
    | none =>
      have hlocal' := (h.lookupLocal id name).trans hlocal
      have hmono := placed_strictMono h.first_pos
      by_cases hex : ∃ parent, a.parentOf id = some parent ∧ parent < id
      · obtain ⟨parent, hparent, hlt⟩ := hex
        have hparent' : a'.parentOf (placed first id) = some (placed first parent) := by
          rw [h.parentOf, hparent, Option.map_some]
        rw [lookup_of_parent hlocal hparent hlt, lookup_of_parent hlocal' hparent' (hmono hlt)]
        exact ih parent hlt
      · have hno : ∀ parent, a.parentOf id = some parent → ¬ parent < id :=
          fun parent hparent hlt => hex ⟨parent, hparent, hlt⟩
        rw [lookup_eq_none hlocal hno, lookup_eq_none hlocal']
        intro parent' hparent' hlt'
        rw [h.parentOf, Option.map_eq_some_iff] at hparent'
        obtain ⟨parent, hparent, rfl⟩ := hparent'
        exact hno parent hparent (hmono.lt_iff_lt.1 hlt')

theorem push (h : Placed first a a') (name : String) (kind : Scope.Kind) (parent : ScopeId) :
    Placed first (a.push name kind parent) (a'.push name kind (placed first parent)) := by
  have hmono := placed_strictMono h.first_pos
  refine ⟨h.first_pos, ?_, ?_, ?_, ?_⟩
  · rw [size_push]
    exact Nat.succ_pos _
  · rw [size_push, size_push, h.size, placed_succ first h.size_pos]
  · intro id n
    rw [lookupLocal_push, lookupLocal_push]
    exact h.lookupLocal id n
  · intro id
    rcases Nat.lt_trichotomy id a.size with hlt | rfl | hgt
    · rw [parentOf_push hlt, parentOf_push (h.size ▸ hmono hlt)]
      exact h.parentOf id
    · rw [parentOf_push_size, ← h.size, parentOf_push_size]
      rfl
    · have hgt' : a'.size < placed first id := h.size ▸ hmono hgt
      rw [Arena.parentOf, get?_eq_none (by rw [size_push]; exact hgt'), Arena.parentOf,
        get?_eq_none (by rw [size_push]; exact hgt)]
      rfl

theorem put (h : Placed first a a') (scope : ScopeId) (name : String) (e : Scope.Entry) :
    Placed first (a.put scope name e) (a'.put (placed first scope) name e) := by
  have hmono := placed_strictMono h.first_pos
  refine ⟨h.first_pos, ?_, ?_, ?_, ?_⟩
  · rw [size_put]
    exact h.size_pos
  · rw [size_put, size_put, h.size]
  · intro id n
    by_cases hself : id = scope ∧ n = name
    · obtain ⟨rfl, rfl⟩ := hself
      by_cases hlt : id < a.size
      · rw [lookupLocal_put hlt, lookupLocal_put (h.size ▸ hmono hlt)]
      · -- there is no such scope in either arena
        have hle : a.size ≤ id := Nat.le_of_not_lt hlt
        have hle' : a'.size ≤ placed first id := h.size ▸ hmono.monotone hle
        rw [Arena.lookupLocal, get?_eq_none (by rw [size_put]; exact hle'), Arena.lookupLocal,
          get?_eq_none (by rw [size_put]; exact hle)]
    · have hother : id ≠ scope ∨ n ≠ name := Decidable.not_and_iff_not_or_not.1 hself
      rw [lookupLocal_put_of_ne hother, lookupLocal_put_of_ne (hother.imp_left hmono.injective.ne)]
      exact h.lookupLocal id n
  · intro id
    rw [parentOf_put, parentOf_put]
    exact h.parentOf id

/-- What is recorded of nodes does not matter. -/
theorem record (h : Placed first a a') {b b' : Arena} (hb : b.scopes = a.scopes)
    (hb' : b'.scopes = a'.scopes) : Placed first b b' := by
  obtain ⟨scopes, attached, reserved, locals⟩ := b
  obtain ⟨scopes', attached', reserved', locals'⟩ := b'
  cases hb
  cases hb'
  exact ⟨h.first_pos, h.size_pos, h.size, h.lookupLocal, h.parentOf⟩

end Placed

/-! ## Nodes -/

/-- Of some nodes the same is known in both arenas. Their scopes are inner ones. -/
structure Known (first : ScopeId) (nodes : List NodeId) (a a' : Arena) : Prop where
  scopeOf : ∀ n ∈ nodes, a'.scopeOf n = (a.scopeOf n).map (placed first)
  inner : ∀ n ∈ nodes, ∀ id, a.scopeOf n = some id → 0 < id ∧ id < a.size
  reservedSlot : ∀ n ∈ nodes, a'.reservedSlot n = a.reservedSlot n
  localsOf : ∀ n ∈ nodes, a'.localsOf n = a.localsOf n

namespace Known

theorem push (h : Known first nodes a a') (name : String) (kind : Scope.Kind)
    (parent parent' : ScopeId) :
    Known first nodes (a.push name kind parent) (a'.push name kind parent') := by
  refine ⟨h.scopeOf, ?_, h.reservedSlot, h.localsOf⟩
  intro n hn id hid
  rw [size_push]
  exact (h.inner n hn id hid).imp_right Nat.lt_succ_of_lt

theorem put (h : Known first nodes a a') (scope scope' : ScopeId) (name : String)
    (e : Scope.Entry) : Known first nodes (a.put scope name e) (a'.put scope' name e) := by
  refine ⟨h.scopeOf, ?_, h.reservedSlot, h.localsOf⟩
  rw [size_put]
  exact h.inner

theorem attach (h : Known first nodes a a') (node : NodeId) {id : ScopeId} (hid : 0 < id)
    (hlt : id < a.size) :
    Known first nodes (a.attach node id) (a'.attach node (placed first id)) := by
  refine ⟨?_, ?_, h.reservedSlot, h.localsOf⟩
  · intro n hn
    by_cases hself : n = node
    · rw [hself, scopeOf_attach_self, scopeOf_attach_self]
      rfl
    · rw [scopeOf_attach_of_ne _ hself, scopeOf_attach_of_ne _ hself]
      exact h.scopeOf n hn
  · intro n hn other hother
    by_cases hself : n = node
    · rw [hself, scopeOf_attach_self] at hother
      cases hother
      exact ⟨hid, hlt⟩
    · rw [scopeOf_attach_of_ne _ hself] at hother
      exact h.inner n hn other hother

theorem reserve (h : Known first nodes a a') (node : NodeId) (slot : Nat) :
    Known first nodes (a.reserve node slot) (a'.reserve node slot) := by
  refine ⟨h.scopeOf, h.inner, ?_, h.localsOf⟩
  intro n hn
  by_cases hself : n = node
  · rw [hself, reservedSlot_reserve_self, reservedSlot_reserve_self]
  · rw [(sameAt_reserve hself a slot).reservedSlot, (sameAt_reserve hself a' slot).reservedSlot]
    exact h.reservedSlot n hn

theorem setLocals (h : Known first nodes a a') (node : NodeId) (count : Nat) :
    Known first nodes (a.setLocals node count) (a'.setLocals node count) := by
  refine ⟨h.scopeOf, h.inner, h.reservedSlot, ?_⟩
  intro n hn
  by_cases hself : n = node
  · rw [hself, localsOf_setLocals_self, localsOf_setLocals_self]
  · rw [(sameAt_setLocals hself a count).localsOf, (sameAt_setLocals hself a' count).localsOf]
    exact h.localsOf n hn

end Known

/-! ## What stands before -/

/-- The scopes of `base` are as they were, and only of some nodes more is known. -/
structure Kept (nodes : List NodeId) (base a : Arena) : Prop where
  size : base.size ≤ a.size
  lookupLocal : ∀ id < base.size, ∀ name, a.lookupLocal id name = base.lookupLocal id name
  parentOf : ∀ id < base.size, a.parentOf id = base.parentOf id
  elsewhere : ∀ n, n ∉ nodes → base.SameAt n a

namespace Kept

theorem refl (nodes : List NodeId) (a : Arena) : Kept nodes a a :=
  ⟨Nat.le_refl _, fun _ _ _ => rfl, fun _ _ => rfl, fun n _ => .refl n a⟩

theorem trans {nodes' : List NodeId} (h : Kept nodes base a) (h' : Kept nodes' a a') :
    Kept (nodes ++ nodes') base a' := by
  refine ⟨Nat.le_trans h.size h'.size, ?_, ?_, ?_⟩
  · intro id hid name
    rw [h'.lookupLocal id (Nat.lt_of_lt_of_le hid h.size), h.lookupLocal id hid]
  · intro id hid
    rw [h'.parentOf id (Nat.lt_of_lt_of_le hid h.size), h.parentOf id hid]
  · intro n hn
    rw [List.mem_append, not_or] at hn
    exact (h.elsewhere n hn.1).trans (h'.elsewhere n hn.2)

theorem lookup (h : Kept nodes base a) {id : ScopeId} (hid : id < base.size) (name : String) :
    a.lookup id name = base.lookup id name :=
  lookup_congr h.parentOf (fun id hid => h.lookupLocal id hid name) hid

theorem push (h : Kept nodes base a) (name : String) (kind : Scope.Kind) (parent : ScopeId) :
    Kept nodes base (a.push name kind parent) := by
  refine ⟨?_, ?_, ?_, fun n hn => (h.elsewhere n hn).trans (sameAt_push ..)⟩
  · rw [size_push]
    exact Nat.le_succ_of_le h.size
  · intro id hid n
    rw [lookupLocal_push]
    exact h.lookupLocal id hid n
  · intro id hid
    rw [parentOf_push (Nat.lt_of_lt_of_le hid h.size)]
    exact h.parentOf id hid

theorem put (h : Kept nodes base a) {scope : ScopeId} (hscope : base.size ≤ scope) (name : String)
    (e : Scope.Entry) : Kept nodes base (a.put scope name e) := by
  refine ⟨?_, ?_, ?_, fun n hn => (h.elsewhere n hn).trans ⟨rfl, rfl, rfl⟩⟩
  · rw [size_put]
    exact h.size
  · intro id hid n
    rw [lookupLocal_put_of_ne (.inl (Nat.ne_of_lt (Nat.lt_of_lt_of_le hid hscope)))]
    exact h.lookupLocal id hid n
  · intro id hid
    rw [parentOf_put]
    exact h.parentOf id hid

/-- More may be recorded of the nodes. -/
theorem record (h : Kept nodes base a) {node : NodeId} (hnode : node ∈ nodes)
    (hscopes : a'.scopes = a.scopes) (hother : ∀ n, n ≠ node → a.SameAt n a') :
    Kept nodes base a' := by
  have helsewhere : ∀ n, n ∉ nodes → base.SameAt n a' :=
    fun n hn => (h.elsewhere n hn).trans (hother n fun heq => hn (heq ▸ hnode))
  obtain ⟨scopes, attached, reserved, locals⟩ := a'
  cases hscopes
  exact ⟨h.size, h.lookupLocal, h.parentOf, helsewhere⟩

end Kept

/-! ## Both sides of a walk -/

/-- What one walk has made of an arena stands in what another walk has made of `base`, behind all
that is in `base`. Both walks know the same of the nodes. -/
structure Alongside (nodes : List NodeId) (base a a' : Arena) : Prop where
  placed : Placed base.size a a'
  known : Known base.size nodes a a'
  kept : Kept nodes base a'

namespace Alongside

theorem push (h : Alongside nodes base a a') (name : String) (kind : Scope.Kind)
    (parent : ScopeId) : Alongside nodes base (a.push name kind parent)
      (a'.push name kind (Scope.placed base.size parent)) :=
  ⟨h.placed.push .., h.known.push .., h.kept.push ..⟩

theorem put (h : Alongside nodes base a a') {scope : ScopeId} (hscope : 0 < scope) (name : String)
    (e : Scope.Entry) : Alongside nodes base (a.put scope name e)
      (a'.put (Scope.placed base.size scope) name e) :=
  ⟨h.placed.put .., h.known.put .., h.kept.put (le_placed _ hscope) ..⟩

theorem insertNew (h : Alongside nodes base a a') {scope : ScopeId} (hscope : 0 < scope)
    (name : String) (e : Scope.Entry) : Alongside nodes base (a.insertNew scope name e)
      (a'.insertNew (Scope.placed base.size scope) name e) := by
  unfold Arena.insertNew Arena.insert
  rw [h.placed.lookupLocal]
  cases a.lookupLocal scope name with
  | some existing => exact h
  | none => exact h.put hscope name e

theorem attach (h : Alongside nodes base a a') {node : NodeId} (hnode : node ∈ nodes) {id : ScopeId}
    (hid : 0 < id) (hlt : id < a.size) : Alongside nodes base (a.attach node id)
      (a'.attach node (Scope.placed base.size id)) :=
  ⟨h.placed.record rfl rfl, h.known.attach node hid hlt,
    h.kept.record hnode rfl fun _ hne => sameAt_attach hne ..⟩

theorem reserve (h : Alongside nodes base a a') {node : NodeId} (hnode : node ∈ nodes) (slot : Nat) :
    Alongside nodes base (a.reserve node slot) (a'.reserve node slot) :=
  ⟨h.placed.record rfl rfl, h.known.reserve node slot,
    h.kept.record hnode rfl fun _ hne => sameAt_reserve hne ..⟩

theorem setLocals (h : Alongside nodes base a a') {node : NodeId} (hnode : node ∈ nodes)
    (count : Nat) : Alongside nodes base (a.setLocals node count) (a'.setLocals node count) :=
  ⟨h.placed.record rfl rfl, h.known.setLocals node count,
    h.kept.record hnode rfl fun _ hne => sameAt_setLocals hne ..⟩

end Alongside

end Arena

end Javelet
