import Javelet.Proofs.Scope.Growth

/-!
# The scopes around a scope

A name is looked up in a scope and in the scopes around it, nearest first. While a method is
walked, the variables that can be seen are held in slots that have been handed out. When more is
declared later, a name means what it meant before, or a variable in a later slot.
-/
namespace Javelet

namespace Arena

variable {a a' : Arena} {id outer : ScopeId} {name : String}

/-- A scope that is around another one, or the same one. -/
inductive Around (a : Arena) : ScopeId → ScopeId → Prop
  | self (id : ScopeId) : Around a id id
  | step {id parent outer : ScopeId} : a.parentOf id = some parent → parent < id →
      Around a parent outer → Around a id outer

theorem lookup_of_lookupLocal {e : Scope.Entry} (h : a.lookupLocal id name = some e) :
    a.lookup id name = some e := by
  obtain ⟨scope, hscope, hfind⟩ := Option.bind_eq_some_iff.1 h
  rw [lookup, hscope]
  simp only [hfind]

/-- A name that is not declared in a scope is looked up in the scope around it. -/
theorem lookup_of_parent {parent : ScopeId} (h : a.lookupLocal id name = none)
    (hp : a.parentOf id = some parent) (hlt : parent < id) :
    a.lookup id name = a.lookup parent name := by
  obtain ⟨scope, hscope, hparent⟩ := Option.bind_eq_some_iff.1 hp
  rw [lookupLocal, hscope, Option.bind_some] at h
  rw [lookup, hscope]
  simp only [h, hparent, hlt, dite_true]

theorem lookup_eq_none (h : a.lookupLocal id name = none)
    (hp : ∀ parent, a.parentOf id = some parent → ¬ parent < id) : a.lookup id name = none := by
  rw [lookup]
  split
  · rfl
  · rename_i scope hscope
    rw [lookupLocal, hscope, Option.bind_some] at h
    rw [h]
    simp only
    split
    · rfl
    · rename_i parent hparent
      rw [dif_neg (hp parent (by rw [parentOf, hscope]; exact hparent))]

/-- What is found from a scope is an entry of a scope around it. -/
theorem exists_around {e : Scope.Entry} (h : a.lookup id name = some e) :
    ∃ outer, a.Around id outer ∧ a.lookupLocal outer name = some e := by
  induction id using Nat.strongRecOn with
  | ind id ih =>
    cases hlocal : a.lookupLocal id name with
    | some found =>
      rw [lookup_of_lookupLocal hlocal] at h
      exact ⟨id, .self id, h ▸ hlocal⟩
    | none =>
      by_cases hp : ∃ parent, a.parentOf id = some parent ∧ parent < id
      · obtain ⟨parent, hparent, hlt⟩ := hp
        rw [lookup_of_parent hlocal hparent hlt] at h
        obtain ⟨outer, haround, hfound⟩ := ih parent hlt h
        exact ⟨outer, .step hparent hlt haround, hfound⟩
      · rw [lookup_eq_none hlocal fun parent hparent hlt => hp ⟨parent, hparent, hlt⟩] at h
        cases h

/-- The scopes around a scope stay the same when scopes are added. -/
theorem Around.congr {n : Nat} (hp : ∀ id < n, a'.parentOf id = a.parentOf id) (hid : id < n)
    (h : a'.Around id outer) : a.Around id outer := by
  induction h with
  | self id => exact .self id
  | step hparent hlt _ ih =>
    refine .step ?_ hlt (ih (Nat.lt_trans hlt hid))
    rw [← hp _ hid]
    exact hparent

theorem Around.le (h : a.Around id outer) : outer ≤ id := by
  induction h with
  | self id => exact Nat.le_refl id
  | step _ hlt _ ih => exact Nat.le_trans ih (Nat.le_of_lt hlt)

/-- A name means the same in arenas with the same entries and parents. -/
theorem lookup_congr {n : Nat} (hp : ∀ id < n, a'.parentOf id = a.parentOf id)
    (hl : ∀ id < n, a'.lookupLocal id name = a.lookupLocal id name) (hid : id < n) :
    a'.lookup id name = a.lookup id name := by
  induction id using Nat.strongRecOn with
  | ind id ih =>
    cases hlocal : a.lookupLocal id name with
    | some e =>
      rw [lookup_of_lookupLocal hlocal, lookup_of_lookupLocal ((hl id hid).trans hlocal)]
    | none =>
      have hlocal' := (hl id hid).trans hlocal
      by_cases hex : ∃ parent, a.parentOf id = some parent ∧ parent < id
      · obtain ⟨parent, hparent, hlt⟩ := hex
        rw [lookup_of_parent hlocal hparent hlt,
          lookup_of_parent hlocal' ((hp id hid).trans hparent) hlt]
        exact ih parent hlt (Nat.lt_trans hlt hid)
      · have hno : ∀ parent, a.parentOf id = some parent → ¬ parent < id :=
          fun parent hparent hlt => hex ⟨parent, hparent, hlt⟩
        rw [lookup_eq_none hlocal hno, lookup_eq_none hlocal' (hp id hid ▸ hno)]

/-- When declarations are added, a name means what it meant before, or one of them. -/
theorem Extends.lookup {slot : Nat} (h : a.Extends slot a') (hid : id < a.size) (name : String) :
    a'.lookup id name = a.lookup id name ∨
      ∃ ty s, a'.lookup id name = some ⟨.variable ty, some s⟩ ∧ slot ≤ s := by
  induction id using Nat.strongRecOn with
  | ind id ih =>
    cases hlocal : a.lookupLocal id name with
    | some e =>
      left
      rw [lookup_of_lookupLocal hlocal, lookup_of_lookupLocal (h.kept id name e hlocal)]
    | none =>
      cases hlocal' : a'.lookupLocal id name with
      | some e =>
        right
        rcases h.added id hid name e hlocal' with hold | ⟨ty, s, rfl, hle⟩
        · cases hlocal.symm.trans hold
        · exact ⟨ty, s, lookup_of_lookupLocal hlocal', hle⟩
      | none =>
        by_cases hex : ∃ parent, a.parentOf id = some parent ∧ parent < id
        · obtain ⟨parent, hparent, hlt⟩ := hex
          rw [lookup_of_parent hlocal hparent hlt,
            lookup_of_parent hlocal' ((h.parent id hid).trans hparent) hlt]
          exact ih parent hlt (Nat.lt_trans hlt hid)
        · left
          have hno : ∀ parent, a.parentOf id = some parent → ¬ parent < id :=
            fun parent hparent hlt => hex ⟨parent, hparent, hlt⟩
          rw [lookup_eq_none hlocal hno, lookup_eq_none hlocal' (h.parent id hid ▸ hno)]

end Arena

namespace Scope

variable {r r' : Resolved} {scope : ScopeId} {known known' : String → Entry → Prop}

/-- What can be seen from a scope: variables in slots that have been handed out, and entries without
slots as given. -/
structure Visible (known : String → Entry → Prop) (r : Resolved) (scope : ScopeId) : Prop where
  lt : scope < r.arena.size
  entries : ∀ outer, r.arena.Around scope outer → ∀ name e,
    r.arena.lookupLocal outer name = some e →
      (∃ ty s, e = ⟨.variable ty, some s⟩ ∧ s < r.nextSlot) ∨ e.slot = none ∧ known name e

theorem Visible.lookup (h : Visible known r scope) {name : String} {e : Entry}
    (he : r.arena.lookup scope name = some e) :
    (∃ ty s, e = ⟨.variable ty, some s⟩ ∧ s < r.nextSlot) ∨ e.slot = none ∧ known name e := by
  obtain ⟨outer, haround, hlocal⟩ := Arena.exists_around he
  exact h.entries outer haround name e hlocal

theorem Visible.mono (h : Visible known r scope) (hk : ∀ name e, known name e → known' name e) :
    Visible known' r scope :=
  ⟨h.lt, fun outer ho name e he =>
    (h.entries outer ho name e he).imp_right fun hnone => ⟨hnone.1, hk name e hnone.2⟩⟩

/-- More slots may have been handed out. -/
theorem Visible.raise (h : Visible known r scope) {n : Nat} (hn : r.nextSlot ≤ n) :
    Visible known { r with nextSlot := n } scope := by
  refine ⟨h.lt, ?_⟩
  intro outer haround name e he
  rcases h.entries outer haround name e he with ⟨ty, s, rfl, hlt⟩ | hnone
  · exact .inl ⟨ty, s, rfl, Nat.lt_of_lt_of_le hlt hn⟩
  · exact .inr hnone

/-- What is declared later can be seen, too. -/
theorem Visible.filled (h : Visible known r scope) (hf : Filled r r') :
    Visible known r' scope := by
  refine ⟨Nat.lt_of_lt_of_le h.lt hf.size, ?_⟩
  intro outer haround name e he
  have haround' : r.arena.Around scope outer := haround.congr hf.parent h.lt
  have houter : outer < r.arena.size := Nat.lt_of_le_of_lt haround'.le h.lt
  rcases hf.added outer houter name e he with hold | ⟨ty, s, rfl, hle⟩
  · exact ((h.raise hf.nextSlot).entries outer haround' name e hold)
  · rcases hf.slots outer name _ s he rfl with hold | hlt
    · exact ((h.raise hf.nextSlot).entries outer haround' name _ hold)
    · exact .inl ⟨ty, s, rfl, hlt⟩

theorem Visible.attach (h : Visible known r scope) (node : NodeId) (id : ScopeId) :
    Visible known { r with arena := r.arena.attach node id } scope := by
  have hparents : ∀ i < r.arena.size,
      (r.arena.attach node id).parentOf i = r.arena.parentOf i := fun _ _ => rfl
  exact ⟨h.lt, fun outer haround => h.entries outer (haround.congr hparents h.lt)⟩

/-- A new scope has no entries of its own. -/
theorem Visible.enter (h : Visible known r scope) (name : String) (kind : Kind) (node : NodeId) :
    Visible known (r.enter scope name kind node).1 r.arena.size := by
  have hparent : (r.enter scope name kind node).1.arena.parentOf r.arena.size = some scope :=
    Arena.parentOf_push_size ..
  refine ⟨Nat.lt_of_lt_of_eq (Nat.lt_succ_self _) (Arena.size_push ..).symm, ?_⟩
  intro outer haround n e he
  rw [show (r.enter scope name kind node).1.arena.lookupLocal outer n =
    r.arena.lookupLocal outer n from Arena.lookupLocal_push _ _ _ _ outer n] at he
  cases haround with
  | self =>
    rw [Arena.lookupLocal, Arena.get?_eq_none (Nat.le_refl _)] at he
    cases he
  | step hp _ haround =>
    cases hparent.symm.trans hp
    have hparents : ∀ id < r.arena.size,
        (r.enter scope name kind node).1.arena.parentOf id = r.arena.parentOf id :=
      fun id hid => Arena.parentOf_push hid
    exact h.entries outer (haround.congr hparents h.lt) n e he

end Scope

end Javelet
