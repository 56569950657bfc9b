import Mathlib.Computability.StateTransition
import Javelet.Proofs.Scope.Chain

/-!
# Histories of an arena

An arena is filled by operations on the arena of the program alone: scopes are opened inside others,
names are declared, and something is recorded of nodes. However the operations follow one another,
the scopes are a tree: each one but the first lies one level below a scope that was opened before it.
So the search for a name, which goes from a scope to the one around it, ends without a bound on its
rounds, and it ends at the first scope that has the name. An entry stays for ever, and a new one is
only found from the scopes from which the search comes to it.
-/
namespace Javelet.Arena

variable {a a' : Arena} {id outer parent : ScopeId} {name : String}

/-! ## Operations -/

/-- What is done to an arena. -/
inductive Operation where
  | push (name : String) (kind : Scope.Kind) (parent : ScopeId)
  | insert (scope : ScopeId) (name : String) (entry : Scope.Entry)
  | attach (node : NodeId) (scope : ScopeId)
  | reserve (node : NodeId) (slot : Nat)
  | setLocals (node : NodeId) (count : Nat)

/-- The arena behind an operation. There is none where the scope is missing that a scope is opened
inside, or that a name is declared in. -/
def perform (a : Arena) : Operation → Option Arena
  | .push name kind parent => if parent < a.size then some (a.push name kind parent) else none
  | .insert scope name entry => if scope < a.size then some (a.insertNew scope name entry) else none
  | .attach node scope => some (a.attach node scope)
  | .reserve node slot => some (a.reserve node slot)
  | .setLocals node count => some (a.setLocals node count)

/-- The arena behind operations. -/
def run (a : Arena) (ops : List Operation) : Option Arena := ops.foldlM perform a

/-- What an operation can do to the scopes of an arena. -/
inductive Step (a : Arena) : Arena → Prop
  | opened (name : String) (kind : Scope.Kind) {parent : ScopeId} :
      parent < a.size → Step a (a.push name kind parent)
  | declared {scope : ScopeId} {name : String} (entry : Scope.Entry) :
      scope < a.size → a.lookupLocal scope name = none → Step a (a.put scope name entry)
  | recorded {a' : Arena} : a'.scopes = a.scopes → Step a a'

theorem step_of_perform {op : Operation} (h : a.perform op = some a') : Step a a' := by
  cases op with
  | push name kind parent =>
    obtain ⟨hparent, hsome⟩ := Option.ite_none_right_eq_some.1 h
    cases hsome
    exact .opened name kind hparent
  | insert scope name entry =>
    obtain ⟨hscope, hsome⟩ := Option.ite_none_right_eq_some.1 h
    cases hsome
    unfold insertNew insert
    cases hlocal : a.lookupLocal scope name with
    | some existing => exact .recorded rfl
    | none => exact .declared entry hscope hlocal
  | attach node scope =>
    cases h
    exact .recorded rfl
  | reserve node slot =>
    cases h
    exact .recorded rfl
  | setLocals node count =>
    cases h
    exact .recorded rfl

/-- What every step preserves holds behind operations if it holds before them. -/
theorem run_induction {motive : Arena → Prop} {ops : List Operation} (h : a.run ops = some a')
    (hstart : motive a) (hstep : ∀ b b', motive b → Step b b' → motive b') : motive a' := by
  induction ops generalizing a with
  | nil =>
    cases h
    exact hstart
  | cons op ops ih =>
    obtain ⟨b, hfirst, hrest⟩ := Option.bind_eq_some_iff.1 ((List.foldlM_cons ..).symm.trans h)
    exact ih hrest (hstep a b hstart (step_of_perform hfirst))

/-! ## The tree of scopes -/

/-- The scopes are a tree: the first one is its root, and every other one lies one level below a
scope with a smaller index. -/
structure Tree (a : Arena) : Prop where
  root_lt : root < a.size
  parentOf_root : a.parentOf root = none
  level_root : a.level root = 0
  below : ∀ id < a.size, id ≠ root →
    ∃ parent < id, a.parentOf id = some parent ∧ a.level id = a.level parent + 1

theorem level_push {n : String} {kind : Scope.Kind} (h : id < a.size) :
    (a.push n kind parent).level id = a.level id := by
  rw [level, get?_push h, level]

theorem level_push_size (a : Arena) (n : String) (kind : Scope.Kind) (parent : ScopeId) :
    (a.push n kind parent).level a.size = a.level parent + 1 := by
  rw [level, get?_push_size]
  rfl

theorem level_put (a : Arena) (scope id : ScopeId) (n : String) (e : Scope.Entry) :
    (a.put scope n e).level id = a.level id := by
  rw [level, get?_put, level]
  cases a.get? id with
  | none => rfl
  | some s =>
    simp only [Option.map_some, Option.elim_some]
    split <;> rfl

theorem Tree.step (h : a.Tree) (hs : Step a a') : a'.Tree := by
  cases hs with
  | opened name kind hparent =>
    refine ⟨?_, (parentOf_push h.root_lt).trans h.parentOf_root,
      (level_push h.root_lt).trans h.level_root, fun id hid hne => ?_⟩
    · rw [size_push]
      exact Nat.lt_succ_of_lt h.root_lt
    · rw [size_push] at hid
      rcases Nat.lt_succ_iff_lt_or_eq.1 hid with hold | rfl
      · obtain ⟨p, hp, hparentOf, hlevel⟩ := h.below id hold hne
        refine ⟨p, hp, (parentOf_push hold).trans hparentOf, ?_⟩
        rw [level_push hold, level_push (Nat.lt_trans hp hold), hlevel]
      · refine ⟨_, hparent, parentOf_push_size .., ?_⟩
        rw [level_push_size, level_push hparent]
  | declared entry hscope hfree =>
    refine ⟨by rw [size_put]; exact h.root_lt, by rw [parentOf_put]; exact h.parentOf_root,
      by rw [level_put]; exact h.level_root, fun id hid hne => ?_⟩
    simp only [parentOf_put, level_put]
    exact h.below id (by rwa [size_put] at hid) hne
  | recorded hsame =>
    have hget : a'.get? = a.get? := by
      funext id
      rw [get?, hsame, get?]
    have hsize : a'.size = a.size := by rw [size, hsame, size]
    refine ⟨hsize ▸ h.root_lt, ?_, ?_, fun id hid hne => ?_⟩
    · rw [parentOf, hget]
      exact h.parentOf_root
    · rw [level, hget]
      exact h.level_root
    · simp only [parentOf, level, hget]
      exact h.below id (hsize ▸ hid) hne

theorem tree_initial : initial.Tree :=
  ⟨Nat.zero_lt_one, rfl, rfl, fun _ hid hne => absurd (Nat.lt_one_iff.1 hid) hne⟩

theorem Tree.parent_lt (h : a.Tree) (hp : a.parentOf id = some parent) : parent < id := by
  have hid : id < a.size := by
    refine Nat.lt_of_not_le fun hle => ?_
    rw [parentOf, get?_eq_none hle] at hp
    cases hp
  by_cases hroot : id = root
  · subst hroot
    cases h.parentOf_root.symm.trans hp
  · obtain ⟨p, hlt, hparent, -⟩ := h.below id hid hroot
    cases hparent.symm.trans hp
    exact hlt

/-! ## The scopes around a scope, one after the other -/

/-- The scope that lies so many scopes outward. -/
def outward (a : Arena) : Nat → ScopeId → Option ScopeId
  | 0, id => some id
  | n + 1, id => (a.parentOf id).bind (a.outward n)

/-- The level of a scope is its distance from the root. -/
theorem Tree.outward_eq_root_iff (h : a.Tree) (hid : id < a.size) (n : Nat) :
    a.outward n id = some root ↔ n = a.level id := by
  induction id using Nat.strongRecOn generalizing n with
  | ind id ih =>
    by_cases hroot : id = root
    · subst hroot
      rw [h.level_root]
      cases n with
      | zero => exact ⟨fun _ => rfl, fun _ => rfl⟩
      | succ n =>
        rw [outward, h.parentOf_root]
        exact ⟨nofun, nofun⟩
    · obtain ⟨p, hlt, hparent, hlevel⟩ := h.below id hid hroot
      rw [hlevel]
      cases n with
      | zero => exact ⟨fun heq => absurd (Option.some.inj heq) hroot, nofun⟩
      | succ n =>
        rw [outward, hparent, Option.bind_some, ih p hlt (Nat.lt_trans hlt hid),
          Nat.add_right_cancel_iff]

/-- The search for a name comes from a scope to one around it: no scope on the way has the name. -/
def Seeks (a : Arena) (name : String) (id outer : ScopeId) : Prop :=
  ∃ n, a.outward n id = some outer ∧
    ∀ i < n, ∀ inner, a.outward i id = some inner → a.lookupLocal inner name = none

theorem seeks_iff : a.Seeks name id outer ↔
    id = outer ∨ a.lookupLocal id name = none ∧
      ∃ parent, a.parentOf id = some parent ∧ a.Seeks name parent outer := by
  constructor
  · rintro ⟨n, hn, hfree⟩
    cases n with
    | zero => exact .inl (Option.some.inj hn)
    | succ n =>
      obtain ⟨parent, hparent, hn⟩ := Option.bind_eq_some_iff.1 hn
      refine .inr ⟨hfree 0 (Nat.succ_pos n) id rfl, parent, hparent, n, hn, fun i hi inner hinner => ?_⟩
      refine hfree (i + 1) (Nat.succ_lt_succ hi) inner ?_
      rw [outward, hparent, Option.bind_some, hinner]
  · rintro (rfl | ⟨hlocal, parent, hparent, n, hn, hfree⟩)
    · exact ⟨0, rfl, nofun⟩
    · refine ⟨n + 1, by rw [outward, hparent, Option.bind_some, hn], fun i hi inner hinner => ?_⟩
      cases i with
      | zero =>
        cases hinner
        exact hlocal
      | succ i =>
        rw [outward, hparent, Option.bind_some] at hinner
        exact hfree i (Nat.lt_of_succ_lt_succ hi) inner hinner

/-! ## The search for a name -/

/-- One round of the search for a name: it ends at a scope that has the name, or that no scope is
around, and goes on with the scope around it otherwise. -/
def search (a : Arena) (name : String) (id : ScopeId) : Option ScopeId :=
  if (a.lookupLocal id name).isSome then none else a.parentOf id

/-- A name stands for its entry in the scope, or for what it stands for in the scope around it. -/
theorem Tree.lookup_eq (h : a.Tree) (id : ScopeId) (name : String) :
    a.lookup id name =
      (a.lookupLocal id name).or ((a.parentOf id).bind fun parent => a.lookup parent name) := by
  cases hlocal : a.lookupLocal id name with
  | some e => exact lookup_of_lookupLocal hlocal
  | none =>
    rw [Option.none_or]
    cases hparent : a.parentOf id with
    | none => exact lookup_eq_none hlocal fun p hp => by cases hparent.symm.trans hp
    | some p => exact lookup_of_parent hlocal hparent (h.parent_lt hparent)

/-- The search for a name ends. -/
theorem Tree.search_ends (h : a.Tree) (id : ScopeId) (name : String) :
    ∃ last, last ∈ StateTransition.eval (a.search name) id ∧
      a.lookup id name = a.lookupLocal last name := by
  induction id using Nat.strongRecOn with
  | ind id ih =>
    rw [h.lookup_eq]
    cases hlocal : a.lookupLocal id name with
    | some e =>
      exact ⟨id, StateTransition.mem_eval.2 ⟨.refl, by simp [search, hlocal]⟩, hlocal.symm⟩
    | none =>
      have hround : a.search name id = a.parentOf id := by simp [search, hlocal]
      cases hparent : a.parentOf id with
      | none => exact ⟨id, StateTransition.mem_eval.2 ⟨.refl, hround.trans hparent⟩, hlocal.symm⟩
      | some p =>
        obtain ⟨last, hlast, heq⟩ := ih p (h.parent_lt hparent)
        rw [← StateTransition.reaches_eval (.single (hround.trans hparent))] at hlast
        exact ⟨last, hlast, heq⟩

/-- What a name stands for is its entry in the first scope that has one. -/
theorem Tree.lookup_eq_some_iff (h : a.Tree) {e : Scope.Entry} :
    a.lookup id name = some e ↔
      ∃ outer, a.Seeks name id outer ∧ a.lookupLocal outer name = some e := by
  induction id using Nat.strongRecOn with
  | ind id ih =>
    rw [h.lookup_eq]
    constructor
    · intro hlookup
      rcases Option.or_eq_some_iff.1 hlookup with hlocal | ⟨hlocal, hrest⟩
      · exact ⟨id, seeks_iff.2 (.inl rfl), hlocal⟩
      · obtain ⟨p, hparent, hrest⟩ := Option.bind_eq_some_iff.1 hrest
        obtain ⟨outer, hseeks, houter⟩ := (ih p (h.parent_lt hparent)).1 hrest
        exact ⟨outer, seeks_iff.2 (.inr ⟨hlocal, p, hparent, hseeks⟩), houter⟩
    · rintro ⟨outer, hseeks, houter⟩
      rcases seeks_iff.1 hseeks with rfl | ⟨hlocal, p, hparent, hseeks⟩
      · rw [houter, Option.some_or]
      · rw [hlocal, Option.none_or, hparent, Option.bind_some]
        exact (ih p (h.parent_lt hparent)).2 ⟨outer, hseeks, houter⟩

/-- A name stands for nothing if no scope around has an entry for it. -/
theorem Tree.lookup_eq_none_iff (h : a.Tree) :
    a.lookup id name = none ↔
      ∀ n outer, a.outward n id = some outer → a.lookupLocal outer name = none := by
  induction id using Nat.strongRecOn with
  | ind id ih =>
    rw [h.lookup_eq, Option.or_eq_none_iff]
    constructor
    · rintro ⟨hlocal, hrest⟩ n outer hn
      cases n with
      | zero =>
        cases hn
        exact hlocal
      | succ n =>
        obtain ⟨p, hparent, hn⟩ := Option.bind_eq_some_iff.1 hn
        rw [hparent, Option.bind_some] at hrest
        exact (ih p (h.parent_lt hparent)).1 hrest n outer hn
    · intro hnone
      refine ⟨hnone 0 id rfl, Option.bind_eq_none_iff.2 fun p hparent => ?_⟩
      refine (ih p (h.parent_lt hparent)).2 fun n outer hn => hnone (n + 1) outer ?_
      rw [outward, hparent, Option.bind_some, hn]

/-! ## Declarations -/

/-- What a declaration in a scope does: the entry is found from the scopes from which the search for
the name comes to the scope, and nothing else changes. -/
structure Declares (a : Arena) (id : ScopeId) (name : String) (entry : Scope.Entry) (a' : Arena) :
    Prop where
  here : a'.lookupLocal id name = some entry
  elsewhere : ∀ other name', other ≠ id ∨ name' ≠ name →
    a'.lookupLocal other name' = a.lookupLocal other name'
  parents : ∀ other, a'.parentOf other = a.parentOf other
  seen : ∀ inner, a.Seeks name inner id → a'.lookup inner name = some entry
  hidden : ∀ inner name', ¬ (a.Seeks name inner id ∧ name' = name) →
    a'.lookup inner name' = a.lookup inner name'

theorem Tree.declares (h : a.Tree) (hid : id < a.size) (hfree : a.lookupLocal id name = none)
    (entry : Scope.Entry) : Declares a id name entry (a.put id name entry) := by
  have h' : (a.put id name entry).Tree := h.step (.declared entry hid hfree)
  refine ⟨lookupLocal_put hid name entry, fun _ _ => lookupLocal_put_of_ne, fun _ => parentOf_put ..,
    fun inner hseeks => ?_, fun inner name' hnot => ?_⟩
  · induction inner using Nat.strongRecOn with
    | ind inner ih =>
      rw [h'.lookup_eq, parentOf_put]
      by_cases hinner : inner = id
      · rw [hinner, lookupLocal_put hid, Option.some_or]
      · obtain ⟨hlocal, p, hparent, hseeks⟩ := (seeks_iff.1 hseeks).resolve_left hinner
        rw [lookupLocal_put_of_ne (.inl hinner), hlocal, Option.none_or, hparent, Option.bind_some]
        exact ih p (h.parent_lt hparent) hseeks
  · induction inner using Nat.strongRecOn with
    | ind inner ih =>
      have hne : inner ≠ id ∨ name' ≠ name :=
        not_and_or.1 fun ⟨hinner, hname⟩ => hnot ⟨seeks_iff.2 (.inl hinner), hname⟩
      rw [h'.lookup_eq, h.lookup_eq, parentOf_put, lookupLocal_put_of_ne hne]
      cases hlocal : a.lookupLocal inner name' with
      | some e => rw [Option.some_or, Option.some_or]
      | none =>
        cases hparent : a.parentOf inner with
        | none => rfl
        | some p =>
          refine ih p (h.parent_lt hparent) fun hseeks => hnot ?_
          obtain ⟨hseeks, rfl⟩ := hseeks
          exact ⟨seeks_iff.2 (.inr ⟨hlocal, p, hparent, hseeks⟩), rfl⟩

/-- An entry stays where it is. -/
theorem lookupLocal_step {e : Scope.Entry} (h : a.lookupLocal id name = some e) (hs : Step a a') :
    a'.lookupLocal id name = some e := by
  cases hs with
  | opened n kind _ => rw [lookupLocal_push, h]
  | @declared scope n entry _ hfree =>
    have hne : id ≠ scope ∨ name ≠ n := by
      refine not_and_or.1 fun ⟨hid, hname⟩ => ?_
      cases (hid ▸ hname ▸ hfree).symm.trans h
    rw [lookupLocal_put_of_ne hne, h]
  | recorded hsame => rw [lookupLocal, get?, hsame, ← h, lookupLocal, get?]

/-! ## Arenas with a history -/

/-- What is true of an arena that was filled by operations. -/
structure Consistent (a : Arena) : Prop where
  parent_lt : ∀ id parent, a.parentOf id = some parent → parent < id
  /-- The level is the distance from the root, so there is a way to the root. -/
  distance : ∀ id < a.size, ∀ n, a.outward n id = some root ↔ n = a.level id
  /-- A clash shows the entry that is there and changes nothing. -/
  clash : ∀ id < a.size, ∀ name existing entry, a.lookupLocal id name = some existing →
    a.insert id name entry = .error existing ∧ a.perform (.insert id name entry) = some a
  fresh : ∀ id < a.size, ∀ name entry, a.lookupLocal id name = none →
    ∃ a', a.insert id name entry = .ok a' ∧ a.perform (.insert id name entry) = some a' ∧
      Declares a id name entry a'
  kept : ∀ ops a', a.run ops = some a' → ∀ id name e, a.lookupLocal id name = some e →
    a'.lookupLocal id name = some e
  ends : ∀ id name, ∃ last, last ∈ StateTransition.eval (a.search name) id ∧
    a.lookup id name = a.lookupLocal last name
  found : ∀ id name e, a.lookup id name = some e ↔
    ∃ outer, a.Seeks name id outer ∧ a.lookupLocal outer name = some e
  missing : ∀ id name, a.lookup id name = none ↔
    ∀ n outer, a.outward n id = some outer → a.lookupLocal outer name = none

theorem Tree.consistent (h : a.Tree) : a.Consistent where
  parent_lt _ _ := h.parent_lt
  distance _ := h.outward_eq_root_iff
  clash id hid name existing entry hlocal := by
    have herror : a.insert id name entry = .error existing := insert_eq_error_iff.2 hlocal
    refine ⟨herror, ?_⟩
    rw [perform, if_pos hid, insertNew, herror]
  fresh id hid name entry hlocal := by
    have hok : a.insert id name entry = .ok (a.put id name entry) := by rw [insert, hlocal]
    refine ⟨_, hok, ?_, h.declares hid hlocal entry⟩
    rw [perform, if_pos hid, insertNew, hok]
  kept _ _ hrun _ _ _ he := run_induction hrun he fun _ _ => lookupLocal_step
  ends := h.search_ends
  found _ _ _ := h.lookup_eq_some_iff
  missing _ _ := h.lookup_eq_none_iff

/-- However an arena is filled, its scopes are a tree, its entries stay, and a name stands for the
entry of the first scope around that has one. -/
theorem consistent_run {ops : List Operation} (h : initial.run ops = some a) : a.Consistent :=
  (run_induction h tree_initial fun _ _ => Tree.step).consistent

/-- A method has a variable with the name of a property, and another one that clashes. -/
def shadowing : List Operation :=
  [.push "Point" .class_ root, .insert 1 "x" ⟨.variable .int, none⟩, .push "move" .method 1,
    .insert 2 "x" ⟨.variable .boolean, some 1⟩, .attach 7 2, .push "block" .block 2,
    .insert 2 "x" ⟨.variable .int, some 2⟩, .reserve 8 3, .setLocals 7 4]

theorem consistent_shadowing : ∃ a, initial.run shadowing = some a ∧ a.size = 4 ∧
    a.lookupLocal 2 "x" = some ⟨.variable .boolean, some 1⟩ ∧ a.Consistent := by
  obtain ⟨a, ha, hrest⟩ : ∃ a, initial.run shadowing = some a ∧ a.size = 4 ∧
      a.lookupLocal 2 "x" = some ⟨.variable .boolean, some 1⟩ := ⟨_, rfl, rfl, rfl⟩
  exact ⟨a, ha, hrest.1, hrest.2, consistent_run ha⟩

end Javelet.Arena
