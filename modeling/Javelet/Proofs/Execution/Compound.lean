import Javelet.Proofs.Execution.Destination
import Javelet.Proofs.Execution.Moves
import Javelet.Proofs.Lowering.Labels

/-!
# Compound assignments

A compound assignment is the assignment of an operation on its target and its value. The operation
evaluates the target a second time, where the compound assignment copies what leads to it. If the
target calls nothing and creates nothing, this makes no difference: what leads to the target only
reads, so it gives the same words twice, and if it gives up it does so before anything is copied.
The code behind the copies is the same but for the numbers of its labels.
-/
namespace Javelet.Execution

open Assembly Lowering

variable {World : Type} {p : Platform World} {env : Env} {first next : Label} {code : Segment}
  {d : Destination}

/-! ## Copies -/

theorem Destination.Readable.plain (h : d.Readable p) :
    d.load.isPlain = true ∧ d.store.isPlain = true := by
  cases h <;> exact ⟨rfl, rfl⟩

/-- Words that are read, and once more. -/
def Reading.twice (r : Reading World (List Word)) : Reading World (List Word) :=
  fun slots heap => (r slots heap) >>= fun ws => .ok (ws ++ ws)

theorem Reads.twice {rest : Segment} {r : Reading World (List Word)} (h : Reads p code r)
    (h' : Reads p rest r) : Reads p (code ++ rest) r.twice := by
  have htwice : r.twice = fun slots heap => do
      let ws ← r slots heap
      let vs ← r slots heap
      return vs ++ ws := by
    funext slots heap
    unfold Reading.twice
    cases r slots heap <;> rfl
  rw [htwice]
  exact h.append h'

/-- To copy what leads to a destination is to evaluate it twice. -/
theorem Destination.Readable.copies (h : d.Readable p) : ∃ r : Reading World (List Word),
    ∀ ρ, Reads p (Assembly.relabel ρ d.code) r ∧
      Reads p (Assembly.relabel ρ d.code ++ ops d.copy) r.twice := by
  cases h with
  | variable_ l => exact ⟨fun _ _ => .ok [], fun _ => ⟨.nil, .nil⟩⟩
  | field h owner name type =>
    obtain ⟨w, hw⟩ := h
    refine ⟨w.one, fun ρ => ⟨hw ρ, ?_⟩⟩
    have htwice : w.one.twice = fun slots heap => (w slots heap) >>= fun x => .ok [x, x] := by
      funext slots heap
      exact bind_assoc ..
    rw [htwice]
    exact (hw ρ).followed fun program pos hstands s x => .op hstands rfl rfl
  | element h h' type =>
    obtain ⟨w, hw⟩ := h
    obtain ⟨v, hv⟩ := h'
    let both : Reading World (List Word) := fun slots heap =>
      (w slots heap) >>= fun x => (v slots heap) >>= fun y => .ok [y, x]
    have hboth : both = fun slots heap => do
        let ws ← w.one slots heap
        let vs ← v.one slots heap
        return vs ++ ws := by
      funext slots heap
      simp only [both, Reading.one]
      cases w slots heap <;> cases v slots heap <;> rfl
    have htwice : both.twice = fun slots heap =>
        (w slots heap) >>= fun x => (v slots heap) >>= fun y => .ok [y, x, y, x] := by
      funext slots heap
      simp only [both, Reading.twice]
      cases w slots heap <;> cases v slots heap <;> rfl
    refine ⟨both, fun ρ => ?_⟩
    rw [Destination.element, relabel_append]
    refine ⟨?_, ?_⟩
    · rw [hboth]
      exact (hw ρ).append (hv ρ)
    · rw [htwice]
      exact (hw ρ).followed₂ (hv ρ) fun program pos hstands s x y => .op hstands rfl rfl

/-! ## Parts -/

/-- The old value, the new one and the store, where copies of what leads to the destination are on
the stack. -/
def Destination.update (d : Destination) (op : Arithmetic) (value : Segment) : Segment :=
  ops [d.load] ++ value ++ ops [.arithmetic op, d.store]

/-- `t = t op (e)` -/
def expansion (op : Arithmetic) (target : Chain) (value : Expr) : Assignment :=
  ⟨.plain, target, .binary (.arithmetic op) (.access target) value⟩

theorem yields_compound {op : Arithmetic} {target : Chain} {value : Expr} :
    Yields (assignment env ⟨.compound op, target, value⟩) first code next ↔ ∃ d middle v,
      Yields (Destination.ofTarget env target) first d middle ∧
        Yields (expr env value) middle v next ∧ d.type.isInteger = true ∧
        v.type.isInteger = true ∧ code = d.code ++ ops d.copy ++ d.update op v.code := by
  rw [yields_assignment_iff]
  constructor
  · rintro ⟨d, middle, hd, v, hv, rfl, hint⟩
    obtain ⟨hd', hv'⟩ := hint nofun
    exact ⟨d, middle, v, hd, hv, hd', hv', by
      simp [assigning, oldValue, combination, ops, Destination.update]⟩
  · rintro ⟨d, middle, v, hd, hv, hd', hv', rfl⟩
    exact ⟨d, middle, hd, v, hv, by
      simp [assigning, oldValue, combination, ops, Destination.update], fun _ => ⟨hd', hv'⟩⟩

theorem yields_expansion {op : Arithmetic} {target : Chain} {value : Expr} :
    Yields (assignment env (expansion op target value)) first code next ↔
      ∃ d middle ρ middle' v, Yields (Destination.ofTarget env target) first d middle ∧
        Yields (Destination.ofTarget env target) middle (d.relabel ρ) middle' ∧
        Yields (expr env value) middle' v next ∧ d.type.isInteger = true ∧
        v.type.isInteger = true ∧
        code = d.code ++ relabel ρ d.code ++ d.update op v.code := by
  rw [yields_assignment_iff]
  constructor
  · rintro ⟨d, middle, hd, v, hv, rfl, -⟩
    obtain ⟨l, r, middle', hl, hr, hil, hir, rfl⟩ := yields_expr_arithmetic.1 hv
    obtain ⟨ρ, next', hagain⟩ := ofTarget_again hd middle
    obtain ⟨rfl, rfl⟩ := (yields_expr_access.1 hl).1.unique (chain_ofTarget hagain)
    exact ⟨d, middle, ρ, middle', r, hd, hagain, hr, hil, hir, by
      simp [expansion, assigning, oldValue, combination, ops, Destination.update]⟩
  · rintro ⟨d, middle, ρ, middle', v, hd, hagain, hv, hd', hv', rfl⟩
    have haccess := access_ofTarget hagain hd'
    refine ⟨d, middle, hd, _, yields_expr_arithmetic.2
      ⟨_, v, middle', haccess, hv, hd', hv', rfl⟩, ?_, fun h => absurd rfl h⟩
    simp [expansion, assigning, oldValue, combination, ops, Destination.update]

/-- A compound assignment is lowered if its expansion is, whatever label is free. -/
theorem compound_accepted_iff {op : Arithmetic} {target : Chain} {value : Expr}
    {first first' : Label} :
    (∃ code next, Yields (assignment env ⟨.compound op, target, value⟩) first code next) ↔
      ∃ code next, Yields (assignment env (expansion op target value)) first' code next := by
  constructor
  · rintro ⟨_, _, h⟩
    obtain ⟨d, _, v, hd, hv, hd', hv', -⟩ := yields_compound.1 h
    obtain ⟨ρ, middle, hd⟩ := ofTarget_again hd first'
    obtain ⟨ρ', middle', hagain⟩ := ofTarget_again hd middle
    obtain ⟨σ, next', hv⟩ := expr_again hv middle'
    exact ⟨_, next', yields_expansion.2
      ⟨_, middle, ρ', middle', _, hd, hagain, hv, hd', hv', rfl⟩⟩
  · rintro ⟨_, _, h⟩
    obtain ⟨d, _, ρ, _, v, hd, -, hv, hd', hv', -⟩ := yields_expansion.1 h
    obtain ⟨ρ', middle, hd⟩ := ofTarget_again hd first
    obtain ⟨σ, next', hv⟩ := expr_again hv middle
    exact ⟨_, next', yields_compound.2 ⟨_, middle, _, hd, hv, hd', hv', rfl⟩⟩

/-- The two codes: copies on the one side and a second evaluation on the other. -/
theorem codes_of_yields {op : Arithmetic} {target : Chain} {value : Expr}
    {first' next' : Label} {code' : Segment}
    (h : Yields (assignment env ⟨.compound op, target, value⟩) first code next)
    (h' : Yields (assignment env (expansion op target value)) first' code' next') :
    ∃ d middle v ρ ρ' σ, Yields (Destination.ofTarget env target) first d middle ∧
      Yields (expr env value) middle v next ∧
      code = d.code ++ ops d.copy ++ d.update op v.code ∧
      code' = relabel ρ d.code ++ relabel ρ' d.code ++ d.update op (relabel σ v.code) := by
  obtain ⟨d, middle, v, hd, hv, -, -, rfl⟩ := yields_compound.1 h
  obtain ⟨d', middle₁, ρ', middle₂, v', hd', -, hv', -, -, rfl⟩ := yields_expansion.1 h'
  obtain ⟨ρ, _, hagain⟩ := ofTarget_again hd first'
  obtain ⟨rfl, -⟩ := hd'.unique hagain
  obtain ⟨σ, _, hagain⟩ := expr_again hv middle₂
  obtain ⟨rfl, -⟩ := hv'.unique hagain
  refine ⟨d, middle, v, ρ, ρ' ∘ ρ, σ, hd, hv, rfl, ?_⟩
  rw [Destination.relabel_code, relabel_relabel]
  rfl

/-! ## Outcomes -/

/-- Behind code that reads, a run goes on as the rest does alone. -/
theorem ends_behind_reads {before after : Segment} {r : Reading World (List Word)}
    (h : Reads p before r) (hafter : SelfContained after)
    (hn : (labelsOf (before ++ after)).Nodup) (s : State World) (exit : Exit World) :
    Ends p (written (before ++ after)) (.at 0 s) exit ↔
      Ends p (written after) (behind 0 s (r s.slots s.heap)) exit := by
  rw [labelsOf_append, List.nodup_append] at hn
  have hstands : Stands (written ([] ++ before ++ after)) (size []) before :=
    .intro_between [] after hn.1 fun _ _ => List.not_mem_nil
  have hapart : ∀ l ∈ labelsOf (written after), l ∉ labelsOf (written before) := by
    intro l hl hl'
    rw [labelsOf_written] at hl hl'
    exact hn.2.2 l hl' l hl rfl
  have hread := h _ _ hstands s exit
  rw [List.nil_append, size_nil, Nat.zero_add] at hread
  refine hread.trans ?_
  cases r s.slots s.heap with
  | error t => exact ends_left.trans ends_left.symm
  | ok ws =>
    have hmove : Ends p (written before ++ written after)
        ((behind 0 s (.ok ws)).move (written before).length) exit ↔
          Ends p (written after) (behind 0 s (.ok ws)) exit :=
      ends_behind_iff hafter.written hapart
    rw [← written_append] at hmove
    refine Iff.trans ?_ hmove
    rw [behind, behind, Config.move, Nat.zero_add, length_written]

/-- Two programs whose first parts read the same words and whose second parts are the same but for
the numbers of their labels. -/
theorem ends_iff_of_reads {before before' after : Segment} {σ : Label → Label}
    {r : Reading World (List Word)} (h : Reads p before r) (h' : Reads p before' r)
    (hafter : SelfContained after) (hn : (labelsOf (before ++ after)).Nodup)
    (hn' : (labelsOf (before' ++ relabel σ after)).Nodup) (s : State World) (exit : Exit World) :
    Ends p (written (before ++ after)) (.at 0 s) exit ↔
      Ends p (written (before' ++ relabel σ after)) (.at 0 s) exit := by
  have hlabels : (labelsOf (relabel σ (written after))).Nodup := by
    rw [← written_relabel, labelsOf_written]
    rw [labelsOf_append, List.nodup_append] at hn'
    exact hn'.2.1
  refine (ends_behind_reads h hafter hn s exit).trans ?_
  refine (ends_relabel_iff hafter.written hlabels).symm.trans ?_
  rw [← written_relabel]
  exact (ends_behind_reads h' (hafter.relabel σ) hn' s exit).symm

theorem Destination.Readable.update_selfContained (hd : d.Readable p) (op : Arithmetic)
    {value : Segment} (h : SelfContained value) : SelfContained (d.update op value) := by
  have hstore : [Instruction.arithmetic op, d.store].all Instruction.isPlain = true := by
    rw [List.all_cons, List.all_cons, hd.plain.2]
    rfl
  exact ((composes_selfContained.op hd.plain.1).append h).append
    (composes_selfContained.ops hstore)

theorem Destination.Readable.relabel_update (hd : d.Readable p) (σ : Label → Label)
    (op : Arithmetic) (value : Segment) :
    Assembly.relabel σ (d.update op value) = d.update op (Assembly.relabel σ value) := by
  have hload : d.load.relabel σ = d.load := relabel_of_isPlain σ hd.plain.1
  have hstore : d.store.relabel σ = d.store := relabel_of_isPlain σ hd.plain.2
  have hop : (Instruction.arithmetic op).relabel σ = .arithmetic op := rfl
  simp only [Destination.update, relabel_append, relabel_ops, List.map_cons, List.map_nil, hload,
    hstore, hop]

/-- A compound assignment to a target that calls nothing and creates nothing is accepted if its
expansion is, and from every state both have the same outcome: the same stack, slots and heap behind
them, or the same trap with the same heap. -/
theorem compound_same_outcome (env : Env) (op : Arithmetic) {target : Chain}
    (hstill : target.isStill = true) (value : Expr) (first first' : Label) :
    ((∃ code next, Yields (assignment env ⟨.compound op, target, value⟩) first code next) ↔
      ∃ code next, Yields (assignment env (expansion op target value)) first' code next) ∧
    ∀ code next code' next',
      Yields (assignment env ⟨.compound op, target, value⟩) first code next →
      Yields (assignment env (expansion op target value)) first' code' next' →
      ∀ (World : Type) (p : Platform World) (s : State World) (exit : Exit World),
        Ends p (written code) (.at 0 s) exit ↔ Ends p (written code') (.at 0 s) exit := by
  refine ⟨compound_accepted_iff, fun code next code' next' h h' World p s exit => ?_⟩
  have hn := (assignment_labelled h).nodup
  have hn' := (assignment_labelled h').nodup
  obtain ⟨d, middle, v, ρ, ρ', σ, hd, hv, rfl, rfl⟩ := codes_of_yields h h'
  have hreadable : d.Readable p := readable_ofTarget hstill hd
  obtain ⟨r, hr⟩ := hreadable.copies
  have hcopied := (hr id).2
  rw [relabel_id] at hcopied
  rw [← hreadable.relabel_update] at hn' ⊢
  exact ends_iff_of_reads hcopied ((hr ρ).1.twice (hr ρ').1)
    (hreadable.update_selfContained op (composes_selfContained.expr value hv)) hn hn' s exit

/-! ## An example -/

/-- A class with an array, and a method that changes it. -/
def holder : String := "class A { int[] t; int f() { t[0] = 5; return 2; } }"

/-- A place in the class, outside of its methods. -/
def holderEnv : Env :=
  ⟨((parseSource holder).toOption.map fun program => (Types.collect program).table).getD .initial,
    .initial, "A", Arena.root, []⟩

/-- `t[0]` -/
def firstElement : Chain :=
  .mk (.name ⟨1, 1⟩ "t") [.index ⟨1, 2⟩ (.literal ⟨1, 3⟩ (.int 0))]

/-- `f()` -/
def meddle : Expr := .access (.mk (.call ⟨1, 9⟩ "f" []) [])

/-- The code of `t[0]` up to its last step. -/
def pushElement : Segment :=
  ops [.loadThis, .getField "A" "t" ⟨"int", true⟩, .pushInt 0]

/-- The rest of an assignment of `t[0] + f()`. -/
def updateElement : Segment :=
  ops [.arrayLoad .int, .loadThis, .invokeVirtual "A" "f" [] .int, .arithmetic .add,
    .arrayStore .int]

/-- The array is at address 1. -/
def meddling : Platform Unit where
  text _ := .null
  admits _ _ _ := true
  call _ _ heap := some (.ok [.int 2], heap.setElement 1 0 (.int 5))

/-- The receiver holds this array, or the empty reference. -/
def holding (array : Word) : State Unit :=
  ⟨[], fun _ => .reference 0, ⟨fun _ _ _ _ => array, fun _ => [.int 40], ()⟩⟩

theorem yields_of_toOption {α : Type} {x : Lower α} {a : α}
    (h : (x.run first).toOption = some (a, next)) : Yields x first a next := by
  unfold Yields
  cases hrun : x.run first with
  | error fault =>
    rw [hrun] at h
    cases h
  | ok result =>
    rw [hrun] at h
    cases h
    rfl

theorem firstElement_same_outcome : firstElement.isStill = true ∧
    Yields (assignment holderEnv ⟨.compound .add, firstElement, meddle⟩) 0
      (pushElement ++ ops [.dup2] ++ updateElement) 0 ∧
    Yields (assignment holderEnv (expansion .add firstElement meddle)) 0
      (pushElement ++ pushElement ++ updateElement) 0 ∧
    (∃ s : State Unit, s.heap.array 1 = [.int 42] ∧
      Ends meddling (written (pushElement ++ pushElement ++ updateElement))
        (.at 0 (holding (.reference 1))) (.fell s)) ∧
    Ends meddling (written (pushElement ++ pushElement ++ updateElement))
      (.at 0 (holding .null)) (.trapped .null (holding .null).heap) := by
  have hstill : firstElement.isStill = true := by decide
  have hcompound : Yields (assignment holderEnv ⟨.compound .add, firstElement, meddle⟩) 0
      (pushElement ++ ops [.dup2] ++ updateElement) 0 := yields_of_toOption (by decide +kernel)
  have hexpansion : Yields (assignment holderEnv (expansion .add firstElement meddle)) 0
      (pushElement ++ pushElement ++ updateElement) 0 := yields_of_toOption (by decide +kernel)
  have hsame := (compound_same_outcome holderEnv .add hstill meddle 0 0).2 _ _ _ _ hcompound
    hexpansion Unit meddling
  let s := holding (.reference 1)
  have hstored : Ends meddling (written (pushElement ++ ops [.dup2] ++ updateElement)) (.at 0 s)
      (.fell { s with heap := (s.heap.setElement 1 0 (.int 5)).setElement 1 0 (.int 42) }) := by
    refine .step rfl (.step rfl (.step rfl (.step rfl (.step rfl ?_))))
    refine .step rfl (.step rfl (.step rfl (.step rfl (.step rfl ?_))))
    exact .left
  have htrapped : Ends meddling (written (pushElement ++ ops [.dup2] ++ updateElement))
      (.at 0 (holding .null)) (.trapped .null (holding .null).heap) :=
    .step rfl (.step rfl (.step rfl (.step rfl (.step rfl .left))))
  exact ⟨hstill, hcompound, hexpansion, ⟨_, rfl, (hsame _ _).1 hstored⟩, (hsame _ _).1 htrapped⟩

end Javelet.Execution
