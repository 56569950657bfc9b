import Javelet.Proofs.Preservation.Statement

/-!
# Runs that end have a meaning

Where a run of the code of a statement over integers leaves its window, the statement ends in the
semantics. Only that it ends is shown here: how it ends follows, because the code does what the
statement means and runs are determined. The induction is on the number of steps, since each turn
of a loop takes at least the step over the label before its test; inside one number of steps it
is on the statement.
-/
namespace Javelet.Preservation

open Assembly Lowering Semantics

variable {w : Window} {env : Env} {n : Nat}

/-- A task whose code leaves the window in `n` steps ends in the semantics. -/
def Ends (w : Window) (n : Nat) (env : Env) (task : Task) : Prop :=
  ∀ pos after stack slots exit, Placed w env pos after task →
    integralTask env.arena env.scope task = true → w.Steps n (.at pos ⟨stack, slots⟩) (.left exit) →
    ∃ o slots', Exec env.arena env.scope task slots o slots'

/-- What is left of a run behind a place that it passes. -/
theorem rest_of_reaches {c c' : Config} {exit : Exit} (h : w.Reaches c c')
    (h' : w.Steps n c (.left exit)) : ∃ k, k ≤ n ∧ w.Steps k c' (.left exit) := by
  obtain ⟨j, h⟩ := h
  obtain ⟨k, rfl, hk⟩ := h.rest h'
  exact ⟨k, by omega, hk⟩

/-- A run of a loop passes the label before its test. -/
theorem Circle.rest_of_label {e : Option Expr} {update : Option Action} {inner : Segment}
    {cont bottom : Label} {pos bodyPos updatePos updateEnd fin : Nat} {m : Memory} {exit : Exit}
    (h : Circle w env e update inner cont bottom pos bodyPos updatePos updateEnd fin)
    (h' : w.Steps n (.at pos m) (.left exit)) :
    ∃ k, k < n ∧ w.Steps k (.at (pos + 1) m) (.left exit) := by
  obtain ⟨j, hj⟩ := h.label_reaches (m := m)
  cases hj with
  | head hs hrest =>
    obtain ⟨k, rfl, hk⟩ := (Window.Steps.head hs hrest).rest h'
    exact ⟨k, by omega, hk⟩

theorem Finishes.ok_or_trap {α : Type} {c : Config} {slots : Slots} {after : α → Config}
    {result : Except Stop α} (h : Finishes w c slots after result) :
    (∃ x, result = .ok x) ∨ result = .error .divisionByZero := by
  match result, h with
  | .ok x, _ => exact .inl ⟨x, rfl⟩
  | .error .divisionByZero, _ => exact .inr rfl

/-! ## Statements without statements inside -/

theorem ends_action {a : Action} : Ends w n env (.statement (.action a)) := by
  intro pos after stack slots exit hp hint _
  cases a with
  | call c => cases hint
  | assignment a =>
    rcases (placed_assignment hp hint stack slots).ok_or_trap with ⟨slots', h⟩ | h
    · exact ⟨_, _, .assignment h⟩
    · exact ⟨_, _, .assignmentTraps h⟩

theorem ends_declaration {v : Variable} : Ends w n env (.statement (.declaration v)) := by
  intro pos after stack slots exit hp hint _
  rcases (placed_declaration hp hint stack slots).ok_or_trap with ⟨slots', h⟩ | h
  · exact ⟨_, _, .declaration h⟩
  · exact ⟨_, _, .declarationTraps h⟩

theorem ends_jump {p : Position} {j : Jump} : Ends w n env (.statement (.jump p j)) := by
  intro pos after stack slots exit hp hint _
  cases j with
  | break_ => exact ⟨_, _, .break_⟩
  | continue_ => exact ⟨_, _, .continue_⟩
  | return_ value =>
    cases value with
    | none => exact ⟨_, _, .returnVoid⟩
    | some e =>
      rcases (placed_return hp hint stack slots).ok_or_trap with ⟨x, h⟩ | h
      · exact ⟨_, _, .returnValue h⟩
      · exact ⟨_, _, .returnTraps h⟩

theorem ends_forInit {init : ForInit} : Ends w n env (.statement init.asStatement) := by
  cases init with
  | declaration v => exact ends_declaration
  | assignment a => exact ends_action

/-! ## Statements in order and loops -/

theorem ends_statements {ss : List Statement}
    (h : ∀ s ∈ ss, ∀ k, k ≤ n → Ends w k env (.statement s)) :
    ∀ k, k ≤ n → Ends w k env (.statements ss) := by
  induction ss with
  | nil =>
    intro k _ pos after stack slots exit _ _ _
    exact ⟨_, _, .nil⟩
  | cons s ss ih =>
    intro k hk pos after stack slots exit hp hint hrun
    simp only [integralTask, integralList, Bool.and_eq_true] at hint
    obtain ⟨fin, hrow, rfl⟩ := hp
    obtain ⟨start, first, code, next, hreach, hy, hc, hrest⟩ := hrow.split_cons
    have hplaced : Placed w env start _ (.statement s) := ⟨none, first, code, next, hy, hc, rfl⟩
    obtain ⟨k₁, hk₁, hrun₁⟩ := rest_of_reaches (hreach _) hrun
    obtain ⟨o, slots₁, hexec⟩ := h s (List.mem_cons_self ..) k₁ (by omega) _ _ _ _ _ hplaced
      hint.1 hrun₁
    by_cases ho : o = .normal
    · subst ho
      have harrive := exec_arrives hplaced hexec hint.1 stack
      rw [Arrives, ending_none] at harrive
      obtain ⟨k₂, hk₂, hrun₂⟩ := rest_of_reaches harrive hrun₁
      obtain ⟨o, slots₂, hexec₂⟩ := ih (fun s hs => h s (List.mem_cons_of_mem _ hs)) k₂
        (by omega) _ _ _ _ _ ⟨fin, hrest, rfl⟩ hint.2 hrun₂
      exact ⟨o, slots₂, .cons hexec hexec₂⟩
    · exact ⟨o, slots₁, .stop hexec ho⟩

/-- Each turn of a loop takes a step, so what is left of the run after it is shorter. -/
theorem ends_loop (h : ∀ k, k < n → ∀ env task, Ends w k env task) {e : Option Expr}
    {update : Option Action} {body : Statement} : Ends w n env (.loop e update body) := by
  intro pos after stack slots exit hp hint hrun
  have hint' := hint
  simp only [integralTask, Bool.and_eq_true] at hint'
  have hloop := hp
  obtain ⟨cont, bottom, first, inner, next, bodyPos, updatePos, updateEnd, fin, hy, hc, rfl⟩ := hp
  obtain ⟨k₁, hk₁, hrun₁⟩ := hc.rest_of_label hrun
  have htest := hc.tests stack slots
  rcases htest.ok_or_trap with ⟨x, hx⟩ | hx
  · by_cases hzero : x = 0
    · exact ⟨_, _, .loopEnds (hzero ▸ hx)⟩
    · have hbegin := htest.ok hx
      rw [if_neg hzero] at hbegin
      obtain ⟨k₂, hk₂, hrun₂⟩ := rest_of_reaches hbegin hrun₁
      have hbody : Placed w (env.inside ⟨some cont, bottom⟩) bodyPos _ (.statement body) :=
        ⟨none, first, inner, next, hy, hc.body, rfl⟩
      obtain ⟨o, slots₁, hexec⟩ := h k₂ (by omega) _ _ _ _ _ _ _ hbody hint'.2 hrun₂
      cases ho : o.resumes with
      | false => exact ⟨_, _, .loopLeaves hx hzero hexec ho⟩
      | true =>
        have hresume := hc.resume (exec_arrives hbody hexec hint'.2 stack) ho
        obtain ⟨k₃, hk₃, hrun₃⟩ := rest_of_reaches hresume hrun₂
        have hupdate : Placed w env updatePos (.at updateEnd)
            (.statements (update.toList.map .action)) := ⟨updateEnd, hc.updates, rfl⟩
        have hlist := integralList_update hint'.1.2
        obtain ⟨o', slots₂, hexec'⟩ := h k₃ (by omega) _ _ _ _ _ _ _ hupdate hlist hrun₃
        by_cases ho' : o' = .normal
        · subst ho'
          have hagain := (exec_arrives hupdate hexec' hlist stack).trans (hc.repeats _)
          obtain ⟨k₄, hk₄, hrun₄⟩ := rest_of_reaches hagain hrun₃
          obtain ⟨o'', slots₃, hexec''⟩ := h k₄ (by omega) _ _ _ _ _ _ _ hloop
            hint hrun₄
          exact ⟨_, _, .loopResumes hx hzero hexec ho hexec' hexec''⟩
        · exact ⟨_, _, .updateStops hx hzero hexec ho hexec' ho'⟩
  · exact ⟨_, _, .loopTraps hx⟩

/-! ## All statements -/

theorem ends_statement (h : ∀ k, k < n → ∀ env task, Ends w k env task) (s : Statement) :
    ∀ k, k ≤ n → ∀ env, Ends w k env (.statement s) := by
  have hloop : ∀ k, k ≤ n → ∀ env e update body, Ends w k env (.loop e update body) := by
    intro k hk env e update body
    exact ends_loop fun j hj => h j (by omega)
  have hblock : ∀ b : Block, (∀ s ∈ b.statements, ∀ k, k ≤ n → ∀ env, Ends w k env (.statement s)) →
      ∀ k, k ≤ n → ∀ env, Ends w k env (.statement (.block b)) := by
    intro b ih k hk env pos after stack slots exit hp hint hrun
    rw [integralTask, integralStatement, integralBlock_iff] at hint
    have hall : ∀ s ∈ b.statements, ∀ k, k ≤ n → Ends w k (env.enter b.id) (.statement s) :=
      fun s hs k hk => ih s hs k hk _
    obtain ⟨o, slots', hexec⟩ := ends_statements hall k hk _ _ _ _ _ (placed_block hp) hint hrun
    exact ⟨o, slots', .block hexec⟩
  induction s using Statement.induction with
  | block b ih => exact hblock b ih
  | conditional p e body otherwise ihbody ihother =>
    intro k hk env pos after stack slots exit hp hint hrun
    simp only [integralTask, integralStatement, Bool.and_eq_true] at hint
    obtain ⟨bodyPos, afterBody, no, hbody, -, htest, -, helse⟩ := placed_conditional hp hint.1.1
    have htest := htest stack slots
    rcases htest.ok_or_trap with ⟨x, hx⟩ | hx
    · have hbegin := htest.ok hx
      by_cases hzero : x = 0
      · subst hzero
        cases otherwise with
        | none => exact ⟨_, _, .ifNone hx⟩
        | some s =>
          obtain ⟨elsePos, afterElse, hbranch, hreach, -⟩ := helse s rfl
          obtain ⟨k', hk', hrun'⟩ := rest_of_reaches (hbegin.trans (hreach _)) hrun
          obtain ⟨o, slots', hexec⟩ := ihother s rfl k' (by omega) _ _ _ _ _ _ hbranch hint.2 hrun'
          exact ⟨_, _, .ifFalse hx hexec⟩
      · rw [if_neg hzero] at hbegin
        obtain ⟨k', hk', hrun'⟩ := rest_of_reaches hbegin hrun
        obtain ⟨o, slots', hexec⟩ := ihbody k' (by omega) _ _ _ _ _ _ hbody hint.1.2 hrun'
        exact ⟨_, _, .ifTrue hx hzero hexec⟩
    · exact ⟨_, _, .conditionTraps hx⟩
  | whileLoop p e body _ =>
    intro k hk env pos after stack slots exit hp hint hrun
    simp only [integralTask, integralStatement, Bool.and_eq_true] at hint
    have hint' : integralTask env.arena env.scope (.loop (some e) none body) = true := by
      simpa [integralTask] using hint
    obtain ⟨o, slots', hexec⟩ := hloop k hk _ _ _ _ _ _ _ _ _ (placed_whileLoop hp hint.1) hint' hrun
    exact ⟨_, _, .whileLoop hexec⟩
  | forLoop p id init e update body _ =>
    intro k hk env pos after stack slots exit hp hint hrun
    rw [integralTask] at hint
    obtain ⟨hinit, he, hupdate, hbody⟩ := integral_forLoop hint
    obtain ⟨loopPos, hbefore, hplaced⟩ := placed_forLoop hp he
    have hinits : ∀ s ∈ init.toList.map ForInit.asStatement, ∀ k, k ≤ n →
        Ends w k (env.enter id) (.statement s) := by
      intro s hs k _
      obtain ⟨i, -, rfl⟩ := List.mem_map.1 hs
      exact ends_forInit
    obtain ⟨o, slots₁, hexec⟩ := ends_statements hinits k hk _ _ _ _ _ hbefore hinit hrun
    by_cases ho : o = .normal
    · subst ho
      obtain ⟨k', hk', hrun'⟩ := rest_of_reaches (exec_arrives hbefore hexec hinit stack) hrun
      have hint' : integralTask env.arena (scopeIn env.arena env.scope id)
          (.loop e update body) = true := by
        simp [integralTask, he, hupdate, hbody]
      obtain ⟨o', slots₂, hexec'⟩ := hloop k' (by omega) _ _ _ _ _ _ _ _ _ hplaced hint' hrun'
      exact ⟨_, _, .forLoop hexec hexec'⟩
    · exact ⟨_, _, .forLoopInit hexec ho⟩
  | switch p id e cases default_ ihcases ihdefault =>
    intro k hk env pos after stack slots exit hp hint hrun
    simp only [integralTask, integralStatement, Bool.and_eq_true] at hint
    obtain ⟨slot, testPos, finish, fin, hslot, hsel, hbodies, -, -⟩ := placed_switch hp hint.1.1
    have hsel := hsel stack slots
    rcases hsel.ok_or_trap with ⟨x, hx⟩ | hx
    · obtain ⟨entry, hreach, hrow⟩ := hbodies stack (slots.set slot x)
      rw [Slots.set_self] at hrow
      have hall : ∀ s ∈ (selected x cases default_).map .block, ∀ k, k ≤ n →
          Ends w k (env.inside ⟨none, finish⟩) (.statement s) := by
        intro s hs k hk
        obtain ⟨b, hb, rfl⟩ := List.mem_map.1 hs
        refine hblock b ?_ k hk _
        rcases mem_selected hb with ⟨c, hc, rfl⟩ | hd
        · exact ihcases c hc
        · exact ihdefault b hd
      obtain ⟨k', hk', hrun'⟩ := rest_of_reaches ((hsel.ok hx).trans hreach) hrun
      obtain ⟨o, slots', hexec⟩ := ends_statements hall k' (by omega) _ _ _ _ _ hrow
        (integralList_selected x hint.1.2 hint.2) hrun'
      exact ⟨_, _, .switch hx hslot hexec⟩
    · exact ⟨_, _, .selectorTraps hx⟩
  | jump p j => exact fun _ _ _ => ends_jump
  | action a => exact fun _ _ _ => ends_action
  | declaration v => exact fun _ _ _ => ends_declaration

/-- Every task whose code leaves the window ends in the semantics. -/
theorem ends_task (n : Nat) : ∀ env task, Ends w n env task := by
  induction n using Nat.strongRecOn with
  | ind n ih =>
    intro env task
    cases task with
    | statement s => exact ends_statement ih s n (Nat.le_refl _) env
    | statements ss =>
      exact ends_statements (fun s _ k hk => ends_statement ih s k hk env) n (Nat.le_refl _)
    | loop e update body => exact ends_loop ih

end Javelet.Preservation
