import Javelet.Proofs.Assembly.Layout
import Javelet.Proofs.Lowering.Methods
import Javelet.Proofs.Preservation.Termination

/-!
# Statements inside compiled methods

The code of a statement over integers, run where it stands in the finished listing of a compiled
method, leaves its place exactly as the meaning of the statement says.
-/
namespace Javelet.Preservation

open Assembly Lowering Semantics

/-- How a run leaves the code of a statement that ends so. -/
def LeavesBy (site : Site) (stack : List Int32) (slots : Slots) (exit : Exit) : Outcome → Prop
  | .normal =>
    match site.statement.isConditional, site.join with
    | true, some l => exit = .jumped l ⟨stack, slots⟩
    | _, _ => exit = .fell ⟨stack, slots⟩
  | .broke => ∃ l, site.env.breakTarget? = some l ∧ exit = .jumped l ⟨stack, slots⟩
  | .continued => ∃ l, site.env.continueTarget? = some l ∧ exit = .jumped l ⟨stack, slots⟩
  | .returned value => exit = .returned value slots
  | .trapped => exit = .trapped slots

/-- In the window of a statement, an arrival is an exit. -/
theorem exists_leavesBy {site : Site} {code after : Segment} {next : Label} {stack : List Int32}
    {slots : Slots} {o : Outcome} {start : Config}
    (hy : Yields (statement site.env site.join site.statement) site.first code next)
    (hb : site.Bounded)
    (hold : (Window.around site.before code after).Holds (size site.before) code)
    (h : Arrives (Window.around site.before code after) site.env
      (ending (Window.around site.before code after) site.statement site.join
        (size site.before + size code)) stack start o slots) :
    ∃ exit, LeavesBy site stack slots exit o ∧
      (Window.around site.before code after).Reaches start (.left exit) := by
  have hout : ∀ l : Nat, l < site.first →
      (Window.around site.before code after).target l ⟨stack, slots⟩ =
        .left (.jumped l ⟨stack, slots⟩) := by
    intro l hl
    apply Window.target_around hold
    intro hmem
    have hrange := (statement_labelled _ hy).mem hmem
    omega
  cases o with
  | normal =>
    rw [Arrives] at h
    unfold ending at h
    unfold LeavesBy
    cases hc : site.statement.isConditional with
    | false =>
      rw [hc] at h
      exact ⟨_, rfl, h.trans (Window.reaches_fell _)⟩
    | true =>
      cases hj : site.join with
      | none =>
        rw [hc, hj] at h
        exact ⟨_, rfl, h.trans (Window.reaches_fell _)⟩
      | some l =>
        rw [hc, hj] at h
        change Window.Reaches _ start (Window.target _ l ⟨stack, slots⟩) at h
        rw [hout l (hb.join l hj)] at h
        exact ⟨_, rfl, h⟩
  | broke =>
    obtain ⟨l, hl, h⟩ := h
    rw [hout l (hb.targets.breakTarget hl)] at h
    exact ⟨_, ⟨l, hl, rfl⟩, h⟩
  | continued =>
    obtain ⟨l, hl, h⟩ := h
    rw [hout l (hb.targets.continueTarget hl)] at h
    exact ⟨_, ⟨l, hl, rfl⟩, h⟩
  | returned value => exact ⟨_, rfl, h⟩
  | trapped => exact ⟨_, rfl, h⟩

theorem LeavesBy.unique {site : Site} {stack : List Int32} {slots : Slots} {exit exit' : Exit}
    {o : Outcome} (h : LeavesBy site stack slots exit o) (h' : LeavesBy site stack slots exit' o) :
    exit = exit' := by
  cases o with
  | normal =>
    simp only [LeavesBy] at h h'
    split at h
    · rename_i hc hj
      simp only [hc, hj] at h'
      exact h.trans h'.symm
    · split at h'
      · simp_all
      · exact h.trans h'.symm
  | broke =>
    obtain ⟨l, hl, rfl⟩ := h
    obtain ⟨l', hl', rfl⟩ := h'
    rw [Option.some.inj (hl.symm.trans hl')]
  | continued =>
    obtain ⟨l, hl, rfl⟩ := h
    obtain ⟨l', hl', rfl⟩ := h'
    rw [Option.some.inj (hl.symm.trans hl')]
  | returned value => exact Eq.trans h (Eq.symm h')
  | trapped => exact Eq.trans h (Eq.symm h')

/-- A statement over integers, at its place in the finished listing of a compiled method: the run
of its code leaves that place exactly as the meaning of the statement says. -/
theorem statement_run_iff {source : String} {mc : MethodCode} {site : Site}
    (h : InMethod source mc site)
    (hint : integralStatement site.env.arena site.env.scope site.statement = true) :
    ∃ code after next,
      Yields (statement site.env site.join site.statement) site.first code next ∧
      printed (listing mc.code) = (Window.around site.before code after).program ∧
      ∀ stack slots exit, (Window.around site.before code after).Reaches
          (.at (size site.before) ⟨stack, slots⟩) (.left exit) ↔
        ∃ o slots', Exec site.env.arena site.env.scope (.statement site.statement) slots o slots' ∧
          LeavesBy site stack slots' exit o := by
  obtain ⟨hb, hn, code, after, next, hy, hw⟩ := h.fits
  obtain ⟨tail, -, hprinted⟩ := printed_listing mc.code
  have hold : (Window.around site.before code (after ++ tail)).Holds (size site.before) code := by
    rw [hw, labelsOf_append, labelsOf_append] at hn
    have hn' := (List.nodup_append.1 hn).1
    refine Window.holds_around (statement_labelled _ hy).nodup ?_ _
    intro l hl hbefore
    exact (List.nodup_append.1 hn').2.2 l hbefore l hl rfl
  have hplaced : Placed (Window.around site.before code (after ++ tail)) site.env
      (size site.before) _ (.statement site.statement) :=
    ⟨site.join, site.first, code, next, hy, hold, rfl⟩
  refine ⟨code, after ++ tail, next, hy, ?_, ?_⟩
  · rw [hprinted, hw]
    simp [Window.around]
  · intro stack slots exit
    constructor
    · rintro ⟨n, hrun⟩
      obtain ⟨o, slots', hexec⟩ := ends_task n _ _ _ _ _ _ _ hplaced hint hrun
      obtain ⟨exit', hleave, hrun'⟩ :=
        exists_leavesBy hy hb hold (exec_arrives hplaced hexec hint stack)
      obtain rfl := Window.Reaches.exit_unique ⟨n, hrun⟩ hrun'
      exact ⟨o, slots', hexec, hleave⟩
    · rintro ⟨o, slots', hexec, hleave⟩
      obtain ⟨exit', hleave', hrun⟩ :=
        exists_leavesBy hy hb hold (exec_arrives hplaced hexec hint stack)
      rw [hleave.unique hleave']
      exact hrun

/-- Whether a source text is accepted and has a method with a body over integers. -/
def hasIntegralMethod (source : String) : Bool :=
  match parseSource source with
  | .error _ => false
  | .ok program =>
    match analyze program with
    | .error _ => false
    | .ok analysis =>
      let env := Env.outermost analysis.table analysis.arena
      (Lowering.program analysis.table analysis.arena program).isOk &&
        program.classes.any fun decl => decl.methods.any fun m =>
          integralStatement analysis.arena ((classEnv env decl).enter m.signature.id).scope
            (.block m.body)

theorem exists_integral_inMethod {source : String} (h : hasIntegralMethod source = true) :
    ∃ mc site, InMethod source mc site ∧
      integralStatement site.env.arena site.env.scope site.statement = true := by
  unfold hasIntegralMethod at h
  split at h
  · cases h
  · rename_i program hp
    split at h
    · cases h
    · rename_i analysis ha
      simp only [Bool.and_eq_true, List.any_eq_true, Program.classes, List.mem_filterMap] at h
      obtain ⟨hok, decl, ⟨d, hd, hdecl⟩, m, hm, hint⟩ := h
      cases d with
      | interface i => cases hdecl
      | class_ c =>
        cases hdecl
        cases hl : Lowering.program analysis.table analysis.arena program with
        | error fault =>
          rw [hl] at hok
          cases hok
        | ok sections =>
          obtain ⟨mc, site, hin, hs, he⟩ := exists_inMethod ⟨hp, ha, hl⟩ hd
            (.inr (List.mem_append_left _ hm))
          refine ⟨mc, site, hin, ?_⟩
          rw [hs, he]
          exact hint

/-- A method with a loop over integers. -/
def halving : String := "class A { int f(int n) { while (n > 9) { n /= 2; } return n; } }"

/-- The body of the method does what it means, in its finished listing. -/
theorem halving_run_iff : hasIntegralMethod halving = true ∧
    ∃ mc site code after, InMethod halving mc site ∧
      printed (listing mc.code) = (Window.around site.before code after).program ∧
      ∀ stack slots exit, (Window.around site.before code after).Reaches
          (.at (size site.before) ⟨stack, slots⟩) (.left exit) ↔
        ∃ o slots', Exec site.env.arena site.env.scope (.statement site.statement) slots o slots' ∧
          LeavesBy site stack slots' exit o := by
  have h : hasIntegralMethod halving = true := by decide +kernel
  obtain ⟨mc, site, hin, hint⟩ := exists_integral_inMethod h
  obtain ⟨code, after, next, -, hprinted, hrun⟩ := statement_run_iff hin hint
  exact ⟨h, mc, site, code, after, hin, hprinted, hrun⟩

end Javelet.Preservation
