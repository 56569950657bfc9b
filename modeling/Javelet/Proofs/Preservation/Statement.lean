import Javelet.Proofs.Preservation.Layout

/-!
# Lowered statements do what statements mean

Whenever a statement over integers ends in the semantics, a run of its code arrives where the
lowering says: behind the code or at the join label, at the target of a break or a continue, or
out of the method. The proof follows the derivation of the semantics, and the arrangement of the
code says how a run gets from one part to the next.
-/
namespace Javelet.Preservation

open Assembly Lowering Semantics

variable {w : Window} {env : Env} {stack : List Int32} {slots slots' : Slots} {o : Outcome}
  {pos : Nat} {start c : Config} {after after' : Memory → Config}

/-! ## Arrivals -/

/-- A run comes to where a statement with this outcome leads. -/
def Arrives (w : Window) (env : Env) (after : Memory → Config) (stack : List Int32)
    (start : Config) : Outcome → Slots → Prop
  | .normal, slots => w.Reaches start (after ⟨stack, slots⟩)
  | .broke, slots => ∃ l, env.breakTarget? = some l ∧ w.Reaches start (w.target l ⟨stack, slots⟩)
  | .continued, slots =>
    ∃ l, env.continueTarget? = some l ∧ w.Reaches start (w.target l ⟨stack, slots⟩)
  | .returned value, slots => w.Reaches start (.left (.returned value slots))
  | .trapped, slots => w.Reaches start (.left (.trapped slots))

theorem Arrives.of_reaches (h : w.Reaches c start) (h' : Arrives w env after stack start o slots) :
    Arrives w env after stack c o slots := by
  cases o with
  | normal => exact h.trans h'
  | broke =>
    obtain ⟨l, hl, h'⟩ := h'
    exact ⟨l, hl, h.trans h'⟩
  | continued =>
    obtain ⟨l, hl, h'⟩ := h'
    exact ⟨l, hl, h.trans h'⟩
  | returned value => exact h.trans h'
  | trapped => exact h.trans h'

/-- Where a run goes on after a normal end matters for a normal end only. -/
theorem Arrives.go_on (h : Arrives w env after stack start o slots)
    (hn : o = .normal → w.Reaches (after ⟨stack, slots⟩) (after' ⟨stack, slots⟩)) :
    Arrives w env after' stack start o slots := by
  cases o with
  | normal => exact h.trans (hn rfl)
  | _ => exact h

/-- Out of the body of a loop that does not go on. -/
theorem Arrives.leave_loop {cont : Option Label} {bottom : Label}
    (h : Arrives w (env.inside ⟨cont, bottom⟩) after stack start o slots)
    (ho : o.resumes = false) (hb : ∀ m, w.Reaches (w.target bottom m) (after' m)) :
    Arrives w env after' stack start o.leaving slots := by
  cases o with
  | normal => cases ho
  | broke =>
    obtain ⟨l, hl, h⟩ := h
    cases hl
    exact h.trans (hb _)
  | continued => cases ho
  | returned value => exact h
  | trapped => exact h

/-- Out of a switch. A continue goes to the loop around it. -/
theorem Arrives.leave_switch {finish : Label}
    (h : Arrives w (env.inside ⟨none, finish⟩) after stack start o slots)
    (hn : ∀ m, w.Reaches (after m) (after' m))
    (hb : ∀ m, w.Reaches (w.target finish m) (after' m)) :
    Arrives w env after' stack start o.leaving slots := by
  cases o with
  | normal => exact h.trans (hn _)
  | broke =>
    obtain ⟨l, hl, h⟩ := h
    cases hl
    exact h.trans (hb _)
  | continued => exact h
  | returned value => exact h
  | trapped => exact h

/-! ## Placed tasks -/

/-- Where a statement goes on behind its code. A conditional with a join label goes there. -/
def ending (w : Window) (s : Statement) (join : Option Label) (fin : Nat) (m : Memory) : Config :=
  match s.isConditional, join with
  | true, some l => w.target l m
  | _, _ => .at fin m

theorem ending_none (w : Window) (s : Statement) (fin : Nat) (m : Memory) :
    ending w s none fin m = .at fin m := by
  unfold ending
  cases s.isConditional <;> rfl

/-- A task is made of statements over integers. -/
def integralTask (arena : Arena) (scope : ScopeId) : Task → Bool
  | .statement s => integralStatement arena scope s
  | .statements ss => integralList arena scope ss
  | .loop e update body => e.all (integral (namesAt arena scope)) &&
    update.all (integralAction (namesAt arena scope)) && integralStatement arena scope body

/-- The code of a task stands in a window from `pos` on; behind it a run goes on at `after`. -/
def Placed (w : Window) (env : Env) (pos : Nat) (after : Memory → Config) : Task → Prop
  | .statement s => ∃ join first code next, Yields (statement env join s) first code next ∧
      w.Holds pos code ∧ after = ending w s join (pos + size code)
  | .statements ss => ∃ fin, Row w env ss pos fin ∧ after = .at fin
  | .loop e update body => ∃ cont bottom first inner next bodyPos updatePos updateEnd fin,
      Yields (statement (env.inside ⟨some cont, bottom⟩) none body) first inner next ∧
      Circle w env e update inner cont bottom pos bodyPos updatePos updateEnd fin ∧
      after = .at fin

section Circle

variable {e : Option Expr} {update : Option Action} {inner : Segment} {cont bottom : Label}
  {bodyPos updatePos updateEnd fin : Nat}

theorem Circle.label_reaches
    (h : Circle w env e update inner cont bottom pos bodyPos updatePos updateEnd fin) {m : Memory} :
    w.Reaches (.at pos m) (.at (pos + 1) m) := by
  obtain ⟨l, rest, hl⟩ := h.starts
  exact hl.step_label

/-- A body that lets the loop go on leads to the update. -/
theorem Circle.resume {s : Statement}
    (h : Circle w env e update inner cont bottom pos bodyPos updatePos updateEnd fin)
    (hb : Arrives w (env.inside ⟨some cont, bottom⟩) (ending w s none (bodyPos + size inner)) stack
      start o slots) (ho : o.resumes = true) :
    w.Reaches start (.at updatePos ⟨stack, slots⟩) := by
  cases o with
  | normal =>
    rw [Arrives, ending_none] at hb
    exact hb.trans (h.ends _)
  | continued =>
    obtain ⟨l, hl, hb⟩ := hb
    cases hl
    exact hb.trans (h.continues _)
  | broke => cases ho
  | returned value => cases ho
  | trapped => cases ho

end Circle

/-- The parts of a conditional: its test, its body, and the other branch if there is one. -/
theorem placed_conditional {p : Position} {e : Expr} {body : Statement}
    {otherwise : Option Statement}
    (h : Placed w env pos after (.statement (.conditional p e body otherwise)))
    (he : integral (namesAt env.arena env.scope) e = true) :
    ∃ bodyPos afterBody no, Placed w env bodyPos afterBody (.statement body) ∧
      (∀ m, w.Reaches (afterBody m) (after m)) ∧
      (∀ stack slots, Finishes w (.at pos ⟨stack, slots⟩) slots
        (fun x => if x = 0 then w.target no ⟨stack, slots⟩ else .at bodyPos ⟨stack, slots⟩)
        (eval (namesAt env.arena env.scope) slots e)) ∧
      (otherwise = none → ∀ m, w.Reaches (w.target no m) (after m)) ∧
      (∀ s, otherwise = some s → ∃ elsePos afterElse,
        Placed w env elsePos afterElse (.statement s) ∧
        (∀ m, w.Reaches (w.target no m) (.at elsePos m)) ∧
        ∀ m, w.Reaches (afterElse m) (after m)) := by
  obtain ⟨join, first, code, next, hy, hold, rfl⟩ := h
  obtain ⟨decision, inner, rest, middle, middle', hd, hi, hr, rfl⟩ := yields_conditional.1 hy
  generalize hno : otherwiseLabel first (join.getD (first + 1)) otherwise = no at hd hr
  have hparts := hold
  simp only [List.append_assoc, List.cons_append] at hparts
  have hlast := hold.right
  have hfinish : ∀ m, w.Reaches (w.target (join.getD (first + 1)) m)
      (ending w (.conditional p e body otherwise) join (pos + size (decision ++
        .label first :: inner ++ .op (.goto (join.getD (first + 1))) :: rest ++
          if join.isNone then [Item.label (join.getD (first + 1))] else [])) m) := by
    intro m
    cases join with
    | some j => exact .refl
    | none =>
      simp only [Option.isNone_none, if_true, ending, size_append, ← Nat.add_assoc] at hlast ⊢
      exact hlast.target_reaches
  have hbody := hparts.right.behind_label
  have hgoto := hbody.right
  refine ⟨_, _, no, ⟨none, _, inner, _, hi, hbody.left, rfl⟩, ?_, ?_, ?_, ?_⟩
  · intro m
    rw [ending_none]
    exact (hgoto.step_jump rfl).trans (hfinish m)
  · intro stack slots
    exact test_finishes (e := some e) he hd hparts
  · rintro rfl m
    simp only [otherwiseLabel, Option.isSome_none, Bool.false_eq_true, if_false] at hno
    rw [← hno]
    exact hfinish m
  · rintro s rfl
    have hrest := hgoto.behind_op.left
    rcases yields_elseBranch.1 hr with ⟨hs, c, hc, rfl⟩ | ⟨hs, c, hc, rfl⟩
    · refine ⟨_, _, ⟨_, _, c, _, hc, hrest.behind_label, rfl⟩, ?_, ?_⟩
      · intro m
        exact hrest.target_reaches
      · intro m
        simp only [ending, hs]
        exact hfinish m
    · refine ⟨_, _, ⟨_, _, c, _, hc, hrest.behind_label.left, rfl⟩, ?_, ?_⟩
      · intro m
        exact hrest.target_reaches
      · intro m
        simp only [ending, hs]
        exact (hrest.behind_label.right.step_jump rfl).trans (hfinish m)

theorem placed_whileLoop {p : Position} {e : Expr} {body : Statement}
    (h : Placed w env pos after (.statement (.whileLoop p e body)))
    (he : integral (namesAt env.arena env.scope) e = true) :
    Placed w env pos after (.loop (some e) none body) := by
  obtain ⟨join, first, code, next, hy, hold, rfl⟩ := h
  obtain ⟨decision, inner, middle, hd, hi, rfl⟩ := yields_whileLoop.1 hy
  have hcode : .label first :: decision ++ .label (first + 1) :: inner ++
      [Item.op (Instruction.goto first), Item.label (first + 2)] =
      loopCode first (first + 1) (first + 2) decision inner [] := by
    simp [loopCode]
  rw [hcode] at hold ⊢
  refine ⟨_, _, _, inner, _, _, _, _, _, hi, circle_whileLoop he hd hold, ?_⟩
  funext m
  simp [ending, Statement.isConditional, loopCode]
  omega

/-- The parts of a for loop: what comes before it, and the loop. -/
theorem placed_forLoop {p : Position} {id : NodeId} {init : Option ForInit} {e : Option Expr}
    {update : Option Action} {body : Statement}
    (h : Placed w env pos after (.statement (.forLoop p id init e update body)))
    (he : e.all (integral (namesAt env.arena (scopeIn env.arena env.scope id))) = true) :
    ∃ loopPos, Placed w (env.enter id) pos (.at loopPos)
        (.statements (init.toList.map ForInit.asStatement)) ∧
      Placed w (env.enter id) loopPos after (.loop e update body) := by
  obtain ⟨join, first, code, next, hy, hold, rfl⟩ := h
  obtain ⟨before, decision, inner, tail, top, middle, middle', hb, hd, hi, ha, rfl⟩ :=
    yields_forLoop.1 hy
  have hcode : before ++ .label top :: decision ++ .label (top + 1) :: inner ++
      .label (top + 2) :: tail ++ [Item.op (Instruction.goto top), Item.label (top + 3)] =
      before ++ loopCode top (top + 1) (top + 3) decision inner (.label (top + 2) :: tail) := by
    simp [loopCode]
  rw [hcode] at hold ⊢
  refine ⟨_, ⟨_, row_forInit hb hold.left, rfl⟩, _, _, _, inner, _, _, _, _, _, hi,
    circle_forLoop he hd ha hold.right, ?_⟩
  funext m
  simp [ending, Statement.isConditional, loopCode]
  omega

/-- The parts of a switch: the selector, and for each of its values the bodies to run. -/
theorem placed_switch {p : Position} {id : NodeId} {e : Expr} {cases : List Case}
    {default_ : Option Block}
    (h : Placed w env pos after (.statement (.switch p id e cases default_)))
    (he : integral (namesAt env.arena env.scope) e = true) :
    ∃ slot testPos finish fin, env.arena.reservedSlot id = some slot ∧
      (∀ stack slots, Finishes w (.at pos ⟨stack, slots⟩) slots
        (fun x => .at testPos ⟨stack, slots.set slot x⟩) (eval (namesAt env.arena env.scope) slots e)) ∧
      (∀ stack slots, ∃ entry, w.Reaches (.at testPos ⟨stack, slots⟩) (.at entry ⟨stack, slots⟩) ∧
        Placed w (env.inside ⟨none, finish⟩) entry (.at fin)
          (.statements ((selected (slots slot) cases default_).map .block))) ∧
      (∀ m, w.Reaches (.at fin m) (after m)) ∧
      ∀ m, w.Reaches (w.target finish m) (after m) := by
  obtain ⟨join, first, code, next, hy, hold, rfl⟩ := h
  obtain ⟨slot, store, tests, bodies, last, label, miss, finish, middle, hmiss, hfinish, hslot,
    hs, ht, hb, hl, rfl⟩ := yields_switch.1 hy
  obtain ⟨v, hv, -, rfl⟩ := yields_selector.1 hs
  simp only [List.append_assoc, List.cons_append] at hold
  have htests := hold.right.right.left
  have hgoto := hold.right.right.right
  have hbodies := hgoto.behind_op.left
  have hlast := hgoto.behind_op.right.left
  have hend := hgoto.behind_op.right.right
  have hsize : pos + size (v.code ++ ops [Local.store ⟨slot, .int⟩] ++ tests ++
      .op (.goto miss) :: bodies ++ last ++ [Item.label finish]) =
      pos + size v.code + 1 + size tests + 1 + size bodies + size last + 1 := by
    simp [ops]
    omega
  rw [hsize]
  have hafter : ∀ m, w.Reaches
      (.at (pos + size v.code + 1 + size tests + 1 + size bodies + size last) m)
      (ending w (.switch p id e cases default_) join
        (pos + size v.code + 1 + size tests + 1 + size bodies + size last + 1) m) :=
    fun m => hend.step_label
  refine ⟨slot, pos + size v.code + 1, finish, _, hslot, ?_, ?_, hafter, ?_⟩
  · intro stack slots
    rw [← bind_pure (eval (namesAt env.arena env.scope) slots e)]
    exact (expr_computes e he hv hold.left).bind fun x => store_reaches hold.right
  · intro stack slots
    have hjump : w.Reaches (.at (pos + size v.code + 1 + size tests) ⟨stack, slots⟩)
        (.at (pos + size v.code + 1 + size tests + 1 + size bodies) ⟨stack, slots⟩) := by
      refine (hgoto.step_jump rfl).trans ?_
      cases default_ with
      | none =>
        obtain ⟨rfl, -⟩ := yields_pure.1 hl
        simp only [Option.toList_none, List.length_nil, Nat.add_zero] at hfinish
        rw [← hfinish, hend.target_label]
        exact .refl
      | some b =>
        obtain ⟨body, -, rfl⟩ := yields_defaultBody.1 hl
        rw [hlast.target_label]
        exact .refl
    obtain ⟨entry, hreach, hrow⟩ := selected_reaches (l := ⟨slot, .int⟩) rfl ht htests hb hbodies
      hjump (row_defaultBody hl hlast)
    exact ⟨entry, hreach, _, hrow, rfl⟩
  · intro m
    rw [hend.target_label]
    exact hafter m

theorem placed_return {p : Position} {e : Expr}
    (h : Placed w env pos after (.statement (.jump p (.return_ (some e)))))
    (he : integral (namesAt env.arena env.scope) e = true) (stack : List Int32)
    (slots : Slots) :
    Finishes w (.at pos ⟨stack, slots⟩) slots (fun x => .left (.returned (some x) slots))
      (eval (namesAt env.arena env.scope) slots e) := by
  obtain ⟨join, first, code, next, hy, hold, -⟩ := h
  rw [statement] at hy
  obtain ⟨v, hv, rfl⟩ := yields_jump_value.1 hy
  rw [isInteger_of_integral he hv, if_pos rfl] at hold
  rw [← bind_pure (eval (namesAt env.arena env.scope) slots e)]
  refine (expr_computes e he hv hold.left).bind fun x => ?_
  have hret : w.Reaches (.at (pos + size v.code) ⟨x :: stack, slots⟩)
      (.left (.returned (some x) slots)) :=
    hold.right.step_return rfl
  exact hret

theorem placed_block {b : Block} (h : Placed w env pos after (.statement (.block b))) :
    Placed w (env.enter b.id) pos after (.statements b.statements) := by
  obtain ⟨join, first, code, next, hy, hold, rfl⟩ := h
  rw [statement] at hy
  exact ⟨_, row_of_yields (yields_block.1 hy) hold, rfl⟩

theorem placed_assignment {a : Assignment}
    (h : Placed w env pos after (.statement (.action (.assignment a))))
    (ha : integralAssignment (namesAt env.arena env.scope) a = true) (stack : List Int32)
    (slots : Slots) :
    Finishes w (.at pos ⟨stack, slots⟩) slots (fun slots' => after ⟨stack, slots'⟩)
      (assign (namesAt env.arena env.scope) slots a) := by
  obtain ⟨join, first, code, next, hy, hold, rfl⟩ := h
  rw [statement, action] at hy
  exact assignment_finishes ha hy hold

theorem placed_declaration {v : Variable}
    (h : Placed w env pos after (.statement (.declaration v)))
    (hv : integralVariable (namesAt env.arena env.scope) v = true) (stack : List Int32)
    (slots : Slots) :
    Finishes w (.at pos ⟨stack, slots⟩) slots (fun slots' => after ⟨stack, slots'⟩)
      (declare (namesAt env.arena env.scope) slots v) := by
  obtain ⟨join, first, code, next, hy, hold, rfl⟩ := h
  rw [statement] at hy
  exact variable_finishes hv hy hold

/-! ## The simulation -/

variable {arena : Arena} {scope : ScopeId} {task : Task} {table : Types.Table}
  {className : String}

/-- The code of a task follows its meaning. -/
theorem arrives_of_exec (h : Exec arena scope task slots o slots') :
    ∀ {targets pos after}, integralTask arena scope task = true →
      Placed w ⟨table, arena, className, scope, targets⟩ pos after task → ∀ stack,
      Arrives w ⟨table, arena, className, scope, targets⟩ after stack (.at pos ⟨stack, slots⟩)
        o slots' := by
  induction h with
  | block _ ih =>
    intro targets pos after hint hp stack
    rw [integralTask, integralStatement, integralBlock_iff] at hint
    exact ih hint (placed_block hp) stack
  | ifTrue he hx _ ih =>
    intro targets pos after hint hp stack
    simp only [integralTask, integralStatement, Bool.and_eq_true] at hint
    obtain ⟨bodyPos, afterBody, no, hbody, hafter, htest, -, -⟩ := placed_conditional hp hint.1.1
    have hrun := (htest stack _).ok he
    rw [if_neg hx] at hrun
    exact ((ih hint.1.2 hbody stack).go_on fun _ => hafter _).of_reaches hrun
  | ifFalse he _ ih =>
    intro targets pos after hint hp stack
    simp only [integralTask, integralStatement, integralOption, Bool.and_eq_true] at hint
    obtain ⟨bodyPos, afterBody, no, -, -, htest, -, helse⟩ := placed_conditional hp hint.1.1
    obtain ⟨elsePos, afterElse, hbranch, hreach, hafter⟩ := helse _ rfl
    exact ((ih hint.2 hbranch stack).go_on fun _ => hafter _).of_reaches
      (((htest stack _).ok he).trans (hreach _))
  | ifNone he =>
    intro targets pos after hint hp stack
    simp only [integralTask, integralStatement, Bool.and_eq_true] at hint
    obtain ⟨bodyPos, afterBody, no, -, -, htest, hnone, -⟩ := placed_conditional hp hint.1.1
    exact ((htest stack _).ok he).trans (hnone rfl _)
  | conditionTraps he =>
    intro targets pos after hint hp stack
    simp only [integralTask, integralStatement, Bool.and_eq_true] at hint
    obtain ⟨bodyPos, afterBody, no, -, -, htest, -, -⟩ := placed_conditional hp hint.1.1
    exact (htest stack _).trap he
  | whileLoop _ ih =>
    intro targets pos after hint hp stack
    simp only [integralTask, integralStatement, Bool.and_eq_true] at hint
    refine ih ?_ (placed_whileLoop hp hint.1) stack
    simpa [integralTask] using hint
  | forLoop _ _ ih ih' =>
    intro targets pos after hint hp stack
    rw [integralTask] at hint
    obtain ⟨hinit, he, hupdate, hbody⟩ := integral_forLoop hint
    obtain ⟨loopPos, hbefore, hloop⟩ := placed_forLoop hp he
    have hrest := ih' (by simp [integralTask, he, hupdate, hbody]) hloop stack
    exact hrest.of_reaches (ih hinit hbefore stack)
  | forLoopInit _ hne ih =>
    intro targets pos after hint hp stack
    rw [integralTask] at hint
    obtain ⟨hinit, he, -, -⟩ := integral_forLoop hint
    obtain ⟨loopPos, hbefore, -⟩ := placed_forLoop hp he
    exact (ih hinit hbefore stack).go_on fun h => absurd h hne
  | switch he hslot _ ih =>
    intro targets pos after hint hp stack
    simp only [integralTask, integralStatement, Bool.and_eq_true] at hint
    obtain ⟨slot, testPos, finish, fin, hslot', hsel, hbodies, hn, hb⟩ := placed_switch hp hint.1.1
    obtain rfl := Option.some.inj (hslot.symm.trans hslot')
    have hrun := (hsel stack _).ok he
    obtain ⟨entry, hreach, hrow⟩ := hbodies stack (Slots.set _ _ _)
    rw [Slots.set_self] at hrow
    have hrest := ih (integralList_selected _ hint.1.2 hint.2) hrow stack
    exact (hrest.of_reaches (hrun.trans hreach)).leave_switch hn hb
  | selectorTraps he =>
    intro targets pos after hint hp stack
    simp only [integralTask, integralStatement, Bool.and_eq_true] at hint
    obtain ⟨slot, testPos, finish, fin, -, hsel, -⟩ := placed_switch hp hint.1.1
    exact (hsel stack _).trap he
  | returnVoid =>
    intro targets pos after hint hp stack
    obtain ⟨join, first, code, next, hy, hold, -⟩ := hp
    rw [statement] at hy
    obtain ⟨rfl, -⟩ := yields_pure.1 hy
    exact hold.step_return rfl
  | returnValue he =>
    intro targets pos after hint hp stack
    exact (placed_return hp hint stack _).ok he
  | returnTraps he =>
    intro targets pos after hint hp stack
    exact (placed_return hp hint stack _).trap he
  | break_ =>
    intro targets pos after hint hp stack
    obtain ⟨join, first, code, next, hy, hold, -⟩ := hp
    rw [statement] at hy
    obtain ⟨target, ht, -, rfl⟩ := yields_jump_break.1 hy
    exact ⟨target, ht, hold.step_jump rfl⟩
  | continue_ =>
    intro targets pos after hint hp stack
    obtain ⟨join, first, code, next, hy, hold, -⟩ := hp
    rw [statement] at hy
    obtain ⟨target, ht, -, rfl⟩ := yields_jump_continue.1 hy
    exact ⟨target, ht, hold.step_jump rfl⟩
  | assignment ha =>
    intro targets pos after hint hp stack
    exact (placed_assignment hp hint stack _).ok ha
  | assignmentTraps ha =>
    intro targets pos after hint hp stack
    exact (placed_assignment hp hint stack _).trap ha
  | declaration hv =>
    intro targets pos after hint hp stack
    exact (placed_declaration hp hint stack _).ok hv
  | declarationTraps hv =>
    intro targets pos after hint hp stack
    exact (placed_declaration hp hint stack _).trap hv
  | nil =>
    intro targets pos after hint hp stack
    obtain ⟨fin, hrow, rfl⟩ := hp
    exact hrow.reaches_of_nil _
  | cons _ _ ih ih' =>
    intro targets pos after hint hp stack
    simp only [integralTask, integralList, Bool.and_eq_true] at hint
    obtain ⟨fin, hrow, rfl⟩ := hp
    obtain ⟨begin_, first, code, next, hreach, hy, hc, hrest⟩ := hrow.split_cons
    have hfirst := ih hint.1 ⟨none, first, code, next, hy, hc, rfl⟩ stack
    have hsecond := ih' hint.2 ⟨fin, hrest, rfl⟩ stack
    rw [Arrives, ending_none] at hfirst
    exact hsecond.of_reaches ((hreach _).trans hfirst)
  | stop _ hne ih =>
    intro targets pos after hint hp stack
    simp only [integralTask, integralList, Bool.and_eq_true] at hint
    obtain ⟨fin, hrow, rfl⟩ := hp
    obtain ⟨begin_, first, code, next, hreach, hy, hc, -⟩ := hrow.split_cons
    have hfirst := ih hint.1 ⟨none, first, code, next, hy, hc, rfl⟩ stack
    exact (hfirst.of_reaches (hreach _)).go_on fun h => absurd h hne
  | loopEnds he =>
    intro targets pos after hint hp stack
    obtain ⟨cont, bottom, first, inner, next, bodyPos, updatePos, updateEnd, fin, hy, hc, rfl⟩ := hp
    exact hc.label_reaches.trans ((hc.tests stack _).ok he)
  | loopTraps he =>
    intro targets pos after hint hp stack
    obtain ⟨cont, bottom, first, inner, next, bodyPos, updatePos, updateEnd, fin, hy, hc, rfl⟩ := hp
    exact hc.label_reaches.trans ((hc.tests stack _).trap he)
  | loopLeaves he hx _ ho ih =>
    intro targets pos after hint hp stack
    simp only [integralTask, Bool.and_eq_true] at hint
    obtain ⟨cont, bottom, first, inner, next, bodyPos, updatePos, updateEnd, fin, hy, hc, rfl⟩ := hp
    have htest := (hc.tests stack _).ok he
    rw [if_neg hx] at htest
    have hbody := ih hint.2 ⟨none, first, inner, next, hy, hc.body, rfl⟩ stack
    exact (hbody.leave_loop ho hc.breaks).of_reaches (hc.label_reaches.trans htest)
  | loopResumes he hx _ ho _ _ ih ih' ih'' =>
    intro targets pos after hint hp stack
    have hint' := hint
    simp only [integralTask, Bool.and_eq_true] at hint'
    obtain ⟨cont, bottom, first, inner, next, bodyPos, updatePos, updateEnd, fin, hy, hc, rfl⟩ := hp
    have htest := (hc.tests stack _).ok he
    rw [if_neg hx] at htest
    have hbody := ih hint'.2 ⟨none, first, inner, next, hy, hc.body, rfl⟩ stack
    have hresume := hc.resume hbody ho
    have hupdate := ih' (integralList_update hint'.1.2) ⟨updateEnd, hc.updates, rfl⟩ stack
    have hagain := ih'' hint ⟨cont, bottom, first, inner, next, bodyPos, updatePos, updateEnd,
      fin, hy, hc, rfl⟩ stack
    exact hagain.of_reaches (hc.label_reaches.trans (htest.trans (hresume.trans
      (Window.Reaches.trans hupdate (hc.repeats _)))))
  | updateStops he hx _ ho _ hne ih ih' =>
    intro targets pos after hint hp stack
    simp only [integralTask, Bool.and_eq_true] at hint
    obtain ⟨cont, bottom, first, inner, next, bodyPos, updatePos, updateEnd, fin, hy, hc, rfl⟩ := hp
    have htest := (hc.tests stack _).ok he
    rw [if_neg hx] at htest
    have hbody := ih hint.2 ⟨none, first, inner, next, hy, hc.body, rfl⟩ stack
    have hresume := hc.resume hbody ho
    have hupdate := ih' (integralList_update hint.1.2) ⟨updateEnd, hc.updates, rfl⟩ stack
    exact (hupdate.go_on fun h => absurd h hne).of_reaches
      (hc.label_reaches.trans (htest.trans hresume))

theorem exec_arrives {env : Env} {task : Task} (hp : Placed w env pos after task)
    (h : Exec env.arena env.scope task slots o slots')
    (hint : integralTask env.arena env.scope task = true) (stack : List Int32) :
    Arrives w env after stack (.at pos ⟨stack, slots⟩) o slots' :=
  arrives_of_exec h hint hp stack

end Javelet.Preservation
