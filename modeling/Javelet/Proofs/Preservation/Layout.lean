import Javelet.Proofs.Preservation.Expression

/-!
# Where the parts of a statement stand

The code of the statements without statements inside, and of the tests that conditionals and loops
begin with, is described by where a run of it arrives, and with which slots. Three arrangements of
code in a window are described by what a run does between their parts: statements one behind the
other, perhaps with labels between them; a loop from its test on; and the tests and bodies of a
switch.
-/
namespace Javelet.Preservation

open Assembly Lowering Semantics

variable {w : Window} {env : Env} {first next : Label} {pos fin : Nat} {code rest : Segment}
  {stack : List Int32} {slots : Slots} {p : Position}

/-! ## Tests and assignments -/

theorem store_reaches {l : Local} {x : Int32} (h : w.Holds pos (.op l.store :: rest)) :
    w.Reaches (.at pos ⟨x :: stack, slots⟩) (.at (pos + 1) ⟨stack, slots.set l.slot x⟩) :=
  h.step_next (by simp [Local.store, Instruction.effect])

theorem load_reaches {l : Local} (h : w.Holds pos (.op l.load :: rest)) :
    w.Reaches (.at pos ⟨stack, slots⟩) (.at (pos + 1) ⟨slots l.slot :: stack, slots⟩) :=
  h.step_next (by simp [Local.load, Instruction.effect])

/-- A test goes on behind the label that stands next if the condition holds, and else at the
other label. -/
theorem test_finishes {e : Option Expr} {yes no : Label}
    (he : e.all (integral env.local?) = true)
    (hy : Yields (forTest env e yes no) first code next)
    (h : w.Holds pos (code ++ .label yes :: rest)) :
    Finishes w (.at pos ⟨stack, slots⟩) slots
      (fun x => if x = 0 then w.target no ⟨stack, slots⟩
        else .at (pos + size code + 1) ⟨stack, slots⟩)
      (loopCondition env.local? slots e) := by
  cases e with
  | none =>
    obtain ⟨rfl, -⟩ := yields_pure.1 hy
    exact h.right.step_label
  | some e =>
    obtain ⟨v, hv, -, rfl⟩ := yields_test.1 hy
    have hyes := h.right
    have hjump := h.left.right
    have hcomp : Computes w pos v.code stack slots _ := expr_computes e he hv h.left.left
    rw [loopCondition, ← bind_pure (eval env.local? slots e)]
    refine Finishes.bind hcomp fun x => ?_
    simp only [pure, Except.pure, Finishes]
    split
    · rename_i hx
      have hnext : w.Reaches (.at (pos + size v.code) ⟨x :: stack, slots⟩)
          (.at (pos + size v.code + 1) ⟨stack, slots⟩) :=
        hjump.step_next (by simp [Instruction.effect, hx])
      exact hnext.trans (hjump.behind_op.step_jump rfl)
    · rename_i hx
      have hnext : w.Reaches (.at (pos + size v.code) ⟨x :: stack, slots⟩)
          (w.target yes ⟨stack, slots⟩) :=
        hjump.step_jump (by simp [Instruction.effect, hx])
      exact hnext.trans hyes.target_reaches

theorem yields_localAssignment {a : Assignment} {q : Position} {name : String} {l : Local}
    (ht : a.target = .mk (.name q name) []) (hl : env.local? name = some l)
    (h : Yields (assignment env a) first code next) :
    ∃ v, Yields (expr env a.value) first v next ∧
      code = assigning a.op [l.load] v.code l.store := by
  rcases yields_assignment h with ⟨p, name', ht', h⟩ | ⟨_, _, _, _, _, _, _, _, ht', _⟩
  · rw [ht] at ht'
    cases ht'
    unfold assignName at h
    rw [hl] at h
    simp only [yields_bind, yields_storeLocal] at h
    obtain ⟨v, _, hv, rfl, rfl, _⟩ := h
    exact ⟨v, hv, rfl⟩
  · rw [ht] at ht'
    simp at ht'

/-- The code of an assignment to a local variable changes the slots as the assignment does. -/
theorem assignment_finishes {a : Assignment} (ha : integralAssignment env.local? a = true)
    (hy : Yields (assignment env a) first code next) (h : w.Holds pos code) :
    Finishes w (.at pos ⟨stack, slots⟩) slots
      (fun slots' => .at (pos + size code) ⟨stack, slots'⟩) (assign env.local? slots a) := by
  unfold integralAssignment at ha
  unfold assign
  split at ha
  · rename_i q name ht
    simp only [Bool.and_eq_true] at ha
    obtain ⟨l, hl⟩ := Option.isSome_iff_exists.1 ha.1
    obtain ⟨v, hv, rfl⟩ := yields_localAssignment ht hl hy
    simp only [hl]
    cases hop : a.op with
    | plain =>
      rw [hop] at h
      have hcode : assigning .plain [l.load] v.code l.store = v.code ++ [Item.op l.store] := by
        simp [assigning, oldValue, combination, ops]
      rw [hcode] at h ⊢
      rw [size_append, ← Nat.add_assoc]
      exact (expr_computes a.value ha.2 hv h.left).bind fun x => store_reaches h.right
    | compound op =>
      rw [hop] at h
      have hcode : assigning (.compound op) [l.load] v.code l.store =
          [Item.op l.load] ++
            (v.code ++ ([Item.op (Instruction.arithmetic op)] ++ [Item.op l.store])) := by
        simp [assigning, oldValue, combination, ops]
      rw [hcode] at h ⊢
      rw [size_append, size_append, size_append, ← Nat.add_assoc, ← Nat.add_assoc,
        ← Nat.add_assoc]
      refine Finishes.of_reaches (load_reaches h) ?_
      refine (expr_computes a.value ha.2 hv h.right.left).bind fun x => ?_
      refine Finishes.bind (operation_finishes h.right.right.left) fun z => ?_
      exact store_reaches h.right.right.right
  · cases ha

/-- The code of a declaration stores the first value of the variable. -/
theorem variable_finishes {v : Variable} (hi : integralVariable env.local? v = true)
    (hy : Yields (variable_ env v) first code next) (h : w.Holds pos code) :
    Finishes w (.at pos ⟨stack, slots⟩) slots
      (fun slots' => .at (pos + size code) ⟨stack, slots'⟩) (declare env.local? slots v) := by
  obtain ⟨l, hl, hcode⟩ := yields_variable.1 hy
  simp only [integralVariable, Bool.and_eq_true] at hi
  simp only [declare, hl]
  rcases hcode with ⟨hv, -, rfl⟩ | ⟨e, value, hv, he, rfl⟩
  · simp only [hv]
    have hpush : w.Reaches (.at pos ⟨stack, slots⟩) (.at (pos + 1) ⟨0 :: stack, slots⟩) := by
      cases hty : l.type.isInteger with
      | true => exact h.step_next (by simp [Instruction.pushDefault, hty, Instruction.effect])
      | false => exact h.step_next (by simp [Instruction.pushDefault, hty, Instruction.effect])
    exact hpush.trans (store_reaches h.behind_op)
  · rw [hv] at hi
    simp only [hv]
    rw [size_append, ← Nat.add_assoc]
    exact (expr_computes e hi.2 he h.left).bind fun x => store_reaches h.right

/-! ## Rows of statements -/

/-- The code of statements, one behind the other, from one place to another. -/
inductive Row (w : Window) (env : Env) : List Statement → Nat → Nat → Prop
  | nil {pos : Nat} : Row w env [] pos pos
  | label {ss : List Statement} {pos fin : Nat} {l : Label} {rest : Segment} :
      w.Holds pos (.label l :: rest) → Row w env ss (pos + 1) fin → Row w env ss pos fin
  | cons {s : Statement} {ss : List Statement} {pos fin : Nat} {first next : Label}
      {code : Segment} : Yields (statement env none s) first code next → w.Holds pos code →
      Row w env ss (pos + size code) fin → Row w env (s :: ss) pos fin

theorem Row.append {ss ss' : List Statement} {middle : Nat} (h : Row w env ss pos middle)
    (h' : Row w env ss' middle fin) : Row w env (ss ++ ss') pos fin := by
  induction h with
  | nil => exact h'
  | label hl _ ih => exact .label hl (ih h')
  | cons hy hc _ ih => exact .cons hy hc (ih h')

theorem Row.reaches_of_nil (h : Row w env [] pos fin) (m : Memory) :
    w.Reaches (.at pos m) (.at fin m) := by
  generalize hss : ([] : List Statement) = ss at h
  induction h with
  | nil => exact .refl
  | label hl _ ih => exact hl.step_label.trans (ih hss)
  | cons _ _ _ _ => cases hss

/-- The first statement of a row, behind the labels before it. -/
theorem Row.split_cons {s : Statement} {ss : List Statement} (h : Row w env (s :: ss) pos fin) :
    ∃ start first code next, (∀ m, w.Reaches (.at pos m) (.at start m)) ∧
      Yields (statement env none s) first code next ∧ w.Holds start code ∧
      Row w env ss (start + size code) fin := by
  generalize hss : s :: ss = all at h
  induction h with
  | nil => cases hss
  | label hl _ ih =>
    obtain ⟨start, first, code, next, hreach, hrest⟩ := ih hss
    exact ⟨start, first, code, next, fun m => hl.step_label.trans (hreach m), hrest⟩
  | cons hy hc hrow _ =>
    cases hss
    exact ⟨_, _, _, _, fun _ => .refl, hy, hc, hrow⟩

theorem row_of_yields {ss : List Statement}
    (hy : Yields (statements env [] ss) first code next) (h : w.Holds pos code) :
    Row w env ss pos (pos + size code) := by
  induction ss generalizing first code pos with
  | nil =>
    obtain ⟨-, rfl⟩ := yields_statements_nil.1 hy
    exact .nil
  | cons s ss ih =>
    obtain ⟨c, rest, middle, hc, hrest, rfl⟩ := yields_statements_cons.1 hy
    rw [size_append, ← Nat.add_assoc]
    exact .cons hc h.left (ih hrest h.right)

theorem row_forInit {init : Option ForInit} (hy : Yields (forInit env init) first code next)
    (h : w.Holds pos code) :
    Row w env (init.toList.map ForInit.asStatement) pos (pos + size code) := by
  match init, hy with
  | none, hy =>
    obtain ⟨rfl, -⟩ := yields_pure.1 hy
    exact .nil
  | some (.declaration v), hy =>
    exact .cons (by rw [ForInit.asStatement, statement]; exact hy) h .nil
  | some (.assignment a), hy =>
    exact .cons (by rw [ForInit.asStatement, statement]; exact hy) h .nil

theorem row_forUpdate {update : Option Action}
    (hy : Yields (forUpdate env update) first code next) (h : w.Holds pos code) :
    Row w env (update.toList.map .action) pos (pos + size code) := by
  cases update with
  | none =>
    obtain ⟨rfl, -⟩ := yields_pure.1 hy
    exact .nil
  | some a => exact .cons (by rw [statement]; exact hy) h .nil

/-! ## Loops -/

/-- A loop from the label before its test to the place behind it. The code of the body stands
from `bodyPos` to `bodyEnd`, the update from `updatePos` to `updateEnd`. -/
structure Circle (w : Window) (env : Env) (e : Option Expr) (update : Option Action)
    (inner : Segment) (cont bottom : Label) (pos bodyPos updatePos updateEnd fin : Nat) :
    Prop where
  starts : ∃ l rest, w.Holds pos (.label l :: rest)
  tests : ∀ stack slots, Finishes w (.at (pos + 1) ⟨stack, slots⟩) slots
    (fun x => if x = 0 then .at fin ⟨stack, slots⟩ else .at bodyPos ⟨stack, slots⟩)
    (loopCondition (namesAt env.arena env.scope) slots e)
  body : w.Holds bodyPos inner
  breaks : ∀ m, w.Reaches (w.target bottom m) (.at fin m)
  continues : ∀ m, w.Reaches (w.target cont m) (.at updatePos m)
  ends : ∀ m, w.Reaches (.at (bodyPos + size inner) m) (.at updatePos m)
  updates : Row w env (update.toList.map .action) updatePos updateEnd
  repeats : ∀ m, w.Reaches (.at updateEnd m) (.at pos m)

/-- The code of a loop from the label before its test on. -/
def loopCode (top start bottom : Label) (decision inner tail : Segment) : Segment :=
  .label top :: (decision ++ .label start :: (inner ++ (tail ++
    [.op (.goto top), .label bottom])))

theorem loopCode_tests {e : Option Expr} {top start bottom : Label}
    {decision inner tail : Segment} (he : e.all (integral env.local?) = true)
    (hd : Yields (forTest env e start bottom) first decision next)
    (h : w.Holds pos (loopCode top start bottom decision inner tail)) (stack : List Int32)
    (slots : Slots) :
    Finishes w (.at (pos + 1) ⟨stack, slots⟩) slots
      (fun x => if x = 0 then .at (pos + 1 + size decision + 1 + size inner + size tail + 1 + 1)
          ⟨stack, slots⟩
        else .at (pos + 1 + size decision + 1) ⟨stack, slots⟩)
      (loopCondition env.local? slots e) := by
  have hbottom := h.behind_label.right.behind_label.right.right.behind_op
  rw [← bind_pure (loopCondition env.local? slots e)]
  refine Finishes.bind (test_finishes he hd h.behind_label) fun x => ?_
  simp only [pure, Except.pure, Finishes]
  split
  · exact hbottom.target_reaches
  · exact .refl

/-- The layout of a while loop: its body goes back to the test in every case. -/
theorem circle_whileLoop {e : Expr} {top start bottom : Label} {decision inner : Segment}
    (he : integral env.local? e = true)
    (hd : Yields (test env e start bottom) first decision next)
    (h : w.Holds pos (loopCode top start bottom decision inner [])) :
    Circle w env (some e) none inner top bottom pos (pos + 1 + size decision + 1) pos pos
      (pos + 1 + size decision + 1 + size inner + 1 + 1) where
  starts := ⟨_, _, h⟩
  tests := loopCode_tests (e := some e) he hd h
  body := h.behind_label.right.behind_label.left
  breaks _ := h.behind_label.right.behind_label.right.behind_op.target_reaches
  continues _ := by
    rw [h.target_label]
    exact .refl
  ends m := by
    have hgoto := h.behind_label.right.behind_label.right.step_jump (m := m) rfl
    rwa [h.target_label] at hgoto
  updates := .nil
  repeats _ := .refl

/-- The layout of a for loop: its body goes on to the update. -/
theorem circle_forLoop {e : Option Expr} {update : Option Action} {top start step bottom : Label}
    {decision inner after : Segment} {first' next' : Label}
    (he : e.all (integral env.local?) = true)
    (hd : Yields (forTest env e start bottom) first decision next)
    (hu : Yields (forUpdate env update) first' after next')
    (h : w.Holds pos (loopCode top start bottom decision inner (.label step :: after))) :
    Circle w env e update inner step bottom pos (pos + 1 + size decision + 1)
      (pos + 1 + size decision + 1 + size inner + 1)
      (pos + 1 + size decision + 1 + size inner + 1 + size after)
      (pos + 1 + size decision + 1 + size inner + (size after + 1) + 1 + 1) where
  starts := ⟨_, _, h⟩
  tests := loopCode_tests he hd h
  body := h.behind_label.right.behind_label.left
  breaks _ := h.behind_label.right.behind_label.right.right.behind_op.target_reaches
  continues _ := h.behind_label.right.behind_label.right.target_reaches
  ends _ := h.behind_label.right.behind_label.right.step_label
  updates := row_forUpdate hu h.behind_label.right.behind_label.right.behind_label.left
  repeats m := by
    have hgoto := h.behind_label.right.behind_label.right.behind_label.right.step_jump (m := m) rfl
    rwa [h.target_label] at hgoto

/-! ## Switches -/

theorem row_caseBodies {cases : List Case} {label : Label}
    (hy : Yields (caseBodies env [] label cases) first code next) (h : w.Holds pos code) :
    Row w env (cases.map fun c => .block c.body) pos (pos + size code) := by
  induction cases generalizing first code pos label with
  | nil =>
    obtain ⟨-, rfl⟩ := yields_caseBodies_nil.1 hy
    exact .nil
  | cons c cases ih =>
    obtain ⟨body, rest, middle, hbody, hrest, rfl⟩ := yields_caseBodies_cons.1 hy
    rw [List.cons_append] at h
    have hend : pos + size (.label label :: body ++ rest) = pos + 1 + size body + size rest := by
      simp
      omega
    rw [hend]
    exact .label h (.cons (by rw [statement]; exact hbody) h.behind_label.left
      (ih hrest h.behind_label.right))

theorem row_defaultBody {default_ : Option Block} {label : Label}
    (hy : Yields (defaultBody env label default_) first code next) (h : w.Holds pos code) :
    Row w env (default_.toList.map .block) pos (pos + size code) := by
  cases default_ with
  | none =>
    obtain ⟨rfl, -⟩ := yields_pure.1 hy
    exact .nil
  | some b =>
    obtain ⟨body, hbody, rfl⟩ := yields_defaultBody.1 hy
    have hend : pos + size (.label label :: body) = pos + 1 + size body := by
      simp
      omega
    rw [hend]
    exact .label h (.cons (by rw [statement]; exact hbody) h.behind_label .nil)

/-- The test of a case jumps to its body if the selector is the label. -/
theorem caseTest_reaches {l : Local} {value : Int32} {label : Label} {rest : Segment}
    (h : w.Holds pos (.op l.load :: .op (.pushInt value) :: .op (.jumpInts .equal label) :: rest)) :
    w.Reaches (.at pos ⟨stack, slots⟩) (if slots l.slot = value then w.target label ⟨stack, slots⟩
      else .at (pos + 1 + 1 + 1) ⟨stack, slots⟩) := by
  refine (load_reaches h).trans ((h.behind_op.step_next rfl).trans ?_)
  split
  · rename_i hx
    exact h.behind_op.behind_op.step_jump (by simp [Instruction.effect, related, hx])
  · rename_i hx
    exact h.behind_op.behind_op.step_next (by simp [Instruction.effect, related, hx])

/-- The tests of a switch lead to the first body that is selected. `miss` is where they lead
when no label is equal, and the row `others` is what stands there. -/
theorem selected_reaches {cases : List Case} {l : Local} {label : Label} {x : Int32}
    {tests bodies : Segment} {bodyPos : Nat} {default_ : Option Block}
    {first' next' : Label} (hx : slots l.slot = x)
    (ht : Yields (caseTests l label cases) first tests next) (htests : w.Holds pos tests)
    (hb : Yields (caseBodies env [] label cases) first' bodies next')
    (hbodies : w.Holds bodyPos bodies)
    (hmiss : w.Reaches (.at (pos + size tests) ⟨stack, slots⟩)
      (.at (bodyPos + size bodies) ⟨stack, slots⟩))
    (hdefault : Row w env (default_.toList.map .block) (bodyPos + size bodies) fin) :
    ∃ entry, w.Reaches (.at pos ⟨stack, slots⟩) (.at entry ⟨stack, slots⟩) ∧
      Row w env ((selected x cases default_).map .block) entry fin := by
  induction cases generalizing pos label tests bodies bodyPos first first' with
  | nil =>
    obtain ⟨-, rfl⟩ := yields_caseTests_nil.1 ht
    exact ⟨_, hmiss, hdefault⟩
  | cons c cases ih =>
    obtain ⟨value, rest, hvalue, hrest, rfl⟩ := yields_caseTests_cons.1 ht
    have htest : w.Reaches (.at pos ⟨stack, slots⟩) _ := caseTest_reaches htests
    rw [hx] at htest
    by_cases hc : x = value
    · have hrow := (row_caseBodies hb hbodies).append hdefault
      obtain ⟨body, rest', middle, hbody, hrest', rfl⟩ := yields_caseBodies_cons.1 hb
      rw [List.cons_append] at hbodies
      rw [if_pos hc, hbodies.target_label] at htest
      refine ⟨bodyPos, htest, ?_⟩
      have hsel : selected x (c :: cases) default_ =
          (c :: cases).map Case.body ++ default_.toList := by
        simp [selected, hvalue, hc]
      rw [hsel]
      simpa [Function.comp_def] using hrow
    · obtain ⟨body, rest', middle, hbody, hrest', rfl⟩ := yields_caseBodies_cons.1 hb
      rw [List.cons_append] at hbodies
      rw [if_neg hc] at htest
      have hpos : pos + size (ops [l.load, .pushInt value, .jumpInts .equal label] ++ rest) =
          pos + 1 + 1 + 1 + size rest := by
        simp [ops]
        omega
      have hend : bodyPos + size (.label label :: body ++ rest') =
          bodyPos + 1 + size body + size rest' := by
        simp
        omega
      rw [hend] at hmiss hdefault
      rw [hpos] at hmiss
      obtain ⟨entry, hreach, hrow⟩ := ih hrest htests.right hrest' hbodies.behind_label.right hmiss
        hdefault
      refine ⟨entry, htest.trans hreach, ?_⟩
      have hsel : selected x (c :: cases) default_ = selected x cases default_ := by
        simp [selected, hvalue, Ne.symm hc]
      rw [hsel]
      exact hrow

end Javelet.Preservation
