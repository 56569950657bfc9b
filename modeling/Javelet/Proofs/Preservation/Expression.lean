import Javelet.Proofs.Lowering.Labels
import Javelet.Proofs.Semantics

/-!
# Lowered expressions compute their values

The code of an integer expression leaves the value of the expression on top of the stack and
changes nothing else, or it traps when the evaluation divides by zero. This holds wherever the
code stands, as long as its labels name places inside of it.
-/
namespace Javelet.Preservation

open Assembly Lowering Semantics

/-- A run from `c` goes on to where `after` tells for the result, or traps. -/
def Finishes {α : Type} (w : Window) (c : Config) (slots : Slots) (after : α → Config) :
    Except Stop α → Prop
  | .ok x => w.Reaches c (after x)
  | .error .divisionByZero => w.Reaches c (.left (.trapped slots))
  | .error .notIntegral => False

/-- The code at a place computes a value. -/
def Computes (w : Window) (pos : Nat) (code : Segment) (stack : List Int32) (slots : Slots)
    (result : Except Stop Int32) : Prop :=
  Finishes w (.at pos ⟨stack, slots⟩) slots
    (fun x => .at (pos + size code) ⟨x :: stack, slots⟩) result

section

variable {α β : Type} {w : Window} {c c' : Config} {slots : Slots} {stack : List Int32}
  {pos : Nat} {code : Segment}

theorem Finishes.ok {after : α → Config} {result : Except Stop α} {x : α}
    (h : Finishes w c slots after result) (hx : result = .ok x) : w.Reaches c (after x) := by
  subst hx
  exact h

theorem Finishes.trap {after : α → Config} {result : Except Stop α}
    (h : Finishes w c slots after result) (hx : result = .error .divisionByZero) :
    w.Reaches c (.left (.trapped slots)) := by
  subst hx
  exact h

theorem Finishes.of_reaches {after : α → Config} {result : Except Stop α} (h : w.Reaches c c')
    (h' : Finishes w c' slots after result) :
    Finishes w c slots after result := by
  match result, h' with
  | .ok _, h' => exact h.trans h'
  | .error .divisionByZero, h' => exact h.trans h'

theorem Finishes.bind {after : α → Config} {after' : β → Config} {result : Except Stop α}
    {f : α → Except Stop β} (h : Finishes w c slots after result)
    (hf : ∀ x, Finishes w (after x) slots after' (f x)) :
    Finishes w c slots after' (result >>= f) := by
  match result, h with
  | .ok x, h => exact (hf x).of_reaches h
  | .error .divisionByZero, h => exact h

/-! ## Choices between two values -/

/-- Entered at its start, a choice leaves its first value. -/
theorem choice_reaches {b : Bool} {other finish : Label}
    (h : w.Holds pos (choice b other finish)) :
    w.Reaches (.at pos ⟨stack, slots⟩) (.at (pos + 5) ⟨truth b :: stack, slots⟩) := by
  have hgoto := h.behind_op
  have hend := hgoto.behind_op.behind_alternative.behind_label.behind_op
  exact (h.step_next rfl).trans ((hgoto.step_jump rfl).trans hend.target_reaches)

/-- Entered at its label, a choice leaves the other value. -/
theorem choice_other_reaches {b : Bool} {other finish : Label}
    (h : w.Holds pos (choice b other finish)) :
    w.Reaches (w.target other ⟨stack, slots⟩) (.at (pos + 5) ⟨truth (!b) :: stack, slots⟩) := by
  have hother := h.behind_op.behind_op.behind_alternative
  have hpush := hother.behind_label
  exact hother.target_reaches.trans
    ((hpush.step_next rfl).trans hpush.behind_op.step_label)

/-! ## Operators -/

theorem operation_finishes {op : Arithmetic} {x y : Int32} {rest : Segment}
    (h : w.Holds pos (.op (.arithmetic op) :: rest)) :
    Finishes w (.at pos ⟨y :: x :: stack, slots⟩) slots
      (fun z => .at (pos + 1) ⟨z :: stack, slots⟩) (compute op x y) := by
  unfold compute
  cases hz : operate op x y with
  | some z => exact h.step_next (by simp only [Instruction.effect, hz])
  | none =>
    have hstep : w.Reaches (.at pos ⟨y :: x :: stack, slots⟩) (.left (.trapped slots)) :=
      h.step_trap (by simp only [Instruction.effect, hz])
    exact hstep

theorem computes_arithmetic {op : Arithmetic} {l r : Segment} {left right : Except Stop Int32}
    (h : w.Holds pos (l ++ r ++ ops [.arithmetic op]))
    (hl : w.Holds pos l → Computes w pos l stack slots left)
    (hr : ∀ x, w.Holds (pos + size l) r →
      Computes w (pos + size l) r (x :: stack) slots right) :
    Computes w pos (l ++ r ++ ops [.arithmetic op]) stack slots (do
      let x ← left
      let y ← right
      compute op x y) := by
  refine (hl h.left.left).bind fun x => (hr x h.left.right).bind fun y => ?_
  have hop := h.right
  rw [size_append, ← Nat.add_assoc] at hop
  have hend : pos + size (l ++ r ++ ops [.arithmetic op]) = pos + size l + size r + 1 := by
    simp [ops]
    omega
  rw [hend]
  exact operation_finishes hop

theorem computes_comparison {op : Relation} {yes : Label} {l r : Segment}
    {left right : Except Stop Int32}
    (h : w.Holds pos (l ++ r ++ .op (.jumpInts op yes) :: choice false yes (yes + 1)))
    (hl : w.Holds pos l → Computes w pos l stack slots left)
    (hr : ∀ x, w.Holds (pos + size l) r →
      Computes w (pos + size l) r (x :: stack) slots right) :
    Computes w pos (l ++ r ++ .op (.jumpInts op yes) :: choice false yes (yes + 1)) stack slots (do
      let x ← left
      let y ← right
      return truth (related op x y)) := by
  refine (hl h.left.left).bind fun x => (hr x h.left.right).bind fun y => ?_
  have hjump := h.right
  rw [size_append, ← Nat.add_assoc] at hjump
  have hend : pos + size (l ++ r ++ .op (.jumpInts op yes) :: choice false yes (yes + 1)) =
      pos + size l + size r + 1 + 5 := by
    simp
    omega
  simp only [pure, Except.pure, Finishes, hend]
  cases hc : related op x y with
  | true =>
    have hstep : w.Reaches (.at (pos + size l + size r) ⟨y :: x :: stack, slots⟩)
        (w.target yes ⟨stack, slots⟩) :=
      hjump.step_jump (by simp [Instruction.effect, hc])
    exact hstep.trans (choice_other_reaches hjump.behind_op)
  | false =>
    have hstep : w.Reaches (.at (pos + size l + size r) ⟨y :: x :: stack, slots⟩)
        (.at (pos + size l + size r + 1) ⟨stack, slots⟩) :=
      hjump.step_next (by simp [Instruction.effect, hc])
    exact hstep.trans (choice_reaches hjump.behind_op)

theorem bne_zero_of_decided {op : Connective} {x : Int32} {b : Bool} (h : decided op x = b) :
    (x != 0) = (decide (op = .and) ^^ b) := by
  subst h
  cases op with
  | and => simp [decided, bne]
  | or => simp [decided]

/-- The jump of a connective is taken if the operand decides. -/
theorem shortcut_reaches {op : Connective} {l : Label} {x : Int32} {rest : Segment}
    (h : w.Holds pos (.op (shortcut op l) :: rest)) :
    w.Reaches (.at pos ⟨x :: stack, slots⟩)
      (if decided op x then w.target l ⟨stack, slots⟩ else .at (pos + 1) ⟨stack, slots⟩) := by
  cases op with
  | and =>
    by_cases hx : x = 0
    · simpa [decided, hx] using h.step_jump (by simp [shortcut, Instruction.effect])
    · simpa [decided, hx] using h.step_next (by simp [shortcut, Instruction.effect, hx])
  | or =>
    by_cases hx : x = 0
    · simpa [decided, hx] using h.step_next (by simp [shortcut, Instruction.effect])
    · simpa [decided, hx] using h.step_jump (by simp [shortcut, Instruction.effect, hx])

theorem computes_connective {op : Connective} {label : Label} {l r : Segment}
    {left right : Except Stop Int32}
    (h : w.Holds pos (l ++ .op (shortcut op label) :: r ++ .op (shortcut op label) ::
      choice (decide (op = .and)) label (label + 1)))
    (hl : w.Holds pos l → Computes w pos l stack slots left)
    (hr : w.Holds (pos + size l + 1) r → Computes w (pos + size l + 1) r stack slots right) :
    Computes w pos (l ++ .op (shortcut op label) :: r ++ .op (shortcut op label) ::
      choice (decide (op = .and)) label (label + 1)) stack slots (do
        let x ← left
        if decided op x then return truth (x != 0)
        else
          let y ← right
          return truth (y != 0)) := by
  refine (hl h.left.left).bind fun x => ?_
  have hskip := h.left.right
  have hskip' := h.right
  rw [show pos + size (l ++ .op (shortcut op label) :: r) = pos + size l + 1 + size r by
    simp; omega] at hskip'
  have hend : pos + size (l ++ .op (shortcut op label) :: r ++ .op (shortcut op label) ::
      choice (decide (op = .and)) label (label + 1)) = pos + size l + 1 + size r + 1 + 5 := by
    simp
    omega
  have hfirst : w.Reaches (.at (pos + size l) ⟨x :: stack, slots⟩) _ := shortcut_reaches hskip
  simp only [hend]
  cases hx : decided op x with
  | true =>
    rw [hx, if_pos rfl] at hfirst
    have hdone := hfirst.trans (choice_other_reaches hskip'.behind_op)
    simpa [Finishes, pure, Except.pure, bne_zero_of_decided hx] using hdone
  | false =>
    rw [hx, if_neg Bool.false_ne_true] at hfirst
    refine Finishes.of_reaches hfirst ((hr hskip.behind_op).bind fun y => ?_)
    have hsecond : w.Reaches (.at (pos + size l + 1 + size r) ⟨y :: stack, slots⟩) _ :=
      shortcut_reaches hskip'
    cases hy : decided op y with
    | true =>
      rw [hy, if_pos rfl] at hsecond
      have hdone := hsecond.trans (choice_other_reaches hskip'.behind_op)
      simpa [Finishes, pure, Except.pure, bne_zero_of_decided hy] using hdone
    | false =>
      rw [hy, if_neg Bool.false_ne_true] at hsecond
      have hdone := hsecond.trans (choice_reaches hskip'.behind_op)
      simpa [Finishes, pure, Except.pure, bne_zero_of_decided hy] using hdone

end

/-! ## Expressions -/

variable {env : Env} {first next : Label} {v : Typed}

theorem yields_integralAccess {p : Position} {name : String} {l : Local}
    (hl : env.local? name = some l)
    (h : Yields (expr env (.access (.mk (.name p name) []))) first v next) :
    v = ⟨ops [l.load], l.type⟩ := by
  obtain ⟨hc, -⟩ := yields_expr_access.1 h
  obtain ⟨start, r, middle, hs, hr, hty, hcode⟩ := yields_chain.1 hc
  simp only [head, nameHead, hl, yields_pure] at hs
  simp only [links, yields_pure] at hr
  obtain ⟨rfl, rfl⟩ := hs
  obtain ⟨rfl, rfl⟩ := hr
  cases v
  cases hty
  cases hcode
  rfl

/-- The code of an integer expression leaves a value that is held as an integer. -/
theorem isInteger_of_integral {e : Expr} (he : integral env.local? e = true)
    (h : Yields (expr env e) first v next) : v.type.isInteger = true := by
  cases e with
  | literal p value =>
    simp only [expr, yields_pure] at h
    obtain ⟨rfl, rfl⟩ := h
    cases value with
    | string _ => cases he
    | null => cases he
    | _ => rfl
  | binary op left right =>
    cases op with
    | arithmetic op =>
      obtain ⟨_, _, _, _, _, _, _, rfl⟩ := yields_expr_arithmetic.1 h
      rfl
    | relation op =>
      obtain ⟨_, _, _, _, _, _, _, _, _, rfl⟩ := yields_expr_relation.1 h
      rfl
    | connective op =>
      obtain ⟨_, _, _, _, _, _, _, rfl⟩ := yields_expr_connective.1 h
      rfl
  | access c =>
    obtain ⟨p, name, l, rfl, hl, hi⟩ := integral_access he
    rw [yields_integralAccess hl h]
    exact hi
  | newObject p className args => cases he
  | newArray p element length => cases he

theorem literal_computes {p : Position} {value : Literal} {w : Window} {pos : Nat}
    {stack : List Int32} {slots : Slots} {names : Names}
    (he : integral names (.literal p value) = true) (h : w.Holds pos (literal value).code) :
    Computes w pos (literal value).code stack slots (eval names slots (.literal p value)) := by
  cases value with
  | int _ => exact h.step_next rfl
  | char _ => exact h.step_next rfl
  | boolean _ => exact h.step_next rfl
  | string _ => cases he
  | null => cases he

/-- The code of an integer expression computes its value, in any window that holds it. -/
theorem expr_computes (e : Expr) {w : Window} {slots : Slots}
    (he : integral env.local? e = true) :
    ∀ {first next v pos stack}, Yields (expr env e) first v next → w.Holds pos v.code →
      Computes w pos v.code stack slots (eval env.local? slots e) := by
  induction e using Expr.induction with
  | literal p value =>
    intro first next v pos stack hy h
    simp only [expr, yields_pure] at hy
    obtain ⟨rfl, rfl⟩ := hy
    exact literal_computes he h
  | binary op left right ihl ihr =>
    intro first next v pos stack hy h
    simp only [integral, Bool.and_eq_true] at he
    cases op with
    | arithmetic op =>
      obtain ⟨l, r, middle, hl, hr, -, -, rfl⟩ := yields_expr_arithmetic.1 hy
      exact computes_arithmetic h (ihl he.1 hl) fun _ => ihr he.2 hr
    | relation op =>
      obtain ⟨l, r, middle, yes, jump, hl, hr, hjump, -, rfl⟩ := yields_expr_relation.1 hy
      simp only [comparisonJump?, isInteger_of_integral he.1 hl, isInteger_of_integral he.2 hr,
        Bool.and_self, if_true, BinaryOp.relation?, Option.getD_some, Option.some.injEq] at hjump
      subst hjump
      exact computes_comparison h (ihl he.1 hl) fun _ => ihr he.2 hr
    | connective op =>
      obtain ⟨l, r, middle, hl, -, hr, -, rfl⟩ := yields_expr_connective.1 hy
      exact computes_connective h (ihl he.1 hl) (ihr he.2 hr)
  | access hd ls _ _ =>
    intro first next v pos stack hy h
    obtain ⟨p, name, l, heq, hl, hi⟩ := integral_access he
    cases heq
    rw [yields_integralAccess hl hy] at h ⊢
    rw [eval_access hl hi]
    exact h.step_next (by simp [Local.load, Cell.ofTy, hi, Instruction.effect])
  | newObject p className args _ => cases he
  | newArray p element length _ => cases he

/-- Comparisons, connectives and boolean literals are zero or one. -/
theorem eval_boolean {e : Expr} {slots : Slots} {x : Int32} (he : ∀ c, e ≠ .access c)
    (hy : Yields (expr env e) first v next) (hty : v.type = .boolean)
    (hx : eval env.local? slots e = .ok x) : x = 0 ∨ x = 1 := by
  cases e with
  | literal p value =>
    simp only [expr, yields_pure] at hy
    obtain ⟨rfl, rfl⟩ := hy
    cases value with
    | boolean b =>
      cases hx
      exact truth_eq_zero_or_one b
    | _ => simp [literal, Ty.int, Ty.char, Ty.string, Ty.null, Ty.boolean, Ty.plain] at hty
  | binary op left right =>
    cases op with
    | arithmetic op =>
      obtain ⟨_, _, _, _, _, _, _, rfl⟩ := yields_expr_arithmetic.1 hy
      simp [Ty.int, Ty.boolean, Ty.plain] at hty
    | relation op =>
      obtain ⟨b, rfl⟩ := eval_relation hx
      exact truth_eq_zero_or_one _
    | connective op =>
      obtain ⟨b, rfl⟩ := eval_connective hx
      exact truth_eq_zero_or_one _
  | access c => exact (he c rfl).elim
  | newObject p className args => cases hx
  | newArray p element length => cases hx

/-- Running the code of an integer expression, wherever it stands. -/
theorem expression_run_iff {e : Expr} {first next : Nat} (he : integral env.local? e = true)
    (hy : Yields (expr env e) first v next) (before after : Segment)
    (hfresh : ∀ l : Nat, l ∈ labelsOf before → l < first ∨ next ≤ l) (stack : List Int32)
    (slots : Slots) :
    (∀ exit, (Window.around before v.code after).Reaches (.at (size before) ⟨stack, slots⟩)
        (.left exit) ↔
      (∃ x, eval env.local? slots e = .ok x ∧ exit = .fell ⟨x :: stack, slots⟩) ∨
      (eval env.local? slots e = .error .divisionByZero ∧ exit = .trapped slots)) ∧
    eval env.local? slots e ≠ .error .notIntegral ∧
    (v.type = .boolean → (∀ c, e ≠ .access c) →
      ∀ x, eval env.local? slots e = .ok x → x = 0 ∨ x = 1) := by
  have hlab := expr_labelled e hy
  have hold : (Window.around before v.code after).Holds (size before) v.code := by
    apply Window.holds_around hlab.nodup
    intro l hl hb
    have hrange := hlab.mem hl
    have hout := hfresh l hb
    omega
  have hcomp : Computes _ _ v.code stack slots _ := expr_computes e he hy hold
  refine ⟨?_, ?_, fun hty hne x hx => eval_boolean hne hy hty hx⟩
  · intro exit
    match hr : eval env.local? slots e, hcomp with
    | .ok x, hcomp =>
      have hrun := Window.Reaches.trans hcomp (Window.reaches_fell _)
      constructor
      · intro h
        exact .inl ⟨x, rfl, h.exit_unique hrun⟩
      · rintro (⟨y, hy, rfl⟩ | ⟨h, -⟩)
        · cases hy
          exact hrun
        · cases h
    | .error .divisionByZero, hcomp =>
      constructor
      · intro h
        exact .inr ⟨rfl, h.exit_unique hcomp⟩
      · rintro (⟨y, hy, -⟩ | ⟨-, rfl⟩)
        · cases hy
        · exact hcomp
  · intro hr
    rw [hr] at hcomp
    exact hcomp

/-- Surroundings with one integer variable. -/
def oneVariable : Env :=
  ⟨⟨[]⟩, Arena.initial.put Arena.root "i" ⟨.variable .int, some 1⟩, "", Arena.root, []⟩

/-- The expression `i != 0 && 10 / i > 2`. -/
def guardedDivision : Expr :=
  let i : Expr := .access (.mk (.name ⟨1, 1⟩ "i") [])
  let int (n : Int32) : Expr := .literal ⟨1, 1⟩ (.int n)
  .binary (.connective .and) (.binary (.relation .notEqual) i (int 0))
    (.binary (.relation .greater) (.binary (.arithmetic .div) (int 10) i) (int 2))

/-- Its code when the first free label is 7. -/
def guardedDivisionCode : Segment :=
  ops [.load .int 1, .pushInt 0, .jumpInts .notEqual 9] ++ choice false 9 10 ++
    ops [.jumpZero 7, .pushInt 10, .load .int 1, .arithmetic .div, .pushInt 2,
      .jumpInts .greater 11] ++ choice false 11 12 ++ ops [.jumpZero 7] ++ choice true 7 8

/-- The division is skipped where it would trap. -/
theorem guardedDivision_run :
    integral oneVariable.local? guardedDivision = true ∧
    Yields (expr oneVariable guardedDivision) 7 ⟨guardedDivisionCode, .boolean⟩ 13 ∧
    (Window.around [.label 3] guardedDivisionCode []).Reaches (.at 1 ⟨[5], fun _ => 0⟩)
      (.left (.fell ⟨[0, 5], fun _ => 0⟩)) := by
  have he : integral oneVariable.local? guardedDivision = true := by cbv
  have hy : Yields (expr oneVariable guardedDivision) 7 ⟨guardedDivisionCode, .boolean⟩ 13 := by
    unfold Yields
    with_unfolding_all rfl
  have hv : eval oneVariable.local? (fun _ => 0) guardedDivision = .ok 0 := by cbv
  have hrun := expression_run_iff he hy [.label 3] [] (by decide) [5] fun _ => 0
  exact ⟨he, hy, (hrun.1 _).2 (.inl ⟨0, hv, rfl⟩)⟩

end Javelet.Preservation
