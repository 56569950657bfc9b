import Javelet.Lowering.Statement
import Javelet.Proofs.Assembly.Machine
import Javelet.Proofs.Syntax.Induction

/-!
# The meaning of control flow over integers

Expressions over integer, character and boolean literals, local variables that are held as
integers, arithmetic, comparisons and connectives have a value that depends on the slots alone.
Operands are evaluated from left to right, `&&` and `||` evaluate the right one only if the left
one does not decide. Truth is one, falsehood is zero, and a variable counts as true when its slot
does not hold zero.

The meaning of statements over these expressions is a big-step semantics. A name stands for the
variable that is found from the scope of the node at hand. Stores do not narrow a value to the type
of the variable. A switch keeps its selector in the slot that is reserved for it, enters at the
first case with an equal label, or else at the default body, which stands behind the last case
body, and goes on from there until something leaves it.
-/
namespace Javelet.Semantics

open Assembly Lowering

/-! ## Values of expressions -/

/-- What the names in scope stand for. -/
abbrev Names := String → Option Local

/-- Why an expression has no value. -/
inductive Stop where
  | divisionByZero
  /-- The expression is not one over integers. -/
  | notIntegral
  deriving DecidableEq, Repr

/-- A truth value as an integer. -/
def truth (b : Bool) : Int32 := if b then 1 else 0

/-- The result of an operation, if it does not divide by zero. -/
def compute (op : Arithmetic) (x y : Int32) : Except Stop Int32 :=
  match operate op x y with
  | some z => .ok z
  | none => .error .divisionByZero

/-- Whether a connective is decided by its left operand. -/
def decided : Connective → Int32 → Bool
  | .and, x => x == 0
  | .or, x => x != 0

/-- The local variable of a name, if it is held as an integer. -/
def integerLocal (names : Names) (name : String) : Option Local :=
  (names name).filter fun l => l.type.isInteger

/-- Whether an expression is one over integers. -/
def integral (names : Names) : Expr → Bool
  | .literal _ value => (intValue? value).isSome
  | .binary _ left right => integral names left && integral names right
  | .access (.mk (.name _ name) []) => (integerLocal names name).isSome
  | _ => false

/-- The value of an expression. -/
def eval (names : Names) (slots : Slots) : Expr → Except Stop Int32
  | .literal _ value =>
    match intValue? value with
    | some x => .ok x
    | none => .error .notIntegral
  | .binary (.arithmetic op) left right => do
    let x ← eval names slots left
    let y ← eval names slots right
    compute op x y
  | .binary (.relation r) left right => do
    let x ← eval names slots left
    let y ← eval names slots right
    return truth (related r x y)
  | .binary (.connective c) left right => do
    let x ← eval names slots left
    if decided c x then return truth (x != 0)
    else
      let y ← eval names slots right
      return truth (y != 0)
  | .access (.mk (.name _ name) []) =>
    match integerLocal names name with
    | some l => .ok (slots l.slot)
    | none => .error .notIntegral
  | _ => .error .notIntegral

theorem ok_of_bind {α β : Type} {x : Except Stop α} {f : α → Except Stop β} {b : β}
    (h : (x >>= f) = .ok b) : ∃ a, x = .ok a ∧ f a = .ok b := by
  cases x with
  | error stop => cases h
  | ok a => exact ⟨a, rfl, h⟩

theorem truth_eq_zero_or_one (b : Bool) : truth b = 0 ∨ truth b = 1 := by
  cases b
  · exact .inl rfl
  · exact .inr rfl

theorem integral_access {names : Names} {c : Chain} (h : integral names (.access c) = true) :
    ∃ p name l, c = .mk (.name p name) [] ∧ names name = some l ∧ l.type.isInteger = true := by
  unfold integral at h
  split at h
  · simp_all
  · simp_all
  · rename_i p name heq
    cases heq
    obtain ⟨l, hl⟩ := Option.isSome_iff_exists.1 h
    rw [integerLocal, Option.filter_eq_some_iff] at hl
    exact ⟨p, name, l, rfl, hl⟩
  · cases h

theorem eval_access {names : Names} {slots : Slots} {p : Position} {name : String} {l : Local}
    (hl : names name = some l) (hi : l.type.isInteger = true) :
    eval names slots (.access (.mk (.name p name) [])) = .ok (slots l.slot) := by
  have : integerLocal names name = some l := by
    rw [integerLocal, Option.filter_eq_some_iff]
    exact ⟨hl, hi⟩
  simp only [eval, this]

theorem eval_relation {names : Names} {slots : Slots} {r : Relation} {left right : Expr}
    {z : Int32} (h : eval names slots (.binary (.relation r) left right) = .ok z) :
    ∃ b, z = truth b := by
  simp only [eval] at h
  obtain ⟨x, -, h⟩ := ok_of_bind h
  obtain ⟨y, -, h⟩ := ok_of_bind h
  cases h
  exact ⟨_, rfl⟩

theorem eval_connective {names : Names} {slots : Slots} {c : Connective} {left right : Expr}
    {z : Int32} (h : eval names slots (.binary (.connective c) left right) = .ok z) :
    ∃ b, z = truth b := by
  simp only [eval] at h
  obtain ⟨x, -, h⟩ := ok_of_bind h
  split at h
  · cases h
    exact ⟨_, rfl⟩
  · obtain ⟨y, -, h⟩ := ok_of_bind h
    cases h
    exact ⟨_, rfl⟩

/-! ## Names and outcomes -/

/-- The variables that are seen from a scope. -/
def namesAt (arena : Arena) (scope : ScopeId) : Names := fun name => do
  let entry ← arena.lookup scope name
  return ⟨← entry.slot, ← entry.type?⟩

/-- The scope inside a node. -/
def scopeIn (arena : Arena) (scope : ScopeId) (node : NodeId) : ScopeId :=
  (arena.scopeOf node).getD scope

/-- How a statement ends. -/
inductive Outcome where
  | normal
  | broke
  | continued
  | returned (value : Option Int32)
  /-- By a division by zero. -/
  | trapped
  deriving DecidableEq

/-- Whether a loop goes on when its body ends so. -/
def Outcome.resumes : Outcome → Bool
  | normal | continued => true
  | _ => false

/-- How a loop or a switch ends when its body ends so. -/
def Outcome.leaving : Outcome → Outcome
  | broke => normal
  | o => o

/-! ## Simple statements -/

/-- The slots after an assignment to a local variable. -/
def assign (names : Names) (slots : Slots) (a : Assignment) : Except Stop Slots :=
  match a.target with
  | .mk (.name _ name) [] =>
    match names name with
    | none => .error .notIntegral
    | some l => do
      let x ← eval names slots a.value
      match a.op with
      | .plain => return slots.set l.slot x
      | .compound op =>
        let z ← compute op (slots l.slot) x
        return slots.set l.slot z
  | _ => .error .notIntegral

/-- The slots after the declaration of a variable, which is zero at first. -/
def declare (names : Names) (slots : Slots) (v : Variable) : Except Stop Slots :=
  match names v.name with
  | none => .error .notIntegral
  | some l => do
    let x ← match v.value with
      | some e => eval names slots e
      | none => pure 0
    return slots.set l.slot x

/-- The value of the condition of a loop. Without a condition the loop goes on. -/
def loopCondition (names : Names) (slots : Slots) : Option Expr → Except Stop Int32
  | some e => eval names slots e
  | none => .ok 1

/-- The bodies of a switch that are run one after the other for a selector. -/
def selected (x : Int32) (cases : List Case) (default_ : Option Block) : List Block :=
  (cases.dropWhile fun c => intValue? c.label != some x).map Case.body ++ default_.toList

theorem mem_selected {x : Int32} {cases : List Case} {default_ : Option Block} {b : Block}
    (h : b ∈ selected x cases default_) : (∃ c ∈ cases, c.body = b) ∨ b ∈ default_ := by
  rcases List.mem_append.1 h with h | h
  · obtain ⟨c, hc, rfl⟩ := List.mem_map.1 h
    exact .inl ⟨c, (List.dropWhile_suffix _).mem hc, rfl⟩
  · exact .inr (Option.mem_toList.1 h)

/-! ## Statements -/

/-- What is executed: a statement, statements in order, or a loop from its test on. -/
inductive Task where
  | statement (s : Statement)
  | statements (ss : List Statement)
  | loop (condition : Option Expr) (update : Option Action) (body : Statement)

/-- A task that is executed in a scope takes slots to slots and ends in an outcome. -/
inductive Exec (arena : Arena) : ScopeId → Task → Slots → Outcome → Slots → Prop
  | block {scope b slots o slots'} :
      Exec arena (scopeIn arena scope b.id) (.statements b.statements) slots o slots' →
      Exec arena scope (.statement (.block b)) slots o slots'
  | ifTrue {scope p e body otherwise slots x o slots'} :
      eval (namesAt arena scope) slots e = .ok x → x ≠ 0 →
      Exec arena scope (.statement body) slots o slots' →
      Exec arena scope (.statement (.conditional p e body otherwise)) slots o slots'
  | ifFalse {scope p e body s slots o slots'} :
      eval (namesAt arena scope) slots e = .ok 0 → Exec arena scope (.statement s) slots o slots' →
      Exec arena scope (.statement (.conditional p e body (some s))) slots o slots'
  | ifNone {scope p e body slots} : eval (namesAt arena scope) slots e = .ok 0 →
      Exec arena scope (.statement (.conditional p e body none)) slots .normal slots
  | conditionTraps {scope p e body otherwise slots} :
      eval (namesAt arena scope) slots e = .error .divisionByZero →
      Exec arena scope (.statement (.conditional p e body otherwise)) slots .trapped slots
  | whileLoop {scope p e body slots o slots'} :
      Exec arena scope (.loop (some e) none body) slots o slots' →
      Exec arena scope (.statement (.whileLoop p e body)) slots o slots'
  | forLoop {scope p id init e update body slots slots₁ o slots'} :
      Exec arena (scopeIn arena scope id) (.statements (init.toList.map ForInit.asStatement)) slots
        .normal slots₁ →
      Exec arena (scopeIn arena scope id) (.loop e update body) slots₁ o slots' →
      Exec arena scope (.statement (.forLoop p id init e update body)) slots o slots'
  | forLoopInit {scope p id init e update body slots o slots'} :
      Exec arena (scopeIn arena scope id) (.statements (init.toList.map ForInit.asStatement)) slots
        o slots' → o ≠ .normal →
      Exec arena scope (.statement (.forLoop p id init e update body)) slots o slots'
  | switch {scope p id e cases default_ slots slot x o slots'} :
      eval (namesAt arena scope) slots e = .ok x → arena.reservedSlot id = some slot →
      Exec arena scope (.statements ((selected x cases default_).map .block)) (slots.set slot x)
        o slots' →
      Exec arena scope (.statement (.switch p id e cases default_)) slots o.leaving slots'
  | selectorTraps {scope p id e cases default_ slots} :
      eval (namesAt arena scope) slots e = .error .divisionByZero →
      Exec arena scope (.statement (.switch p id e cases default_)) slots .trapped slots
  | returnVoid {scope p slots} :
      Exec arena scope (.statement (.jump p (.return_ none))) slots (.returned none) slots
  | returnValue {scope p e slots x} :
      eval (namesAt arena scope) slots e = .ok x →
      Exec arena scope (.statement (.jump p (.return_ (some e)))) slots (.returned (some x)) slots
  | returnTraps {scope p e slots} :
      eval (namesAt arena scope) slots e = .error .divisionByZero →
      Exec arena scope (.statement (.jump p (.return_ (some e)))) slots .trapped slots
  | break_ {scope p slots} : Exec arena scope (.statement (.jump p .break_)) slots .broke slots
  | continue_ {scope p slots} :
      Exec arena scope (.statement (.jump p .continue_)) slots .continued slots
  | assignment {scope a slots slots'} :
      assign (namesAt arena scope) slots a = .ok slots' →
      Exec arena scope (.statement (.action (.assignment a))) slots .normal slots'
  | assignmentTraps {scope a slots} :
      assign (namesAt arena scope) slots a = .error .divisionByZero →
      Exec arena scope (.statement (.action (.assignment a))) slots .trapped slots
  | declaration {scope v slots slots'} :
      declare (namesAt arena scope) slots v = .ok slots' →
      Exec arena scope (.statement (.declaration v)) slots .normal slots'
  | declarationTraps {scope v slots} :
      declare (namesAt arena scope) slots v = .error .divisionByZero →
      Exec arena scope (.statement (.declaration v)) slots .trapped slots
  | nil {scope slots} : Exec arena scope (.statements []) slots .normal slots
  | cons {scope s ss slots slots₁ o slots'} :
      Exec arena scope (.statement s) slots .normal slots₁ →
      Exec arena scope (.statements ss) slots₁ o slots' →
      Exec arena scope (.statements (s :: ss)) slots o slots'
  | stop {scope s ss slots o slots'} :
      Exec arena scope (.statement s) slots o slots' → o ≠ .normal →
      Exec arena scope (.statements (s :: ss)) slots o slots'
  | loopEnds {scope e update body slots} :
      loopCondition (namesAt arena scope) slots e = .ok 0 →
      Exec arena scope (.loop e update body) slots .normal slots
  | loopTraps {scope e update body slots} :
      loopCondition (namesAt arena scope) slots e = .error .divisionByZero →
      Exec arena scope (.loop e update body) slots .trapped slots
  | loopLeaves {scope e update body slots x o slots'} :
      loopCondition (namesAt arena scope) slots e = .ok x → x ≠ 0 →
      Exec arena scope (.statement body) slots o slots' → o.resumes = false →
      Exec arena scope (.loop e update body) slots o.leaving slots'
  | loopResumes {scope e update body slots x o slots₁ slots₂ o' slots'} :
      loopCondition (namesAt arena scope) slots e = .ok x → x ≠ 0 →
      Exec arena scope (.statement body) slots o slots₁ → o.resumes = true →
      Exec arena scope (.statements (update.toList.map .action)) slots₁ .normal slots₂ →
      Exec arena scope (.loop e update body) slots₂ o' slots' →
      Exec arena scope (.loop e update body) slots o' slots'
  | updateStops {scope e update body slots x o slots₁ o' slots'} :
      loopCondition (namesAt arena scope) slots e = .ok x → x ≠ 0 →
      Exec arena scope (.statement body) slots o slots₁ → o.resumes = true →
      Exec arena scope (.statements (update.toList.map .action)) slots₁ o' slots' →
      o' ≠ .normal →
      Exec arena scope (.loop e update body) slots o' slots'

/-! ## Statements over integers -/

/-- Whether an assignment goes to a local variable and its value is one over integers. -/
def integralAssignment (names : Names) (a : Assignment) : Bool :=
  match a.target with
  | .mk (.name _ name) [] => (names name).isSome && integral names a.value
  | _ => false

/-- Whether the value of a variable, if there is one, is one over integers. -/
def integralVariable (names : Names) (v : Variable) : Bool :=
  (names v.name).isSome && v.value.all (integral names)

/-- Whether an action is such an assignment. -/
def integralAction (names : Names) : Action → Bool
  | .assignment a => integralAssignment names a
  | .call _ => false

mutual

/-- Whether a statement is made of control flow and of assignments to local variables, over
integer expressions only. -/
def integralStatement (arena : Arena) (scope : ScopeId) : Statement → Bool
  | .block b => integralBlock arena scope b
  | .conditional _ e body otherwise =>
    integral (namesAt arena scope) e && integralStatement arena scope body &&
      integralOption arena scope otherwise
  | .whileLoop _ e body => integral (namesAt arena scope) e && integralStatement arena scope body
  | .forLoop _ id init e update body =>
    let names := namesAt arena (scopeIn arena scope id)
    (match init with
      | some (.declaration v) => integralVariable names v
      | some (.assignment a) => integralAssignment names a
      | none => true) &&
    e.all (integral names) && update.all (integralAction names) &&
      integralStatement arena (scopeIn arena scope id) body
  | .switch _ _ e cases default_ =>
    integral (namesAt arena scope) e && integralCases arena scope cases &&
      integralDefault arena scope default_
  | .jump _ (.return_ (some e)) => integral (namesAt arena scope) e
  | .jump _ _ => true
  | .action a => integralAction (namesAt arena scope) a
  | .declaration v => integralVariable (namesAt arena scope) v

def integralOption (arena : Arena) (scope : ScopeId) : Option Statement → Bool
  | none => true
  | some s => integralStatement arena scope s

def integralList (arena : Arena) (scope : ScopeId) : List Statement → Bool
  | [] => true
  | s :: ss => integralStatement arena scope s && integralList arena scope ss

def integralBlock (arena : Arena) (scope : ScopeId) : Block → Bool
  | .mk id _ body => integralList arena (scopeIn arena scope id) body

def integralCases (arena : Arena) (scope : ScopeId) : List Case → Bool
  | [] => true
  | .mk _ _ _ body :: rest => integralBlock arena scope body && integralCases arena scope rest

def integralDefault (arena : Arena) (scope : ScopeId) : Option Block → Bool
  | none => true
  | some b => integralBlock arena scope b

end

section Integral

variable {arena : Arena} {scope : ScopeId}

theorem integralList_iff {ss : List Statement} : integralList arena scope ss = true ↔
    ∀ s ∈ ss, integralStatement arena scope s = true := by
  induction ss with
  | nil => simp [integralList]
  | cons s ss ih => simp [integralList, ih]

theorem integralCases_iff {cases : List Case} : integralCases arena scope cases = true ↔
    ∀ c ∈ cases, integralBlock arena scope c.body = true := by
  induction cases with
  | nil => simp [integralCases]
  | cons c cases ih =>
    obtain ⟨position, labelPosition, literal, body⟩ := c
    simp [integralCases, ih, Case.body]

theorem integralBlock_iff {b : Block} : integralBlock arena scope b = true ↔
    integralList arena (scopeIn arena scope b.id) b.statements = true := by
  cases b
  simp [integralBlock, Block.id, Block.statements]

theorem integralList_selected {cases : List Case} {default_ : Option Block} (x : Int32)
    (hc : integralCases arena scope cases = true)
    (hd : integralDefault arena scope default_ = true) :
    integralList arena scope ((selected x cases default_).map .block) = true := by
  rw [integralCases_iff] at hc
  rw [integralList_iff]
  intro s hs
  obtain ⟨b, hb, rfl⟩ := List.mem_map.1 hs
  rw [integralStatement]
  rcases mem_selected hb with ⟨c, hmem, rfl⟩ | rfl
  · exact hc c hmem
  · exact hd

theorem integralList_update {update : Option Action}
    (h : update.all (integralAction (namesAt arena scope)) = true) :
    integralList arena scope (update.toList.map .action) = true := by
  cases update with
  | none => rfl
  | some a => simpa [integralList, integralStatement] using h

/-- The parts of a for loop over integers. -/
theorem integral_forLoop {p : Position} {id : NodeId} {init : Option ForInit} {e : Option Expr}
    {update : Option Action} {body : Statement}
    (h : integralStatement arena scope (.forLoop p id init e update body) = true) :
    integralList arena (scopeIn arena scope id) (init.toList.map ForInit.asStatement) = true ∧
    e.all (integral (namesAt arena (scopeIn arena scope id))) = true ∧
    update.all (integralAction (namesAt arena (scopeIn arena scope id))) = true ∧
    integralStatement arena (scopeIn arena scope id) body = true := by
  simp only [integralStatement, Bool.and_eq_true] at h
  obtain ⟨⟨⟨hi, he⟩, hu⟩, hb⟩ := h
  refine ⟨?_, he, hu, hb⟩
  match init, hi with
  | none, _ => rfl
  | some (.declaration v), hi =>
    simpa [integralList, ForInit.asStatement, integralStatement] using hi
  | some (.assignment a), hi =>
    simpa [integralList, ForInit.asStatement, integralStatement, integralAction] using hi

end Integral

end Javelet.Semantics
