import Javelet.Proofs.Lowering.CodeBlocks
import Javelet.Proofs.Lowering.Composes
import Javelet.Proofs.Lowering.Methods
import Javelet.Proofs.Syntax.Places

/-!
# Returns in the code of a method

Only a return statement is lowered to an instruction that leaves the method: one that gives a value
to an instruction that returns one, a bare one to the instruction that returns none. So the code of a
method has the returns of its body, in their order. Where it does not end with one of them, a bare
return is written behind it.
-/
namespace Javelet

namespace Assembly

/-- Whether an instruction that leaves the method returns a value. -/
def Instruction.returns? : Instruction → Option Bool
  | returnVoid => some false
  | returnInt => some true
  | returnReference => some true
  | _ => none

end Assembly

/-- Whether a return statement at a place gives a value. -/
def Place.returns? : Place → Option Bool
  | statement (.jump _ (.return_ value)) => some value.isSome
  | _ => none

/-- For each return statement at places, whether it gives a value. -/
def returnsAt (places : List Place) : List Bool := places.filterMap Place.returns?

section Places

variable {places rest : List Place}

@[simp] theorem returnsAt_nil : returnsAt [] = [] := rfl

@[simp] theorem returnsAt_append :
    returnsAt (places ++ rest) = returnsAt places ++ returnsAt rest :=
  List.filterMap_append

theorem returnsAt_eq_nil (h : ∀ place ∈ places, place.returns? = none) : returnsAt places = [] :=
  List.filterMap_eq_nil_iff.2 h

@[simp] theorem returnsAt_expr (e : Expr) : returnsAt e.places = [] := by
  refine returnsAt_eq_nil fun place hplace => ?_
  obtain ⟨part, -, rfl⟩ := List.mem_map.1 hplace
  rfl

@[simp] theorem returnsAt_exprs (es : List Expr) : returnsAt (es.flatMap Expr.places) = [] := by
  refine returnsAt_eq_nil fun place hplace => ?_
  obtain ⟨e, -, hplace⟩ := List.mem_flatMap.1 hplace
  obtain ⟨part, -, rfl⟩ := List.mem_map.1 hplace
  rfl

@[simp] theorem returnsAt_action (a : Action) : returnsAt a.places = [] := by
  cases a with
  | assignment a => exact returnsAt_exprs _
  | call c => exact returnsAt_expr _

/-- The places of a statement itself, unless it is a return statement. -/
theorem returnsAt_own {s : Statement} (h : (Place.statement s).returns? = none) :
    returnsAt s.own = [] := by
  cases s with
  | block b => rfl
  | conditional p e body otherwise => exact returnsAt_expr e
  | whileLoop p e body => exact returnsAt_expr e
  | forLoop p id init e update body => rfl
  | switch p id e cases default_ => exact returnsAt_expr e
  | jump p j =>
    cases j with
    | return_ value => cases h
    | break_ => rfl
    | continue_ => rfl
  | action a => exact returnsAt_action a
  | declaration x => exact returnsAt_exprs x.value.toList

@[simp] theorem returnsAt_initPlaces (init : Option ForInit) : returnsAt (initPlaces init) = [] := by
  cases init with
  | none => rfl
  | some i =>
    rw [initPlaces, Option.toList_some, List.flatMap_singleton]
    cases i <;> exact returnsAt_own rfl

@[simp] theorem returnsAt_conditionPlaces (e : Option Expr) : returnsAt (conditionPlaces e) = [] :=
  returnsAt_exprs e.toList

@[simp] theorem returnsAt_updatePlaces (update : Option Action) :
    returnsAt (updatePlaces update) = [] := by
  cases update with
  | none => rfl
  | some a =>
    rw [updatePlaces, Option.toList_some, List.flatMap_singleton]
    exact returnsAt_own rfl

end Places

namespace Lowering

open Assembly

@[simp] theorem returns_choice (b : Bool) (other finish : Label) :
    readings Instruction.returns? (choice b other finish) = [] := rfl

theorem returns?_of_isPlain {i : Instruction} (h : i.isPlain = true) : i.returns? = none := by
  cases i <;> first | rfl | cases h

theorem returns?_of_target {i : Instruction} {l : Label} (h : i.target? = some l) :
    i.returns? = none := by
  cases i <;> first | rfl | cases h

/-- What is made of expressions does not leave the method. -/
theorem composes_stays : Composes fun code => readings Instruction.returns? code = [] where
  nil := rfl
  append h h' := by rw [readings_append, h, h', List.append_nil]
  op hi := by simp [returns?_of_isPlain hi]
  comparison hi := by simp [returns?_of_target hi]
  connective hi hcode := by simp [returns?_of_target hi, hcode]

variable {env : Env} {first next : Label} {p : Position} {code : Segment}

/-! ## Expressions -/

/-- What is shown of every expression: its code does not leave the method. -/
def ExprStays (e : Expr) : Prop :=
  ∀ {env first v next}, Yields (expr env e) first v next → readings Instruction.returns? v.code = []

theorem expr_stays (e : Expr) : ExprStays e := composes_stays.expr e

/-! ## Simple statements -/

theorem test_stays {e : Expr} {yes no : Label} (h : Yields (test env e yes no) first code next) :
    readings Instruction.returns? code = [] := by
  obtain ⟨v, hv, -, rfl⟩ := yields_test.1 h
  rw [readings_append, expr_stays e hv]
  rfl

theorem forInit_stays {init : Option ForInit} (h : Yields (forInit env init) first code next) :
    readings Instruction.returns? code = [] := by
  match init, h with
  | some (.declaration x), h => exact composes_stays.variable_ h
  | some (.assignment a), h => exact composes_stays.assignment h
  | none, h =>
    obtain ⟨rfl, rfl⟩ := yields_pure.1 h
    rfl

theorem forTest_stays {e : Option Expr} {yes no : Label}
    (h : Yields (forTest env e yes no) first code next) :
    readings Instruction.returns? code = [] := by
  cases e with
  | none =>
    obtain ⟨rfl, rfl⟩ := yields_pure.1 h
    rfl
  | some e => exact test_stays h

theorem forUpdate_stays {update : Option Action}
    (h : Yields (forUpdate env update) first code next) :
    readings Instruction.returns? code = [] := by
  cases update with
  | none =>
    obtain ⟨rfl, rfl⟩ := yields_pure.1 h
    rfl
  | some a => exact composes_stays.action h

theorem caseTests_stay {l : Local} {label : Label} {cases : List Case}
    (h : Yields (caseTests l label cases) first code next) :
    readings Instruction.returns? code = [] := by
  induction cases generalizing label code with
  | nil =>
    obtain ⟨-, rfl⟩ := yields_caseTests_nil.1 h
    rfl
  | cons c cases ih =>
    obtain ⟨value, rest, -, hrest, rfl⟩ := yields_caseTests_cons.1 h
    rw [readings_append, ih hrest]
    rfl

theorem jump_returns {j : Jump} (h : Yields (jump env p j) first code next) :
    readings Instruction.returns? code = returnsAt (Statement.jump p j).own := by
  cases j with
  | return_ value =>
    cases value with
    | none =>
      simp only [jump, yields_pure] at h
      obtain ⟨rfl, rfl⟩ := h
      rfl
    | some e =>
      obtain ⟨v, hv, rfl⟩ := yields_jump_value.1 h
      have hreturn : ∀ b : Bool, readings Instruction.returns?
          (ops [if b then Instruction.returnInt else Instruction.returnReference]) = [true] := by
        intro b
        cases b <;> rfl
      rw [readings_append, expr_stays e hv, hreturn]
      exact (congrArg (true :: ·) (returnsAt_expr e)).symm
  | break_ =>
    obtain ⟨_, -, -, rfl⟩ := yields_jump_break.1 h
    rfl
  | continue_ =>
    obtain ⟨_, -, -, rfl⟩ := yields_jump_continue.1 h
    rfl

/-! ## Statements -/

/-- What is shown of every statement: its code leaves the method where it returns. -/
def StatementReturns (s : Statement) : Prop :=
  ∀ {env join first code next}, Yields (statement env join s) first code next →
    readings Instruction.returns? code = returnsAt s.places

theorem statements_return {ss : List Statement} (ih : ∀ s ∈ ss, StatementReturns s)
    (h : Yields (statements env [] ss) first code next) :
    readings Instruction.returns? code = returnsAt (statementPlaces ss) := by
  induction ss generalizing first code with
  | nil =>
    obtain ⟨-, rfl⟩ := yields_statements_nil.1 h
    rw [statementPlaces]
    rfl
  | cons s ss ihss =>
    obtain ⟨c, rest, middle, hc, hrest, rfl⟩ := yields_statements_cons.1 h
    rw [List.forall_mem_cons] at ih
    rw [statementPlaces, readings_append, returnsAt_append, ih.1 hc, ihss ih.2 hrest]

theorem block_returns {b : Block} (ih : ∀ s ∈ b.statements, StatementReturns s)
    (h : Yields (block env b) first code next) :
    readings Instruction.returns? code = returnsAt b.places := by
  have hstatements := statements_return ih (yields_block.1 h)
  obtain ⟨id, p, ss⟩ := b
  rw [Block.places]
  exact hstatements

theorem caseBodies_return {cases : List Case} {label : Label}
    (ih : ∀ c ∈ cases, ∀ s ∈ c.body.statements, StatementReturns s)
    (h : Yields (caseBodies env [] label cases) first code next) :
    readings Instruction.returns? code = returnsAt (casePlaces cases) := by
  induction cases generalizing label first code with
  | nil =>
    obtain ⟨-, rfl⟩ := yields_caseBodies_nil.1 h
    rw [casePlaces]
    rfl
  | cons c cases ihc =>
    obtain ⟨body, rest, middle, hbody, hrest, rfl⟩ := yields_caseBodies_cons.1 h
    rw [List.forall_mem_cons] at ih
    have hfirst := block_returns ih.1 hbody
    obtain ⟨p, q, l, b⟩ := c
    rw [casePlaces, returnsAt_append, readings_append, readings_label, ihc ih.2 hrest, hfirst]
    rfl

theorem defaultBody_returns {default_ : Option Block} {label : Label}
    (ih : ∀ b ∈ default_, ∀ s ∈ b.statements, StatementReturns s)
    (h : Yields (defaultBody env label default_) first code next) :
    readings Instruction.returns? code = returnsAt (defaultPlaces default_) := by
  cases default_ with
  | none =>
    obtain ⟨rfl, rfl⟩ := yields_pure.1 h
    rw [defaultPlaces]
    rfl
  | some b =>
    obtain ⟨body, hbody, rfl⟩ := yields_defaultBody.1 h
    rw [defaultPlaces, readings_label]
    exact block_returns (ih b rfl) hbody

theorem elseBranch_returns {otherwise : Option Statement} {no finish : Label}
    (ih : ∀ s ∈ otherwise, StatementReturns s)
    (h : Yields (elseBranch env no finish otherwise) first code next) :
    readings Instruction.returns? code = returnsAt (otherwisePlaces otherwise) := by
  cases otherwise with
  | none =>
    obtain ⟨rfl, rfl⟩ := yields_pure.1 h
    rw [otherwisePlaces]
    rfl
  | some s =>
    rw [otherwisePlaces]
    rcases yields_elseBranch.1 h with ⟨-, c, hc, rfl⟩ | ⟨-, c, hc, rfl⟩
    · rw [readings_label, ih s rfl hc]
    · rw [readings_append, readings_label, ih s rfl hc]
      exact List.append_nil _

theorem statement_returns (s : Statement) : StatementReturns s := by
  induction s using Statement.induction with
  | block b ih =>
    intro env join first code next h
    rw [statement] at h
    rw [Statement.places]
    exact block_returns ih h
  | conditional p e body otherwise ihbody ihother =>
    intro env join first code next h
    obtain ⟨decision, inner, rest, middle, middle', hd, hi, hr, rfl⟩ := yields_conditional.1 h
    rw [Statement.places, returnsAt_append, returnsAt_append, returnsAt_own rfl]
    cases join <;>
      simp [test_stays hd, ihbody hi, elseBranch_returns ihother hr, Instruction.returns?]
  | whileLoop p e body ih =>
    intro env join first code next h
    obtain ⟨decision, inner, middle, hd, hi, rfl⟩ := yields_whileLoop.1 h
    rw [Statement.places, returnsAt_append, returnsAt_own rfl]
    simp [test_stays hd, ih hi, Instruction.returns?]
  | forLoop p id init e update body ih =>
    intro env join first code next h
    obtain ⟨before, decision, inner, after, top, middle, middle', hb, hd, hi, ha, rfl⟩ :=
      yields_forLoop.1 h
    rw [Statement.places, returnsAt_append, returnsAt_own rfl]
    simp [forInit_stays hb, forTest_stays hd, ih hi, forUpdate_stays ha, Instruction.returns?]
  | switch p id e cases default_ ihc ihd =>
    intro env join first code next h
    obtain ⟨slot, store, tests, bodies, last, label, miss, finish, middle, rfl, rfl, hslot, hs, ht,
      hb, hl, rfl⟩ := yields_switch.1 h
    obtain ⟨v, hv, -, rfl⟩ := yields_selector.1 hs
    rw [Statement.places, returnsAt_append, returnsAt_append, returnsAt_own rfl]
    simp [expr_stays e hv, caseTests_stay ht, caseBodies_return ihc hb, defaultBody_returns ihd hl,
      Local.store, Instruction.returns?]
  | jump p j =>
    intro env join first code next h
    rw [statement] at h
    rw [Statement.places]
    exact jump_returns h
  | action a =>
    intro env join first code next h
    rw [statement] at h
    rw [Statement.places, returnsAt_own rfl, composes_stays.action h]
  | declaration x =>
    intro env join first code next h
    rw [statement] at h
    rw [Statement.places, returnsAt_own rfl, composes_stays.variable_ h]

/-! ## Methods -/

theorem initializer_stays {x : Property} (h : Yields (initializer env x) first code next) :
    readings Instruction.returns? code = [] := by
  have hload : Instruction.loadThis.returns? = none := rfl
  have hput : (Instruction.putField env.className x.variable_.name x.variable_.type).returns? =
      none := rfl
  rcases yields_initializer h with ⟨-, -, rfl⟩ | ⟨e, v, -, hv, rfl⟩
  · simp [returns?_of_isPlain (isPlain_pushDefault x.variable_.type), hload, hput]
  · simp [expr_stays e hv, hload, hput]

/-- What a constructor does before its body does not leave it. -/
theorem prologue_stays {superclass : String} {properties : List Property}
    (h : Yields (prologue env superclass properties) first code next) :
    readings Instruction.returns? code = [] := by
  obtain ⟨values, hvalues, rfl⟩ := yields_prologue.1 h
  have hinner : readings Instruction.returns? values.flatten = [] := by
    rw [readings, List.filterMap_flatten, List.flatten_eq_nil_iff]
    intro part hpart
    obtain ⟨value, hvalue, rfl⟩ := List.mem_map.1 hpart
    obtain ⟨x, -, _, _, hy⟩ := yields_mapM_of_mem hvalues hvalue
    exact initializer_stays hy
  rw [readings_append, hinner]
  rfl

/-- A method is left by the return statements at the places, in this order, and by a bare return at
the end of code that does not end with a return. -/
def LeftBy (places : List Place) (mc : MethodCode) : Prop :=
  readings Instruction.returns? mc.block =
    returnsAt places ++ if endsInReturn mc.code then [] else [false]

theorem leftBy_of_code {places : List Place} {mc : MethodCode}
    (h : readings Instruction.returns? mc.code = returnsAt places) : LeftBy places mc := by
  rw [LeftBy, MethodCode.block, printed_listing_eq, readings_append, readings_written, h]
  split <;> rfl

theorem methodCode_leftBy {header : Header} {before : Segment} {m : Method} {mc : MethodCode}
    (hbefore : readings Instruction.returns? before = [])
    (h : Yields (methodCode env header before m) first mc next) : LeftBy m.body.places mc := by
  obtain ⟨body, hbody, rfl⟩ := yields_methodCode.1 h
  refine leftBy_of_code ?_
  rw [readings_append, hbefore, block_returns (fun s _ => statement_returns s) hbody]
  rfl

end Lowering

end Javelet
