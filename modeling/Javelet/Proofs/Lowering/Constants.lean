import Javelet.Proofs.Lowering.Slots

/-!
# The integers in lowered code

The integers that a method pushes are the literals at the places that it is lowered from, those in
expressions and the labels of switches, and beside these only 0 and 1: the outcomes of decisions,
and what an uninitialized variable starts with.
-/
namespace Javelet

namespace Assembly

/-- The integer that an instruction pushes. -/
def Instruction.pushed? : Instruction → Option Int32
  | pushInt value => some value
  | _ => none

theorem Instruction.eq_pushInt {i : Instruction} {value : Int32} (h : i.pushed? = some value) :
    i = .pushInt value := by
  cases i with
  | pushInt n =>
    cases h
    rfl
  | _ => cases h

end Assembly

open Assembly

/-- The literals that stand at a place: an expression, or the labels of a switch. -/
def Place.literals : Place → List Literal
  | .expr (.literal _ value) => [value]
  | .statement (.switch _ _ _ cases _) => cases.map Case.label
  | _ => []

/-- The literals at some places. -/
def literalsAt (places : List Place) : List Literal := places.flatMap Place.literals

namespace Lowering

/-! ## Instructions that push no integer -/

@[simp] theorem constants_choice (b : Bool) (other finish : Label) :
    readings Instruction.pushed? (choice b other finish) =
      [if b then 1 else 0, if !b then 1 else 0] := rfl

@[simp] theorem pushed?_load (cell : Cell) (slot : Nat) :
    (Instruction.load cell slot).pushed? = none := rfl

@[simp] theorem pushed?_store (cell : Cell) (slot : Nat) :
    (Instruction.store cell slot).pushed? = none := rfl

@[simp] theorem pushed?_shortcut (c : Connective) (l : Label) : (shortcut c l).pushed? = none := by
  cases c <;> rfl

@[simp] theorem pushed?_invocation (owner : Types.TypeInfo) (name : String)
    (m : Types.MethodInfo) : (invocation owner name m).pushed? = none := by
  unfold invocation
  split <;> rfl

theorem pushed?_comparisonJump {op : BinaryOp} {left right : Ty} {target : Label}
    {i : Instruction} (h : comparisonJump? op left right target = some i) :
    i.pushed? = none := by
  unfold comparisonJump? at h
  split at h
  · cases h
    rfl
  · split at h
    · split at h <;> cases h <;> rfl
    · cases h

theorem pushed?_pushDefault (ty : Ty) :
    ∀ value ∈ (Instruction.pushDefault ty).pushed?, value = 0 := by
  unfold Instruction.pushDefault
  split
  · exact fun _ h => (Option.some.inj h).symm
  · exact nofun

/-- Code pushes the integers of some literals, and else only 0 and 1. -/
structure Pushes (literals : List Literal) (code : Segment) : Prop where
  stands : ∀ l ∈ literals, ∀ value, intValue? l = some value →
    value ∈ readings Instruction.pushed? code
  origin : ∀ value ∈ readings Instruction.pushed? code, value = 0 ∨ value = 1 ∨
    ∃ l ∈ literals, intValue? l = some value

namespace Pushes

variable {literals more : List Literal} {code rest : Segment}

/-- Code that is lowered from no literal. -/
theorem control (h : ∀ value ∈ readings Instruction.pushed? code, value = 0 ∨ value = 1) :
    Pushes [] code :=
  ⟨fun _ hl => absurd hl List.not_mem_nil, fun value hv => (h value hv).imp_right .inl⟩

theorem none (h : readings Instruction.pushed? code = []) : Pushes [] code := by
  refine control ?_
  rw [h]
  exact List.forall_mem_nil _

theorem append (h : Pushes literals code) (h' : Pushes more rest) :
    Pushes (literals ++ more) (code ++ rest) := by
  refine ⟨fun l hl value hvalue => ?_, fun value hvalue => ?_⟩
  · rw [readings_append, List.mem_append]
    exact (List.mem_append.1 hl).imp (fun hl => h.stands l hl value hvalue)
      fun hl => h'.stands l hl value hvalue
  · rw [readings_append, List.mem_append] at hvalue
    rcases hvalue with hvalue | hvalue
    · refine (h.origin value hvalue).imp_right (.imp_right ?_)
      exact fun ⟨l, hl, heq⟩ => ⟨l, List.mem_append_left _ hl, heq⟩
    · refine (h'.origin value hvalue).imp_right (.imp_right ?_)
      exact fun ⟨l, hl, heq⟩ => ⟨l, List.mem_append_right _ hl, heq⟩

/-- The order of the code does not matter. -/
theorem congr (h : Pushes literals code)
    (hsame : ∀ value, value ∈ readings Instruction.pushed? rest ↔
      value ∈ readings Instruction.pushed? code) :
    Pushes literals rest :=
  ⟨fun l hl value hvalue => (hsame value).2 (h.stands l hl value hvalue),
    fun value hvalue => h.origin value ((hsame value).1 hvalue)⟩

/-- Behind the code, the outcomes of a decision. -/
theorem deciding (h : Pushes literals code) (outcomes : List Int32)
    (hrest : readings Instruction.pushed? rest = readings Instruction.pushed? code ++ outcomes)
    (houtcomes : ∀ value ∈ outcomes, value = 0 ∨ value = 1) : Pushes literals rest := by
  refine ⟨fun l hl value hvalue => ?_, fun value hvalue => ?_⟩
  · rw [hrest]
    exact List.mem_append_left _ (h.stands l hl value hvalue)
  · rw [hrest] at hvalue
    rcases List.mem_append.1 hvalue with hvalue | hvalue
    · exact h.origin value hvalue
    · exact (houtcomes value hvalue).imp_right .inl

end Pushes

/-! ## Literals at places -/

@[simp] theorem literalsAt_nil : literalsAt [] = [] := rfl

@[simp] theorem literalsAt_cons (place : Place) (places : List Place) :
    literalsAt (place :: places) = place.literals ++ literalsAt places :=
  List.flatMap_cons

@[simp] theorem literalsAt_append (places more : List Place) :
    literalsAt (places ++ more) = literalsAt places ++ literalsAt more :=
  List.flatMap_append

/-! ## Expressions -/

variable {env : Env} {first next : Label} {p : Position} {code : Segment}

/-- What is shown of every expression. -/
def PushesExpr (e : Expr) : Prop :=
  ∀ {env first v next}, Yields (expr env e) first v next → Pushes (literalsAt e.places) v.code

theorem literal_pushes (value : Literal) : Pushes [value] (literal value).code := by
  have hcode : readings Instruction.pushed? (literal value).code = (intValue? value).toList := by
    cases value <;> rfl
  refine ⟨List.forall_mem_singleton.2 fun n hn => ?_, fun n hn => ?_⟩
  · rw [hcode, hn]
    exact List.mem_singleton_self n
  · rw [hcode, Option.mem_toList] at hn
    exact .inr (.inr ⟨value, List.mem_singleton_self value, hn⟩)

theorem arguments_pushes {args : List Expr} {as : Arguments} (ih : ∀ e ∈ args, PushesExpr e)
    (h : Yields (arguments env args) first as next) :
    Pushes (literalsAt (args.flatMap Expr.places)) as.code := by
  induction args generalizing first as with
  | nil =>
    simp only [arguments, yields_pure] at h
    obtain ⟨rfl, rfl⟩ := h
    exact .none rfl
  | cons e rest ihrest =>
    obtain ⟨v, vs, middle, hv, hvs, rfl⟩ := yields_arguments_cons.1 h
    rw [List.forall_mem_cons] at ih
    rw [List.flatMap_cons, literalsAt_append]
    exact (ih.1 hv).append (ihrest ih.2 hvs)

theorem call_pushes {receiver : Ty} {name : String} {as : Arguments} {r : Reached}
    {literals : List Literal} (has : Pushes literals as.code)
    (h : Yields (call env receiver name p as) first r next) : Pushes literals r.code := by
  obtain ⟨owner, m, -, -, -, rfl, rfl⟩ := yields_call.1 h
  exact has.congr (by simp)

theorem head_pushes {h : Head} {r : Reached} (ih : ∀ e ∈ h.operands, PushesExpr e)
    (hy : Yields (head env h) first r next) :
    Pushes (literalsAt (h.operands.flatMap Expr.places)) r.code := by
  cases h with
  | this p =>
    simp only [head, yields_pure] at hy
    obtain ⟨rfl, rfl⟩ := hy
    exact .none rfl
  | name p name =>
    simp only [head] at hy
    obtain ⟨-, ⟨l, -, rfl⟩ | ⟨owner, info, -, rfl⟩ | rfl⟩ := yields_nameHead hy
    · exact .none rfl
    · exact .none rfl
    · exact .none rfl
  | call p name args =>
    obtain ⟨as, result, middle, ha, hc, rfl⟩ := yields_head_call.1 hy
    exact (call_pushes (arguments_pushes ih ha) hc).congr
      (by simp [Instruction.loadThis, Instruction.pushed?])

theorem link_pushes {receiver : Receiver} {l : Link} {r : Reached}
    (ih : ∀ e ∈ l.operands, PushesExpr e) (hy : Yields (link env receiver l) first r next) :
    Pushes (literalsAt (l.operands.flatMap Expr.places)) r.code := by
  cases l with
  | field p name =>
    simp only [link] at hy
    obtain ⟨-, ⟨-, rfl⟩ | ⟨_, -, -, rfl⟩ | ⟨_, owner, info, -, -, -, rfl⟩⟩ := yields_fieldStep hy
    · exact .none rfl
    · exact .none rfl
    · exact .none rfl
  | call p name args =>
    rcases yields_link_call hy with ⟨line, as, -, -, ha, rfl⟩ | ⟨ty, as, middle, -, -, ha, hc⟩
    · exact (arguments_pushes ih ha).congr (by simp [Instruction.pushed?])
    · exact call_pushes (arguments_pushes ih ha) hc
  | index p i =>
    obtain ⟨ty, v, -, -, hv, -, rfl⟩ := yields_link_index hy
    rw [Link.operands, List.flatMap_singleton]
    exact (ih i (List.mem_singleton.2 rfl) hv).congr (by simp [Instruction.pushed?])

theorem links_pushes {start r : Reached} {ls : List Link} {literals : List Literal}
    (ih : ∀ l ∈ ls, ∀ e ∈ l.operands, PushesExpr e) (hs : Pushes literals start.code)
    (hy : Yields (links env start ls) first r next) :
    Pushes (literals ++ literalsAt ((ls.flatMap Link.operands).flatMap Expr.places)) r.code := by
  induction ls generalizing start first literals with
  | nil =>
    simp only [links, yields_pure] at hy
    obtain ⟨rfl, rfl⟩ := hy
    simpa using hs
  | cons l rest ihrest =>
    obtain ⟨step, middle, hstep, hrest⟩ := yields_links_cons.1 hy
    rw [List.forall_mem_cons] at ih
    have hall := ihrest ih.2 (hs.append (link_pushes ih.1 hstep)) hrest
    rwa [List.flatMap_cons, List.flatMap_append, literalsAt_append, ← List.append_assoc]

theorem chain_pushes {h : Head} {ls : List Link} {v : Typed}
    (ihh : ∀ e ∈ h.operands, PushesExpr e) (ihl : ∀ l ∈ ls, ∀ e ∈ l.operands, PushesExpr e)
    (hy : Yields (chain env (.mk h ls)) first v next) :
    Pushes (literalsAt ((Chain.mk h ls).operands.flatMap Expr.places)) v.code := by
  obtain ⟨start, r, middle, hs, hr, -, hcode⟩ := yields_chain.1 hy
  rw [hcode, Chain.operands, List.flatMap_append, literalsAt_append]
  exact links_pushes ihl (head_pushes ihh hs) hr

theorem expr_pushes (e : Expr) : PushesExpr e := by
  induction e using Expr.induction with
  | literal p value =>
    intro env first next v h
    simp only [expr, yields_pure] at h
    obtain ⟨rfl, rfl⟩ := h
    rw [Expr.places_literal]
    exact literal_pushes value
  | binary op left right ihl ihr =>
    intro env first next v h
    rw [Expr.places_binary, literalsAt_cons, literalsAt_append]
    cases op with
    | arithmetic op =>
      obtain ⟨l, r, middle, hl, hr, -, -, rfl⟩ := yields_expr_arithmetic.1 h
      exact ((ihl hl).append (ihr hr)).congr (by simp [Instruction.pushed?])
    | relation op =>
      obtain ⟨l, r, middle, yes, jump, hl, hr, hjump, -, rfl⟩ := yields_expr_relation.1 h
      have hpushed := pushed?_comparisonJump hjump
      exact ((ihl hl).append (ihr hr)).deciding [0, 1] (by simp [hpushed]) (by simp)
    | connective op =>
      obtain ⟨l, r, middle, hl, -, hr, -, rfl⟩ := yields_expr_connective.1 h
      cases op with
      | and => exact ((ihl hl).append (ihr hr)).deciding [1, 0] (by simp) (by simp)
      | or => exact ((ihl hl).append (ihr hr)).deciding [0, 1] (by simp) (by simp)
  | access h ls ihh ihl =>
    intro env first next v hy
    rw [Expr.places_access]
    exact chain_pushes ihh ihl (yields_expr_access.1 hy).1
  | newObject p className args ih =>
    intro env first next v h
    obtain ⟨as, middle, ha, hc⟩ := yields_expr_newObject.1 h
    obtain ⟨m, -, -, -, rfl⟩ := yields_construct.1 hc
    rw [Expr.places_newObject]
    exact (arguments_pushes ih ha).congr (by simp [Instruction.pushed?])
  | newArray p element length ih =>
    intro env first next v h
    obtain ⟨n, middle, hn, hc⟩ := yields_expr_newArray.1 h
    obtain ⟨-, -, rfl⟩ := yields_constructArray.1 hc
    rw [Expr.places_newArray]
    exact (ih hn).congr (by simp [Instruction.pushed?])

/-! ## Simple statements -/

theorem constants_assigning {op : AssignOp} {old : List Instruction} {value : Segment}
    {store : Instruction} (hold : ∀ i ∈ old, i.pushed? = none) (hstore : store.pushed? = none) :
    readings Instruction.pushed? (assigning op old value store) = readings Instruction.pushed? value := by
  have hnone : old.filterMap Instruction.pushed? = [] := List.filterMap_eq_nil_iff.2 hold
  cases op with
  | plain => simp [assigning, oldValue, combination, hstore]
  | compound op =>
    have harithmetic : (Instruction.arithmetic op).pushed? = none := rfl
    simp [assigning, oldValue, combination, harithmetic, hnone, hstore]

theorem assignName_pushes {name : String} {op : AssignOp} {value : Expr}
    (h : Yields (assignName env name p op value) first code next) :
    Pushes (literalsAt value.places) code := by
  obtain ⟨v, hv, ⟨l, -, rfl⟩ | ⟨owner, info, -, -, rfl⟩⟩ := yields_assignName h
  · refine (expr_pushes value hv).congr fun n => ?_
    rw [constants_assigning (List.forall_mem_singleton.2 rfl) rfl]
  · refine (expr_pushes value hv).congr fun n => ?_
    rw [readings_op, constants_assigning (by simp [Instruction.pushed?]) rfl]
    rfl

theorem assignLink_pushes {receiver : Receiver} {last : Link} {op : AssignOp} {value : Expr}
    (h : Yields (assignLink env receiver p last op value) first code next) :
    Pushes (literalsAt ((last.operands ++ [value]).flatMap Expr.places)) code := by
  rcases yields_assignLink h with ⟨_, name, object, owner, info, v, rfl, -, -, -, hv, rfl⟩ |
    ⟨_, i, array, place, v, middle, rfl, -, -, hplace, hv, rfl⟩
  · rw [Link.operands, List.nil_append, List.flatMap_singleton]
    refine (expr_pushes value hv).congr fun n => ?_
    rw [constants_assigning (by simp [Instruction.pushed?]) rfl]
  · rw [Link.operands, List.flatMap_append, List.flatMap_singleton, List.flatMap_singleton,
      literalsAt_append]
    refine ((expr_pushes i hplace).append (expr_pushes value hv)).congr fun n => ?_
    rw [readings_append, readings_append,
      constants_assigning (by simp [Instruction.pushed?]) rfl]

theorem assignment_pushes {a : Assignment} (h : Yields (assignment env a) first code next) :
    Pushes (literalsAt (Action.assignment a).places) code := by
  have hplaces : literalsAt (Action.assignment a).places =
      literalsAt ((a.target.operands ++ [a.value]).flatMap Expr.places) := rfl
  rw [hplaces]
  rcases yields_assignment h with ⟨p, name, htarget, h⟩ |
    ⟨hd, ls, last, start, reached, middle, middle', tail, htarget, hhead, hlinks, hlast, rfl⟩
  · rw [htarget]
    simpa [Chain.operands, Chain.head, Chain.links, Head.operands] using assignName_pushes h
  · have hstart := head_pushes (fun e _ => expr_pushes e) hhead
    have hsteps := links_pushes (fun _ _ e _ => expr_pushes e) hstart hlinks
    have hall := hsteps.append (assignLink_pushes hlast)
    rw [htarget]
    simpa [Chain.operands, Chain.head, Chain.links] using hall

theorem action_pushes {a : Action} (h : Yields (action env a) first code next) :
    Pushes (literalsAt a.places) code := by
  cases a with
  | assignment a => exact assignment_pushes h
  | call c =>
    obtain ⟨v, hv, rfl⟩ := yields_action_call.1 h
    obtain ⟨hd, ls⟩ := c
    have hchain := chain_pushes (fun e _ => expr_pushes e) (fun _ _ e _ => expr_pushes e) hv
    rw [Action.places, Expr.places_access]
    split
    · exact hchain
    · exact hchain.congr (by simp [Instruction.pushed?])

theorem variable_pushes {v : Variable} (h : Yields (variable_ env v) first code next) :
    Pushes (literalsAt (v.value.toList.flatMap Expr.places)) code := by
  obtain ⟨l, -, ⟨hnone, -, rfl⟩ | ⟨e, value, hsome, hv, rfl⟩⟩ := yields_variable.1 h
  · rw [hnone]
    refine .control fun n hn => .inl (pushed?_pushDefault l.type n ?_)
    simpa [Local.store] using hn
  · rw [hsome, Option.toList_some, List.flatMap_singleton]
    exact (expr_pushes e hv).congr (by simp [Local.store])

theorem jump_pushes {j : Jump} (h : Yields (jump env p j) first code next) :
    Pushes (literalsAt (Statement.jump p j).own) code := by
  cases j with
  | return_ value =>
    cases value with
    | none =>
      simp only [jump, yields_pure] at h
      obtain ⟨rfl, rfl⟩ := h
      exact .none rfl
    | some e =>
      obtain ⟨v, hv, rfl⟩ := yields_jump_value.1 h
      refine (expr_pushes e hv).congr ?_
      cases v.type.isInteger <;> simp [Instruction.pushed?]
  | break_ =>
    obtain ⟨_, -, -, rfl⟩ := yields_jump_break.1 h
    exact .none rfl
  | continue_ =>
    obtain ⟨_, -, -, rfl⟩ := yields_jump_continue.1 h
    exact .none rfl

theorem test_pushes {e : Expr} {yes no : Label} (h : Yields (test env e yes no) first code next) :
    Pushes (literalsAt e.places) code := by
  obtain ⟨v, hv, -, rfl⟩ := yields_test.1 h
  exact (expr_pushes e hv).congr (by simp [Instruction.pushed?])

theorem selector_pushes {e : Expr} {l : Local} (h : Yields (selector env e l) first code next) :
    Pushes (literalsAt e.places) code := by
  obtain ⟨v, hv, -, rfl⟩ := yields_selector.1 h
  exact (expr_pushes e hv).congr (by simp [Local.store])

/-- The tests of a switch push the labels. -/
theorem caseTests_pushes {l : Local} {label : Label} {cases : List Case}
    (h : Yields (caseTests l label cases) first code next) :
    Pushes (cases.map Case.label) code := by
  induction cases generalizing label code with
  | nil =>
    obtain ⟨-, rfl⟩ := yields_caseTests_nil.1 h
    exact .none rfl
  | cons c cases ih =>
    obtain ⟨value, rest, hvalue, hrest, rfl⟩ := yields_caseTests_cons.1 h
    have htest : Pushes [c.label] (ops [l.load, .pushInt value, .jumpInts .equal label]) := by
      have hcode : readings Instruction.pushed?
          (ops [l.load, .pushInt value, .jumpInts .equal label]) = [value] := rfl
      refine ⟨List.forall_mem_singleton.2 fun n hn => ?_, fun n hn => ?_⟩
      · cases hvalue.symm.trans hn
        exact hcode ▸ List.mem_singleton_self _
      · rw [hcode, List.mem_singleton] at hn
        exact .inr (.inr ⟨c.label, List.mem_singleton_self _, hn ▸ hvalue⟩)
    exact htest.append (ih hrest)

theorem forInit_pushes {init : Option ForInit} (h : Yields (forInit env init) first code next) :
    Pushes (literalsAt (initPlaces init)) code := by
  match init, h with
  | none, h =>
    obtain ⟨rfl, rfl⟩ := yields_pure.1 h
    exact .none rfl
  | some (.declaration v), h =>
    rw [initPlaces, Option.toList_some, List.flatMap_singleton]
    exact variable_pushes h
  | some (.assignment a), h =>
    rw [initPlaces, Option.toList_some, List.flatMap_singleton]
    exact assignment_pushes h

theorem forTest_pushes {e : Option Expr} {yes no : Label}
    (h : Yields (forTest env e yes no) first code next) :
    Pushes (literalsAt (conditionPlaces e)) code := by
  cases e with
  | none =>
    obtain ⟨rfl, rfl⟩ := yields_pure.1 h
    exact .none rfl
  | some e =>
    rw [conditionPlaces, Option.toList_some, List.flatMap_singleton]
    exact test_pushes h

theorem forUpdate_pushes {update : Option Action}
    (h : Yields (forUpdate env update) first code next) :
    Pushes (literalsAt (updatePlaces update)) code := by
  cases update with
  | none =>
    obtain ⟨rfl, rfl⟩ := yields_pure.1 h
    exact .none rfl
  | some a =>
    rw [updatePlaces, Option.toList_some, List.flatMap_singleton]
    exact action_pushes h

/-! ## Statements -/

/-- What is shown of every statement. -/
def PushesStatement (s : Statement) : Prop :=
  ∀ {env join first code next}, Yields (statement env join s) first code next →
    Pushes (literalsAt s.places) code

theorem statements_pushes {ss : List Statement} (ih : ∀ s ∈ ss, PushesStatement s)
    (h : Yields (statements env [] ss) first code next) :
    Pushes (literalsAt (statementPlaces ss)) code := by
  induction ss generalizing first code with
  | nil =>
    obtain ⟨-, rfl⟩ := yields_statements_nil.1 h
    rw [statementPlaces]
    exact .none rfl
  | cons s ss ihss =>
    obtain ⟨c, rest, middle, hc, hrest, rfl⟩ := yields_statements_cons.1 h
    rw [List.forall_mem_cons] at ih
    rw [statementPlaces, literalsAt_append]
    exact (ih.1 hc).append (ihss ih.2 hrest)

theorem block_pushes {b : Block} (ih : ∀ s ∈ b.statements, PushesStatement s)
    (h : Yields (block env b) first code next) : Pushes (literalsAt b.places) code := by
  have hstatements := statements_pushes ih (yields_block.1 h)
  obtain ⟨id, p, ss⟩ := b
  rw [Block.places]
  exact hstatements

theorem caseBodies_pushes {cases : List Case} {label : Label}
    (ih : ∀ c ∈ cases, ∀ s ∈ c.body.statements, PushesStatement s)
    (h : Yields (caseBodies env [] label cases) first code next) :
    Pushes (literalsAt (casePlaces cases)) code := by
  induction cases generalizing label first code with
  | nil =>
    obtain ⟨-, rfl⟩ := yields_caseBodies_nil.1 h
    rw [casePlaces]
    exact .none rfl
  | cons c cases ihc =>
    obtain ⟨body, rest, middle, hbody, hrest, rfl⟩ := yields_caseBodies_cons.1 h
    rw [List.forall_mem_cons] at ih
    have hall := (block_pushes ih.1 hbody).append (ihc ih.2 hrest)
    obtain ⟨p, q, l, b⟩ := c
    rw [casePlaces, literalsAt_append]
    exact hall.congr (by simp)

theorem defaultBody_pushes {default_ : Option Block} {label : Label}
    (ih : ∀ b ∈ default_, ∀ s ∈ b.statements, PushesStatement s)
    (h : Yields (defaultBody env label default_) first code next) :
    Pushes (literalsAt (defaultPlaces default_)) code := by
  cases default_ with
  | none =>
    obtain ⟨rfl, rfl⟩ := yields_pure.1 h
    rw [defaultPlaces]
    exact .none rfl
  | some b =>
    obtain ⟨body, hbody, rfl⟩ := yields_defaultBody.1 h
    rw [defaultPlaces]
    exact (block_pushes (ih b rfl) hbody).congr (by simp)

theorem elseBranch_pushes {otherwise : Option Statement} {no finish : Label}
    (ih : ∀ s ∈ otherwise, PushesStatement s)
    (h : Yields (elseBranch env no finish otherwise) first code next) :
    Pushes (literalsAt (otherwisePlaces otherwise)) code := by
  cases otherwise with
  | none =>
    obtain ⟨rfl, rfl⟩ := yields_pure.1 h
    rw [otherwisePlaces]
    exact .none rfl
  | some s =>
    rw [otherwisePlaces]
    rcases yields_elseBranch.1 h with ⟨-, c, hc, rfl⟩ | ⟨-, c, hc, rfl⟩
    · exact (ih s rfl hc).congr (by simp)
    · exact (ih s rfl hc).congr (by simp [Instruction.pushed?])

theorem statement_pushes (s : Statement) : PushesStatement s := by
  induction s using Statement.induction with
  | block b ih =>
    intro env join first code next h
    rw [statement] at h
    rw [Statement.places]
    exact block_pushes ih h
  | conditional p e body otherwise ihbody ihother =>
    intro env join first code next h
    obtain ⟨decision, inner, rest, middle, middle', hd, hi, hr, rfl⟩ := yields_conditional.1 h
    have hparts := (test_pushes hd).append ((ihbody hi).append (elseBranch_pushes ihother hr))
    rw [Statement.places, literalsAt_append, literalsAt_append]
    refine hparts.congr ?_
    cases join with
    | none => simp [Instruction.pushed?]
    | some l => simp [Instruction.pushed?]
  | whileLoop p e body ih =>
    intro env join first code next h
    obtain ⟨decision, inner, middle, hd, hi, rfl⟩ := yields_whileLoop.1 h
    rw [Statement.places, literalsAt_append]
    exact ((test_pushes hd).append (ih hi)).congr (by simp [Instruction.pushed?])
  | forLoop p id init e update body ih =>
    intro env join first code next h
    obtain ⟨before, decision, inner, after, top, middle, middle', hb, hd, hi, ha, rfl⟩ :=
      yields_forLoop.1 h
    -- the update stands behind the body in the code, and before it in the source
    have hparts := (forInit_pushes hb).append ((forTest_pushes hd).append
      ((forUpdate_pushes ha).append (ih hi)))
    rw [Statement.places, literalsAt_append, literalsAt_append, literalsAt_append,
      literalsAt_append]
    refine hparts.congr fun value => ?_
    simp only [readings_append, readings_op, readings_label, readings_nil,
      Instruction.pushed?, Option.toList_none, List.mem_append, List.append_nil]
    tauto
  | switch p id e cases default_ ihc ihd =>
    intro env join first code next h
    obtain ⟨slot, store, tests, bodies, last, label, miss, finish, middle, -, -, -, hs, ht, hb, hl,
      rfl⟩ := yields_switch.1 h
    -- the labels are among the places of the switch, in front of the selector
    have hparts := (caseTests_pushes ht).append ((selector_pushes hs).append
      ((caseBodies_pushes ihc hb).append (defaultBody_pushes ihd hl)))
    rw [Statement.places, literalsAt_append, literalsAt_append, Statement.own, literalsAt_cons,
      List.append_assoc]
    refine hparts.congr fun value => ?_
    simp only [readings_append, readings_op, readings_label, readings_nil,
      Instruction.pushed?, Option.toList_none, List.mem_append, List.append_nil]
    tauto
  | jump p j =>
    intro env join first code next h
    rw [statement] at h
    rw [Statement.places]
    exact jump_pushes h
  | action a =>
    intro env join first code next h
    rw [statement] at h
    rw [Statement.places]
    exact action_pushes h
  | declaration v =>
    intro env join first code next h
    rw [statement] at h
    rw [Statement.places]
    exact variable_pushes h

/-! ## Classes -/

theorem initializer_pushes {x : Property} (h : Yields (initializer env x) first code next) :
    Pushes (literalsAt (x.variable_.value.toList.flatMap Expr.places)) code := by
  rcases yields_initializer h with ⟨hnone, -, rfl⟩ | ⟨e, v, hsome, hv, rfl⟩
  · rw [hnone]
    refine .control fun n hn => .inl (pushed?_pushDefault x.variable_.type n ?_)
    simpa [Instruction.loadThis, Instruction.pushed?] using hn
  · rw [hsome, Option.toList_some, List.flatMap_singleton]
    exact (expr_pushes e hv).congr (by simp [Instruction.loadThis, Instruction.pushed?])

theorem initializers_pushes {properties : List Property} {values : List Segment}
    (h : Yields (properties.mapM (initializer env)) first values next) :
    Pushes (literalsAt ((properties.filterMap fun x => x.variable_.value).flatMap Expr.places))
      values.flatten := by
  induction properties generalizing first values with
  | nil =>
    obtain ⟨-, rfl⟩ := yields_mapM_nil.1 h
    exact .none rfl
  | cons x properties ih =>
    obtain ⟨value, rest, middle, hx, hrest, rfl⟩ := yields_mapM_cons.1 h
    have hall := (initializer_pushes hx).append (ih hrest)
    rw [← literalsAt_append, ← List.flatMap_append] at hall
    rw [List.filterMap_cons]
    cases hvalue : x.variable_.value with
    | none =>
      rw [hvalue] at hall
      exact hall
    | some e =>
      rw [hvalue] at hall
      exact hall

theorem prologue_pushes {superclass : String} {d : ClassDecl}
    (h : Yields (prologue env superclass d.properties) first code next) :
    Pushes (literalsAt (d.values.flatMap Expr.places)) code := by
  obtain ⟨values, hv, rfl⟩ := yields_prologue.1 h
  exact (initializers_pushes hv).congr (by simp [Instruction.loadThis, Instruction.pushed?])

theorem methodCode_pushes {header : Header} {before : Segment} {places : List Place} {m : Method}
    {mc : MethodCode} (hbefore : Pushes (literalsAt places) before)
    (h : Yields (methodCode env header before m) first mc next) :
    Pushes (literalsAt (places ++ m.body.places)) mc.code := by
  obtain ⟨body, hbody, rfl⟩ := yields_methodCode.1 h
  rw [literalsAt_append]
  exact hbefore.append (block_pushes (fun s _ => statement_pushes s) hbody)

end Lowering

/-- The places that the blocks of a class are lowered from, in order. Constructors start with the
initial values. -/
def ClassDecl.blockPlaces (d : ClassDecl) : List (List Place) :=
  d.constructors.map (fun m => d.values.flatMap Expr.places ++ m.body.places) ++
    (d.methods ++ d.main.toList).map (fun m => m.body.places) ++
    if d.constructors.isEmpty then [d.values.flatMap Expr.places] else []

namespace Lowering

variable {env : Env} {first next : Label}

/-- The blocks of a class push the literals at their places. -/
theorem class_pushes {d : ClassDecl} {c : ClassSection} (h : Yields (class_ env d) first c next) :
    List.Forall₂ (fun places mc => Pushes (literalsAt places) mc.code) d.blockPlaces c.methods := by
  obtain ⟨constructors, methods, default_, middle, middle', hc, hm, hdefault, hall, -⟩ :=
    yields_class h
  rw [hall, ClassDecl.blockPlaces]
  refine List.rel_append (List.rel_append ?_ ?_) ?_
  · rw [List.forall₂_map_left_iff]
    refine forall₂_mapM (fun m _ first mc next hy => ?_) hc
    obtain ⟨before, middle, hp, hcode⟩ := yields_constructor.1 hy
    exact methodCode_pushes (prologue_pushes hp) hcode
  · rw [List.forall₂_map_left_iff]
    refine forall₂_mapM (fun m _ first mc next hy => ?_) hm
    exact @methodCode_pushes _ _ _ _ _ [] m mc (.none rfl) hy
  · rcases hdefault with ⟨hnone, mc, rfl, hy⟩ | ⟨hsome, rfl, -⟩
    · simp only [defaultConstructor, yields_bind, yields_pure] at hy
      obtain ⟨before, _, hp, rfl, -⟩ := hy
      rw [hnone]
      exact .cons (prologue_pushes hp) .nil
    · rw [if_neg (mt List.isEmpty_iff.1 hsome)]
      exact .nil

end Lowering

end Javelet
