import Javelet.Proofs.Lowering.Entities

/-!
# Loads of the first slot

A receiver is held in slot 0, and so is the first parameter of a method without a receiver: both are
loaded by the same instruction. In code that needs no receiver, this instruction stands once for
each visit that loads the variable in slot 0, and nowhere else.
-/
namespace Javelet

namespace Assembly

/-- Instructions with a slot only can load a receiver. -/
theorem ne_loadThis {i : Instruction} (h : i.slot? = none) : i ≠ .loadThis := by
  rintro rfl
  cases h

end Assembly

/-- The name at a place whose value is loaded. The name of a variable that is assigned to is not
loaded, unless the assignment is compound. -/
def Place.loaded? : Place → Option String
  | expr (.access (.mk (.name _ name) _)) => some name
  | target (.mk (.name _ name) (_ :: _)) => some name
  | _ => none

/-- The head of the chain that stands at a place. -/
def Place.head? : Place → Option Head
  | expr (.access c) => some c.head
  | target c => some c.head
  | _ => none

namespace Lowering

open Assembly

/-- Whether a variable is held where a receiver would be. -/
def Local.isFirst (l : Local) : Bool := decide (l.load = .loadThis)

/-- Whether the variable in slot 0 is loaded at a visit. -/
def Visit.loadsFirst (g : Visit) : Bool := (g.place.loaded?.bind g.env.local?).any Local.isFirst

/-- A visit that needs no receiver: the chain that stands there does not start with `this`, with a
call or with the name of a property. -/
structure Visit.Receiverless (g : Visit) : Prop where
  head : ∀ h, g.place.head? = some h → ∃ p n, h = .name p n
  name : ∀ n owner, g.place.name? = some n → g.env.entity? n ≠ some (.property owner)

/-- In code that needs no receiver, the visits tell how often slot 0 is loaded as one. -/
def Counted (visits : List Visit) (code : Segment) : Prop :=
  (∀ g ∈ visits, g.Receiverless) →
    (readings some code).count .loadThis = visits.countP Visit.loadsFirst

namespace Counted

variable {visits more : List Visit} {code rest : Segment} {g : Visit}

theorem nil (h : (readings some code).count .loadThis = 0) : Counted [] code := fun _ => h

theorem empty : Counted [] [] := nil rfl

theorem append (h : Counted visits code) (h' : Counted more rest) :
    Counted (visits ++ more) (code ++ rest) := by
  intro hvisits
  rw [List.forall_mem_append] at hvisits
  rw [readings_append, List.count_append, h hvisits.1, h' hvisits.2, List.countP_append]

theorem congr (h : Counted visits code)
    (hcode : (readings some rest).count .loadThis = (readings some code).count .loadThis) :
    Counted visits rest :=
  fun hvisits => hcode.trans (h hvisits)

/-- One more visit that loads nothing. -/
theorem quiet (hg : g.loadsFirst = false) (h : Counted visits code)
    (hcode : (readings some rest).count .loadThis = (readings some code).count .loadThis) :
    Counted (g :: visits) rest := by
  intro hvisits
  rw [List.forall_mem_cons] at hvisits
  rw [hcode, h hvisits.2, List.countP_cons_of_neg (by simp [hg])]

/-- One more visit, and the loads in front of the code. -/
theorem cons (h : Counted visits code)
    (hcode : g.Receiverless →
      (readings some rest).count .loadThis =
        (readings some code).count .loadThis + if g.loadsFirst then 1 else 0) :
    Counted (g :: visits) rest := by
  intro hvisits
  rw [List.forall_mem_cons] at hvisits
  rw [hcode hvisits.1, h hvisits.2, List.countP_cons]

end Counted

/-! ## Instructions without loads of a receiver -/

@[simp] theorem receiverLoads_choice (b : Bool) (other finish : Label) :
    (readings some (choice b other finish)).count .loadThis = 0 := by
  simp [choice, Instruction.pushBoolean, Instruction.loadThis]

theorem receiverLoads_literal (value : Literal) :
    (readings some (literal value).code).count .loadThis = 0 := by
  cases value <;> simp [literal, Instruction.pushBoolean, Instruction.loadThis]

/-! ## Expressions -/

variable {env : Env} {targets : List Targets} {first next : Label} {p : Position} {code : Segment}

/-- What is shown of every expression. -/
def CountedExpr (e : Expr) : Prop :=
  ∀ {env targets first v next}, Yields (expr (Env.aimed env targets) e) first v next →
    Counted (env.seen e.places) v.code

theorem arguments_counted {args : List Expr} {as : Arguments} (ih : ∀ e ∈ args, CountedExpr e)
    (h : Yields (arguments (env.aimed targets) args) first as next) :
    Counted (env.seen (args.flatMap Expr.places)) as.code := by
  induction args generalizing first as with
  | nil =>
    simp only [arguments, yields_pure] at h
    obtain ⟨rfl, rfl⟩ := h
    exact .nil rfl
  | cons e rest ihrest =>
    obtain ⟨v, vs, middle, hv, hvs, rfl⟩ := yields_arguments_cons.1 h
    rw [List.forall_mem_cons] at ih
    rw [List.flatMap_cons, seen_append]
    exact (ih.1 hv).append (ihrest ih.2 hvs)

theorem call_counted {receiver : Ty} {name : String} {args : Arguments} {r : Reached}
    (h : Yields (call env receiver name p args) first r next) :
    (readings some r.code).count .loadThis = (readings some args.code).count .loadThis := by
  obtain ⟨owner, m, _, _, _, rfl, rfl⟩ := yields_call.1 h
  simp [ne_loadThis]

/-- A name that is not a property loads its variable, if it has one. -/
theorem nameHead_counted {name : String} {r : Reached}
    (hname : ∀ owner, env.entity? name ≠ some (.property owner))
    (h : Yields (nameHead env name p) first r next) :
    (readings some r.code).count .loadThis =
      if (env.local? name).any Local.isFirst then 1 else 0 := by
  unfold nameHead at h
  unfold Env.entity? at hname
  split at h
  · rename_i l hl
    obtain ⟨rfl, -⟩ := yields_pure.1 h
    simp [hl, Local.isFirst, List.count_singleton]
  · rename_i hl
    rw [hl] at hname
    split at h
    · rename_i owner info hp
      rw [hp] at hname
      exact (hname _ rfl).elim
    · simp only [yields_ite, yields_pure, yields_refuse, and_false, or_false] at h
      obtain ⟨-, rfl, -⟩ := h
      simp [hl]

/-- The head of a chain that stands at a visit. -/
theorem head_counted {h : Head} {r : Reached} {g : Visit} (ih : ∀ e ∈ h.operands, CountedExpr e)
    (henv : g.env = env) (hhead : g.place.head? = some h)
    (hname : ∀ p n, h = .name p n → g.place.name? = some n ∧ g.place.loaded? = some n)
    (hy : Yields (head (env.aimed targets) h) first r next) :
    Counted (g :: env.seen (h.operands.flatMap Expr.places)) r.code := by
  cases h with
  | this p =>
    intro hvisits
    obtain ⟨_, _, hne⟩ := (List.forall_mem_cons.1 hvisits).1.head _ hhead
    cases hne
  | name p name =>
    obtain ⟨hplace, hloaded⟩ := hname p name rfl
    refine .cons .empty fun hg => ?_
    have hproperty : ∀ owner, (env.aimed targets).entity? name ≠ some (.property owner) :=
      fun owner => henv ▸ hg.name name owner hplace
    rw [nameHead_counted hproperty hy, Visit.loadsFirst, hloaded, henv, readings_nil,
      List.count_nil, Nat.zero_add]
    rfl
  | call p name args =>
    intro hvisits
    obtain ⟨_, _, hne⟩ := (List.forall_mem_cons.1 hvisits).1.head _ hhead
    cases hne

theorem link_counted {receiver : Receiver} {l : Link} {r : Reached}
    (ih : ∀ e ∈ l.operands, CountedExpr e)
    (hy : Yields (link (env.aimed targets) receiver l) first r next) :
    Counted (env.seen (l.operands.flatMap Expr.places)) r.code := by
  cases l with
  | field p name =>
    simp only [link] at hy
    obtain ⟨rfl, ⟨_, rfl⟩ | ⟨_, _, _, rfl⟩ | ⟨_, _, _, _, _, _, rfl⟩⟩ := yields_fieldStep hy
    · exact .nil rfl
    · exact .nil rfl
    · exact .nil (by simp [Instruction.loadThis])
  | call p name args =>
    rcases yields_link_call hy with ⟨line, as, _, _, ha, rfl⟩ | ⟨ty, as, middle, _, _, ha, hc⟩
    · exact (arguments_counted ih ha).congr (by simp [Instruction.loadThis])
    · exact (arguments_counted ih ha).congr (call_counted hc)
  | index p i =>
    obtain ⟨ty, v, _, _, hv, _, rfl⟩ := yields_link_index hy
    rw [Link.operands, List.flatMap_singleton]
    exact (ih i (List.mem_singleton.2 rfl) hv).congr (by simp [Instruction.loadThis])

theorem links_counted {start r : Reached} {ls : List Link}
    (ih : ∀ l ∈ ls, ∀ e ∈ l.operands, CountedExpr e)
    (hy : Yields (links (env.aimed targets) start ls) first r next) :
    ∃ tail, r.code = start.code ++ tail ∧
      Counted (env.seen ((ls.flatMap Link.operands).flatMap Expr.places)) tail := by
  induction ls generalizing start first with
  | nil =>
    simp only [links, yields_pure] at hy
    obtain ⟨rfl, rfl⟩ := hy
    exact ⟨[], by simp, .nil rfl⟩
  | cons l rest ihrest =>
    obtain ⟨step, middle, hstep, hrest⟩ := yields_links_cons.1 hy
    rw [List.forall_mem_cons] at ih
    obtain ⟨tail, htail, hcounted⟩ := ihrest ih.2 hrest
    refine ⟨step.code ++ tail, by simp [htail], ?_⟩
    rw [List.flatMap_cons, List.flatMap_append, seen_append]
    exact (link_counted ih.1 hstep).append hcounted

/-- The chain that stands at a visit. -/
theorem chain_counted {h : Head} {ls : List Link} {v : Typed}
    (ihh : ∀ e ∈ h.operands, CountedExpr e) (ihl : ∀ l ∈ ls, ∀ e ∈ l.operands, CountedExpr e)
    (hy : Yields (chain (env.aimed targets) (.mk h ls)) first v next) :
    Counted (env.seen (Expr.access (.mk h ls)).places) v.code := by
  obtain ⟨start, r, middle, hs, hr, _, hcode⟩ := yields_chain.1 hy
  obtain ⟨tail, htail, hcounted⟩ := links_counted ihl hr
  have hhead : Counted (⟨.expr (.access (.mk h ls)), env⟩ ::
      env.seen (h.operands.flatMap Expr.places)) start.code := by
    refine head_counted ihh rfl rfl ?_ hs
    rintro p n rfl
    exact ⟨rfl, rfl⟩
  rw [Expr.places_access, hcode, htail, Chain.operands, List.flatMap_append, Env.seen,
    List.map_cons, List.map_append, ← List.cons_append]
  exact hhead.append hcounted

theorem expr_counted (e : Expr) : CountedExpr e := by
  induction e using Expr.induction with
  | literal p value =>
    intro env targets first v next h
    simp only [expr, yields_pure] at h
    obtain ⟨rfl, rfl⟩ := h
    rw [Expr.places_literal]
    exact .quiet rfl .empty (receiverLoads_literal value)
  | binary op left right ihl ihr =>
    intro env targets first v next h
    rw [Expr.places_binary, Env.seen, List.map_cons, List.map_append]
    cases op with
    | arithmetic op =>
      obtain ⟨l, r, middle, hl, hr, _, _, rfl⟩ := yields_expr_arithmetic.1 h
      refine .quiet rfl ((ihl hl).append (ihr hr)) ?_
      simp [Instruction.loadThis]
    | relation op =>
      obtain ⟨l, r, middle, yes, jump, hl, hr, hjump, rfl, rfl⟩ := yields_expr_relation.1 h
      have hne := ne_loadThis (slot?_comparisonJump hjump)
      exact .quiet rfl ((ihl hl).append (ihr hr)) (by simp [hne])
    | connective op =>
      obtain ⟨l, r, middle, hl, _, hr, _, rfl⟩ := yields_expr_connective.1 h
      exact .quiet rfl ((ihl hl).append (ihr hr)) (by simp [ne_loadThis])
  | access h ls ihh ihl =>
    intro env targets first v next hy
    exact chain_counted ihh ihl (yields_expr_access.1 hy).1
  | newObject p className args ih =>
    intro env targets first v next h
    obtain ⟨as, middle, ha, hc⟩ := yields_expr_newObject.1 h
    obtain ⟨m, _, _, rfl, rfl⟩ := yields_construct.1 hc
    rw [Expr.places_newObject]
    exact .quiet rfl (arguments_counted ih ha) (by simp [Instruction.loadThis])
  | newArray p element length ih =>
    intro env targets first v next h
    obtain ⟨n, middle, hn, hc⟩ := yields_expr_newArray.1 h
    obtain ⟨_, rfl, rfl⟩ := yields_constructArray.1 hc
    rw [Expr.places_newArray]
    exact .quiet rfl (ih hn) (by simp [Instruction.loadThis])

/-! ## Simple statements -/

theorem receiverLoads_assigning {op : AssignOp} {old : List Instruction} {value : Segment}
    {store : Instruction} (hold : op ≠ .plain → ∀ i ∈ old, i ≠ .loadThis)
    (hstore : store ≠ .loadThis) :
    (readings some (assigning op old value store)).count .loadThis =
      (readings some value).count .loadThis := by
  cases op with
  | plain => simp [assigning, oldValue, combination, hstore]
  | compound op =>
    have hzero : old.count .loadThis = 0 := by
      rw [List.count_eq_zero]
      intro hload
      exact hold (by simp) _ hload rfl
    have hop : Instruction.arithmetic op ≠ .loadThis := by simp [Instruction.loadThis]
    simp [assigning, oldValue, combination, hstore, hzero, hop]

theorem store_ne_loadThis (l : Local) : l.store ≠ .loadThis := nofun

/-- Variables of integers are not held as receivers are. -/
theorem load_ne_loadThis {l : Local} (h : l.type.isInteger = true) : l.load ≠ .loadThis := by
  simp [Local.load, Instruction.loadThis, Cell.ofTy, h]

/-- The assignment to a bare name that stands at a visit. -/
theorem assignName_counted {name : String} {op : AssignOp} {value : Expr} {g : Visit}
    (henv : g.env = env) (hplace : g.place = .target (.mk (.name p name) []))
    (h : Yields (assignName (env.aimed targets) name p op value) first code next) :
    Counted (g :: env.seen value.places) code := by
  have hquiet : g.loadsFirst = false := by
    rw [Visit.loadsFirst, hplace]
    rfl
  unfold assignName at h
  split at h
  · rename_i l hl
    simp only [yields_bind, yields_storeLocal] at h
    obtain ⟨v, _, hv, -, rfl, hint⟩ := h
    refine .quiet hquiet (expr_counted value hv) (receiverLoads_assigning ?_ (store_ne_loadThis l))
    intro hop
    exact List.forall_mem_singleton.2 (load_ne_loadThis (hint hop).1)
  · rename_i hl
    simp only [yields_bind, yields_property, yields_storeField, yields_pure] at h
    obtain ⟨_, _, ⟨owner, info, hp, -⟩, -⟩ := h
    intro hvisits
    have hname : g.place.name? = some name := by
      rw [hplace]
      rfl
    have hentity : (env.aimed targets).entity? name = some (.property owner.name) := by
      rw [Env.entity?, hl, hp]
    exact ((List.forall_mem_cons.1 hvisits).1.name name owner.name hname (henv ▸ hentity)).elim

theorem assignLink_counted {receiver : Receiver} {last : Link} {op : AssignOp} {value : Expr}
    (h : Yields (assignLink (env.aimed targets) receiver p last op value) first code next) :
    Counted (env.seen ((last.operands ++ [value]).flatMap Expr.places)) code := by
  rcases yields_assignLink h with ⟨_, _, _, _, _, v, rfl, _, _, _, hv, rfl⟩ |
    ⟨_, i, _, place, v, middle, rfl, _, _, hplace, hv, rfl⟩
  · rw [Link.operands, List.nil_append, List.flatMap_singleton]
    refine (expr_counted value hv).congr (receiverLoads_assigning ?_ ?_) <;>
      simp [Instruction.loadThis]
  · rw [Link.operands, List.flatMap_append, List.flatMap_singleton, List.flatMap_singleton,
      seen_append]
    refine ((expr_counted i hplace).append (expr_counted value hv)).congr ?_
    rw [readings_append, readings_append, List.count_append, List.count_append,
      receiverLoads_assigning ?_ ?_] <;> simp [Instruction.loadThis]

theorem assignment_counted {a : Assignment}
    (h : Yields (assignment (env.aimed targets) a) first code next) :
    Counted (env.seen (Action.assignment a).places) code := by
  rw [Action.places, Env.seen, List.map_cons]
  rcases yields_assignment h with ⟨p, name, htarget, h⟩ |
    ⟨hd, ls, last, start, reached, middle, middle', tail, htarget, hhead, hlinks, hlast, rfl⟩
  · rw [htarget]
    have hcounted := @assignName_counted env targets first next p code name a.op a.value
      ⟨.target (.mk (.name p name) []), env⟩ rfl rfl h
    simpa [Chain.operands, Chain.head, Chain.links, Head.operands, Env.seen] using hcounted
  · obtain ⟨steps, hsteps, hcounted⟩ := links_counted (fun _ _ e _ => expr_counted e) hlinks
    have hstart := @head_counted env targets first middle hd start ⟨.target a.target, env⟩
      (fun e _ => expr_counted e) rfl (by rw [htarget]; rfl) ?_ hhead
    · have hall := (hstart.append hcounted).append (assignLink_counted hlast)
      rw [hsteps]
      rw [htarget] at hall ⊢
      simpa [Chain.operands, Chain.head, Chain.links, Env.seen] using hall
    · rintro p n rfl
      rw [htarget]
      cases ls with
      | nil => exact ⟨rfl, rfl⟩
      | cons l ls => exact ⟨rfl, rfl⟩

theorem action_counted {a : Action} (h : Yields (action (env.aimed targets) a) first code next) :
    Counted (env.seen a.places) code := by
  cases a with
  | assignment a => exact assignment_counted h
  | call c =>
    obtain ⟨v, hv, rfl⟩ := yields_action_call.1 h
    obtain ⟨hd, ls⟩ := c
    have hcounted := chain_counted (fun e _ => expr_counted e) (fun _ _ e _ => expr_counted e) hv
    split
    · exact hcounted
    · exact hcounted.congr (by simp [Instruction.loadThis])

theorem variable_counted {v : Variable}
    (h : Yields (variable_ (env.aimed targets) v) first code next) :
    Counted (env.seen (Statement.declaration v).own) code := by
  obtain ⟨l, hl, hcode⟩ := yields_variable.1 h
  rw [Statement.own, Env.seen, List.map_cons]
  rcases hcode with ⟨hnone, rfl, rfl⟩ | ⟨e, value, hsome, hv, rfl⟩
  · rw [hnone]
    refine .quiet rfl .empty ?_
    simp [ne_loadThis, store_ne_loadThis]
  · rw [hsome, Option.toList_some, List.flatMap_singleton]
    exact .quiet rfl (expr_counted e hv) (by simp [store_ne_loadThis])

theorem jump_counted {j : Jump} (h : Yields (jump (env.aimed targets) p j) first code next) :
    Counted (env.seen (Statement.jump p j).own) code := by
  refine @Counted.quiet _ code code ⟨.statement (.jump p j), env⟩ rfl ?_ rfl
  cases j with
  | return_ value =>
    cases value with
    | none =>
      simp only [jump, yields_pure] at h
      obtain ⟨rfl, rfl⟩ := h
      exact .nil rfl
    | some e =>
      obtain ⟨v, hv, rfl⟩ := yields_jump_value.1 h
      refine (expr_counted e hv).congr ?_
      cases v.type.isInteger <;> simp [Instruction.loadThis]
  | break_ =>
    obtain ⟨_, _, rfl, rfl⟩ := yields_jump_break.1 h
    exact .nil rfl
  | continue_ =>
    obtain ⟨_, _, rfl, rfl⟩ := yields_jump_continue.1 h
    exact .nil rfl

theorem test_counted {e : Expr} {yes no : Label}
    (h : Yields (test (env.aimed targets) e yes no) first code next) :
    Counted (env.seen e.places) code := by
  obtain ⟨v, hv, _, rfl⟩ := yields_test.1 h
  exact (expr_counted e hv).congr (by simp [Instruction.loadThis])

theorem forTest_counted {e : Option Expr} {yes no : Label}
    (h : Yields (forTest (env.aimed targets) e yes no) first code next) :
    Counted (env.seen (conditionPlaces e)) code := by
  cases e with
  | none =>
    obtain ⟨rfl, rfl⟩ := yields_pure.1 h
    exact .nil rfl
  | some e =>
    rw [conditionPlaces, Option.toList_some, List.flatMap_singleton]
    exact test_counted h

/-- The selector of a switch is an integer, so a test does not load a receiver. -/
theorem receiverLoads_caseTests {slot : Nat} {label : Label} {cases : List Case}
    (h : Yields (caseTests ⟨slot, .int⟩ label cases) first code next) :
    (readings some code).count .loadThis = 0 := by
  induction cases generalizing label code with
  | nil =>
    obtain ⟨_, rfl⟩ := yields_caseTests_nil.1 h
    rfl
  | cons c cases ih =>
    obtain ⟨value, rest, _, hrest, rfl⟩ := yields_caseTests_cons.1 h
    have hload : (⟨slot, .int⟩ : Local).load ≠ .loadThis := load_ne_loadThis rfl
    have hpush : Instruction.pushInt value ≠ .loadThis := nofun
    have hjump : Instruction.jumpInts .equal label ≠ .loadThis := nofun
    have hcount := ih hrest
    simp [hcount, hload, hpush, hjump]

/-! ## Statements -/

/-- What is shown of every statement. -/
def CountedStatement (s : Statement) : Prop :=
  ∀ {env targets join first code next},
    Yields (statement (Env.aimed env targets) join s) first code next →
    Counted (env.visits s) code

theorem forInit_counted {init : Option ForInit}
    (h : Yields (forInit (env.aimed targets) init) first code next) :
    Counted (env.seen (initPlaces init)) code := by
  match init, h with
  | none, h =>
    obtain ⟨rfl, rfl⟩ := yields_pure.1 h
    exact .nil rfl
  | some (.declaration v), h =>
    rw [initPlaces, Option.toList_some, List.flatMap_singleton]
    exact variable_counted h
  | some (.assignment a), h =>
    rw [initPlaces, Option.toList_some, List.flatMap_singleton]
    exact .quiet rfl (assignment_counted h) rfl

theorem forUpdate_counted {update : Option Action}
    (h : Yields (forUpdate (env.aimed targets) update) first code next) :
    Counted (env.seen (updatePlaces update)) code := by
  cases update with
  | none =>
    obtain ⟨rfl, rfl⟩ := yields_pure.1 h
    exact .nil rfl
  | some a =>
    rw [updatePlaces, Option.toList_some, List.flatMap_singleton]
    exact .quiet rfl (action_counted h) rfl

theorem statements_counted {ss : List Statement} (ih : ∀ s ∈ ss, CountedStatement s)
    (h : Yields (statements (env.aimed targets) [] ss) first code next) :
    Counted (env.statementVisits ss) code := by
  induction ss generalizing first code with
  | nil =>
    obtain ⟨rfl, rfl⟩ := yields_statements_nil.1 h
    rw [Env.statementVisits]
    exact .nil rfl
  | cons s ss ihss =>
    obtain ⟨c, rest, middle, hc, hrest, rfl⟩ := yields_statements_cons.1 h
    rw [List.forall_mem_cons] at ih
    rw [Env.statementVisits]
    exact (ih.1 hc).append (ihss ih.2 hrest)

theorem block_counted {b : Block} (ih : ∀ s ∈ b.statements, CountedStatement s)
    (h : Yields (block (env.aimed targets) b) first code next) :
    Counted (env.blockVisits b) code := by
  have hstatements := yields_block.1 h
  obtain ⟨id, p, ss⟩ := b
  rw [Env.blockVisits]
  exact @statements_counted (env.enter id) targets _ _ _ ss ih hstatements

theorem caseBodies_counted {cases : List Case} {label : Label}
    (ih : ∀ c ∈ cases, ∀ s ∈ c.body.statements, CountedStatement s)
    (h : Yields (caseBodies (env.aimed targets) [] label cases) first code next) :
    Counted (env.caseVisits cases) code := by
  induction cases generalizing label first code with
  | nil =>
    obtain ⟨rfl, rfl⟩ := yields_caseBodies_nil.1 h
    rw [Env.caseVisits]
    exact .nil rfl
  | cons c cases ihc =>
    obtain ⟨body, rest, middle, hbody, hrest, rfl⟩ := yields_caseBodies_cons.1 h
    rw [List.forall_mem_cons] at ih
    obtain ⟨p, q, l, b⟩ := c
    rw [Env.caseVisits]
    exact ((block_counted ih.1 hbody).append (ihc ih.2 hrest)).congr (by simp)

theorem defaultBody_counted {default_ : Option Block} {label : Label}
    (ih : ∀ b ∈ default_, ∀ s ∈ b.statements, CountedStatement s)
    (h : Yields (defaultBody (env.aimed targets) label default_) first code next) :
    Counted (env.defaultVisits default_) code := by
  cases default_ with
  | none =>
    obtain ⟨rfl, rfl⟩ := yields_pure.1 h
    rw [Env.defaultVisits]
    exact .nil rfl
  | some b =>
    obtain ⟨body, hbody, rfl⟩ := yields_defaultBody.1 h
    rw [Env.defaultVisits]
    exact (block_counted (ih b rfl) hbody).congr (by simp)

theorem elseBranch_counted {otherwise : Option Statement} {no finish : Label}
    (ih : ∀ s ∈ otherwise, CountedStatement s)
    (h : Yields (elseBranch (env.aimed targets) no finish otherwise) first code next) :
    Counted (env.otherwiseVisits otherwise) code := by
  cases otherwise with
  | none =>
    obtain ⟨rfl, rfl⟩ := yields_pure.1 h
    rw [Env.otherwiseVisits]
    exact .nil rfl
  | some s =>
    rw [Env.otherwiseVisits]
    rcases yields_elseBranch.1 h with ⟨_, c, hc, rfl⟩ | ⟨_, c, hc, rfl⟩
    · exact (ih s rfl hc).congr (by simp)
    · exact (ih s rfl hc).congr (by simp [Instruction.loadThis])

theorem statement_counted (s : Statement) : CountedStatement s := by
  induction s using Statement.induction with
  | block b ih =>
    intro env targets join first code next h
    rw [statement] at h
    rw [Env.visits]
    exact .quiet rfl (block_counted ih h) rfl
  | conditional p e body otherwise ihbody ihother =>
    intro env targets join first code next h
    obtain ⟨decision, inner, rest, middle, middle', hd, hi, hr, rfl⟩ := yields_conditional.1 h
    have hparts := (test_counted hd).append
      ((ihbody hi).append (elseBranch_counted ihother hr))
    rw [Env.visits]
    refine .quiet rfl hparts ?_
    cases join with
    | none => simp [Instruction.loadThis]
    | some l => simp [Instruction.loadThis]
  | whileLoop p e body ih =>
    intro env targets join first code next h
    obtain ⟨decision, inner, middle, hd, hi, rfl⟩ := yields_whileLoop.1 h
    rw [Env.visits]
    refine .quiet rfl ((test_counted hd).append (ih hi)) ?_
    simp [Instruction.loadThis]
  | forLoop p id init e update body ih =>
    intro env targets join first code next h
    obtain ⟨before, decision, inner, after, top, middle, middle', hb, hd, hi, ha, rfl⟩ :=
      yields_forLoop.1 h
    rw [aimed_enter] at hb hd ha
    rw [aimed_enter, aimed_inside] at hi
    have hparts := (forInit_counted hb).append ((forTest_counted hd).append
      ((forUpdate_counted ha).append (ih hi)))
    rw [Env.visits]
    refine .quiet rfl hparts ?_
    simp [Instruction.loadThis]
    omega
  | switch p id e cases default_ ihc ihd =>
    intro env targets join first code next h
    obtain ⟨slot, store, tests, bodies, last, label, miss, finish, middle, rfl, rfl, hslot, hs, ht,
      hb, hl, rfl⟩ := yields_switch.1 h
    obtain ⟨v, hv, -, rfl⟩ := yields_selector.1 hs
    rw [aimed_inside] at hb hl
    have hparts := (expr_counted e hv).append
      ((caseBodies_counted ihc hb).append (defaultBody_counted ihd hl))
    rw [Env.visits]
    refine .quiet rfl hparts ?_
    have htests := receiverLoads_caseTests ht
    rw [Instruction.loadThis] at htests
    simp [htests, Local.store, Instruction.loadThis, Nat.add_assoc]
  | jump p j =>
    intro env targets join first code next h
    rw [statement] at h
    rw [Env.visits]
    exact jump_counted h
  | action a =>
    intro env targets join first code next h
    rw [statement] at h
    rw [Env.visits]
    exact .quiet rfl (action_counted h) rfl
  | declaration v =>
    intro env targets join first code next h
    rw [statement] at h
    rw [Env.visits]
    exact variable_counted h

theorem body_counted {m : Method}
    (h : Yields (block (env.enter m.signature.id) m.body) first code next) :
    Counted ((env.enter m.signature.id).blockVisits m.body) code :=
  @block_counted (env.enter m.signature.id) env.targets _ _ _ m.body
    (fun s _ => statement_counted s) h

end Lowering

end Javelet
