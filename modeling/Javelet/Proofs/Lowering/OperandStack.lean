import Javelet.Proofs.Assembly.Heights
import Javelet.Proofs.Grammar.Declarations
import Javelet.Proofs.Lowering.Depth
import Javelet.Proofs.Lowering.Methods
import Javelet.Proofs.Scope.Declarations

/-!
# The operand stack of compiled methods

The code of a statement takes an empty stack to an empty stack, and its jumps to the outside leave
an empty stack too. So does the code of a method, and the stack is empty wherever a statement of the
method starts.
-/
namespace Javelet.Lowering

open Assembly

variable {env : Env} {first next : Label} {p : Position} {code : Segment}

/-! ## Statements -/

/-- The exits of a statement: those of its surroundings and the label at which it may join. -/
def joinExits (env : Env) (join : Option Label) : List (Label × Nat) :=
  join.toList.map (·, 0) ++ env.exits

/-- What is shown of every statement: it takes an empty stack to an empty stack. -/
def KeepsEmpty (s : Statement) : Prop :=
  ∀ {env join first code next}, env.WellNamed → Yields (statement env join s) first code next →
    Flow (joinExits env join) 0 code 0

theorem statements_flow (henv : env.WellNamed) {ss : List Statement}
    (ih : ∀ s ∈ ss, KeepsEmpty s) (h : Yields (statements env [] ss) first code next) :
    Flow env.exits 0 code 0 := by
  induction ss generalizing first code with
  | nil =>
    obtain ⟨rfl, rfl⟩ := yields_statements_nil.1 h
    exact .nil
  | cons s ss ihss =>
    obtain ⟨c, rest, middle, hc, hrest, rfl⟩ := yields_statements_cons.1 h
    exact (ih s (List.mem_cons_self ..) henv hc).append
      (ihss (fun s hs => ih s (List.mem_cons_of_mem _ hs)) hrest)

theorem block_flow (henv : env.WellNamed) {b : Block} (ih : ∀ s ∈ b.statements, KeepsEmpty s)
    (h : Yields (block env b) first code next) : Flow env.exits 0 code 0 := by
  have hflow := statements_flow (henv.enter b.id) ih (yields_block.1 h)
  exact hflow

/-- The bodies of cases, with the labels before them. -/
theorem caseBodies_flow (henv : env.WellNamed) {cases : List Case} {label : Label}
    (ih : ∀ c ∈ cases, ∀ s ∈ c.body.statements, KeepsEmpty s)
    (h : Yields (caseBodies env [] label cases) first code next) :
    Flow env.exits 0 code 0 ∧ ∀ i < cases.length, (label + i, 0) ∈ placed 0 code := by
  induction cases generalizing label first code with
  | nil =>
    obtain ⟨rfl, rfl⟩ := yields_caseBodies_nil.1 h
    exact ⟨.nil, nofun⟩
  | cons c cases ihc =>
    obtain ⟨body, rest, middle, hbody, hrest, rfl⟩ := yields_caseBodies_cons.1 h
    have hb := block_flow henv (ih c (List.mem_cons_self ..)) hbody
    obtain ⟨hflow, hplaced⟩ := ihc (fun c hc => ih c (List.mem_cons_of_mem _ hc)) hrest
    refine ⟨((Flow.label label).append hb).append hflow, ?_⟩
    intro i hi
    cases i with
    | zero => exact List.mem_cons_self ..
    | succ i =>
      have hmem := hplaced i (Nat.lt_of_succ_lt_succ hi)
      rw [Nat.add_assoc, Nat.add_comm 1 i] at hmem
      simp only [List.cons_append, placed, placed_append, hb.ends]
      exact List.mem_cons_of_mem _ (List.mem_append_right _ hmem)

theorem defaultBody_flow (henv : env.WellNamed) {default_ : Option Block} {label : Label}
    (ih : ∀ b ∈ default_, ∀ s ∈ b.statements, KeepsEmpty s)
    (h : Yields (defaultBody env label default_) first code next) :
    Flow env.exits 0 code 0 ∧ (default_.isSome → (label, 0) ∈ placed 0 code) := by
  cases default_ with
  | none =>
    obtain ⟨rfl, rfl⟩ := yields_pure.1 h
    exact ⟨.nil, nofun⟩
  | some b =>
    obtain ⟨body, hbody, rfl⟩ := yields_defaultBody.1 h
    exact ⟨(Flow.label label).append (block_flow henv (ih b rfl) hbody), fun _ =>
      List.mem_cons_self ..⟩

theorem elseBranch_flow (henv : env.WellNamed) {no finish : Label} {otherwise : Option Statement}
    (ih : ∀ s ∈ otherwise, KeepsEmpty s)
    (h : Yields (elseBranch env no finish otherwise) first code next) :
    Flow ((finish, 0) :: env.exits) 0 code 0 ∧ (otherwise.isSome → (no, 0) ∈ placed 0 code) := by
  cases otherwise with
  | none =>
    obtain ⟨rfl, rfl⟩ := yields_pure.1 h
    exact ⟨.nil, nofun⟩
  | some s =>
    rcases yields_elseBranch.1 h with ⟨-, c, hc, rfl⟩ | ⟨-, c, hc, rfl⟩
    · exact ⟨(Flow.label no).append (ih s rfl henv hc), fun _ => List.mem_cons_self ..⟩
    · have hs : Flow ((finish, 0) :: env.exits) 0 c 0 :=
        (ih s rfl henv hc).mono fun j hj => List.mem_cons_of_mem _ hj
      exact ⟨((Flow.label no).append hs).append (flow_goto (List.mem_cons_self ..)),
        fun _ => List.mem_cons_self ..⟩

theorem conditional_flow (henv : env.WellNamed) {join : Option Label} {e : Expr}
    {body : Statement} {otherwise : Option Statement} (he : e.WellNamed) (ihbody : KeepsEmpty body)
    (ihother : ∀ s ∈ otherwise, KeepsEmpty s)
    (h : Yields (statement env join (.conditional p e body otherwise)) first code next) :
    Flow (joinExits env join) 0 code 0 := by
  obtain ⟨decision, inner, rest, middle, middle', hd, hi, hr, rfl⟩ := yields_conditional.1 h
  generalize hfinish : join.getD (first + 1) = finish at hd hr ⊢
  generalize hno : otherwiseLabel first finish otherwise = no at hd hr
  have hdecision := test_flow henv he hd
  have hinner := ihbody henv hi
  obtain ⟨hrest, hplaced⟩ := elseBranch_flow henv ihother hr
  -- first every label counts as an exit; those that the code places are closed afterwards
  let exits := (first, 0) :: (no, 0) :: (finish, 0) :: env.exits
  have hstart : Flow exits 0 (decision ++ .label first :: inner) 0 := by
    have hdecision : Flow exits 0 decision 0 := hdecision.mono (by simp +contextual [exits])
    have hinner : Flow exits 0 inner 0 := hinner.mono (by simp +contextual [exits, joinExits])
    exact hdecision.append ((Flow.label first).append hinner)
  have hend : Flow exits 0 (.op (.goto finish) :: rest) 0 := by
    have hgoto : Flow exits 0 [.op (.goto finish)] 0 := flow_goto (by simp [exits])
    exact hgoto.append (hrest.mono (by simp +contextual [exits]))
  have hlast : Flow exits 0 (if join.isNone then [.label finish] else []) 0 := by
    split
    · exact .label finish
    · exact .nil
  refine ((hstart.append hend).append hlast).close ?_
  have hfirst : (first, 0) ∈ placed (endDepth 0 decision) (.label first :: inner) := by
    rw [hdecision.ends]
    exact List.mem_cons_self ..
  have hfinal : (finish, 0) ∈ placed 0 (if join.isNone then [.label finish] else []) ∨
      (finish, 0) ∈ joinExits env join := by
    cases join with
    | none => exact .inl (List.mem_singleton.2 rfl)
    | some j => exact .inr (by simp [joinExits, ← hfinish])
  simp only [placed_append, endDepth_append, hstart.ends, hend.ends, List.mem_append]
  intro j hj
  simp only [exits, List.mem_cons] at hj
  rcases hj with rfl | rfl | rfl | hj
  · exact .inl (.inl (.inl (.inr hfirst)))
  · cases otherwise with
    | none =>
      rw [← hno]
      exact hfinal.imp_left .inr
    | some s => exact .inl (.inl (.inr (hplaced rfl)))
  · exact hfinal.imp_left .inr
  · exact .inr (List.mem_append_right _ hj)

theorem whileLoop_flow (henv : env.WellNamed) {join : Option Label} {e : Expr} {body : Statement}
    (he : e.WellNamed) (ih : KeepsEmpty body)
    (h : Yields (statement env join (.whileLoop p e body)) first code next) :
    Flow (joinExits env join) 0 code 0 := by
  obtain ⟨decision, inner, middle, hd, hi, rfl⟩ := yields_whileLoop.1 h
  have hdecision := test_flow henv he hd
  have hinner := ih (henv.inside _) hi
  let exits := (first, 0) :: (first + 1, 0) :: (first + 2, 0) :: env.exits
  have hloop : Flow exits 0 (.label first :: decision) 0 :=
    (Flow.label first).append (hdecision.mono (by simp +contextual [exits]))
  have hbody : Flow exits 0 (.label (first + 1) :: inner) 0 :=
    (Flow.label _).append (hinner.mono (by simp +contextual [exits, joinExits, Env.exits, Env.inside]))
  have hback : Flow exits 0 [.op (.goto first), .label (first + 2)] 0 :=
    (flow_goto (by simp [exits])).append (.label _)
  refine ((hloop.append hbody).append hback).close ?_
  simp only [placed_append, endDepth_append, hloop.ends, hbody.ends, List.mem_append]
  intro j hj
  simp only [exits, List.mem_cons] at hj
  rcases hj with rfl | rfl | rfl | hj
  · exact .inl (.inl (.inl (List.mem_cons_self ..)))
  · exact .inl (.inl (.inr (List.mem_cons_self ..)))
  · exact .inl (.inr (List.mem_singleton.2 rfl))
  · exact .inr (List.mem_append_right _ hj)

theorem forLoop_flow (henv : env.WellNamed) {join : Option Label} {id : NodeId}
    {init : Option ForInit} {e : Option Expr} {update : Option Action} {body : Statement}
    (hinit : ∀ i ∈ init, i.WellNamed) (he : ∀ e' ∈ e, e'.WellNamed)
    (hupdate : ∀ a ∈ update, a.WellNamed) (ih : KeepsEmpty body)
    (h : Yields (statement env join (.forLoop p id init e update body)) first code next) :
    Flow (joinExits env join) 0 code 0 := by
  obtain ⟨before, decision, inner, after, top, middle, middle', hb, hd, hi, ha, rfl⟩ :=
    yields_forLoop.1 h
  have henv' := henv.enter id
  have hbefore := forInit_flow henv' hinit hb
  have hdecision := forTest_flow henv' he hd
  have hinner := ih (henv'.inside _) hi
  have hafter := forUpdate_flow henv' hupdate ha
  let exits := (top, 0) :: (top + 1, 0) :: (top + 2, 0) :: (top + 3, 0) :: env.exits
  have hloop : Flow exits 0 (before ++ .label top :: decision) 0 := by
    have hdecision : Flow exits 0 decision 0 := hdecision.mono (by simp +contextual [exits])
    exact hbefore.closed.append ((Flow.label top).append hdecision)
  have hbody : Flow exits 0 (.label (top + 1) :: inner) 0 :=
    (Flow.label _).append
      (hinner.mono (by simp +contextual [exits, joinExits, Env.exits, Env.inside, Env.enter]))
  have hstep : Flow exits 0 (.label (top + 2) :: after) 0 := (Flow.label _).append hafter.closed
  have hback : Flow exits 0 [.op (.goto top), .label (top + 3)] 0 :=
    (flow_goto (by simp [exits])).append (.label _)
  refine (((hloop.append hbody).append hstep).append hback).close ?_
  have htop : (top, 0) ∈ placed (endDepth 0 before) (.label top :: decision) := by
    rw [hbefore.ends]
    exact List.mem_cons_self ..
  simp only [placed_append, endDepth_append, hloop.ends, hbody.ends, hstep.ends, List.mem_append]
  intro j hj
  simp only [exits, List.mem_cons] at hj
  rcases hj with rfl | rfl | rfl | rfl | hj
  · exact .inl (.inl (.inl (.inl (.inr htop))))
  · exact .inl (.inl (.inl (.inr (List.mem_cons_self ..))))
  · exact .inl (.inl (.inr (List.mem_cons_self ..)))
  · exact .inl (.inr (List.mem_singleton.2 rfl))
  · exact .inr (List.mem_append_right _ hj)

theorem switch_flow (henv : env.WellNamed) {join : Option Label} {id : NodeId} {e : Expr}
    {cases : List Case} {default_ : Option Block} (he : e.WellNamed)
    (ihc : ∀ c ∈ cases, ∀ s ∈ (Case.body c).statements, KeepsEmpty s)
    (ihd : ∀ b ∈ default_, ∀ s ∈ Block.statements b, KeepsEmpty s)
    (h : Yields (statement env join (.switch p id e cases default_)) first code next) :
    Flow (joinExits env join) 0 code 0 := by
  obtain ⟨slot, store, tests, bodies, last, label, miss, finish, middle, hmiss, hfinish, -, hs, ht,
    hb, hl, rfl⟩ := yields_switch.1 h
  have hstore := selector_flow henv he hs
  obtain ⟨hbodies, hcases⟩ := caseBodies_flow (henv.inside _) ihc hb
  obtain ⟨hlast, hdefault⟩ := defaultBody_flow (henv.inside _) ihd hl
  let exits := (List.range cases.length).map (fun i => (label + i, 0)) ++
    (miss, 0) :: (finish, 0) :: env.exits
  have hinside : ∀ j ∈ (env.inside ⟨none, finish⟩).exits, j ∈ exits := by
    simp +contextual [exits, Env.exits, Env.inside]
  have htests : Flow exits 0 (store ++ tests ++ [Item.op (Instruction.goto miss)]) 0 := by
    have hcase : Flow exits 0 tests 0 := by
      refine caseTests_flow ?_ ht
      intro i hi
      exact List.mem_append_left _ (List.mem_map.2 ⟨i, List.mem_range.2 hi, rfl⟩)
    exact (hstore.closed.append hcase).append (flow_goto (by simp [exits]))
  have hcode : store ++ tests ++ .op (.goto miss) :: bodies ++ last ++ [Item.label finish] =
      store ++ tests ++ [Item.op (Instruction.goto miss)] ++ bodies ++ last ++
        [Item.label finish] := by simp
  rw [hcode]
  have htoBodies := htests.append (hbodies.mono hinside)
  have htoLast := htoBodies.append (hlast.mono hinside)
  refine (htoLast.append (.label finish)).close ?_
  rw [placed_append, htoLast.ends, placed_append, htoBodies.ends, placed_append, htests.ends]
  simp only [List.mem_append]
  intro j hj
  simp only [exits, List.mem_append, List.mem_map, List.mem_range, List.mem_cons] at hj
  rcases hj with ⟨i, hi, rfl⟩ | rfl | rfl | hj
  · exact .inl (.inl (.inl (.inr (hcases i hi))))
  · cases default_ with
    | none =>
      obtain rfl : finish = miss := hfinish
      exact .inl (.inr (List.mem_singleton.2 rfl))
    | some b => exact .inl (.inl (.inr (hdefault rfl)))
  · exact .inl (.inr (List.mem_singleton.2 rfl))
  · exact .inr (List.mem_append_right _ hj)

/-- The code of a statement takes an empty stack to an empty stack. -/
theorem statement_flow {s : Statement} (hs : s.WellNamed) : KeepsEmpty s := by
  induction hs with
  | block _ ih =>
    intro env join first code next henv h
    simp only [statement] at h
    exact (block_flow henv ih h).mono fun j hj => List.mem_append_right _ hj
  | conditional he _ _ ihbody ihother =>
    intro env join first code next henv h
    exact conditional_flow henv he ihbody ihother h
  | whileLoop he _ ih =>
    intro env join first code next henv h
    exact whileLoop_flow henv he ih h
  | forLoop hinit he hupdate _ ih =>
    intro env join first code next henv h
    exact forLoop_flow henv hinit he hupdate ih h
  | switch he _ _ ihc ihd =>
    intro env join first code next henv h
    exact switch_flow henv he ihc ihd h
  | jump hj =>
    intro env join first code next henv h
    simp only [statement] at h
    exact (jump_flow henv hj h).mono fun j hj => List.mem_append_right _ hj
  | action ha =>
    intro env join first code next henv h
    simp only [statement] at h
    exact (action_flow henv ha h).closed
  | declaration hv =>
    intro env join first code next henv h
    simp only [statement] at h
    exact (variable_flow henv hv h).closed

theorem caseTests_ends {l : Local} {label : Label} {cases : List Case}
    (h : Yields (caseTests l label cases) first code next) : endDepth 0 code = 0 := by
  have hflow : Flow ((List.range cases.length).map fun i => (label + i, 0)) 0 code 0 := by
    refine caseTests_flow ?_ h
    intro i hi
    exact List.mem_map.2 ⟨i, List.mem_range.2 hi, rfl⟩
  exact hflow.ends

/-! ## Sites -/

/-- A statement that starts with an empty stack, in surroundings where its code keeps it so. -/
structure Site.Level (site : Site) : Prop where
  env : site.env.WellNamed
  statement : site.statement.WellNamed
  before : endDepth 0 site.before = 0

variable {site site' : Site}

theorem Listed.level {before : Segment} {ss : List Statement} (h : Listed env before first ss site)
    (henv : env.WellNamed) (hs : ∀ s ∈ ss, s.WellNamed) (hb : endDepth 0 before = 0) :
    site.Level := by
  induction h with
  | head => exact ⟨henv, hs _ (List.mem_cons_self ..), hb⟩
  | tail hy _ ih =>
    have hflow := statement_flow (hs _ (List.mem_cons_self ..)) henv hy
    refine ih (fun s hm => hs s (List.mem_cons_of_mem _ hm)) ?_
    rw [endDepth_append, hb, hflow.ends]

theorem CaseListed.level {before : Segment} {label : Label} {cases : List Case}
    (h : CaseListed env before label first cases site) (henv : env.WellNamed)
    (hc : ∀ c ∈ cases, c.body.WellNamed) (hb : endDepth 0 before = 0) : site.Level := by
  induction h with
  | head =>
    refine ⟨henv, .block (hc _ (List.mem_cons_self ..)), ?_⟩
    rw [endDepth_append, hb]
    rfl
  | tail hy _ ih =>
    have hbody : ∀ s ∈ _, KeepsEmpty s := fun s hm =>
      statement_flow (hc _ (List.mem_cons_self ..) s hm)
    refine ih (fun c hm => hc c (List.mem_cons_of_mem _ hm)) ?_
    rw [endDepth_append, hb]
    exact (block_flow henv hbody hy).ends

/-- The stack is empty where the statements inside of a statement start. -/
theorem Part.level (h : Part site site') (hl : site.Level) : site'.Level := by
  obtain ⟨henv, hs, hb⟩ := hl
  cases h with
  | block h =>
    cases hs with
    | block hs => exact h.level (henv.enter _) hs hb
  | conditionalBody hd =>
    cases hs with
    | conditional he hbody _ =>
      refine ⟨henv, hbody, ?_⟩
      simp only [endDepth_append, hb, (test_flow henv he hd).ends, endDepth]
  | conditionalElse hd hi =>
    cases hs with
    | conditional he hbody hother =>
      refine ⟨henv, hother _ rfl, ?_⟩
      simp only [endDepth_append, hb, (test_flow henv he hd).ends, endDepth,
        (statement_flow hbody henv hi).ends, Instruction.after_goto]
  | whileBody hd =>
    cases hs with
    | whileLoop he hbody =>
      refine ⟨henv.inside _, hbody, ?_⟩
      simp only [endDepth_append, hb, endDepth, (test_flow henv he hd).ends]
  | forBody hi hd =>
    cases hs with
    | forLoop hinit he hupdate hbody =>
      refine ⟨(henv.enter _).inside _, hbody, ?_⟩
      simp only [endDepth_append, hb, endDepth, (forInit_flow (henv.enter _) hinit hi).ends,
        (forTest_flow (henv.enter _) he hd).ends]
  | @forInit env join p id i e update body first before =>
    cases hs with
    | forLoop hinit he hupdate hbody =>
      refine ⟨henv.enter _, ?_, hb⟩
      cases i with
      | declaration v => exact .declaration (hinit _ rfl)
      | assignment a => exact .action (hinit _ rfl)
  | forUpdate hi hd hb' =>
    cases hs with
    | forLoop hinit he hupdate hbody =>
      refine ⟨henv.enter _, .action (hupdate _ rfl), ?_⟩
      simp only [endDepth_append, hb, endDepth, (forInit_flow (henv.enter _) hinit hi).ends,
        (forTest_flow (henv.enter _) he hd).ends,
        (statement_flow hbody ((henv.enter _).inside _) hb').ends]
  | caseBody hfin hslot hsel ht h =>
    cases hs with
    | switch he hcases hdefault =>
      refine h.level (henv.inside _) hcases ?_
      simp only [endDepth_append, hb, (selector_flow henv he hsel).ends, caseTests_ends ht,
        endDepth, Instruction.after_goto]
  | defaultBody hfin hslot hsel ht hbodies =>
    cases hs with
    | switch he hcases hdefault =>
      refine ⟨henv.inside _, .block (hdefault _ rfl), ?_⟩
      have hcase := (caseBodies_flow (henv.inside _)
        (fun c hc s hm => statement_flow (hcases c hc s hm)) hbodies).1
      simp only [endDepth_append, hb, (selector_flow henv he hsel).ends, caseTests_ends ht,
        endDepth, Instruction.after_goto, hcase.ends]

theorem Inside.level {root : Site} (h : Inside root site) (hl : root.Level) : site.Level := by
  induction h with
  | refl => exact hl
  | step _ hp ih => exact hp.level ih

/-! ## Methods -/

theorem initializer_flow (henv : env.WellNamed) {p : Property} (hp : p.WellNamed)
    (h : Yields (initializer env p) first code next) : Flow [] 0 code 0 := by
  have hthis : Flow [] 0 [.op .loadThis] 1 := .plain (Nat.le_refl 0) rfl trivial rfl
  have hput : Flow [] 2
      (ops [.putField env.className p.variable_.name p.variable_.type]) 0 :=
    .plain (Nat.le_refl 2) rfl ⟨henv.className.toPlainName, hp.name, hp.variable_.type⟩ rfl
  rcases yields_initializer h with ⟨-, rfl, rfl⟩ | ⟨e, v, he, hv, rfl⟩
  · exact (hthis.append (flow_pushDefault _)).append hput
  · exact (hthis.append ((expr_flow henv (hp.variable_.value e he) hv).2 1)).append hput

theorem prologue_flow (henv : env.WellNamed) {superclass : String} {properties : List Property}
    (hsuper : PlainName superclass) (hp : ∀ p ∈ properties, p.WellNamed)
    (h : Yields (prologue env superclass properties) first code next) : Flow [] 0 code 0 := by
  obtain ⟨values, hv, rfl⟩ := yields_prologue.1 h
  have hthis : Flow [] 0 [.op .loadThis] 1 := .plain (Nat.le_refl 0) rfl trivial rfl
  have hcall : Flow [] 1 (ops [.invokeConstructor superclass []]) 0 :=
    .plain (Nat.le_refl 1) rfl ⟨hsuper, nofun⟩ rfl
  refine (hthis.append hcall).append ?_
  clear h
  induction properties generalizing first values with
  | nil =>
    obtain ⟨rfl, rfl⟩ := yields_mapM_nil.1 hv
    exact .nil
  | cons p properties ih =>
    obtain ⟨value, rest, middle, hy, hrest, rfl⟩ := yields_mapM_cons.1 hv
    exact (initializer_flow henv (hp p (List.mem_cons_self ..)) hy).append
      (ih (fun p hm => hp p (List.mem_cons_of_mem _ hm)) rest hrest)

theorem exits_of_targets_eq_nil (h : env.targets = []) : env.exits = [] := by
  rw [Env.exits, h]
  rfl

/-- The code of a method body behind other code. -/
theorem methodCode_flow (henv : env.WellNamed) (ht : env.targets = []) {header : Header}
    {before : Segment} {m : Method} {mc : MethodCode} (hbefore : Flow [] 0 before 0)
    (hm : m.WellNamed) (h : Yields (methodCode env header before m) first mc next) :
    Flow [] 0 mc.code 0 := by
  obtain ⟨body, hbody, rfl⟩ := yields_methodCode.1 h
  have hflow := block_flow (henv.enter m.signature.id) (fun s hs => statement_flow (hm.body s hs))
    hbody
  have hexits : (env.enter m.signature.id).exits = [] := exits_of_targets_eq_nil ht
  rw [hexits] at hflow
  exact hbefore.append hflow

/-- The body of a method starts with an empty stack. -/
theorem BodySite.level (henv : env.WellNamed) {superclass : String} {decl : ClassDecl}
    {mc : MethodCode} (hsuper : PlainName superclass) (hd : decl.WellNamed)
    (h : BodySite env superclass decl mc site) : site.Level := by
  cases h with
  | method hm hy =>
    have hmem := List.mem_append_right decl.constructors hm
    rw [← List.append_assoc] at hmem
    exact ⟨henv.enter _, .block (hd.methods _ hmem).body, rfl⟩
  | constructor hm hp hy =>
    have hnamed := hd.methods _
      (List.mem_append_left _ (List.mem_append_left _ hm))
    exact ⟨henv.enter _, .block hnamed.body, (prologue_flow henv hsuper hd.properties hp).ends⟩

theorem plainName_superclass {table : Types.Table} {name : String} {info : Types.TypeInfo}
    (ht : table.WellNamed) (h : table.lookup name = .ok info) :
    PlainName (info.superclass.getD objectClass) := by
  have hinfo : info.WellNamed := by
    unfold Types.Table.lookup at h
    split at h
    · rename_i hfind
      cases h
      exact (ht.of_find? hfind).1
    · cases h
  cases hs : info.superclass with
  | none => exact ⟨by decide, by decide⟩
  | some s => exact hinfo.superclass s hs

/-- The code of every method of a class takes an empty stack to an empty stack. -/
theorem class_flow {decl : ClassDecl} {c : ClassSection} (henv : (classEnv env decl).WellNamed)
    (ht : env.targets = []) (hd : decl.WellNamed) (h : Yields (class_ env decl) first c next) :
    PlainName c.superclass ∧ ∀ mc ∈ c.methods, Flow [] 0 mc.code 0 := by
  obtain ⟨constructors, methods, default_, middle, middle', hc, hm, hdefault, hall, info, hinfo,
    hs⟩ := yields_class h
  have hsuper : PlainName c.superclass := hs ▸ plainName_superclass henv.table hinfo
  refine ⟨hsuper, ?_⟩
  intro mc hmc
  rw [hall, List.mem_append, List.mem_append] at hmc
  rcases hmc with (hmc | hmc) | hmc
  · obtain ⟨m, hmem, _, _, hy⟩ := yields_mapM_of_mem hc hmc
    obtain ⟨before, _, hp, hcode⟩ := yields_constructor.1 hy
    exact methodCode_flow henv ht (prologue_flow henv hsuper hd.properties hp)
      (hd.methods m (List.mem_append_left _ (List.mem_append_left _ hmem))) hcode
  · obtain ⟨m, hmem, _, _, hy⟩ := yields_mapM_of_mem hm hmc
    have hmem' := List.mem_append_right decl.constructors hmem
    rw [← List.append_assoc] at hmem'
    exact methodCode_flow henv ht .nil (hd.methods m hmem') hy
  · rcases hdefault with ⟨-, mc', rfl, hy⟩ | ⟨-, rfl, -⟩
    · cases List.mem_singleton.1 hmc
      simp only [defaultConstructor, yields_bind, yields_pure] at hy
      obtain ⟨before, _, hp, rfl, rfl⟩ := hy
      exact prologue_flow henv hsuper hd.properties hp
    · cases hmc

/-! ## Accepted programs -/

theorem wellNamed_of_parseSource {source : String} {program : Program}
    (h : parseSource source = .ok program) : program.WellNamed ∧ program.nodes.Nodup := by
  obtain ⟨tokens, htokens, hparse⟩ := parseSource_eq_ok_iff.1 h
  exact parse_eq_ok (namesPlain_tokenize htokens) hparse

theorem analyze_eq_ok {program : Program} {analysis : Analysis}
    (h : analyze program = .ok analysis) :
    analysis.table = (Types.collect program).table ∧
      analysis.arena = (Scope.resolve program analysis.table).arena ∧
      (Scope.resolve program analysis.table).faults = #[] := by
  simp only [analyze] at h
  split at h
  · split at h
    · rename_i hnames
      cases h
      exact ⟨rfl, rfl, Array.isEmpty_iff.1 hnames⟩
    · cases h
  · cases h

theorem types_of_analyze {program : Program} {analysis : Analysis}
    (h : analyze program = .ok analysis) : (Types.collect program).faults = #[] := by
  simp only [analyze] at h
  split at h
  · rename_i htypes
    exact Array.isEmpty_iff.1 htypes
  · cases h

/-- The surroundings of the members of a class of an accepted program. -/
theorem Accepted.wellNamed_classEnv {source : String} {program : Program} {analysis : Analysis}
    {sections : List Section} (h : Accepted source program analysis sections) {decl : ClassDecl}
    (hd : .class_ decl ∈ program.declarations) :
    decl.WellNamed ∧ (classEnv (.outermost analysis.table analysis.arena) decl).WellNamed := by
  obtain ⟨hnamed, hnodes⟩ := wellNamed_of_parseSource h.parsed
  obtain ⟨htable, harena, -⟩ := analyze_eq_ok h.analyzed
  have hdecl : decl.WellNamed := hnamed _ hd
  refine ⟨hdecl, ?_, ?_, hdecl.name⟩
  · change analysis.table.WellNamed
    rw [htable]
    exact Types.wellNamed_collect hnamed
  · change analysis.arena.HoldsValues
    rw [harena]
    exact Scope.holdsValues_resolve hnamed hnodes _

theorem Accepted.class_flow {source : String} {program : Program} {analysis : Analysis}
    {sections : List Section} (h : Accepted source program analysis sections) {c : ClassSection}
    (hc : .class_ c ∈ sections) :
    PlainName c.superclass ∧ ∀ mc ∈ c.methods, Flow [] 0 mc.code 0 ∧ (labelsOf mc.code).Nodup := by
  obtain ⟨_, hy⟩ := yields_program h.lowered
  obtain ⟨d, hd, _, _, hy⟩ := yields_mapM_of_mem hy hc
  cases d with
  | class_ decl =>
    obtain ⟨c', hc', heq⟩ := yields_typeDecl_class.1 hy
    cases heq
    obtain ⟨hdecl, henv⟩ := h.wellNamed_classEnv hd
    obtain ⟨hsuper, hflow⟩ := Lowering.class_flow henv rfl hdecl hc'
    exact ⟨hsuper, fun mc hmc => ⟨hflow mc hmc, nodup_labels_of_yields_class hc' mc hmc⟩⟩
  | interface decl => cases (yields_pure.1 hy).1

/-- Every statement of a compiled method starts with an empty stack. -/
theorem InMethod.level {source : String} {mc : MethodCode} (h : InMethod source mc site) :
    site.Level := by
  obtain ⟨program, analysis, sections, decl, c, body, ha, hd, hc, -, hbody, hin⟩ := h.found
  obtain ⟨hdecl, henv⟩ := ha.wellNamed_classEnv hd
  exact hin.level (hbody.level henv (ha.class_flow hc).1 hdecl)

/-- The heights of the operand stack in the listing of a compiled method: they are consistent, every
statement of the source starts with an empty stack, and the method is printed with the greatest
height of an instruction as the size of its stack, as far as it can be recorded. Then no path
exceeds that size. -/
structure MethodHeights (source : String) (mc : MethodCode) (height : Nat → Nat) (m : Nat) :
    Prop where
  heights : Heights (printed (listing mc.code)) height
  statements : ∀ site, InMethod source mc site → ∃ code after next,
    Yields (statement site.env site.join site.statement) site.first code next ∧
      printed (listing mc.code) = written (site.before ++ code ++ after) ∧
      height (size site.before) = 0
  greatest : Greatest (printed (listing mc.code)) height m
  lines : mc.lines = mc.header.line ::
    (".code stack " ++ (min 65535 m).repr ++ " locals " ++ mc.locals.repr) ::
    (listing mc.code).lines.toList.map Line.text ++ [".end code", ".end method"]
  bounds : m < 65536 → ∀ (p d : Nat) (i : Instruction), Path (printed (listing mc.code)) p d →
    (printed (listing mc.code))[p]? = some (.op i) → d ≤ min 65535 m

theorem lines_methodCode (mc : MethodCode) : mc.lines = mc.header.line ::
    (".code stack " ++ (listing mc.code).stack.max.repr ++ " locals " ++ mc.locals.repr) ::
    (listing mc.code).lines.toList.map Line.text ++ [".end code", ".end method"] := by
  have hid : mc.code.map (Item.map id) = mc.code := by
    refine (List.map_congr_left ?_).trans (List.map_id _)
    intro item _
    cases item <;> rfl
  rw [MethodCode.lines, MethodCode.linesAfter, hid]
  rfl

/-- Every method of an accepted program has stack heights, and is printed with the greatest one. -/
theorem compiled_method_heights {source text : String} (h : compile source = .ok text) :
    ∃ program analysis sections, Accepted source program analysis sections ∧
      text = programText sections ∧ ∀ c, .class_ c ∈ sections → ∀ mc ∈ c.methods,
        ∃ height m, MethodHeights source mc height m := by
  obtain ⟨program, analysis, sections, ha, htext⟩ := compile_eq_ok_iff.1 h
  refine ⟨program, analysis, sections, ha, htext, ?_⟩
  intro c hc mc hmc
  obtain ⟨hflow, hnodup⟩ := (ha.class_flow hc).2 mc hmc
  obtain ⟨tail, height, m, hprinted, hheights, hzero, hgreatest, hmax⟩ :=
    hflow.listing_heights hnodup
  refine ⟨height, m, hheights, ?_, hgreatest, ?_, ?_⟩
  · intro site hsite
    obtain ⟨-, -, code, after, next, hy, hw⟩ := hsite.fits
    refine ⟨code, after ++ tail, next, hy, ?_, ?_⟩
    · rw [hprinted, hw, List.append_assoc]
    · exact hzero site.before (code ++ after) (by rw [hw, List.append_assoc]) hsite.level.before
  · rw [lines_methodCode, hmax]
    rfl
  · intro hm p d i hpath hi
    rw [hheights.height_eq hpath]
    have hle := hgreatest.le p i hi
    omega

/-- A method with a short circuit, a call and a loop. -/
def shortCircuit : String :=
  "class A { int f(int n) { while (n > 1 && f(n - 1) != n || n > 9) { n -= 2; } return n; } }"

/-- The method is accepted, and its block has heights. -/
theorem shortCircuit_heights : ∃ text program analysis sections,
    compile shortCircuit = .ok text ∧ Accepted shortCircuit program analysis sections ∧
      text = programText sections ∧ ∀ c, .class_ c ∈ sections → ∀ mc ∈ c.methods,
        ∃ height m, MethodHeights shortCircuit mc height m := by
  have hok : (compile shortCircuit).isOk = true := by
    rw [compile, parseSource, tokenize_ofList (s := shortCircuit) rfl]
    decide +kernel
  obtain ⟨text, h⟩ := exists_ok_of_isOk hok
  obtain ⟨program, analysis, sections, hall⟩ := compiled_method_heights h
  exact ⟨text, program, analysis, sections, h, hall⟩

end Javelet.Lowering
