import Javelet.Proofs.Lowering.OperandStack

/-!
# What instructions refer to

Every instruction of lowered code that refers to a member was made from a request to the table: a
field from the search for a property, a call from the choice of a method, a creation from the choice
of a constructor. Two instructions are not: the store of an initial value into a property of the
class at hand, and the call of the constructor of the superclass.
-/
namespace Javelet

namespace Assembly

/-- Whether an instruction refers to a member of a type. -/
@[simp, reducible] def Instruction.namesMember : Instruction → Bool
  | getField _ _ _ | putField _ _ _ | invokeConstructor _ _ | invokeVirtual _ _ _ _
  | invokeInterface _ _ _ _ => true
  | pushInt _ | pushString _ | pushNull | load _ _ | store _ _ | arithmetic _ | jumpInts _ _
  | jumpReferences _ _ | jumpZero _ | jumpNonzero _ | goto _ | pop | dup | dup2 | new _
  | newArray _ _ | arrayLength | arrayLoad _ | arrayStore _ | getPrintStream | print _ _
  | returnVoid | returnInt | returnReference => false

/-- All instructions in code have a property. -/
def EachOp (P : Instruction → Prop) (code : Segment) : Prop := ∀ i, .op i ∈ code → P i

section EachOp

variable {P : Instruction → Prop} {code rest : Segment}

@[simp] theorem eachOp_nil : EachOp P [] := nofun

@[simp] theorem eachOp_op {i : Instruction} : EachOp P (.op i :: code) ↔ P i ∧ EachOp P code := by
  constructor
  · intro h
    exact ⟨h i (List.mem_cons_self ..), fun j hj => h j (List.mem_cons_of_mem _ hj)⟩
  · rintro ⟨hi, hcode⟩ j hj
    rcases List.mem_cons.1 hj with hj | hj
    · cases hj
      exact hi
    · exact hcode j hj

@[simp] theorem eachOp_label {l : Label} : EachOp P (.label l :: code) ↔ EachOp P code := by
  simp [EachOp]

@[simp] theorem eachOp_alternative : EachOp P (.alternative :: code) ↔ EachOp P code := by
  simp [EachOp]

@[simp] theorem eachOp_append : EachOp P (code ++ rest) ↔ EachOp P code ∧ EachOp P rest := by
  simp only [EachOp, List.mem_append]
  constructor
  · exact fun h => ⟨fun i hi => h i (.inl hi), fun i hi => h i (.inr hi)⟩
  · rintro ⟨hcode, hrest⟩ i (hi | hi)
    · exact hcode i hi
    · exact hrest i hi

theorem EachOp.flatten {parts : List Segment} (h : ∀ part ∈ parts, EachOp P part) :
    EachOp P parts.flatten := by
  intro i hi
  obtain ⟨part, hpart, hi⟩ := List.mem_flatten.1 hi
  exact h part hpart i hi

end EachOp

end Assembly

namespace Lowering

open Assembly

/-- An instruction is made from what a table answers. -/
inductive Emitted (t : Types.Table) : Instruction → Prop
  | plain {i : Instruction} : i.namesMember = false → Emitted t i
  | getField {className name : String} {owner : Types.TypeInfo} {info : Types.PropertyInfo} :
      t.findProperty className name = some (owner, info) →
      Emitted t (.getField owner.name name info.type)
  | putField {className name : String} {owner : Types.TypeInfo} {info : Types.PropertyInfo} :
      t.findProperty className name = some (owner, info) →
      Emitted t (.putField owner.name name info.type)
  | call {type name : String} {args : List Ty} {owner : Types.TypeInfo} {m : Types.MethodInfo} :
      t.resolveMethod type name args = some (owner, m) → m.isStatic = false →
      (∀ a ∈ args, a.IsValue) → args.length ≤ argumentLimit →
      Emitted t (invocation owner name m)
  | construct {className : String} {args : List Ty} {m : Types.MethodInfo} :
      t.resolveConstructor className args = some m →
      Emitted t (.invokeConstructor className m.params)

/-! ## Instructions that name no member -/

@[simp] theorem emitted_plain {t : Types.Table} {i : Instruction} (h : i.namesMember = false) :
    Emitted t i :=
  .plain h

@[simp] theorem eachOp_ops {P : Instruction → Prop} {is : List Instruction} :
    EachOp P (ops is) ↔ ∀ i ∈ is, P i := by
  induction is with
  | nil => simp [ops]
  | cons i is ih =>
    rw [List.forall_mem_cons, ← ih]
    exact eachOp_op

@[simp] theorem namesMember_pushDefault (ty : Ty) :
    (Instruction.pushDefault ty).namesMember = false := by
  unfold Instruction.pushDefault
  split <;> rfl

@[simp] theorem namesMember_shortcut (c : Connective) (l : Label) :
    (shortcut c l).namesMember = false := by
  cases c <;> rfl

theorem namesMember_comparisonJump {op : BinaryOp} {left right : Ty} {target : Label}
    {i : Instruction} (h : comparisonJump? op left right target = some i) :
    i.namesMember = false := by
  unfold comparisonJump? at h
  split at h
  · cases h
    rfl
  · split at h
    · split at h <;> cases h <;> rfl
    · cases h

variable {env : Env} {first next : Label} {p : Position} {code : Segment}

/-- The code refers to members as the table answers. -/
abbrev Refers (env : Env) (code : Segment) : Prop := EachOp (Emitted env.table) code

@[simp] theorem refers_choice (b : Bool) (other finish : Label) :
    Refers env (choice b other finish) := by
  simp [choice, Instruction.pushBoolean]

theorem refers_literal (value : Literal) : Refers env (literal value).code := by
  cases value <;>
    simp [literal, Instruction.pushBoolean]

/-! ## Expressions -/

/-- What is shown of every expression. -/
def ExprRefers (env : Env) (e : Expr) : Prop :=
  ∀ {first next v}, Yields (expr env e) first v next → Refers env v.code

theorem arguments_refers {args : List Expr} {as : Arguments} (ih : ∀ e ∈ args, ExprRefers env e)
    (h : Yields (arguments env args) first as next) : Refers env as.code := by
  induction args generalizing first as with
  | nil =>
    simp only [arguments, yields_pure] at h
    obtain ⟨rfl, rfl⟩ := h
    exact eachOp_nil
  | cons e rest ihrest =>
    obtain ⟨v, vs, middle, hv, hvs, rfl⟩ := yields_arguments_cons.1 h
    rw [List.forall_mem_cons] at ih
    exact eachOp_append.2 ⟨ih.1 hv, ihrest ih.2 hvs⟩

/-- The types of arguments are types of values. -/
theorem isValue_of_arguments (henv : env.WellNamed) {args : List Expr} {as : Arguments}
    (hargs : ∀ e ∈ args, e.WellNamed) (h : Yields (arguments env args) first as next) :
    ∀ t ∈ as.types, t.IsValue :=
  (arguments_flow (fun e he => expr_flow henv (hargs e he)) h).1

theorem call_refers {receiver : Ty} {name : String} {as : Arguments} {r : Reached}
    (ht : ∀ t ∈ as.types, t.IsValue) (has : Refers env as.code)
    (h : Yields (call env receiver name p as) first r next) : Refers env r.code := by
  obtain ⟨owner, m, hm, hstatic, hcount, rfl, rfl⟩ := yields_call.1 h
  have hcall : Emitted env.table (invocation owner name m) := .call hm hstatic ht hcount
  simpa [hcall] using has

theorem head_refers (henv : env.WellNamed) {h : Head} {r : Reached}
    (ih : ∀ e ∈ h.operands, ExprRefers env e) (hnamed : ∀ e ∈ h.operands, e.WellNamed)
    (hy : Yields (head env h) first r next) : Refers env r.code := by
  cases h with
  | this p =>
    simp only [head, yields_pure] at hy
    obtain ⟨rfl, rfl⟩ := hy
    simp [Instruction.loadThis]
  | name p name =>
    simp only [head] at hy
    obtain ⟨-, ⟨l, -, rfl⟩ | ⟨owner, info, hp, rfl⟩ | rfl⟩ := yields_nameHead hy
    · simp [Local.load]
    · simp [Instruction.loadThis, Emitted.getField hp]
    · exact eachOp_nil
  | call p name args =>
    obtain ⟨as, result, middle, ha, hc, rfl⟩ := yields_head_call.1 hy
    have hcall := call_refers (isValue_of_arguments henv hnamed ha) (arguments_refers ih ha) hc
    simpa [Instruction.loadThis] using hcall

theorem link_refers (henv : env.WellNamed) {receiver : Receiver} {l : Link} {r : Reached}
    (ih : ∀ e ∈ l.operands, ExprRefers env e) (hnamed : ∀ e ∈ l.operands, e.WellNamed)
    (hy : Yields (link env receiver l) first r next) : Refers env r.code := by
  cases l with
  | field p name =>
    simp only [link] at hy
    obtain ⟨-, ⟨-, rfl⟩ | ⟨_, -, -, rfl⟩ | ⟨_, owner, info, -, -, hp, rfl⟩⟩ := yields_fieldStep hy
    · simp
    · simp
    · simp [Emitted.getField hp]
  | call p name args =>
    rcases yields_link_call hy with ⟨line, as, -, -, ha, rfl⟩ | ⟨ty, as, middle, -, -, ha, hc⟩
    · simpa using arguments_refers ih ha
    · exact call_refers (isValue_of_arguments henv hnamed ha) (arguments_refers ih ha) hc
  | index p i =>
    obtain ⟨ty, v, -, -, hv, -, rfl⟩ := yields_link_index hy
    simpa using ih i (List.mem_singleton.2 rfl) hv

theorem links_refers (henv : env.WellNamed) {start r : Reached} {ls : List Link}
    (ih : ∀ l ∈ ls, ∀ e ∈ l.operands, ExprRefers env e)
    (hnamed : ∀ l ∈ ls, ∀ e ∈ l.operands, e.WellNamed) (hs : Refers env start.code)
    (hy : Yields (links env start ls) first r next) : Refers env r.code := by
  induction ls generalizing start first with
  | nil =>
    simp only [links, yields_pure] at hy
    obtain ⟨rfl, rfl⟩ := hy
    exact hs
  | cons l rest ihrest =>
    obtain ⟨step, middle, hstep, hrest⟩ := yields_links_cons.1 hy
    rw [List.forall_mem_cons] at ih hnamed
    have hlink := link_refers henv ih.1 hnamed.1 hstep
    exact ihrest ih.2 hnamed.2 (eachOp_append.2 ⟨hs, hlink⟩) hrest

theorem chain_refers (henv : env.WellNamed) {h : Head} {ls : List Link} {v : Typed}
    (ihh : ∀ e ∈ h.operands, ExprRefers env e)
    (ihl : ∀ l ∈ ls, ∀ e ∈ l.operands, ExprRefers env e) (hnamed : (Chain.mk h ls).WellNamed)
    (hy : Yields (chain env (.mk h ls)) first v next) : Refers env v.code := by
  obtain ⟨start, r, middle, hs, hr, -, hcode⟩ := yields_chain.1 hy
  obtain ⟨hhead, hlinks⟩ := operands_wellNamed hnamed
  rw [hcode]
  exact links_refers henv ihl hlinks (head_refers henv ihh hhead hs) hr

theorem expr_refers (henv : env.WellNamed) {e : Expr} (he : e.WellNamed) : ExprRefers env e := by
  induction he with
  | literal =>
    intro first next v h
    simp only [expr, yields_pure] at h
    obtain ⟨rfl, rfl⟩ := h
    exact refers_literal _
  | @binary op left right _ _ ihl ihr =>
    intro first next v h
    cases op with
    | arithmetic op =>
      obtain ⟨l, r, middle, hl, hr, -, -, rfl⟩ := yields_expr_arithmetic.1 h
      simp [ihl hl, ihr hr]
    | relation op =>
      obtain ⟨l, r, middle, yes, jump, hl, hr, hjump, -, rfl⟩ := yields_expr_relation.1 h
      simp [ihl hl, ihr hr, namesMember_comparisonJump hjump]
    | connective op =>
      obtain ⟨l, r, middle, hl, -, hr, -, rfl⟩ := yields_expr_connective.1 h
      simp [ihl hl, ihr hr]
  | access hh hl ihh ihl =>
    intro first next v hy
    exact chain_refers henv ihh ihl (.access hh hl) (yields_expr_access.1 hy).1
  | newObject hargs ih =>
    intro first next v h
    obtain ⟨as, middle, ha, hc⟩ := yields_expr_newObject.1 h
    obtain ⟨m, hm, -, -, rfl⟩ := yields_construct.1 hc
    simpa [Emitted.construct hm] using arguments_refers ih ha
  | newArray _ _ ih =>
    intro first next v h
    obtain ⟨n, middle, hn, hc⟩ := yields_expr_newArray.1 h
    obtain ⟨-, -, rfl⟩ := yields_constructArray.1 hc
    simpa using ih hn

/-! ## Simple statements -/

theorem assigning_refers {op : AssignOp} {old : List Instruction} {value : Segment}
    {store : Instruction} (hold : ∀ i ∈ old, Emitted env.table i) (hvalue : Refers env value)
    (hstore : Emitted env.table store) : Refers env (assigning op old value store) := by
  cases op with
  | plain => simp [assigning, oldValue, combination, hvalue, hstore]
  | compound op =>
    have harith : Emitted env.table (.arithmetic op) := .plain rfl
    simpa [assigning, oldValue, combination, hvalue, hstore, harith] using hold

/-- The loads and the store of an assignment to a field. -/
theorem assigning_field_refers {op : AssignOp} {className name : String} {owner : Types.TypeInfo}
    {info : Types.PropertyInfo} {value : Segment}
    (hp : env.table.findProperty className name = some (owner, info)) (hvalue : Refers env value) :
    Refers env (assigning op [.dup, .getField owner.name name info.type] value
      (.putField owner.name name info.type)) := by
  refine assigning_refers ?_ hvalue (.putField hp)
  simp [Emitted.getField hp]

theorem assignName_refers (henv : env.WellNamed) {name : String} {op : AssignOp} {value : Expr}
    (hv : value.WellNamed) (h : Yields (assignName env name p op value) first code next) :
    Refers env code := by
  obtain ⟨v, hy, ⟨l, -, rfl⟩ | ⟨owner, info, -, hp, rfl⟩⟩ := yields_assignName h
  · refine assigning_refers ?_ (expr_refers henv hv hy) (.plain rfl)
    simp [Local.load]
  · exact eachOp_op.2 ⟨.plain rfl, assigning_field_refers hp (expr_refers henv hv hy)⟩

theorem assignLink_refers (henv : env.WellNamed) {receiver : Receiver} {last : Link}
    {op : AssignOp} {value : Expr} (hlast : ∀ e ∈ last.operands, e.WellNamed)
    (hv : value.WellNamed) (h : Yields (assignLink env receiver p last op value) first code next) :
    Refers env code := by
  rcases yields_assignLink h with ⟨_, name, object, owner, info, v, -, -, -, hp, hy, rfl⟩ |
    ⟨_, i, array, place, v, middle, rfl, -, -, hplace, hy, rfl⟩
  · exact assigning_field_refers hp (expr_refers henv hv hy)
  · have hindex := expr_refers henv (hlast i (List.mem_singleton.2 rfl)) hplace
    refine eachOp_append.2 ⟨hindex, assigning_refers ?_ (expr_refers henv hv hy) (.plain rfl)⟩
    simp

theorem assignment_refers (henv : env.WellNamed) {a : Assignment} (ha : a.WellNamed)
    (h : Yields (assignment env a) first code next) : Refers env code := by
  rcases yields_assignment h with ⟨_, _, -, h⟩ |
    ⟨head, ls, last, start, reached, middle, middle', tail, htarget, hhead, hlinks, hlast, rfl⟩
  · exact assignName_refers henv ha.value h
  · have hparts := ha.target
    rw [htarget] at hparts
    obtain ⟨hoperands, hls⟩ := operands_wellNamed hparts
    have hbefore : ∀ l ∈ ls, ∀ e ∈ l.operands, e.WellNamed :=
      fun l hl => hls l (List.mem_append_left _ hl)
    have hstart := head_refers henv (fun e he => expr_refers henv (hoperands e he)) hoperands hhead
    have hsteps := links_refers henv (fun l hl e he => expr_refers henv (hbefore l hl e he))
      hbefore hstart hlinks
    have hlastNamed := hls last (List.mem_append_right _ (List.mem_singleton.2 rfl))
    exact eachOp_append.2 ⟨hsteps, assignLink_refers henv hlastNamed ha.value hlast⟩

theorem variable_refers (henv : env.WellNamed) {v : Variable} (hv : v.WellNamed)
    (h : Yields (variable_ env v) first code next) : Refers env code := by
  obtain ⟨l, -, ⟨-, -, rfl⟩ | ⟨e, value, he, hy, rfl⟩⟩ := yields_variable.1 h
  · simp [Local.store]
  · simpa [Local.store] using
      expr_refers henv (hv.value e he) hy

theorem action_refers (henv : env.WellNamed) {a : Action} (ha : a.WellNamed)
    (h : Yields (action env a) first code next) : Refers env code := by
  cases a with
  | assignment a => exact assignment_refers henv ha h
  | call c =>
    obtain ⟨v, hv, rfl⟩ := yields_action_call.1 h
    obtain ⟨hd, ls⟩ := c
    obtain ⟨hoperands, hls⟩ := operands_wellNamed ha
    have hchain := chain_refers henv (fun e he => expr_refers henv (hoperands e he))
      (fun l hl e he => expr_refers henv (hls l hl e he)) ha hv
    split
    · exact hchain
    · simpa using hchain

theorem jump_refers (henv : env.WellNamed) {j : Jump} (hj : j.WellNamed)
    (h : Yields (jump env p j) first code next) : Refers env code := by
  cases j with
  | return_ value =>
    cases value with
    | none =>
      simp only [jump, yields_pure] at h
      obtain ⟨rfl, rfl⟩ := h
      simp
    | some e =>
      obtain ⟨v, hv, rfl⟩ := yields_jump_value.1 h
      refine eachOp_append.2 ⟨expr_refers henv (hj e rfl) hv, ?_⟩
      split <;> simp
  | break_ =>
    obtain ⟨_, -, -, rfl⟩ := yields_jump_break.1 h
    simp
  | continue_ =>
    obtain ⟨_, -, -, rfl⟩ := yields_jump_continue.1 h
    simp

theorem test_refers (henv : env.WellNamed) {e : Expr} (he : e.WellNamed) {yes no : Label}
    (h : Yields (test env e yes no) first code next) : Refers env code := by
  obtain ⟨v, hv, -, rfl⟩ := yields_test.1 h
  simpa using expr_refers henv he hv

theorem selector_refers (henv : env.WellNamed) {e : Expr} (he : e.WellNamed) {l : Local}
    (h : Yields (selector env e l) first code next) : Refers env code := by
  obtain ⟨v, hv, -, rfl⟩ := yields_selector.1 h
  simpa [Local.store] using expr_refers henv he hv

theorem caseTests_refers {l : Local} {label : Label} {cases : List Case}
    (h : Yields (caseTests l label cases) first code next) : Refers env code := by
  induction cases generalizing label code with
  | nil =>
    obtain ⟨-, rfl⟩ := yields_caseTests_nil.1 h
    exact eachOp_nil
  | cons c cases ih =>
    obtain ⟨value, rest, -, hrest, rfl⟩ := yields_caseTests_cons.1 h
    simpa [Local.load] using ih hrest

theorem forInit_refers (henv : env.WellNamed) {init : Option ForInit}
    (hi : ∀ i ∈ init, i.WellNamed) (h : Yields (forInit env init) first code next) :
    Refers env code := by
  match init, hi, h with
  | some (.declaration v), hi, h => exact variable_refers henv (hi _ rfl) h
  | some (.assignment a), hi, h => exact assignment_refers henv (hi _ rfl) h
  | none, _, h =>
    obtain ⟨rfl, rfl⟩ := yields_pure.1 h
    exact eachOp_nil

theorem forTest_refers (henv : env.WellNamed) {e : Option Expr} (he : ∀ e' ∈ e, e'.WellNamed)
    {yes no : Label} (h : Yields (forTest env e yes no) first code next) : Refers env code := by
  cases e with
  | none =>
    obtain ⟨rfl, rfl⟩ := yields_pure.1 h
    exact eachOp_nil
  | some e => exact test_refers henv (he e rfl) h

theorem forUpdate_refers (henv : env.WellNamed) {update : Option Action}
    (hu : ∀ a ∈ update, a.WellNamed) (h : Yields (forUpdate env update) first code next) :
    Refers env code := by
  cases update with
  | none =>
    obtain ⟨rfl, rfl⟩ := yields_pure.1 h
    exact eachOp_nil
  | some a => exact action_refers henv (hu a rfl) h

/-! ## Statements -/

/-- What is shown of every statement, whatever surrounds it. -/
def StatementRefers (s : Statement) : Prop :=
  ∀ {env join first code next}, env.WellNamed → Yields (statement env join s) first code next →
    Refers env code

theorem statements_refers (henv : env.WellNamed) {ss : List Statement}
    (ih : ∀ s ∈ ss, StatementRefers s) (h : Yields (statements env [] ss) first code next) :
    Refers env code := by
  induction ss generalizing first code with
  | nil =>
    obtain ⟨-, rfl⟩ := yields_statements_nil.1 h
    exact eachOp_nil
  | cons s ss ihss =>
    obtain ⟨c, rest, middle, hc, hrest, rfl⟩ := yields_statements_cons.1 h
    rw [List.forall_mem_cons] at ih
    exact eachOp_append.2 ⟨ih.1 henv hc, ihss ih.2 hrest⟩

theorem block_refers (henv : env.WellNamed) {b : Block}
    (ih : ∀ s ∈ b.statements, StatementRefers s) (h : Yields (block env b) first code next) :
    Refers env code := by
  have hrefers := statements_refers (henv.enter b.id) ih (yields_block.1 h)
  exact hrefers

theorem caseBodies_refers (henv : env.WellNamed) {cases : List Case} {label : Label}
    (ih : ∀ c ∈ cases, ∀ s ∈ c.body.statements, StatementRefers s)
    (h : Yields (caseBodies env [] label cases) first code next) : Refers env code := by
  induction cases generalizing label first code with
  | nil =>
    obtain ⟨-, rfl⟩ := yields_caseBodies_nil.1 h
    exact eachOp_nil
  | cons c cases ihc =>
    obtain ⟨body, rest, middle, hbody, hrest, rfl⟩ := yields_caseBodies_cons.1 h
    rw [List.forall_mem_cons] at ih
    simp [block_refers henv ih.1 hbody, ihc ih.2 hrest]

theorem defaultBody_refers (henv : env.WellNamed) {default_ : Option Block} {label : Label}
    (ih : ∀ b ∈ default_, ∀ s ∈ b.statements, StatementRefers s)
    (h : Yields (defaultBody env label default_) first code next) : Refers env code := by
  cases default_ with
  | none =>
    obtain ⟨rfl, rfl⟩ := yields_pure.1 h
    exact eachOp_nil
  | some b =>
    obtain ⟨body, hbody, rfl⟩ := yields_defaultBody.1 h
    exact eachOp_label.2 (block_refers henv (ih b rfl) hbody)

theorem elseBranch_refers (henv : env.WellNamed) {no finish : Label}
    {otherwise : Option Statement} (ih : ∀ s ∈ otherwise, StatementRefers s)
    (h : Yields (elseBranch env no finish otherwise) first code next) : Refers env code := by
  cases otherwise with
  | none =>
    obtain ⟨rfl, rfl⟩ := yields_pure.1 h
    exact eachOp_nil
  | some s =>
    rcases yields_elseBranch.1 h with ⟨-, c, hc, rfl⟩ | ⟨-, c, hc, rfl⟩
    · exact eachOp_label.2 (ih s rfl henv hc)
    · simpa using ih s rfl henv hc

/-- The code of a statement refers to members as the table answers. -/
theorem statement_refers {s : Statement} (hs : s.WellNamed) : StatementRefers s := by
  induction hs with
  | block _ ih =>
    intro env join first code next henv h
    simp only [statement] at h
    exact block_refers henv ih h
  | conditional he _ _ ihbody ihother =>
    intro env join first code next henv h
    obtain ⟨decision, inner, rest, middle, middle', hd, hi, hr, rfl⟩ := yields_conditional.1 h
    have hlast : ∀ l : Label, Refers env (if join.isNone then [.label l] else []) := by
      intro l
      split <;> simp
    refine eachOp_append.2 ⟨?_, hlast _⟩
    simp [test_refers henv he hd, ihbody henv hi, elseBranch_refers henv ihother hr]
  | whileLoop he _ ih =>
    intro env join first code next henv h
    obtain ⟨decision, inner, middle, hd, hi, rfl⟩ := yields_whileLoop.1 h
    have hinner := ih (henv.inside _) hi
    change Refers env _ at hinner
    simp [test_refers henv he hd, hinner]
  | @forLoop p id init e update body hinit he hupdate _ ih =>
    intro env join first code next henv h
    obtain ⟨before, decision, inner, after, top, middle, middle', hb, hd, hi, ha, rfl⟩ :=
      yields_forLoop.1 h
    have henv' := henv.enter id
    have hbefore := forInit_refers henv' hinit hb
    have hdecision := forTest_refers henv' he hd
    have hinner := ih (henv'.inside _) hi
    have hafter := forUpdate_refers henv' hupdate ha
    -- the table is the same in all surroundings
    change Refers env _ at hbefore hdecision hinner hafter
    simp [hbefore, hdecision, hinner, hafter]
  | switch he _ _ ihc ihd =>
    intro env join first code next henv h
    obtain ⟨slot, store, tests, bodies, last, label, miss, finish, middle, -, -, -, hs, ht, hb, hl,
      rfl⟩ := yields_switch.1 h
    have hbodies := caseBodies_refers (henv.inside _) ihc hb
    have hlast := defaultBody_refers (henv.inside _) ihd hl
    change Refers env _ at hbodies hlast
    have htests : Refers env tests := caseTests_refers ht
    simp [selector_refers henv he hs, htests, hbodies, hlast]
  | jump hj =>
    intro env join first code next henv h
    simp only [statement] at h
    exact jump_refers henv hj h
  | action ha =>
    intro env join first code next henv h
    simp only [statement] at h
    exact action_refers henv ha h
  | declaration hv =>
    intro env join first code next henv h
    simp only [statement] at h
    exact variable_refers henv hv h

end Lowering

end Javelet
