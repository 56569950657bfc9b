import Javelet.Proofs.Assembly.Layout
import Javelet.Proofs.Lowering.Parts
import Javelet.Proofs.Syntax.Induction

/-!
# What holds of the code of expressions

The code of an expression is made of instructions that neither jump nor leave the method, of
comparisons and of connectives. A property of code that holds of these and is kept when code is put
together holds of the code of every expression.
-/
namespace Javelet

namespace Assembly.Instruction

/-- Whether an instruction neither jumps nor leaves the method. -/
def isPlain (i : Instruction) : Bool := i.target?.isNone && !i.isReturn

theorem target?_of_isPlain {i : Instruction} (h : i.isPlain = true) : i.target? = none := by
  simp only [isPlain, Bool.and_eq_true, Option.isNone_iff_eq_none] at h
  exact h.1

end Assembly.Instruction

namespace Lowering

open Assembly

/-- A property of code that the pieces of expressions have and that is kept behind one another. -/
structure Composes (P : Segment → Prop) : Prop where
  nil : P []
  append : ∀ {code rest}, P code → P rest → P (code ++ rest)
  op : ∀ {i : Instruction}, i.isPlain = true → P (ops [i])
  comparison : ∀ {i : Instruction} {b : Bool} {other finish : Label}, i.target? = some other →
    P (.op i :: choice b other finish)
  connective : ∀ {i : Instruction} {b : Bool} {other finish : Label} {code : Segment},
    i.target? = some other → P code → P (.op i :: code ++ .op i :: choice b other finish)

theorem target_shortcut (op : Connective) (l : Label) : (shortcut op l).target? = some l := by
  cases op <;> rfl

theorem target_comparisonJump {op : BinaryOp} {left right : Ty} {target : Label}
    {jump : Instruction} (h : comparisonJump? op left right target = some jump) :
    jump.target? = some target := by
  unfold comparisonJump? at h
  split at h
  · cases h
    rfl
  · split at h
    · split at h <;> cases h <;> rfl
    · cases h

theorem isPlain_invocation (owner : Types.TypeInfo) (name : String) (m : Types.MethodInfo) :
    (invocation owner name m).isPlain = true := by
  unfold invocation
  split <;> rfl

theorem isPlain_pushDefault (ty : Ty) : (Instruction.pushDefault ty).isPlain = true := by
  unfold Instruction.pushDefault
  split <;> rfl

namespace Composes

variable {P : Segment → Prop} (h : Composes P) {env : Env} {first next : Label} {code : Segment}

include h

theorem ops {is : List Instruction} (his : is.all Instruction.isPlain = true) :
    P (Lowering.ops is) := by
  induction is with
  | nil => exact h.nil
  | cons i is ih =>
    rw [List.all_cons, Bool.and_eq_true] at his
    exact h.append (h.op his.1) (ih his.2)

theorem literal (value : Literal) : P (literal value).code := by
  cases value <;> exact h.op rfl

theorem arguments {args : List Expr} {as : Arguments}
    (ih : ∀ e ∈ args, ∀ {first next v}, Yields (expr env e) first v next → P v.code)
    (hy : Yields (arguments env args) first as next) : P as.code := by
  induction args generalizing first as with
  | nil =>
    simp only [Lowering.arguments, yields_pure] at hy
    obtain ⟨rfl, rfl⟩ := hy
    exact h.nil
  | cons e rest ihrest =>
    rw [List.forall_mem_cons] at ih
    obtain ⟨v, vs, middle, hv, hvs, rfl⟩ := yields_arguments_cons.1 hy
    exact h.append (ih.1 hv) (ihrest ih.2 hvs)

theorem call {receiver : Ty} {name : String} {p : Position} {args : Arguments} {r : Reached}
    (hargs : P args.code) (hy : Yields (call env receiver name p args) first r next) :
    P r.code := by
  obtain ⟨owner, m, _, _, _, _, rfl⟩ := yields_call.1 hy
  exact h.append hargs (h.op (isPlain_invocation owner name m))

theorem head {head : Head} {r : Reached}
    (ih : ∀ e ∈ head.operands, ∀ {first next v}, Yields (expr env e) first v next → P v.code)
    (hy : Yields (Lowering.head env head) first r next) : P r.code := by
  cases head with
  | this p =>
    simp only [Lowering.head, yields_pure] at hy
    obtain ⟨rfl, rfl⟩ := hy
    exact h.op rfl
  | name p name =>
    simp only [Lowering.head] at hy
    obtain ⟨_, ⟨l, _, rfl⟩ | ⟨owner, info, _, rfl⟩ | rfl⟩ := yields_nameHead hy
    · exact h.op rfl
    · exact h.ops rfl
    · exact h.nil
  | call p name args =>
    obtain ⟨as, result, middle, ha, hc, rfl⟩ := yields_head_call.1 hy
    exact h.append (h.op rfl) (h.call (h.arguments ih ha) hc)

theorem link {link : Link} {receiver : Receiver} {r : Reached}
    (ih : ∀ e ∈ link.operands, ∀ {first next v}, Yields (expr env e) first v next → P v.code)
    (hy : Yields (Lowering.link env receiver link) first r next) : P r.code := by
  cases link with
  | field p name =>
    simp only [Lowering.link] at hy
    obtain ⟨_, ⟨_, rfl⟩ | ⟨_, _, _, rfl⟩ | ⟨_, _, _, _, _, _, rfl⟩⟩ := yields_fieldStep hy
    · exact h.op rfl
    · exact h.op rfl
    · exact h.op rfl
  | call p name args =>
    rcases yields_link_call hy with ⟨line, as, _, _, ha, rfl⟩ | ⟨ty, as, middle, _, _, ha, hc⟩
    · exact h.append (h.arguments ih ha) (h.op rfl)
    · exact h.call (h.arguments ih ha) hc
  | index p e =>
    obtain ⟨ty, v, _, _, hv, _, rfl⟩ := yields_link_index hy
    exact h.append (ih e (List.mem_singleton.2 rfl) hv) (h.op rfl)

theorem links {links : List Link} {start r : Reached}
    (ih : ∀ l ∈ links, ∀ e ∈ l.operands, ∀ {first next v}, Yields (expr env e) first v next →
      P v.code)
    (hstart : P start.code) (hy : Yields (Lowering.links env start links) first r next) :
    P r.code := by
  induction links generalizing start first with
  | nil =>
    simp only [Lowering.links, yields_pure] at hy
    obtain ⟨rfl, rfl⟩ := hy
    exact hstart
  | cons link links ihlinks =>
    rw [List.forall_mem_cons] at ih
    obtain ⟨step, middle, hstep, hrest⟩ := yields_links_cons.1 hy
    exact ihlinks ih.2 (h.append hstart (h.link ih.1 hstep)) hrest

theorem chain_of {head : Head} {links : List Link} {v : Typed}
    (ihh : ∀ e ∈ head.operands, ∀ {first next v}, Yields (expr env e) first v next → P v.code)
    (ihl : ∀ l ∈ links, ∀ e ∈ l.operands, ∀ {first next v}, Yields (expr env e) first v next →
      P v.code)
    (hy : Yields (chain env (.mk head links)) first v next) : P v.code := by
  obtain ⟨start, r, middle, hs, hr, _, hcode⟩ := yields_chain.1 hy
  rw [hcode]
  exact h.links ihl (h.head ihh hs) hr

theorem expr (e : Expr) :
    ∀ {first next v}, Yields (Lowering.expr env e) first v next → P v.code := by
  induction e using Expr.induction with
  | literal p value =>
    intro first next v hy
    simp only [Lowering.expr, yields_pure] at hy
    obtain ⟨rfl, rfl⟩ := hy
    exact h.literal value
  | binary op left right ihl ihr =>
    intro first next v hy
    cases op with
    | arithmetic op =>
      obtain ⟨l, r, middle, hl, hr, _, _, rfl⟩ := yields_expr_arithmetic.1 hy
      exact h.append (h.append (ihl hl) (ihr hr)) (h.op rfl)
    | relation op =>
      obtain ⟨l, r, middle, yes, jump, hl, hr, hjump, _, rfl⟩ := yields_expr_relation.1 hy
      exact h.append (h.append (ihl hl) (ihr hr)) (h.comparison (target_comparisonJump hjump))
    | connective op =>
      obtain ⟨l, r, middle, hl, _, hr, _, rfl⟩ := yields_expr_connective.1 hy
      rw [List.append_assoc]
      exact h.append (ihl hl) (h.connective (target_shortcut op first) (ihr hr))
  | access head links ihh ihl =>
    intro first next v hy
    exact h.chain_of ihh ihl (yields_expr_access.1 hy).1
  | newObject p className args ih =>
    intro first next v hy
    obtain ⟨as, middle, ha, hc⟩ := yields_expr_newObject.1 hy
    obtain ⟨m, _, _, _, rfl⟩ := yields_construct.1 hc
    exact h.append (h.append (h.ops rfl) (h.arguments ih ha)) (h.op rfl)
  | newArray p element length ih =>
    intro first next v hy
    obtain ⟨n, middle, hn, hc⟩ := yields_expr_newArray.1 hy
    obtain ⟨_, _, rfl⟩ := yields_constructArray.1 hc
    exact h.append (ih hn) (h.op rfl)

theorem chain {c : Chain} {v : Typed} (hy : Yields (Lowering.chain env c) first v next) :
    P v.code := by
  obtain ⟨head, links⟩ := c
  exact h.chain_of (fun e _ => h.expr e) (fun _ _ e _ => h.expr e) hy

/-! ## Assignments and declarations -/

theorem assigning {op : AssignOp} {old : List Instruction} {value : Segment} {store : Instruction}
    (hold : old.all Instruction.isPlain = true) (hvalue : P value)
    (hstore : store.isPlain = true) : P (assigning op old value store) := by
  cases op with
  | plain => exact h.append (h.append (h.append h.nil hvalue) h.nil) (h.op hstore)
  | compound op =>
    exact h.append (h.append (h.append (h.ops hold) hvalue) (h.op rfl)) (h.op hstore)

theorem assignName {name : String} {p : Position} {op : AssignOp} {value : Expr}
    (hy : Yields (assignName env name p op value) first code next) : P code := by
  obtain ⟨v, hv, ⟨l, _, rfl⟩ | ⟨owner, info, _, _, rfl⟩⟩ := yields_assignName hy
  · exact h.assigning rfl (h.expr value hv) rfl
  · exact h.append (h.op rfl) (h.assigning rfl (h.expr value hv) rfl)

theorem assignLink {receiver : Receiver} {p : Position} {last : Link} {op : AssignOp} {value : Expr}
    (hy : Yields (assignLink env receiver p last op value) first code next) : P code := by
  rcases yields_assignLink hy with ⟨_, _, _, _, _, v, _, _, _, _, hv, rfl⟩ |
    ⟨_, i, _, place, v, middle, _, _, _, hplace, hv, rfl⟩
  · exact h.assigning rfl (h.expr value hv) rfl
  · exact h.append (h.expr i hplace) (h.assigning rfl (h.expr value hv) rfl)

theorem assignment {a : Assignment} (hy : Yields (assignment env a) first code next) : P code := by
  rcases yields_assignment hy with ⟨_, _, _, hy⟩ |
    ⟨_, _, last, start, reached, middle, middle', tail, _, hhead, hlinks, hlast, rfl⟩
  · exact h.assignName hy
  · have hstart := h.head (fun e _ => h.expr e) hhead
    exact h.append (h.links (fun _ _ e _ => h.expr e) hstart hlinks) (h.assignLink hlast)

theorem action {a : Action} (hy : Yields (action env a) first code next) : P code := by
  cases a with
  | assignment a => exact h.assignment hy
  | call c =>
    obtain ⟨v, hv, rfl⟩ := yields_action_call.1 hy
    split
    · exact h.chain hv
    · exact h.append (h.chain hv) (h.op rfl)

theorem variable_ {x : Variable} (hy : Yields (variable_ env x) first code next) : P code := by
  obtain ⟨l, _, ⟨_, _, rfl⟩ | ⟨e, v, _, hv, rfl⟩⟩ := yields_variable.1 hy
  · exact h.append (h.op (isPlain_pushDefault l.type)) (h.op rfl)
  · exact h.append (h.expr e hv) (h.op rfl)

end Composes

end Lowering

/-! ## Jumps in expressions -/

namespace Assembly

/-- All jumps lead to labels of the same code. That of an expression is self-contained: comparisons
and connectives place the labels that they jump to. -/
def SelfContained (code : Segment) : Prop :=
  ∀ i, .op i ∈ code → ∀ l, i.target? = some l → l ∈ labelsOf code

namespace SelfContained

variable {code rest : Segment} {i : Instruction}

theorem nil : SelfContained [] := fun _ hi => absurd hi List.not_mem_nil

theorem append (h : SelfContained code) (h' : SelfContained rest) :
    SelfContained (code ++ rest) := by
  intro i hi l hl
  rw [labelsOf_append, List.mem_append]
  rcases List.mem_append.1 hi with hi | hi
  · exact .inl (h i hi l hl)
  · exact .inr (h' i hi l hl)

theorem op (hi : ∀ l, i.target? = some l → l ∈ labelsOf rest) (h : SelfContained rest) :
    SelfContained (.op i :: rest) := by
  intro i' hi' l hl
  rw [labelsOf_op]
  rcases List.mem_cons.1 hi' with heq | hi'
  · cases heq
    exact hi l hl
  · exact h i' hi' l hl

theorem written (h : SelfContained code) : SelfContained (Assembly.written code) := by
  intro i hi l hl
  rw [labelsOf_written]
  exact h i (List.mem_filter.1 hi).1 l hl

end SelfContained

end Assembly

namespace Lowering

open Assembly

theorem selfContained_choice (b : Bool) (other finish : Label) :
    SelfContained (choice b other finish) := by
  intro i hi l hl
  simp only [choice, List.mem_cons, List.not_mem_nil, or_false, Item.op.injEq, reduceCtorEq,
    false_or] at hi
  rcases hi with rfl | rfl | rfl
  · cases hl
  · cases hl
    exact mem_labelsOf.2 (by simp [choice])
  · cases hl

/-- A jump to the label of a choice right behind it. -/
theorem selfContained_decision {i : Instruction} {b : Bool} {other finish : Label}
    (hi : i.target? = some other) : SelfContained (.op i :: choice b other finish) := by
  refine .op (fun l hl => ?_) (selfContained_choice b other finish)
  cases hi.symm.trans hl
  exact List.mem_cons_self

theorem composes_selfContained : Composes SelfContained where
  nil := .nil
  append := .append
  op hi := .op (fun l hl => by cases (Instruction.target?_of_isPlain hi).symm.trans hl) .nil
  comparison := selfContained_decision
  connective {i b other finish code} hi hcode := by
    refine .op (fun l hl => ?_) (hcode.append (selfContained_decision hi))
    cases hi.symm.trans hl
    show other ∈ labelsOf (code ++ _)
    rw [labelsOf_append]
    exact List.mem_append_right _ List.mem_cons_self

end Lowering

end Javelet
