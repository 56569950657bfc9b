import Javelet.Proofs.Assembly.Layout
import Javelet.Proofs.Lowering.Parts
import Javelet.Proofs.Syntax.Induction

/-!
# Fresh labels

All labels that the code of a node places are drawn while the node is lowered, and each of them
is placed once. Labels of different nodes are therefore different, in whatever order the parts of
a node stand in its code. The counting form below does not depend on that order.
-/
namespace Javelet.Lowering

open Assembly

/-- The labels that code places lie between two counters, each of them at one place. -/
structure Labelled (first next : Nat) (code : Segment) : Prop where
  le : first ≤ next
  count : ∀ l : Nat, (labelsOf code).count l ≤ if first ≤ l ∧ l < next then 1 else 0

namespace Labelled

variable {first middle next : Nat} {code rest : Segment}

theorem mem (h : Labelled first next code) {l : Nat} (hl : l ∈ labelsOf code) :
    first ≤ l ∧ l < next := by
  have hpos := List.count_pos_iff.2 hl
  have hcount := h.count l
  split at hcount
  · assumption
  · omega

theorem nodup (h : Labelled first next code) : (labelsOf code).Nodup := by
  rw [List.nodup_iff_count]
  intro l
  have hcount := h.count l
  split at hcount <;> omega

theorem of_labelsOf_eq_nil (h : labelsOf code = []) : Labelled first first code :=
  ⟨Nat.le_refl _, by simp [h]⟩

theorem append (h : Labelled first middle code) (h' : Labelled middle next rest) :
    Labelled first next (code ++ rest) := by
  refine ⟨Nat.le_trans h.le h'.le, ?_⟩
  intro l
  have hc := h.count l
  have hc' := h'.count l
  have hle := h.le
  have hle' := h'.le
  rw [labelsOf_append, List.count_append]
  split at hc <;> split at hc' <;> split <;> omega

/-- Code with the same labels, perhaps in another order. -/
theorem congr (h : Labelled first next code)
    (he : ∀ l, (labelsOf rest).count l = (labelsOf code).count l) :
    Labelled first next rest :=
  ⟨h.le, fun l => he l ▸ h.count l⟩

end Labelled

@[simp] theorem labelsOf_ops (is : List Instruction) : labelsOf (ops is) = [] := by
  induction is with
  | nil => rfl
  | cons i is ih => simpa [ops] using ih

@[simp] theorem readings_ops {α : Type} (read : Instruction → Option α) (is : List Instruction) :
    readings read (ops is) = is.filterMap read := by
  rw [readings, ops, List.filterMap_map]
  rfl

@[simp] theorem labelsOf_choice (b : Bool) (other finish : Label) :
    labelsOf (choice b other finish) = [other, finish] := rfl

@[simp] theorem size_choice (b : Bool) (other finish : Label) :
    size (choice b other finish) = 5 := rfl

@[simp] theorem labelsOf_oldValue (op : AssignOp) (is : List Instruction) :
    labelsOf (oldValue op is) = [] := by
  cases op with
  | plain => rfl
  | compound op => exact labelsOf_ops is

@[simp] theorem labelsOf_assigning (op : AssignOp) (old : List Instruction) (value : Segment)
    (store : Instruction) : labelsOf (assigning op old value store) = labelsOf value := by
  simp [assigning]

variable {env : Env} {first next : Nat} {p : Position} {code : Segment}

/-! ## Expressions -/

theorem arguments_labelled {args : List Expr} {as : Arguments}
    (ih : ∀ e ∈ args, ∀ {first next v}, Yields (expr env e) first v next →
      Labelled first next v.code)
    (h : Yields (arguments env args) first as next) : Labelled first next as.code := by
  induction args generalizing first as with
  | nil =>
    simp only [arguments, yields_pure] at h
    obtain ⟨rfl, rfl⟩ := h
    exact .of_labelsOf_eq_nil rfl
  | cons e rest ihrest =>
    obtain ⟨v, vs, middle, hv, hvs, rfl⟩ := yields_arguments_cons.1 h
    exact (ih e (List.mem_cons_self ..) hv).append
      (ihrest (fun e he => ih e (List.mem_cons_of_mem _ he)) hvs)

theorem head_labelled {h : Head} {r : Reached}
    (ih : ∀ e ∈ h.operands, ∀ {first next v}, Yields (expr env e) first v next →
      Labelled first next v.code)
    (hy : Yields (head env h) first r next) : Labelled first next r.code := by
  cases h with
  | this p =>
    simp only [head, yields_pure] at hy
    obtain ⟨rfl, rfl⟩ := hy
    exact .of_labelsOf_eq_nil (labelsOf_ops _)
  | name p name =>
    simp only [head] at hy
    obtain ⟨rfl, ⟨l, _, rfl⟩ | ⟨owner, info, _, rfl⟩ | rfl⟩ := yields_nameHead hy
    · exact .of_labelsOf_eq_nil (labelsOf_ops _)
    · exact .of_labelsOf_eq_nil (labelsOf_ops _)
    · exact .of_labelsOf_eq_nil rfl
  | call p name args =>
    obtain ⟨as, result, middle, ha, hc, rfl⟩ := yields_head_call.1 hy
    obtain ⟨owner, m, _, _, _, rfl, rfl⟩ := yields_call.1 hc
    exact (arguments_labelled ih ha).congr (by simp)

theorem link_labelled {receiver : Receiver} {l : Link} {r : Reached}
    (ih : ∀ e ∈ l.operands, ∀ {first next v}, Yields (expr env e) first v next →
      Labelled first next v.code)
    (hy : Yields (link env receiver l) first r next) : Labelled first next r.code := by
  cases l with
  | field p name =>
    simp only [link] at hy
    obtain ⟨rfl, ⟨_, rfl⟩ | ⟨_, _, _, rfl⟩ | ⟨_, _, _, _, _, _, rfl⟩⟩ := yields_fieldStep hy
    · exact .of_labelsOf_eq_nil (labelsOf_ops _)
    · exact .of_labelsOf_eq_nil (labelsOf_ops _)
    · exact .of_labelsOf_eq_nil (labelsOf_ops _)
  | call p name args =>
    rcases yields_link_call hy with ⟨line, as, _, _, ha, rfl⟩ | ⟨ty, as, middle, _, _, ha, hc⟩
    · exact (arguments_labelled ih ha).congr (by simp)
    · obtain ⟨owner, m, _, _, _, rfl, rfl⟩ := yields_call.1 hc
      exact (arguments_labelled ih ha).congr (by simp)
  | index p i =>
    obtain ⟨ty, v, _, _, hv, _, rfl⟩ := yields_link_index hy
    exact (ih i (List.mem_singleton.2 rfl) hv).congr (by simp)

theorem links_labelled {start r : Reached} {ls : List Link}
    (ih : ∀ l ∈ ls, ∀ e ∈ l.operands, ∀ {first next v}, Yields (expr env e) first v next →
      Labelled first next v.code)
    (hy : Yields (links env start ls) first r next) :
    ∃ tail, r.code = start.code ++ tail ∧ Labelled first next tail := by
  induction ls generalizing start first with
  | nil =>
    simp only [links, yields_pure] at hy
    obtain ⟨rfl, rfl⟩ := hy
    exact ⟨[], by simp, .of_labelsOf_eq_nil rfl⟩
  | cons l rest ihrest =>
    obtain ⟨step, middle, hstep, hrest⟩ := yields_links_cons.1 hy
    obtain ⟨tail, htail, hlab⟩ := ihrest (fun l hl => ih l (List.mem_cons_of_mem _ hl)) hrest
    refine ⟨step.code ++ tail, by simp [htail], ?_⟩
    exact (link_labelled (ih l (List.mem_cons_self ..)) hstep).append hlab

theorem chain_labelled {h : Head} {ls : List Link} {v : Typed}
    (ihh : ∀ e ∈ h.operands, ∀ {first next v}, Yields (expr env e) first v next →
      Labelled first next v.code)
    (ihl : ∀ l ∈ ls, ∀ e ∈ l.operands, ∀ {first next v}, Yields (expr env e) first v next →
      Labelled first next v.code)
    (hy : Yields (chain env (.mk h ls)) first v next) : Labelled first next v.code := by
  obtain ⟨start, r, middle, hs, hr, _, hcode⟩ := yields_chain.1 hy
  obtain ⟨tail, htail, hlab⟩ := links_labelled ihl hr
  rw [hcode, htail]
  exact (head_labelled ihh hs).append hlab

/-- The comparison draws its labels behind its operands. -/
theorem comparison_labelled {middle yes : Nat} {l r : Segment} {jump : Instruction}
    {b : Bool} (hl : Labelled first middle l) (hr : Labelled middle yes r) :
    Labelled first (yes + 2) (l ++ r ++ .op jump :: choice b yes (yes + 1)) := by
  refine (hl.append hr).append ⟨by omega, ?_⟩
  intro x
  simp only [labelsOf_op, labelsOf_choice, List.count_cons, List.count_nil, beq_iff_eq]
  split <;> split <;> split <;> omega

/-- The connective draws its labels before its operands and places them behind them. -/
theorem connective_labelled {middle : Nat} {l r : Segment} {skip : Instruction} {b : Bool}
    (hl : Labelled (first + 2) middle l) (hr : Labelled middle next r) :
    Labelled first next (l ++ .op skip :: r ++ .op skip :: choice b first (first + 1)) := by
  have hlr := hl.append hr
  refine ⟨by have := hlr.le; omega, ?_⟩
  intro x
  have hx := hlr.count x
  simp only [labelsOf_append, labelsOf_op, labelsOf_choice, List.count_append, List.count_cons,
    List.count_nil, beq_iff_eq] at hx ⊢
  have := hlr.le
  split at hx <;> split <;> split <;> split <;> omega

theorem expr_labelled (e : Expr) : ∀ {first next v}, Yields (expr env e) first v next →
    Labelled first next v.code := by
  induction e using Expr.induction with
  | literal p value =>
    intro first next v h
    simp only [expr, yields_pure] at h
    obtain ⟨rfl, rfl⟩ := h
    cases value <;> exact .of_labelsOf_eq_nil rfl
  | binary op left right ihl ihr =>
    intro first next v h
    cases op with
    | arithmetic op =>
      obtain ⟨l, r, middle, hl, hr, _, _, rfl⟩ := yields_expr_arithmetic.1 h
      exact ((ihl hl).append (ihr hr)).congr (by simp)
    | relation op =>
      obtain ⟨l, r, middle, yes, jump, hl, hr, _, rfl, rfl⟩ := yields_expr_relation.1 h
      exact comparison_labelled (ihl hl) (ihr hr)
    | connective op =>
      obtain ⟨l, r, middle, hl, _, hr, _, rfl⟩ := yields_expr_connective.1 h
      exact connective_labelled (ihl hl) (ihr hr)
  | access h ls ihh ihl =>
    intro first next v hy
    exact chain_labelled ihh ihl (yields_expr_access.1 hy).1
  | newObject p className args ih =>
    intro first next v h
    obtain ⟨as, middle, ha, hc⟩ := yields_expr_newObject.1 h
    obtain ⟨m, _, _, rfl, rfl⟩ := yields_construct.1 hc
    exact (arguments_labelled ih ha).congr (by simp)
  | newArray p element length ih =>
    intro first next v h
    obtain ⟨n, middle, hn, hc⟩ := yields_expr_newArray.1 h
    obtain ⟨_, rfl, rfl⟩ := yields_constructArray.1 hc
    exact (ih hn).congr (by simp)

theorem links_labelled_all {start r : Reached} {ls : List Link}
    (hy : Yields (links env start ls) first r next) :
    ∃ tail, r.code = start.code ++ tail ∧ Labelled first next tail :=
  links_labelled (fun _ _ e _ => expr_labelled e) hy

/-! ## Simple statements -/

theorem assignName_labelled {name : String} {op : AssignOp} {value : Expr}
    (h : Yields (assignName env name p op value) first code next) : Labelled first next code := by
  obtain ⟨v, hv, ⟨l, _, rfl⟩ | ⟨owner, info, -, -, rfl⟩⟩ := yields_assignName h
  · exact (expr_labelled value hv).congr (by simp)
  · exact (expr_labelled value hv).congr (by simp)

theorem assignLink_labelled {receiver : Receiver} {last : Link} {op : AssignOp} {value : Expr}
    (h : Yields (assignLink env receiver p last op value) first code next) :
    Labelled first next code := by
  rcases yields_assignLink h with ⟨_, _, _, _, _, v, _, _, _, _, hv, rfl⟩ |
    ⟨_, i, _, place, v, middle, _, _, _, hplace, hv, rfl⟩
  · exact (expr_labelled value hv).congr (by simp)
  · exact ((expr_labelled i hplace).append (expr_labelled value hv)).congr (by simp)

theorem assignment_labelled {a : Assignment} (h : Yields (assignment env a) first code next) :
    Labelled first next code := by
  rcases yields_assignment h with ⟨_, _, _, h⟩ |
    ⟨_, ls, last, start, reached, middle, middle', tail, _, hhead, hlinks, hlast, rfl⟩
  · exact assignName_labelled h
  · obtain ⟨steps, hsteps, hlab⟩ := links_labelled_all hlinks
    rw [hsteps]
    exact ((head_labelled (fun e _ => expr_labelled e) hhead).append hlab).append
      (assignLink_labelled hlast)

theorem variable_labelled {v : Variable} (h : Yields (variable_ env v) first code next) :
    Labelled first next code := by
  obtain ⟨l, _, ⟨_, rfl, rfl⟩ | ⟨e, value, _, hv, rfl⟩⟩ := yields_variable.1 h
  · exact .of_labelsOf_eq_nil (labelsOf_ops _)
  · exact (expr_labelled e hv).congr (by simp)

theorem action_labelled {a : Action} (h : Yields (action env a) first code next) :
    Labelled first next code := by
  cases a with
  | assignment a => exact assignment_labelled h
  | call c =>
    obtain ⟨v, hv, rfl⟩ := yields_action_call.1 h
    obtain ⟨hd, ls⟩ := c
    have hlab := chain_labelled (fun e _ => expr_labelled e) (fun _ _ e _ => expr_labelled e) hv
    split
    · exact hlab
    · exact hlab.congr (by simp)

theorem jump_labelled {j : Jump} (h : Yields (jump env p j) first code next) :
    Labelled first next code := by
  cases j with
  | return_ value =>
    cases value with
    | none =>
      simp only [jump, yields_pure] at h
      obtain ⟨rfl, rfl⟩ := h
      exact .of_labelsOf_eq_nil (labelsOf_ops _)
    | some e =>
      obtain ⟨v, hv, rfl⟩ := yields_jump_value.1 h
      exact (expr_labelled e hv).congr (by simp)
  | break_ =>
    obtain ⟨_, _, rfl, rfl⟩ := yields_jump_break.1 h
    exact .of_labelsOf_eq_nil (labelsOf_ops _)
  | continue_ =>
    obtain ⟨_, _, rfl, rfl⟩ := yields_jump_continue.1 h
    exact .of_labelsOf_eq_nil (labelsOf_ops _)

theorem test_labelled {e : Expr} {yes no : Label} (h : Yields (test env e yes no) first code next) :
    Labelled first next code := by
  obtain ⟨v, hv, _, rfl⟩ := yields_test.1 h
  exact (expr_labelled e hv).congr (by simp)

theorem selector_labelled {e : Expr} {l : Local} (h : Yields (selector env e l) first code next) :
    Labelled first next code := by
  obtain ⟨v, hv, _, rfl⟩ := yields_selector.1 h
  exact (expr_labelled e hv).congr (by simp)

theorem labelsOf_caseTests {l : Local} {label : Label} {cases : List Case}
    (h : Yields (caseTests l label cases) first code next) : labelsOf code = [] := by
  induction cases generalizing label code with
  | nil =>
    obtain ⟨_, rfl⟩ := yields_caseTests_nil.1 h
    rfl
  | cons c cases ih =>
    obtain ⟨value, rest, _, hrest, rfl⟩ := yields_caseTests_cons.1 h
    simp [ih hrest]

theorem forInit_labelled {init : Option ForInit} (h : Yields (forInit env init) first code next) :
    Labelled first next code := by
  match init, h with
  | some (.declaration v), h => exact variable_labelled h
  | some (.assignment a), h => exact assignment_labelled h
  | none, h =>
    obtain ⟨rfl, rfl⟩ := yields_pure.1 h
    exact .of_labelsOf_eq_nil rfl

theorem forTest_labelled {e : Option Expr} {yes no : Label}
    (h : Yields (forTest env e yes no) first code next) : Labelled first next code := by
  cases e with
  | none =>
    obtain ⟨rfl, rfl⟩ := yields_pure.1 h
    exact .of_labelsOf_eq_nil rfl
  | some e => exact test_labelled h

theorem forUpdate_labelled {update : Option Action}
    (h : Yields (forUpdate env update) first code next) : Labelled first next code := by
  cases update with
  | none =>
    obtain ⟨rfl, rfl⟩ := yields_pure.1 h
    exact .of_labelsOf_eq_nil rfl
  | some a => exact action_labelled h

/-! ## Statements -/

/-- What is shown of every statement, whatever surrounds it. -/
def LabelsFresh (s : Statement) : Prop :=
  ∀ {env join first code next}, Yields (statement env join s) first code next →
    Labelled first next code

theorem statements_labelled {ss : List Statement} (ih : ∀ s ∈ ss, LabelsFresh s)
    (h : Yields (statements env [] ss) first code next) : Labelled first next code := by
  induction ss generalizing first code with
  | nil =>
    obtain ⟨rfl, rfl⟩ := yields_statements_nil.1 h
    exact .of_labelsOf_eq_nil rfl
  | cons s ss ihss =>
    obtain ⟨c, rest, middle, hc, hrest, rfl⟩ := yields_statements_cons.1 h
    exact (ih s (List.mem_cons_self ..) hc).append
      (ihss (fun s hs => ih s (List.mem_cons_of_mem _ hs)) hrest)

theorem block_labelled {b : Block} (ih : ∀ s ∈ b.statements, LabelsFresh s)
    (h : Yields (block env b) first code next) : Labelled first next code :=
  statements_labelled ih (yields_block.1 h)

/-- The labels of case bodies are those drawn for the switch and those of the bodies. -/
theorem caseBodies_count {cases : List Case} {label : Nat}
    (ih : ∀ c ∈ cases, ∀ s ∈ c.body.statements, LabelsFresh s)
    (h : Yields (caseBodies env [] label cases) first code next) :
    first ≤ next ∧ ∀ l : Nat, (labelsOf code).count l ≤
      (if label ≤ l ∧ l < label + cases.length then 1 else 0) +
      if first ≤ l ∧ l < next then 1 else 0 := by
  induction cases generalizing label first code with
  | nil =>
    obtain ⟨rfl, rfl⟩ := yields_caseBodies_nil.1 h
    exact ⟨Nat.le_refl _, by simp⟩
  | cons c cases ihc =>
    obtain ⟨body, rest, middle, hbody, hrest, rfl⟩ := yields_caseBodies_cons.1 h
    have hlab := block_labelled (ih c (List.mem_cons_self ..)) hbody
    obtain ⟨hle, hcount⟩ := ihc (fun c hc => ih c (List.mem_cons_of_mem _ hc)) hrest
    have hle' := hlab.le
    refine ⟨Nat.le_trans hle' hle, ?_⟩
    intro l
    have h1 := hlab.count l
    have h2 := hcount l
    simp only [List.cons_append, labelsOf_label, labelsOf_append, List.count_cons,
      List.count_append, List.length_cons, beq_iff_eq]
    grind

theorem defaultBody_count {default_ : Option Block} {label : Nat}
    (ih : ∀ b ∈ default_, ∀ s ∈ b.statements, LabelsFresh s)
    (h : Yields (defaultBody env label default_) first code next) :
    first ≤ next ∧ ∀ l : Nat, (labelsOf code).count l ≤
      (if label ≤ l ∧ l < label + default_.toList.length then 1 else 0) +
      if first ≤ l ∧ l < next then 1 else 0 := by
  cases default_ with
  | none =>
    obtain ⟨rfl, rfl⟩ := yields_pure.1 h
    exact ⟨Nat.le_refl _, by simp⟩
  | some b =>
    obtain ⟨body, hbody, rfl⟩ := yields_defaultBody.1 h
    have hlab := block_labelled (ih b rfl) hbody
    refine ⟨hlab.le, ?_⟩
    intro l
    have h1 := hlab.count l
    simp only [labelsOf_label, List.count_cons, beq_iff_eq, Option.toList_some,
      List.length_singleton]
    grind

theorem elseBranch_count {no finish : Nat} {otherwise : Option Statement}
    (ih : ∀ s ∈ otherwise, LabelsFresh s)
    (h : Yields (elseBranch env no finish otherwise) first code next) :
    first ≤ next ∧ ∀ l : Nat, (labelsOf code).count l ≤
      (if otherwise.isSome ∧ l = no then 1 else 0) + if first ≤ l ∧ l < next then 1 else 0 := by
  cases otherwise with
  | none =>
    obtain ⟨rfl, rfl⟩ := yields_pure.1 h
    exact ⟨Nat.le_refl _, by simp⟩
  | some s =>
    have hcode : ∃ c join, Yields (statement env join s) first c next ∧
        labelsOf code = no :: labelsOf c := by
      rcases yields_elseBranch.1 h with ⟨_, c, hc, rfl⟩ | ⟨_, c, hc, rfl⟩
      · exact ⟨c, _, hc, rfl⟩
      · exact ⟨c, _, hc, by simp⟩
    obtain ⟨c, join, hc, hlabels⟩ := hcode
    have hlab := ih s rfl hc
    refine ⟨hlab.le, ?_⟩
    intro l
    have h1 := hlab.count l
    simp only [hlabels, List.count_cons, beq_iff_eq, Option.isSome_some, true_and]
    grind

/-- All labels in the code of a statement are drawn while it is lowered, each is placed once. -/
theorem statement_labelled (s : Statement) : LabelsFresh s := by
  induction s using Statement.induction with
  | block b ih =>
    intro env join first code next h
    simp only [statement] at h
    exact block_labelled ih h
  | conditional p e body otherwise ihbody ihother =>
    intro env join first code next h
    obtain ⟨decision, inner, rest, middle, middle', hd, hi, hr, rfl⟩ := yields_conditional.1 h
    have hd := test_labelled hd
    have hi := ihbody hi
    obtain ⟨hle, hcount⟩ := elseBranch_count ihother hr
    have hle1 := hd.le
    have hle2 := hi.le
    refine ⟨by omega, ?_⟩
    intro l
    have h1 := hd.count l
    have h2 := hi.count l
    have h3 := hcount l
    simp only [otherwiseLabel] at h3
    cases join with
    | none =>
      cases otherwise <;> simp_all [List.count_cons] <;> grind
    | some j =>
      cases otherwise <;> simp_all [List.count_cons] <;> grind
  | whileLoop p e body ih =>
    intro env join first code next h
    obtain ⟨decision, inner, middle, hd, hi, rfl⟩ := yields_whileLoop.1 h
    have hdi := (test_labelled hd).append (ih hi)
    refine ⟨by have := hdi.le; omega, ?_⟩
    intro l
    have h1 := hdi.count l
    simp only [labelsOf_append, labelsOf_label, labelsOf_op, labelsOf_nil, List.count_append,
      List.count_cons, List.count_nil, beq_iff_eq, List.cons_append] at h1 ⊢
    grind [hdi.le]
  | forLoop p id init e update body ih =>
    intro env join first code next h
    obtain ⟨before, decision, inner, after, top, middle, middle', hb, hd, hi, ha, rfl⟩ :=
      yields_forLoop.1 h
    have hb := forInit_labelled hb
    have hrest := ((forTest_labelled hd).append (ih hi)).append (forUpdate_labelled ha)
    refine ⟨by have := hb.le; have := hrest.le; omega, ?_⟩
    intro l
    have h1 := hb.count l
    have h2 := hrest.count l
    simp only [labelsOf_append, labelsOf_label, labelsOf_op, labelsOf_nil, List.count_append,
      List.count_cons, List.count_nil, beq_iff_eq] at h1 h2 ⊢
    grind [hb.le, hrest.le]
  | switch p id e cases default_ ihc ihd =>
    intro env join first code next h
    obtain ⟨slot, store, tests, bodies, last, label, miss, finish, middle, rfl, rfl, _, hs, ht,
      hb, hl, rfl⟩ := yields_switch.1 h
    have hs := selector_labelled hs
    obtain ⟨hle1, hb⟩ := caseBodies_count ihc hb
    obtain ⟨hle2, hl⟩ := defaultBody_count ihd hl
    refine ⟨by have := hs.le; omega, ?_⟩
    intro l
    have h1 := hs.count l
    have h2 := hb l
    have h3 := hl l
    simp only [labelsOf_append, labelsOf_label, labelsOf_op, labelsOf_nil, List.count_append,
      List.count_cons, List.count_nil, beq_iff_eq, labelsOf_caseTests ht]
    grind [hs.le]
  | jump p j =>
    intro env join first code next h
    simp only [statement] at h
    exact jump_labelled h
  | action a =>
    intro env join first code next h
    simp only [statement] at h
    exact action_labelled h
  | declaration v =>
    intro env join first code next h
    simp only [statement] at h
    exact variable_labelled h

end Javelet.Lowering
