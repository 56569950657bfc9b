import Javelet.Proofs.Syntax.Places
import Javelet.Scope.Resolve

/-!
# Walks without faults

An expression without faults has no expression in it with a fault. A declaration or a switch
without a fault has been given the next free slot.
-/
namespace Javelet.Scope

/-! ## Faultless expressions -/

section Faults

variable {ctx : Context} {arena : Arena}

theorem exprsFaults_eq (es : List Expr) :
    exprsFaults ctx arena es = es.flatMap (exprFaults ctx arena) := by
  induction es with
  | nil => rw [exprsFaults, List.flatMap_nil]
  | cons e es ih => rw [exprsFaults, List.flatMap_cons, ih]

theorem headFaults_eq (h : Head) : headFaults ctx arena h =
    faultAt (ctx.headFault arena h) h.position ++
      h.operands.flatMap (exprFaults ctx arena) := by
  cases h with
  | this p => rw [headFaults, Head.operands, List.flatMap_nil, List.append_nil, Head.position]
  | name p name => rw [headFaults, Head.operands, List.flatMap_nil, List.append_nil, Head.position]
  | call p name args => rw [headFaults, Head.operands, exprsFaults_eq, Head.position]

theorem linkFaults_eq (l : Link) :
    linkFaults ctx arena l = l.operands.flatMap (exprFaults ctx arena) := by
  cases l with
  | field p name => rw [linkFaults, Link.operands, List.flatMap_nil]
  | call p name args => rw [linkFaults, Link.operands, exprsFaults_eq]
  | index p e => rw [linkFaults, Link.operands, List.flatMap_singleton]

theorem linksFaults_eq (ls : List Link) :
    linksFaults ctx arena ls = (ls.flatMap Link.operands).flatMap (exprFaults ctx arena) := by
  induction ls with
  | nil => rw [linksFaults, List.flatMap_nil, List.flatMap_nil]
  | cons l ls ih =>
    rw [linksFaults, List.flatMap_cons, List.flatMap_append, ih, linkFaults_eq]

/-- The faults of a chain are those of its head and those of the expressions in it. -/
theorem chainFaults_eq (c : Chain) : chainFaults ctx arena c =
    faultAt (ctx.headFault arena c.head) c.position ++
      c.operands.flatMap (exprFaults ctx arena) := by
  obtain ⟨head, links⟩ := c
  rw [chainFaults, headFaults_eq, linksFaults_eq, List.append_assoc, ← List.flatMap_append]
  rfl

/-- Where an expression has no faults, the expressions in it have none. -/
def Faultless (ctx : Context) (arena : Arena) (e : Expr) : Prop :=
  exprFaults ctx arena e = [] → ∀ part ∈ e.parts, exprFaults ctx arena part = []

theorem faultless_operands {es : List Expr} (ih : ∀ e ∈ es, Faultless ctx arena e)
    (h : es.flatMap (exprFaults ctx arena) = []) :
    ∀ part ∈ es.flatMap Expr.parts, exprFaults ctx arena part = [] := by
  intro part hpart
  obtain ⟨e, he, hpart⟩ := List.mem_flatMap.1 hpart
  exact ih e he (List.flatMap_eq_nil_iff.1 h e he) part hpart

theorem faultless (e : Expr) : Faultless ctx arena e := by
  induction e using Expr.induction with
  | literal p value =>
    intro h part hpart
    rw [Expr.parts, List.mem_singleton] at hpart
    exact hpart ▸ h
  | binary op left right ihl ihr =>
    intro h
    rw [Expr.parts, List.forall_mem_cons]
    refine ⟨h, ?_⟩
    rw [exprFaults, List.append_eq_nil_iff] at h
    intro part hpart
    rcases List.mem_append.1 hpart with hpart | hpart
    · exact ihl h.1 part hpart
    · exact ihr h.2 part hpart
  | access head links ihh ihl =>
    intro h
    rw [Expr.parts, List.forall_mem_cons]
    refine ⟨h, ?_⟩
    rw [exprFaults, chainFaults_eq, List.append_eq_nil_iff] at h
    rw [Chain.parts_eq]
    refine faultless_operands ?_ h.2
    intro e he
    rcases List.mem_append.1 he with he | he
    · exact ihh e he
    · obtain ⟨l, hl, he⟩ := List.mem_flatMap.1 he
      exact ihl l hl e he
  | newObject p className args ih =>
    intro h
    rw [Expr.parts, List.forall_mem_cons]
    refine ⟨h, ?_⟩
    rw [exprFaults, exprsFaults_eq, List.append_eq_nil_iff] at h
    rw [exprParts_eq]
    exact faultless_operands ih h.2
  | newArray p element length ih =>
    intro h
    rw [Expr.parts, List.forall_mem_cons]
    refine ⟨h, ?_⟩
    rw [exprFaults, List.append_eq_nil_iff] at h
    exact ih h.2

theorem faultless_target {c : Chain} (h : chainFaults ctx arena c = []) :
    ∀ e ∈ c.operands, exprFaults ctx arena e = [] := by
  rw [chainFaults_eq, List.append_eq_nil_iff] at h
  exact List.flatMap_eq_nil_iff.1 h.2

end Faults

/-! ## Faultless steps -/

namespace Resolved

variable {r : Resolved}

theorem faultless_report {faults : List (Located Fault)} (h : (r.report faults).faults = #[]) :
    faults = [] := by
  have hlist : (r.faults ++ faults).toList = [] := congrArg Array.toList h
  rw [Array.toList_appendList, List.append_eq_nil_iff] at hlist
  exact hlist.2

/-- A declaration without a fault takes the next slot. -/
theorem faultless_declare {scope : ScopeId} {kind : LocalKind} {name : String} {ty : Ty}
    {p : Position} (h : (r.declare scope kind name ty p).faults = #[]) :
    r.nextSlot < slotLimit ∧ r.declare scope kind name ty p =
      { r with arena := r.arena.put scope name ⟨.variable ty, some r.nextSlot⟩
               nextSlot := r.nextSlot + 1 } := by
  unfold declare at h ⊢
  split
  · rename_i hclash
    rw [if_pos hclash] at h
    cases faultless_report h
  · rename_i hfree
    rw [if_neg hfree] at h
    unfold allocate at h ⊢
    by_cases hslot : r.nextSlot < slotLimit
    · simp only [hslot, if_true]
      exact ⟨trivial, trivial⟩
    · simp only [hslot, if_false] at h
      cases faultless_report h

/-- A report before a step does not matter if the step has no fault. -/
theorem faults_of_report {faults : List (Located Fault)} (h : (r.report faults).faults = #[]) :
    r.faults = #[] := by
  have hlist : (r.faults ++ faults).toList = [] := congrArg Array.toList h
  rw [Array.toList_appendList, List.append_eq_nil_iff] at hlist
  exact Array.toList_eq_nil_iff.1 hlist.1

/-- The declaration of a local variable without a fault. -/
theorem faultless_variable {ctx : Context} {v : Variable}
    (h : (r.variable_ ctx v).faults = #[]) :
    r.faults = #[] ∧ r.nextSlot < slotLimit ∧ (r.variable_ ctx v).nextSlot = r.nextSlot + 1 ∧
      (r.variable_ ctx v).arena =
        r.arena.put ctx.scope v.name ⟨.variable v.type, some r.nextSlot⟩ ∧
      ∀ e ∈ v.value, (r.expr ctx e).faults = #[] := by
  unfold variable_ at h ⊢
  cases hvalue : v.value with
  | none =>
    rw [hvalue] at h
    obtain ⟨hslot, hdeclare⟩ := faultless_declare h
    simp only at h ⊢
    rw [hdeclare] at h ⊢
    exact ⟨faults_of_report h, hslot, rfl, rfl, nofun⟩
  | some e =>
    rw [hvalue] at h
    obtain ⟨hslot, hdeclare⟩ := faultless_declare h
    simp only at h ⊢
    rw [hdeclare] at h ⊢
    refine ⟨faults_of_report (faults_of_report h), hslot, rfl, rfl, ?_⟩
    rintro _ ⟨⟩
    exact faults_of_report h

/-- The selector of a switch without a fault takes the next slot. -/
theorem faultless_selector {ctx : Context} {node : NodeId} {e : Expr}
    (h : (r.selector ctx node e).faults = #[]) :
    r.nextSlot < slotLimit ∧ r.selector ctx node e =
      { r.expr ctx e with arena := r.arena.reserve node r.nextSlot
                          nextSlot := r.nextSlot + 1 } := by
  unfold selector allocate at h ⊢
  have hsame : (r.expr ctx e).nextSlot = r.nextSlot := rfl
  rw [hsame] at h ⊢
  by_cases hslot : r.nextSlot < slotLimit
  · simp only [hslot, if_true]
    exact ⟨trivial, rfl⟩
  · simp only [hslot, if_false] at h
    cases faultless_report h

end Resolved

end Javelet.Scope
