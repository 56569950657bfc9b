import Javelet.Syntax.Declaration

/-!
# The numbers of nodes

The nodes of a tree that carry a number, in reading order, apart from the members of a class and
the default body of a switch. Numbers that are handed out by a counter are all different; the
counting form does not depend on the order in which they stand.
-/
namespace Javelet

/-- The numbers between two states of a counter, each of them once. -/
structure Numbered (first next : Nat) (numbers : List Nat) : Prop where
  le : first ≤ next
  count : ∀ n, numbers.count n = if first ≤ n ∧ n < next then 1 else 0

namespace Numbered

variable {first middle next n : Nat} {numbers rest : List Nat}

theorem nodup (h : Numbered first next numbers) : numbers.Nodup := by
  rw [List.nodup_iff_count]
  intro n
  have hcount := h.count n
  split at hcount <;> omega

/-- A counter that starts at zero hands out the numbers below its last state. -/
theorem perm_range (h : Numbered 0 next numbers) : numbers.Perm (List.range next) := by
  rw [List.perm_iff_count]
  intro n
  rw [h.count n, List.count_range]
  simp

theorem nil : Numbered first first [] := by
  refine ⟨Nat.le_refl _, fun n => ?_⟩
  rw [List.count_nil, if_neg]
  omega

theorem append (h : Numbered first middle numbers) (h' : Numbered middle next rest) :
    Numbered first next (numbers ++ rest) := by
  refine ⟨Nat.le_trans h.le h'.le, ?_⟩
  intro n
  have hc := h.count n
  have hc' := h'.count n
  have hle := h.le
  have hle' := h'.le
  rw [List.count_append]
  split at hc <;> split at hc' <;> split <;> omega

theorem cons (h : Numbered (first + 1) next numbers) : Numbered first next (first :: numbers) := by
  have hone : Numbered first (first + 1) [first] := by
    refine ⟨Nat.le_succ _, ?_⟩
    intro n
    rw [List.count_singleton]
    by_cases he : first = n
    · subst he
      simp
    · rw [if_neg (by simpa using he), if_neg (by omega)]
  exact hone.append h

/-- The same numbers in another order. -/
theorem perm (h : Numbered first next numbers) (hp : numbers.Perm rest) :
    Numbered first next rest :=
  ⟨h.le, fun n => hp.count_eq n ▸ h.count n⟩

end Numbered

mutual

/-- The numbers of the nodes in a statement. -/
def Statement.nodes : Statement → List NodeId
  | .block b => b.nodes
  | .conditional _ _ body otherwise => body.nodes ++ otherwiseNodes otherwise
  | .whileLoop _ _ body => body.nodes
  | .forLoop _ id _ _ _ body => id :: body.nodes
  | .switch _ id _ cases default_ => id :: (caseNodes cases ++ defaultNodes default_)
  | .jump _ _ => []
  | .action _ => []
  | .declaration _ => []

def otherwiseNodes : Option Statement → List NodeId
  | none => []
  | some s => s.nodes

def statementNodes : List Statement → List NodeId
  | [] => []
  | s :: rest => s.nodes ++ statementNodes rest

def Block.nodes : Block → List NodeId
  | .mk id _ body => id :: statementNodes body

def caseNodes : List Case → List NodeId
  | [] => []
  | .mk _ _ _ body :: rest => body.nodes ++ caseNodes rest

def defaultNodes : Option Block → List NodeId
  | none => []
  | some b => b.nodes

end

def Method.nodes (m : Method) : List NodeId := m.signature.id :: m.body.nodes

def ClassDecl.nodes (d : ClassDecl) : List NodeId :=
  d.id :: (d.constructors ++ d.methods ++ d.main.toList).flatMap Method.nodes

def InterfaceDecl.nodes (d : InterfaceDecl) : List NodeId := d.id :: d.methods.map Signature.id

def TypeDecl.nodes : TypeDecl → List NodeId
  | class_ d => d.nodes
  | interface d => d.nodes

def Program.nodes (p : Program) : List NodeId := p.declarations.flatMap TypeDecl.nodes

theorem Block.nodes_eq (b : Block) : b.nodes = b.id :: statementNodes b.statements := by
  cases b
  rw [Block.nodes]
  rfl

theorem Block.id_mem_nodes (b : Block) : b.id ∈ b.nodes := by
  rw [Block.nodes_eq]
  exact List.mem_cons_self ..

theorem caseNodes_append (cs cs' : List Case) :
    caseNodes (cs ++ cs') = caseNodes cs ++ caseNodes cs' := by
  induction cs with
  | nil => rfl
  | cons c cs ih =>
    cases c
    simp only [List.cons_append, caseNodes, ih, List.append_assoc]

end Javelet
