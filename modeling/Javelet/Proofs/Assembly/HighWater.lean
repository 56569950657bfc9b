import Mathlib.Algebra.Order.Ring.Int
import Mathlib.Data.List.DropRight
import Mathlib.Data.Nat.Cast.Order.Ring
import Mathlib.Order.Bounds.Basic
import Javelet.Assembly.OperandStack

/-!
# The high-water mark of an operand stack

An operand stack counts its cells in sixteen bits. Beside it stands the depth in unbounded integers.
Once a push goes beyond the limit, the recorded depth stays too small, because the cells that were cut
off are never given back. But then the mark is the limit, and it stays there. So the mark is the
greatest depth since the last reset, as far as that can be recorded, if no pop takes more cells than
there are.
-/
namespace Javelet.Assembly

/-- What is recorded at the depth `d` when the greatest depth so far is `m`. Once the limit is
passed the recorded depth may be too small, but then the recorded mark is the limit. -/
structure Records (s : OperandStack) (d m : Nat) : Prop where
  mark : s.max = min depthLimit m
  depth_le : s.depth ≤ d
  depth_eq : m ≤ depthLimit → s.depth = d
  le_mark : d ≤ m

namespace Records

variable {s : OperandStack} {d m : Nat}

theorem empty : Records .empty 0 0 :=
  ⟨rfl, Nat.le_refl _, fun _ => rfl, Nat.le_refl _⟩

theorem push (h : Records s d m) (n : Nat) : Records (s.push n) (d + n) (max m (d + n)) := by
  obtain ⟨hmark, hle, heq, hm⟩ := h
  have hdepth : (s.push n).depth = min depthLimit (s.depth + n) := rfl
  have hmax : (s.push n).max = max s.max (min depthLimit (s.depth + n)) := rfl
  constructor <;> omega

theorem pop (h : Records s d m) (n : Nat) : Records (s.pop n) (d - n) m := by
  obtain ⟨hmark, hle, heq, hm⟩ := h
  have hdepth : (s.pop n).depth = s.depth - n := rfl
  have hmax : (s.pop n).max = s.max := rfl
  constructor <;> omega

end Records

namespace OperandStack

/-! ## Moves -/

/-- What an operand stack is told. -/
inductive Move where
  | push (cells : Nat)
  | pop (cells : Nat)
  | reset
  deriving DecidableEq

/-- The stack behind a move. -/
def move (s : OperandStack) : Move → OperandStack
  | .push n => s.push n
  | .pop n => s.pop n
  | .reset => .empty

/-- The stack behind moves, empty before the first one. -/
def afterMoves (moves : List Move) : OperandStack := moves.foldl move .empty

/-- The moves since the last reset. -/
def sinceReset (moves : List Move) : List Move := moves.rtakeWhile (· ≠ .reset)

/-- The cells that a move puts on the stack, less those that it takes. -/
def Move.change : Move → ℤ
  | push n => n
  | pop n => -n
  | reset => 0

/-- The depth behind moves, in unbounded integers. -/
def exactDepth (moves : List Move) : ℤ := (moves.map Move.change).sum

/-- The depths along moves, in unbounded integers, with the one before the first move. -/
def exactDepths (moves : List Move) : Set ℤ :=
  {depth | ∃ front, front <+: moves ∧ exactDepth front = depth}

/-- No pop takes more cells than there are. -/
def Covered (moves : List Move) : Prop :=
  ∀ front, ∀ n : Nat, front ++ [.pop n] <+: moves → n ≤ exactDepth front

variable {moves : List Move}

theorem afterMoves_concat (moves : List Move) (last : Move) :
    afterMoves (moves ++ [last]) = (afterMoves moves).move last :=
  List.foldl_concat ..

theorem exactDepth_concat (moves : List Move) (last : Move) :
    exactDepth (moves ++ [last]) = exactDepth moves + last.change := by
  simp [exactDepth]

theorem exactDepths_nil : exactDepths [] = {0} := by
  ext depth
  simp [exactDepths, exactDepth, eq_comm]

theorem exactDepths_concat (moves : List Move) (last : Move) :
    exactDepths (moves ++ [last]) =
      insert (exactDepth moves + last.change) (exactDepths moves) := by
  ext depth
  simp only [exactDepths, Set.mem_ofPred_eq, List.prefix_concat_iff, Set.mem_insert_iff, or_and_right,
    exists_or, exists_eq_left, exactDepth_concat, eq_comm]

theorem covered_nil : Covered [] := by
  intro front n hfront
  simp at hfront

theorem covered_concat {last : Move} : Covered (moves ++ [last]) ↔
    Covered moves ∧ ∀ n : Nat, last = .pop n → n ≤ exactDepth moves := by
  constructor
  · refine fun h => ⟨fun front n hfront => h front n ?_, ?_⟩
    · exact hfront.trans (List.prefix_append moves [last])
    · rintro n rfl
      exact h moves n (List.prefix_refl _)
  · rintro ⟨h, hlast⟩ front n hfront
    rcases List.prefix_concat_iff.1 hfront with heq | hfront
    · obtain ⟨rfl, hpop⟩ := List.append_inj' heq rfl
      exact hlast n (List.head_eq_of_cons_eq hpop).symm
    · exact h front n hfront

/-! ## What is recorded -/

/-- What is recorded behind moves without a reset. -/
theorem records_moves (h : Covered moves) (hreset : .reset ∉ moves) :
    ∃ d m : Nat, exactDepth moves = d ∧ IsGreatest (exactDepths moves) m ∧
      Records (afterMoves moves) d m := by
  induction moves using List.reverseRecOn with
  | nil => exact ⟨0, 0, rfl, by simp [exactDepths_nil], .empty⟩
  | append_singleton moves last ih =>
    obtain ⟨hmoves, hlast⟩ := covered_concat.1 h
    rw [List.mem_append, not_or] at hreset
    obtain ⟨d, m, hd, hm, hrecords⟩ := ih hmoves hreset.1
    rw [exactDepth_concat, exactDepths_concat, afterMoves_concat, hd]
    cases last with
    | push n =>
      refine ⟨d + n, _, (Nat.cast_add d n).symm, ?_, hrecords.push n⟩
      rw [max_comm, Nat.cast_max, Nat.cast_add]
      exact hm.insert _
    | pop n =>
      have hn : (n : ℤ) ≤ d := hd ▸ hlast n rfl
      have hle := hrecords.le_mark
      refine ⟨d - n, m, ?_, ?_, hrecords.pop n⟩
      · simp only [Move.change]
        omega
      · -- the depth falls, so the greatest one stays
        have hfall : (d : ℤ) + (Move.pop n).change ≤ m := by
          simp only [Move.change]
          omega
        have hgreatest := hm.insert ((d : ℤ) + (Move.pop n).change)
        rwa [max_eq_right hfall] at hgreatest
    | reset => exact absurd (List.mem_singleton_self _) hreset.2

/-- What was before a reset does not count. -/
theorem afterMoves_sinceReset (moves : List Move) :
    afterMoves (sinceReset moves) = afterMoves moves := by
  induction moves using List.reverseRecOn with
  | nil => rfl
  | append_singleton moves last ih =>
    by_cases hlast : last = .reset
    · rw [sinceReset, List.rtakeWhile_concat_neg _ _ _ (by simpa using hlast), afterMoves_concat,
        hlast]
      rfl
    · rw [sinceReset, List.rtakeWhile_concat_pos _ _ _ (by simpa using hlast), afterMoves_concat,
        afterMoves_concat, ← ih]
      rfl

theorem reset_not_mem_sinceReset (moves : List Move) : .reset ∉ sinceReset moves :=
  fun hmem => by simpa using List.mem_rtakeWhile_imp hmem

/-- If no pop since the last reset takes more cells than there are, the mark is the greatest depth
since then, as far as it can be recorded. The recorded depth is never too great, and it is right as
long as the limit has not been passed. -/
theorem mark_eq_greatest (moves : List Move) (h : Covered (sinceReset moves)) :
    (∃ peak, IsGreatest (exactDepths (sinceReset moves)) peak ∧
        ((afterMoves moves).max : ℤ) = min (depthLimit : ℤ) peak) ∧
      ((afterMoves moves).depth : ℤ) ≤ exactDepth (sinceReset moves) ∧
      ((∀ depth ∈ exactDepths (sinceReset moves), depth ≤ (depthLimit : ℤ)) →
        ((afterMoves moves).depth : ℤ) = exactDepth (sinceReset moves)) := by
  obtain ⟨d, m, hd, hm, hrecords⟩ := records_moves h (reset_not_mem_sinceReset moves)
  rw [afterMoves_sinceReset] at hrecords
  rw [hd]
  refine ⟨⟨m, hm, ?_⟩, Int.ofNat_le.2 hrecords.depth_le, fun hlimit => ?_⟩
  · rw [hrecords.mark, Nat.cast_min]
  · exact congrArg Int.ofNat (hrecords.depth_eq (Int.ofNat_le.1 (hlimit m hm.1)))

/-- Moves that go beyond the limit, behind a reset. -/
def beyondLimit : List Move := [.push 3, .reset, .push 65535, .push 10, .pop 20, .push 4]

theorem beyondLimit_mark : Covered (sinceReset beyondLimit) ∧
    afterMoves beyondLimit = ⟨65519, 65535⟩ ∧ exactDepth (sinceReset beyondLimit) = 65529 ∧
      (∃ peak, IsGreatest (exactDepths (sinceReset beyondLimit)) peak ∧
        (65535 : ℤ) = min (depthLimit : ℤ) peak) ∧ (65519 : ℤ) ≤ 65529 := by
  have hpush : ∀ {moves n}, Covered moves → Covered (moves ++ [.push n]) :=
    fun h => covered_concat.2 ⟨h, nofun⟩
  have hpushes : Covered [.push 65535, .push 10] := hpush (hpush covered_nil)
  have hpop : Covered [.push 65535, .push 10, .pop 20] := by
    refine covered_concat.2 ⟨hpushes, fun n hn => ?_⟩
    cases hn
    decide
  have hcovered : Covered (sinceReset beyondLimit) := hpush hpop
  obtain ⟨hmark, hdepth, -⟩ := mark_eq_greatest beyondLimit hcovered
  exact ⟨hcovered, rfl, rfl, hmark, hdepth⟩

end OperandStack

end Javelet.Assembly
