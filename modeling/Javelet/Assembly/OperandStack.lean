/-!
# The depth of the operand stack

The depth while a method is written, and the greatest depth so far. Both are 16-bit numbers:
a push beyond the limit stays at it, a pop below the ground stays there.
-/
namespace Javelet.Assembly

/-- The greatest depth that can be recorded. -/
def depthLimit : Nat := 65535

/-- The present depth and the greatest one so far. -/
structure OperandStack where
  depth : Nat
  max : Nat
  deriving DecidableEq, Repr

namespace OperandStack

def empty : OperandStack := ⟨0, 0⟩

def push (s : OperandStack) (cells : Nat) : OperandStack :=
  let depth := min depthLimit (s.depth + cells)
  ⟨depth, Nat.max s.max depth⟩

def pop (s : OperandStack) (cells : Nat) : OperandStack := ⟨s.depth - cells, s.max⟩

end OperandStack

end Javelet.Assembly
