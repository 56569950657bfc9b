import Javelet.Assembly.Instruction
import Javelet.Assembly.OperandStack

/-!
# Listings

Code is a list of items: instructions, labels for the next instruction, and corrections of
the depth of the operand stack where two pushes are alternatives. A listing is code as it is
written, line by line: a label waits for the instruction it stands before, and stands alone
if another label comes first. A finished listing ends with an instruction that leaves the
method.
-/
namespace Javelet.Assembly

/-- What a listing has to know of the instructions in it. -/
class Writable (α : Type) where
  text : α → String
  pops : α → Nat
  pushes : α → Nat
  isReturn : α → Bool
  /-- The instruction that leaves a method without a value. -/
  plainReturn : α

instance : Writable Instruction :=
  ⟨Instruction.text, Instruction.pops, Instruction.pushes, Instruction.isReturn, .returnVoid⟩

/-- An element of code. -/
inductive Item (α : Type) where
  | op (instruction : α)
  | label (label : Label)
  /-- The last pushed cell is an alternative to the next one. -/
  | alternative
  deriving DecidableEq

/-- The same code in other instructions. -/
def Item.map {α β : Type} (f : α → β) : Item α → Item β
  | op i => op (f i)
  | label l => label l
  | alternative => alternative

/-- A segment of code as it is produced. -/
abbrev Segment := List (Item Instruction)

/-- A line of a listing: an instruction, perhaps with a label, or a label alone. -/
inductive Line (α : Type) where
  | op (label : Option Label) (instruction : α)
  | label (label : Label)
  deriving DecidableEq

def Line.text {α : Type} [Writable α] : Line α → String
  | op none i => Writable.text i
  | op (some l) i => labelText l ++ ":\t" ++ Writable.text i
  | label l => labelText l ++ ":"

/-- Code as it is written: its lines, a label that waits for an instruction, and the operand
stack behind the last line. -/
structure Listing (α : Type) where
  lines : Array (Line α)
  waiting : Option Label
  stack : OperandStack

namespace Listing

variable {α : Type} [Writable α]

def empty : Listing α := ⟨#[], none, .empty⟩

/-- Write an instruction. -/
def write (l : Listing α) (i : α) : Listing α :=
  ⟨l.lines.push (.op l.waiting i), none,
    (l.stack.pop (Writable.pops i)).push (Writable.pushes i)⟩

/-- Put a label before the next instruction. -/
def place (l : Listing α) (label : Label) : Listing α :=
  match l.waiting with
  | none => { l with waiting := some label }
  | some earlier => { l with lines := l.lines.push (.label earlier), waiting := some label }

/-- Add an element of code. -/
def add (l : Listing α) : Item α → Listing α
  | .op i => l.write i
  | .label label => l.place label
  | .alternative => { l with stack := l.stack.pop 1 }

/-- Add code. -/
def addAll (l : Listing α) (code : List (Item α)) : Listing α := code.foldl add l

theorem addAll_append (l : Listing α) (first second : List (Item α)) :
    l.addAll (first ++ second) = (l.addAll first).addAll second :=
  List.foldl_append

/-- Whether the last line leaves the method. -/
def endsWithReturn (l : Listing α) : Bool :=
  match l.lines.back? with
  | some (.op _ i) => Writable.isReturn i
  | _ => false

/-- Close a listing: leave the method at its end, and where a label waits. -/
def finish (l : Listing α) : Listing α :=
  if l.waiting.isSome || !l.endsWithReturn then l.write Writable.plainReturn else l

/-- The text of a method with this listing as its body. -/
def methodLines (l : Listing α) (header : String) (locals : Nat) : List String :=
  let done := l.finish
  header :: (".code stack " ++ done.stack.max.repr ++ " locals " ++ locals.repr) ::
    done.lines.toList.map Line.text ++ [".end code", ".end method"]

end Listing

/-- The finished listing of code. -/
def listing (code : Segment) : Listing Instruction := (Listing.empty.addAll code).finish

end Javelet.Assembly
