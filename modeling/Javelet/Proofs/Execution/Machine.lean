import Javelet.Proofs.Assembly.Machine

/-!
# Running code on objects

A machine for all instructions. A cell of the stack and a slot hold an integer or a reference, and a
heap holds the fields of the objects and the elements of the arrays. What a call does, and a
creation, is not told by the code at hand: it is taken from a platform, may change the heap as it
likes, and need not come back.

A run starts at any place of a program in any state. It ends behind the last item, by a return, or
by a trap. Steps are determined, so two places of two programs have the same outcome in a state if
they have the same ends.
-/
namespace Javelet.Execution

open Assembly

/-- What a cell or a slot holds. -/
inductive Word where
  | int (value : Int32)
  | null
  | reference (address : Nat)
  deriving DecidableEq

/-- Why a run is given up. -/
inductive Trap where
  | division
  | null
  | bounds
  /-- An array does not take an element of this class. -/
  | element
  | thrown (exception : Nat)
  /-- An operand is missing or of the wrong kind. -/
  | mismatch
  deriving DecidableEq

/-- Booleans are held as zero and one. -/
def Word.truth (b : Bool) : Word := .int (if b then 1 else 0)

/-- The integer in a word. -/
def Word.value : Word → Except Trap Int32
  | int x => .ok x
  | _ => .error .mismatch

/-- The address in a word. -/
def Word.address : Word → Except Trap Nat
  | int _ => .error .mismatch
  | null => .error .null
  | reference a => .ok a

/-- A word as an array or a field keeps it: a character has 16 bits and a boolean one. -/
def Word.narrow (element : Element) : Word → Word
  | int x =>
    match element with
    | .char => int (x &&& 0xFFFF)
    | .boolean => int (x &&& 1)
    | _ => int x
  | w => w

/-- The objects and the arrays by their addresses, and everything else: their classes, what is
printed, what is still to be read. -/
structure Heap (World : Type) where
  field : Nat → String → String → Ty → Word
  array : Nat → List Word
  world : World

namespace Heap

variable {World : Type} (h : Heap World)

/-- The heap with another word in a field. -/
def setField (a : Nat) (owner name : String) (type : Ty) (w : Word) : Heap World :=
  { h with field := fun a' owner' name' type' =>
      if a' = a ∧ owner' = owner ∧ name' = name ∧ type' = type then w
      else h.field a' owner' name' type' }

/-- The heap with another element in an array. -/
def setElement (a i : Nat) (w : Word) : Heap World :=
  { h with array := fun a' => if a' = a then (h.array a).set i w else h.array a' }

def readField (owner name : String) (type : Ty) (object : Word) : Except Trap Word := do
  let a ← object.address
  return h.field a owner name type

def writeField (owner name : String) (type : Ty) (object w : Word) : Except Trap (Heap World) := do
  let a ← object.address
  return h.setField a owner name type (w.narrow (.ofTy type))

def readLength (array : Word) : Except Trap Word := do
  let a ← array.address
  return .int (Int32.ofNat (h.array a).length)

/-- The address of an array and the place of an element in it. -/
def locate (array index : Word) : Except Trap (Nat × Nat) := do
  let a ← array.address
  let i ← index.value
  if 0 ≤ i.toInt ∧ i.toInt < (h.array a).length then return (a, i.toInt.toNat)
  else throw .bounds

def readElement (array index : Word) : Except Trap Word := do
  let element ← h.locate array index
  return (h.array element.1).getD element.2 .null

/-- An array of references asks whether it takes the new element. -/
def writeElement (admits : Nat → Word → Bool) (element : Element) (array index w : Word) :
    Except Trap (Heap World) := do
  let place ← h.locate array index
  if element = .reference ∧ !admits place.1 w then throw .element
  return h.setElement place.1 place.2 (w.narrow element)

end Heap

/-- What the code relies on outside of itself. -/
structure Platform (World : Type) where
  /-- The object of a text constant. -/
  text : String → Word
  /-- Whether the array at an address takes a reference as an element. -/
  admits : Heap World → Nat → Word → Bool
  /-- What a call, a creation or the access to the print stream makes of its operands, top first,
  and of the heap, if it comes back: what it pushes, or why it is given up. -/
  call : Instruction → List Word → Heap World → Option (Except Trap (List Word) × Heap World)

/-- The operand stack, top first, the slots, and the heap. -/
structure State (World : Type) where
  stack : List Word
  slots : Nat → Word
  heap : Heap World

/-- How a run ends, with what it leaves behind. -/
inductive Exit (World : Type) where
  /-- Behind the last item. -/
  | fell (s : State World)
  /-- By a jump to a label that is not placed. -/
  | jumped (target : Label) (s : State World)
  | returned (value : Option Word) (heap : Heap World)
  | trapped (trap : Trap) (heap : Heap World)

/-- What an instruction does. -/
inductive Effect (World : Type) where
  | next (s : State World)
  | jump (target : Label) (s : State World)
  | leave (exit : Exit World)
  /-- A call that does not come back. -/
  | lost

variable {World : Type}

namespace State

def push (s : State World) (w : Word) : State World := { s with stack := w :: s.stack }

/-- The state with more words on the stack. -/
def pushAll (s : State World) (ws : List Word) : State World := { s with stack := ws ++ s.stack }

theorem pushAll_pushAll (s : State World) (ws vs : List Word) :
    (s.pushAll ws).pushAll vs = s.pushAll (vs ++ ws) := by
  simp [pushAll]

end State

namespace Effect

/-- Push a word that is calculated, or give up. -/
def give (s : State World) : Except Trap Word → Effect World
  | .ok w => next (s.push w)
  | .error t => leave (.trapped t s.heap)

/-- Push words, or give up. -/
def settle (s : State World) : Except Trap (List Word) → Effect World
  | .ok ws => next (s.pushAll ws)
  | .error t => leave (.trapped t s.heap)

/-- Go on with another heap, or give up. -/
def commit (s : State World) : Except Trap (Heap World) → Effect World
  | .ok heap => next { s with heap := heap }
  | .error t => leave (.trapped t s.heap)

/-- Jump if a test holds. -/
def branch (s : State World) (target : Label) : Except Trap Bool → Effect World
  | .ok true => jump target s
  | .ok false => next s
  | .error t => leave (.trapped t s.heap)

/-- Come back from a call, or not. -/
def return_ (s : State World) : Option (Except Trap (List Word) × Heap World) → Effect World
  | some (result, heap) => settle { s with heap := heap } result
  | none => lost

end Effect

/-! ## Instructions -/

/-- An operation on two words; dividing by zero has no result. -/
def combine (op : Arithmetic) (w v : Word) : Except Trap Word := do
  let x ← w.value
  let y ← v.value
  match operate op x y with
  | some z => return .int z
  | none => throw .division

/-- A comparison of two integers. -/
def compare (r : Relation) (w v : Word) : Except Trap Bool := do
  let x ← w.value
  let y ← v.value
  return related r x y

/-- Whether a condition has this value. -/
def holds (expected : Bool) (w : Word) : Except Trap Bool := do
  let x ← w.value
  return (x != 0) == expected

/-- What an instruction does that the platform tells. -/
def Platform.act (p : Platform World) (i : Instruction) (s : State World) : Effect World :=
  if i.pops ≤ s.stack.length then
    .return_ { s with stack := s.stack.drop i.pops } (p.call i (s.stack.take i.pops) s.heap)
  else .leave (.trapped .mismatch s.heap)

/-- What an instruction does in a state. -/
def Platform.perform (p : Platform World) : Instruction → State World → Effect World
  | .pushInt x, s => .next (s.push (.int x))
  | .pushString t, s => .next (s.push (p.text t))
  | .pushNull, s => .next (s.push .null)
  | .load _ i, s => .next (s.push (s.slots i))
  | .store _ i, ⟨w :: st, slots, heap⟩ => .next ⟨st, fun j => if j = i then w else slots j, heap⟩
  | .arithmetic op, ⟨v :: w :: st, slots, heap⟩ =>
    .give ⟨st, slots, heap⟩ (combine op w v)
  | .jumpInts r l, ⟨v :: w :: st, slots, heap⟩ => .branch ⟨st, slots, heap⟩ l (compare r w v)
  | .jumpReferences same l, ⟨v :: w :: st, slots, heap⟩ =>
    .branch ⟨st, slots, heap⟩ l (.ok (decide (w = v) == same))
  | .jumpZero l, ⟨w :: st, slots, heap⟩ => .branch ⟨st, slots, heap⟩ l (holds false w)
  | .jumpNonzero l, ⟨w :: st, slots, heap⟩ => .branch ⟨st, slots, heap⟩ l (holds true w)
  | .goto l, s => .jump l s
  | .pop, ⟨_ :: st, slots, heap⟩ => .next ⟨st, slots, heap⟩
  | .dup, ⟨w :: st, slots, heap⟩ => .next ⟨w :: w :: st, slots, heap⟩
  | .dup2, ⟨v :: w :: st, slots, heap⟩ => .next ⟨v :: w :: v :: w :: st, slots, heap⟩
  | .arrayLength, ⟨w :: st, slots, heap⟩ =>
    .give ⟨st, slots, heap⟩ (heap.readLength w)
  | .arrayLoad _, ⟨v :: w :: st, slots, heap⟩ =>
    .give ⟨st, slots, heap⟩ (heap.readElement w v)
  | .arrayStore e, ⟨x :: v :: w :: st, slots, heap⟩ =>
    .commit ⟨st, slots, heap⟩ (heap.writeElement (p.admits heap) e w v x)
  | .getField owner name type, ⟨w :: st, slots, heap⟩ =>
    .give ⟨st, slots, heap⟩ (heap.readField owner name type w)
  | .putField owner name type, ⟨x :: w :: st, slots, heap⟩ =>
    .commit ⟨st, slots, heap⟩ (heap.writeField owner name type w x)
  | .returnVoid, s => .leave (.returned none s.heap)
  | .returnInt, ⟨w :: _, _, heap⟩ => .leave (.returned (some w) heap)
  | .returnReference, ⟨w :: _, _, heap⟩ => .leave (.returned (some w) heap)
  | .new className, s => p.act (.new className) s
  | .newArray element className, s => p.act (.newArray element className) s
  | .getPrintStream, s => p.act .getPrintStream s
  | .print line value, s => p.act (.print line value) s
  | .invokeConstructor owner params, s => p.act (.invokeConstructor owner params) s
  | .invokeVirtual owner name params returns, s =>
    p.act (.invokeVirtual owner name params returns) s
  | .invokeInterface owner name params returns, s =>
    p.act (.invokeInterface owner name params returns) s
  | _, s => .leave (.trapped .mismatch s.heap)

/-! ## Runs -/

/-- A run is at a place of the program, or it has ended. -/
inductive Config (World : Type) where
  | at (pc : Nat) (s : State World)
  | left (exit : Exit World)

/-- Where an effect leads; nowhere if a call does not come back. -/
def follow (program : Segment) (pc : Nat) : Effect World → Option (Config World)
  | .next s => some (.at (pc + 1) s)
  | .jump l s =>
    match position program l with
    | some q => some (.at q s)
    | none => some (.left (.jumped l s))
  | .leave exit => some (.left exit)
  | .lost => none

variable (p : Platform World) (program : Segment)

/-- One step of a run: over a label, or by an instruction. -/
def Platform.step (pc : Nat) (s : State World) : Option (Config World) :=
  match program[pc]? with
  | some (.op i) => follow program pc (p.perform i s)
  | some _ => some (.at (pc + 1) s)
  | none => some (.left (.fell s))

/-- A run comes to an end. -/
inductive Ends : Config World → Exit World → Prop
  | left {exit : Exit World} : Ends (.left exit) exit
  | step {pc : Nat} {s : State World} {c : Config World} {exit : Exit World} :
      p.step program pc s = some c → Ends c exit → Ends (.at pc s) exit

variable {p program}

@[simp] theorem ends_left {exit exit' : Exit World} :
    Ends p program (.left exit) exit' ↔ exit' = exit := by
  constructor
  · intro h
    cases h
    rfl
  · rintro rfl
    exact .left

theorem ends_step {pc : Nat} {s : State World} {c : Config World} {exit : Exit World}
    (h : p.step program pc s = some c) :
    Ends p program (.at pc s) exit ↔ Ends p program c exit := by
  constructor
  · intro hend
    cases hend with
    | step hstep hrest =>
      cases h.symm.trans hstep
      exact hrest
  · exact .step h

end Javelet.Execution
