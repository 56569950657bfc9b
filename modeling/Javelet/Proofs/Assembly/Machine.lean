import Javelet.Proofs.Assembly.Layout

/-!
# Running code

A machine for the instructions that work on integers: a stack and numbered slots of 32-bit
words, and a place in a program. The empty reference is the word zero. Instructions on objects,
on arrays and on the print stream are not followed; a run that meets one of them stops there.

Code is run inside a window of its program. A run ends when it leaves the window: behind its
last item, by a jump to a label outside of it, by a return, or by the trap of a division by
zero.
-/
namespace Javelet.Assembly

/-- What the slots hold. -/
abbrev Slots := Nat → Int32

/-- The slots after a store. -/
def Slots.set (slots : Slots) (slot : Nat) (x : Int32) : Slots :=
  fun i => if i = slot then x else slots i

@[simp] theorem Slots.set_self (slots : Slots) (slot : Nat) (x : Int32) :
    slots.set slot x slot = x := by
  simp [set]

/-- The operand stack, top first, and the slots. -/
structure Memory where
  stack : List Int32
  slots : Slots

/-- The result of an operation; dividing by zero has none. The quotient is rounded toward zero
and everything wraps around. -/
def operate : Arithmetic → Int32 → Int32 → Option Int32
  | .add, x, y => some (x + y)
  | .sub, x, y => some (x - y)
  | .mul, x, y => some (x * y)
  | .div, x, y => if y = 0 then none else some (x / y)
  | .rem, x, y => if y = 0 then none else some (x % y)

/-- Whether a relation holds. -/
def related : Relation → Int32 → Int32 → Bool
  | .less, x, y => decide (x < y)
  | .greater, x, y => decide (y < x)
  | .lessEqual, x, y => decide (x ≤ y)
  | .greaterEqual, x, y => decide (y ≤ x)
  | .equal, x, y => decide (x = y)
  | .notEqual, x, y => decide (x ≠ y)

/-- What an instruction does. -/
inductive Effect where
  | next (m : Memory)
  | jump (target : Label) (m : Memory)
  | returned (value : Option Int32)
  | trapped

/-- The effect of an instruction, if it is one that the machine follows and finds its operands. -/
def Instruction.effect : Instruction → Memory → Option Effect
  | pushInt x, ⟨s, slots⟩ => some (.next ⟨x :: s, slots⟩)
  | pushNull, ⟨s, slots⟩ => some (.next ⟨0 :: s, slots⟩)
  | load _ i, ⟨s, slots⟩ => some (.next ⟨slots i :: s, slots⟩)
  | store _ i, ⟨x :: s, slots⟩ => some (.next ⟨s, slots.set i x⟩)
  | arithmetic op, ⟨y :: x :: s, slots⟩ =>
    match operate op x y with
    | some z => some (.next ⟨z :: s, slots⟩)
    | none => some .trapped
  | jumpInts r l, ⟨y :: x :: s, slots⟩ =>
    some (if related r x y then .jump l ⟨s, slots⟩ else .next ⟨s, slots⟩)
  | jumpZero l, ⟨x :: s, slots⟩ =>
    some (if x = 0 then .jump l ⟨s, slots⟩ else .next ⟨s, slots⟩)
  | jumpNonzero l, ⟨x :: s, slots⟩ =>
    some (if x = 0 then .next ⟨s, slots⟩ else .jump l ⟨s, slots⟩)
  | goto l, m => some (.jump l m)
  | pop, ⟨_ :: s, slots⟩ => some (.next ⟨s, slots⟩)
  | dup, ⟨x :: s, slots⟩ => some (.next ⟨x :: x :: s, slots⟩)
  | returnVoid, _ => some (.returned none)
  | returnInt, ⟨x :: _, _⟩ => some (.returned (some x))
  | _, _ => none

/-- How a run leaves a window, with what it leaves behind. -/
inductive Exit where
  /-- Behind the last item. -/
  | fell (m : Memory)
  /-- By a jump to a label outside. -/
  | jumped (target : Label) (m : Memory)
  | returned (value : Option Int32) (slots : Slots)
  | trapped (slots : Slots)

/-- A run is at a place of the program, or it has left the window. -/
inductive Config where
  | at (pc : Nat) (m : Memory)
  | left (exit : Exit)

/-- The places from `lo` up to `hi` of a program. -/
structure Window where
  program : Segment
  lo : Nat
  hi : Nat

namespace Window

/-- Whether a place is one of the window. -/
def Inside (w : Window) (pc : Nat) : Prop := w.lo ≤ pc ∧ pc < w.hi

instance (w : Window) (pc : Nat) : Decidable (w.Inside pc) :=
  inferInstanceAs (Decidable (_ ∧ _))

/-- Where a jump leads. -/
def target (w : Window) (l : Label) (m : Memory) : Config :=
  match position w.program l with
  | some q => if w.Inside q then .at q m else .left (.jumped l m)
  | none => .left (.jumped l m)

/-- Where an instruction leads. -/
def follow (w : Window) (pc : Nat) (m : Memory) : Effect → Config
  | .next m' => .at (pc + 1) m'
  | .jump l m' => w.target l m'
  | .returned value => .left (.returned value m.slots)
  | .trapped => .left (.trapped m.slots)

/-- One step of a run: over a label, or by an instruction. -/
def step (w : Window) : Config → Option Config
  | .left _ => none
  | .at pc m =>
    if pc = w.hi then some (.left (.fell m))
    else if w.Inside pc then
      match w.program[pc]? with
      | some (.op i) => (i.effect m).map (w.follow pc m)
      | some (.label _) => some (.at (pc + 1) m)
      | _ => none
    else none

/-- A run of the given number of steps. -/
inductive Steps (w : Window) : Nat → Config → Config → Prop
  | refl {c : Config} : Steps w 0 c c
  | head {n : Nat} {c c' c'' : Config} :
      w.step c = some c' → Steps w n c' c'' → Steps w (n + 1) c c''

/-- A run of any length. -/
def Reaches (w : Window) (c c' : Config) : Prop := ∃ n, w.Steps n c c'

variable {w : Window} {c c' c'' : Config} {n n' : Nat}

theorem Steps.trans (h : w.Steps n c c') (h' : w.Steps n' c' c'') : w.Steps (n + n') c c'' := by
  induction h with
  | refl => simpa using h'
  | head hs _ ih =>
    rw [Nat.add_right_comm]
    exact .head hs (ih h')

/-- Steps are determined, so a run that ends passes through whatever is reached from its start. -/
theorem Steps.rest {exit : Exit} (h : w.Steps n c c') (h' : w.Steps n' c (.left exit)) :
    ∃ k, n' = n + k ∧ w.Steps k c' (.left exit) := by
  induction h generalizing n' with
  | refl => exact ⟨n', by simp, h'⟩
  | head hs _ ih =>
    cases h' with
    | refl => cases hs
    | head hs' hrest =>
      obtain rfl := Option.some.inj (hs.symm.trans hs')
      obtain ⟨k, rfl, hk⟩ := ih hrest
      exact ⟨k, by omega, hk⟩

theorem Steps.exit_unique {exit exit' : Exit} (h : w.Steps n c (.left exit))
    (h' : w.Steps n' c (.left exit')) : exit = exit' := by
  obtain ⟨k, -, hk⟩ := h.rest h'
  cases hk with
  | refl => rfl
  | head hs _ => cases hs

theorem Reaches.refl : w.Reaches c c := ⟨0, .refl⟩

theorem Reaches.trans (h : w.Reaches c c') (h' : w.Reaches c' c'') : w.Reaches c c'' := by
  obtain ⟨n, h⟩ := h
  obtain ⟨n', h'⟩ := h'
  exact ⟨n + n', h.trans h'⟩

theorem Reaches.single (h : w.step c = some c') : w.Reaches c c' := ⟨1, .head h .refl⟩

theorem Reaches.exit_unique {exit exit' : Exit} (h : w.Reaches c (.left exit))
    (h' : w.Reaches c (.left exit')) : exit = exit' := by
  obtain ⟨_, h⟩ := h
  obtain ⟨_, h'⟩ := h'
  exact h.exit_unique h'

/-! ## Code in a window -/

/-- A segment stands in the program of a window, and inside of it. -/
structure Holds (w : Window) (pos : Nat) (code : Segment) : Prop where
  stands : Stands w.program pos code
  lo_le : w.lo ≤ pos
  le_hi : pos + size code ≤ w.hi

variable {pos : Nat} {code : Segment} {i : Instruction} {l : Label} {m : Memory}

theorem Holds.part (h : w.Holds pos code) (front middle back : Segment)
    (he : code = front ++ middle ++ back) : w.Holds (pos + size front) middle := by
  refine ⟨h.stands.part front middle back he, ?_, ?_⟩
  · have := h.lo_le
    omega
  · have := h.le_hi
    rw [he, size_append, size_append] at this
    omega

theorem Holds.left {rest : Segment} (h : w.Holds pos (code ++ rest)) : w.Holds pos code :=
  h.part [] code rest rfl

theorem Holds.right {rest : Segment} (h : w.Holds pos (code ++ rest)) :
    w.Holds (pos + size code) rest :=
  h.part code rest [] (by simp)

theorem Holds.behind_op (h : w.Holds pos (.op i :: code)) : w.Holds (pos + 1) code :=
  h.part [.op i] code [] (by simp)

theorem Holds.behind_label (h : w.Holds pos (.label l :: code)) : w.Holds (pos + 1) code :=
  h.part [.label l] code [] (by simp)

theorem Holds.behind_alternative (h : w.Holds pos (.alternative :: code)) : w.Holds pos code :=
  h.part [.alternative] code [] (by simp)

theorem Holds.step_op (h : w.Holds pos (.op i :: code)) {effect : Effect}
    (he : i.effect m = some effect) : w.Reaches (.at pos m) (w.follow pos m effect) := by
  apply Reaches.single
  have hlo := h.lo_le
  have hhi := h.le_hi
  rw [size_op] at hhi
  have hin : w.Inside pos := ⟨hlo, by omega⟩
  have hne : pos ≠ w.hi := by omega
  simp [step, hne, hin, h.stands.get_op, he]

theorem Holds.step_next {m' : Memory} (h : w.Holds pos (.op i :: code))
    (he : i.effect m = some (.next m')) : w.Reaches (.at pos m) (.at (pos + 1) m') :=
  h.step_op he

theorem Holds.step_jump {m' : Memory} (h : w.Holds pos (.op i :: code))
    (he : i.effect m = some (.jump l m')) : w.Reaches (.at pos m) (w.target l m') :=
  h.step_op he

theorem Holds.step_return {value : Option Int32} (h : w.Holds pos (.op i :: code))
    (he : i.effect m = some (.returned value)) :
    w.Reaches (.at pos m) (.left (.returned value m.slots)) :=
  h.step_op he

theorem Holds.step_trap (h : w.Holds pos (.op i :: code)) (he : i.effect m = some .trapped) :
    w.Reaches (.at pos m) (.left (.trapped m.slots)) :=
  h.step_op he

theorem Holds.step_label (h : w.Holds pos (.label l :: code)) :
    w.Reaches (.at pos m) (.at (pos + 1) m) := by
  apply Reaches.single
  have hlo := h.lo_le
  have hhi := h.le_hi
  rw [size_label] at hhi
  have hin : w.Inside pos := ⟨hlo, by omega⟩
  have hne : pos ≠ w.hi := by omega
  simp [step, hne, hin, h.stands.get_label]

/-- A jump to a label in the window leads to its place, and from there over it. -/
theorem Holds.target_label (h : w.Holds pos (.label l :: code)) :
    w.target l m = .at pos m := by
  have hlo := h.lo_le
  have hhi := h.le_hi
  rw [size_label] at hhi
  have hin : w.Inside pos := ⟨hlo, by omega⟩
  simp [target, h.stands.position_label, hin]

theorem Holds.target_reaches (h : w.Holds pos (.label l :: code)) :
    w.Reaches (w.target l m) (.at (pos + 1) m) := by
  rw [h.target_label]
  exact h.step_label

theorem reaches_fell (m : Memory) : w.Reaches (.at w.hi m) (.left (.fell m)) :=
  .single (by simp [step])

/-- The window of a segment that stands between others. -/
def around (before code after : Segment) : Window :=
  ⟨written (before ++ code ++ after), size before, size before + size code⟩

theorem holds_around {before : Segment} (hn : (labelsOf code).Nodup)
    (hl : ∀ l ∈ labelsOf code, l ∉ labelsOf before) (after : Segment) :
    (around before code after).Holds (size before) code :=
  ⟨.intro_between before after hn hl, Nat.le_refl _, Nat.le_refl _⟩

/-- In the window of a segment, jumps to labels that it does not place leave it. -/
theorem target_around {before after : Segment}
    (h : (around before code after).Holds (size before) code) (hl : l ∉ labelsOf code) :
    (around before code after).target l m = .left (.jumped l m) := by
  unfold target
  split
  · rename_i q hq
    rw [if_neg]
    rintro ⟨hlo, hhi⟩
    exact hl (h.stands.mem_labelsOf_of_position hq hlo hhi)
  · rfl

end Window

end Javelet.Assembly
