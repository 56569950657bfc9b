import Javelet.Proofs.Execution.Machine
import Javelet.Proofs.Lowering.Labels

/-!
# Code that reads

Much code only reads: wherever it stands, it pushes words that depend on the slots and the heap, or
gives up for a reason that depends on them, and changes nothing. Such code can be run twice, or its
words can be copied instead.
-/
namespace Javelet.Assembly.Stands

variable {program code rest : Segment} {pos : Nat} {i : Instruction} {l : Label}

theorem left (h : Stands program pos (code ++ rest)) : Stands program pos code :=
  h.part [] code rest rfl

theorem right (h : Stands program pos (code ++ rest)) :
    Stands program (pos + size code) rest :=
  h.part code rest [] (by simp)

theorem behind_op (h : Stands program pos (.op i :: code)) : Stands program (pos + 1) code :=
  h.part [.op i] code [] (by simp)

theorem behind_label (h : Stands program pos (.label l :: code)) : Stands program (pos + 1) code :=
  h.part [.label l] code [] (by simp)

theorem behind_alternative (h : Stands program pos (.alternative :: code)) :
    Stands program pos code :=
  h.part [.alternative] code [] (by simp)

end Javelet.Assembly.Stands

namespace Javelet.Execution

open Assembly Lowering

variable {World : Type} {p : Platform World} {program code rest : Segment} {pos : Nat}
  {s : State World} {i : Instruction} {l : Label}

/-- Two configurations with the same ends. -/
def SameEnds (p : Platform World) (program : Segment) (c c' : Config World) : Prop :=
  ∀ exit, Ends p program c exit ↔ Ends p program c' exit

namespace SameEnds

variable {c c' c'' : Config World}

theorem refl (c : Config World) : SameEnds p program c c := fun _ => Iff.rfl

theorem trans (h : SameEnds p program c c') (h' : SameEnds p program c' c'') :
    SameEnds p program c c'' :=
  fun exit => (h exit).trans (h' exit)

theorem step {pc : Nat} (h : p.step program pc s = some c) : SameEnds p program (.at pc s) c :=
  fun _ => ends_step h

/-- At an instruction, a run goes where the effect leads. -/
theorem op {effect : Effect World} (h : Stands program pos (.op i :: code))
    (hi : p.perform i s = effect) (he : follow program pos effect = some c) :
    SameEnds p program (.at pos s) c :=
  .step (by rw [Platform.step, h.get_op]; simpa only [hi] using he)

theorem jump {s' : State World} {q : Nat} (h : Stands program pos (.op i :: code))
    (hi : p.perform i s = .jump l s') (hl : position program l = some q) :
    SameEnds p program (.at pos s) (.at q s') :=
  op h hi (by rw [follow, hl])

theorem label (h : Stands program pos (.label l :: code)) :
    SameEnds p program (.at pos s) (.at (pos + 1) s) :=
  .step (by rw [Platform.step, h.get_label])

end SameEnds

/-! ## Readings -/

/-- What is calculated from the slots and the heap. -/
abbrev Reading (World α : Type) := (Nat → Word) → Heap World → Except Trap α

/-- Behind some code that has pushed the words of a reading, or has given up. -/
def behind (pc : Nat) (s : State World) : Except Trap (List Word) → Config World
  | .ok ws => .at pc (s.pushAll ws)
  | .error t => .left (.trapped t s.heap)

theorem follow_give (pc : Nat) (s : State World) (result : Except Trap Word) :
    follow program pc (.give s result) =
      some (behind (pc + 1) s (result >>= fun w => .ok [w])) := by
  cases result <;> rfl

/-- Two calculations with the same first part, where the rest leads to the same ends. -/
theorem SameEnds.bind {α : Type} {s' : State World} {pc pc' : Nat} {result : Except Trap α}
    {f g : α → Except Trap (List Word)} (hheap : s'.heap = s.heap)
    (h : ∀ a, SameEnds p program (behind pc s' (f a)) (behind pc' s (g a))) :
    SameEnds p program (behind pc s' (result >>= f)) (behind pc' s (result >>= g)) := by
  cases result with
  | error t =>
    show SameEnds p program (.left (.trapped t s'.heap)) (.left (.trapped t s.heap))
    rw [hheap]
    exact .refl _
  | ok a => exact h a

/-- The code pushes what it reads, wherever it stands, and changes nothing. -/
def Reads (p : Platform World) (code : Segment) (r : Reading World (List Word)) : Prop :=
  ∀ program pos, Stands program pos code → ∀ s : State World,
    SameEnds p program (.at pos s) (behind (pos + size code) s (r s.slots s.heap))

/-- The reading of one word. -/
def Reading.one (w : Reading World Word) : Reading World (List Word) :=
  fun slots heap => (w slots heap) >>= fun x => .ok [x]

theorem Reading.one_bind {α : Type} (w : Reading World α) (f : α → Reading World Word) :
    Reading.one (fun slots heap => (w slots heap) >>= fun x => f x slots heap) =
      fun slots heap => (w slots heap) >>= fun x => (f x).one slots heap := by
  funext slots heap
  exact bind_assoc ..

namespace Reads

variable {r q : Reading World (List Word)} {w v : Reading World Word} {code' : Segment}

theorem nil : Reads p [] fun _ _ => .ok [] := fun _ _ _ _ => .refl _

theorem append (h : Reads p code r) (h' : Reads p rest q) :
    Reads p (code ++ rest) fun slots heap => do
      let ws ← r slots heap
      let vs ← q slots heap
      return vs ++ ws := by
  intro program pos hstands s
  have hcode := h program pos hstands.left s
  rw [← bind_pure (r s.slots s.heap)] at hcode
  rw [size_append, ← Nat.add_assoc]
  refine hcode.trans (.bind rfl fun ws => ?_)
  have hrest := h' program _ hstands.right (s.pushAll ws)
  rw [← bind_pure (q _ _)] at hrest
  refine hrest.trans (.bind rfl fun vs => ?_)
  show SameEnds p program (.at _ ((s.pushAll ws).pushAll vs)) (.at _ (s.pushAll (vs ++ ws)))
  rw [State.pushAll_pushAll]
  exact .refl _

/-- An instruction that reads nothing from the operand stack. -/
theorem push (h : ∀ s : State World, p.perform i s = .give s (w s.slots s.heap)) :
    Reads p (ops [i]) w.one :=
  fun _ _ hstands s => .op hstands (h s) (follow_give ..)

/-- Code behind a word that works on it. -/
theorem followed {g : Word → Reading World (List Word)} (h : Reads p code w.one)
    (hrest : ∀ program pos, Stands program pos rest → ∀ (s : State World) x,
      SameEnds p program (.at pos (s.push x)) (behind (pos + size rest) s (g x s.slots s.heap))) :
    Reads p (code ++ rest) fun slots heap => (w slots heap) >>= fun x => g x slots heap := by
  intro program pos hstands s
  rw [size_append, ← Nat.add_assoc]
  exact (h program pos hstands.left s).trans
    (.bind rfl fun x => hrest program _ hstands.right s x)

/-- Code behind two words that works on both. -/
theorem followed₂ {g : Word → Word → Reading World (List Word)} (h : Reads p code w.one)
    (h' : Reads p code' v.one)
    (hrest : ∀ program pos, Stands program pos rest → ∀ (s : State World) x y,
      SameEnds p program (.at pos ((s.push x).push y))
        (behind (pos + size rest) s (g x y s.slots s.heap))) :
    Reads p (code ++ code' ++ rest) fun slots heap =>
      (w slots heap) >>= fun x => (v slots heap) >>= fun y => g x y slots heap := by
  rw [List.append_assoc]
  refine h.followed fun program pos hstands s x => ?_
  rw [size_append, ← Nat.add_assoc]
  exact (h' program pos hstands.left (s.push x)).trans
    (.bind rfl fun y => hrest program _ hstands.right s x y)

end Reads

/-! ## Branches -/

/-- Behind a test: at the one place if it holds, at the other one if not. -/
def aside (yes no : Nat) (s : State World) : Except Trap Bool → Config World
  | .ok true => .at yes s
  | .ok false => .at no s
  | .error t => .left (.trapped t s.heap)

theorem SameEnds.branch {s' : State World} {test : Except Trap Bool} {yes : Nat}
    (h : Stands program pos (.op i :: code)) (hi : p.perform i s' = .branch s l test)
    (hl : position program l = some yes) :
    SameEnds p program (.at pos s') (aside yes (pos + 1) s test) := by
  rcases test with t | _ | _
  · exact .op h hi rfl
  · exact .op h hi rfl
  · exact .jump h hi hl

section Choice

variable {b : Bool} {other finish : Label}

/-- Entered at its start, a choice leaves its first value. -/
theorem choice_first (h : Stands program pos (choice b other finish)) :
    SameEnds p program (.at pos s) (.at (pos + 5) (s.push (.truth b))) := by
  have hgoto := h.behind_op
  have hend := hgoto.behind_op.behind_alternative.behind_label.behind_op
  exact .trans (.op h rfl rfl) (.trans (.jump hgoto rfl hend.position_label) (.label hend))

/-- Entered at its label, a choice leaves the other value. -/
theorem choice_other (h : Stands program pos (choice b other finish)) :
    position program other = some (pos + 2) ∧
      SameEnds p program (.at (pos + 2) s) (.at (pos + 5) (s.push (.truth !b))) := by
  have hother := h.behind_op.behind_op.behind_alternative
  have hpush := hother.behind_label
  exact ⟨hother.position_label,
    .trans (.label hother) (.trans (.op hpush rfl rfl) (.label hpush.behind_op))⟩

/-- A test before a choice: if it holds, the choice is entered at its label. -/
theorem branch_choice {s' : State World} {test : Except Trap Bool}
    (h : Stands program pos (.op i :: choice b other finish))
    (hi : p.perform i s' = .branch s other test) :
    SameEnds p program (.at pos s') (behind (pos + 6) s
      ((test >>= fun taken => .ok (.truth (taken != b))) >>= fun w => .ok [w])) := by
  obtain ⟨hother, hleave⟩ := choice_other (p := p) (s := s) h.behind_op
  refine (SameEnds.branch h hi hother).trans ?_
  rcases test with t | _ | _
  · exact .refl _
  · have hfirst := choice_first (p := p) (s := s) h.behind_op
    rw [← Bool.false_bne b] at hfirst
    exact hfirst
  · rw [← Bool.true_bne b] at hleave
    exact hleave

end Choice

end Javelet.Execution
