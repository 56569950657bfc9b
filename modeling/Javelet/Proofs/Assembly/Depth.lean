import Javelet.Proofs.Assembly.Effect
import Javelet.Proofs.Assembly.Layout

/-!
# The depth of the stack along code

The depth before each item of code is found by going through the code once and counting what
each instruction takes and puts. This is right at an item that is only reached by a jump if the
depth there is the one that the jump brings along. `Flow` says so of code: no instruction lacks
operands, corrections of the depth stand behind jumps only, and every jump brings the depth that
is counted at its label, or leads to one of the given exits with the depth of the exit.
-/
namespace Javelet.Assembly

/-- The depth behind an instruction. -/
def Instruction.after (i : Instruction) (d : Nat) : Nat := d - i.pops + i.pushes

@[simp] theorem Instruction.after_goto (l : Label) (d : Nat) : (goto l).after d = d := rfl

/-- Whether an instruction always jumps. -/
def Instruction.isGoto : Instruction → Bool
  | goto _ => true
  | _ => false

/-- The depth before each item of code as it is written. -/
def depths (d : Nat) : Segment → List Nat
  | [] => []
  | .op i :: rest => d :: depths (i.after d) rest
  | .label _ :: rest => d :: depths d rest
  | .alternative :: rest => depths (d - 1) rest

/-- The depth behind code. -/
def endDepth (d : Nat) : Segment → Nat
  | [] => d
  | .op i :: rest => endDepth (i.after d) rest
  | .label _ :: rest => endDepth d rest
  | .alternative :: rest => endDepth (d - 1) rest

/-- The labels in code, each with the depth at it. -/
def placed (d : Nat) : Segment → List (Label × Nat)
  | [] => []
  | .op i :: rest => placed (i.after d) rest
  | .label l :: rest => (l, d) :: placed d rest
  | .alternative :: rest => placed (d - 1) rest

/-- The targets of the jumps in code, each with the depth that the jump brings along. -/
def jumps (d : Nat) : Segment → List (Label × Nat)
  | [] => []
  | .op i :: rest => i.target?.toList.map (·, i.after d) ++ jumps (i.after d) rest
  | .label _ :: rest => jumps d rest
  | .alternative :: rest => jumps (d - 1) rest

/-- Every instruction finds its operands, and a cell is only taken back right behind a jump that
has left it to its target. `jumped` says whether such a jump comes before the code. -/
def Balanced (jumped : Bool) (d : Nat) : Segment → Prop
  | [] => True
  | .op i :: rest => i.pops ≤ d ∧ Balanced i.isGoto (i.after d) rest
  | .label _ :: rest => Balanced false d rest
  | .alternative :: rest => jumped = true ∧ 1 ≤ d ∧ Balanced false (d - 1) rest

section Append

variable (d : Nat) (code rest : Segment)

@[simp] theorem endDepth_append :
    endDepth d (code ++ rest) = endDepth (endDepth d code) rest := by
  induction code generalizing d with
  | nil => rfl
  | cons item code ih => cases item <;> exact ih _

@[simp] theorem depths_append :
    depths d (code ++ rest) = depths d code ++ depths (endDepth d code) rest := by
  induction code generalizing d with
  | nil => rfl
  | cons item code ih =>
    cases item with
    | op i => exact congrArg (d :: ·) (ih _)
    | label l => exact congrArg (d :: ·) (ih _)
    | alternative => exact ih _

@[simp] theorem placed_append :
    placed d (code ++ rest) = placed d code ++ placed (endDepth d code) rest := by
  induction code generalizing d with
  | nil => rfl
  | cons item code ih =>
    cases item with
    | op i => exact ih _
    | label l => exact congrArg ((l, d) :: ·) (ih _)
    | alternative => exact ih _

@[simp] theorem jumps_append :
    jumps d (code ++ rest) = jumps d code ++ jumps (endDepth d code) rest := by
  induction code generalizing d with
  | nil => rfl
  | cons item code ih =>
    cases item with
    | op i => simp only [List.cons_append, jumps, ih, endDepth, List.append_assoc]
    | label l => exact ih _
    | alternative => exact ih _

theorem length_depths : (depths d code).length = size code := by
  induction code generalizing d with
  | nil => rfl
  | cons item code ih =>
    cases item with
    | op i => simp [depths, ih]
    | label l => simp [depths, ih]
    | alternative => simp [depths, ih]

end Append

theorem Balanced.of_false {jumped : Bool} {d : Nat} {code : Segment}
    (h : Balanced false d code) : Balanced jumped d code := by
  cases code with
  | nil => trivial
  | cons item rest =>
    cases item with
    | op i => exact h
    | label l => exact h
    | alternative => exact absurd h.1 nofun

theorem Balanced.append {jumped : Bool} {d : Nat} {code rest : Segment}
    (h : Balanced jumped d code) (h' : Balanced false (endDepth d code) rest) :
    Balanced jumped d (code ++ rest) := by
  induction code generalizing jumped d with
  | nil => exact h'.of_false
  | cons item code ih =>
    cases item with
    | op i => exact ⟨h.1, ih h.2 h'⟩
    | label l => exact ih h h'
    | alternative => exact ⟨h.1, h.2.1, ih h.2.2 h'⟩

theorem Balanced.right {jumped : Bool} {d : Nat} {code rest : Segment}
    (h : Balanced jumped d (code ++ rest)) : ∃ jumped', Balanced jumped' (endDepth d code) rest := by
  induction code generalizing jumped d with
  | nil => exact ⟨jumped, h⟩
  | cons item code ih =>
    cases item with
    | op i => exact ih h.2
    | label l => exact ih h
    | alternative => exact ih h.2.2

/-- Code that takes the stack from one depth to another. -/
structure Flow (exits : List (Label × Nat)) (d : Nat) (code : Segment) (d' : Nat) : Prop where
  balanced : Balanced false d code
  ends : endDepth d code = d'
  lands : ∀ j ∈ jumps d code, j ∈ placed d code ∨ j ∈ exits
  legible : ∀ i, .op i ∈ code → i.Legible

namespace Flow

variable {exits exits' : List (Label × Nat)} {d d' d'' : Nat} {code rest : Segment}

theorem nil : Flow exits d [] d :=
  ⟨trivial, rfl, nofun, nofun⟩

theorem append (h : Flow exits d code d') (h' : Flow exits d' rest d'') :
    Flow exits d (code ++ rest) d'' := by
  obtain ⟨hb, rfl, hl, hi⟩ := h
  refine ⟨hb.append h'.balanced, by rw [endDepth_append, h'.ends], ?_, ?_⟩
  · intro j hj
    rw [jumps_append, List.mem_append] at hj
    rw [placed_append, List.mem_append]
    rcases hj with hj | hj
    · rcases hl j hj with hp | he
      · exact .inl (.inl hp)
      · exact .inr he
    · rcases h'.lands j hj with hp | he
      · exact .inl (.inr hp)
      · exact .inr he
  · intro i hm
    rcases List.mem_append.1 hm with hm | hm
    · exact hi i hm
    · exact h'.legible i hm

/-- More exits do no harm. -/
theorem mono (h : Flow exits d code d') (hsub : ∀ j ∈ exits, j ∈ exits') :
    Flow exits' d code d' :=
  ⟨h.balanced, h.ends, fun j hj => (h.lands j hj).imp_right (hsub j), h.legible⟩

/-- Code without jumps to the outside. -/
theorem closed (h : Flow [] d code d') : Flow exits d code d' := h.mono nofun

/-- Exits that stand in the code itself are none. -/
theorem close (h : Flow exits' d code d') (hin : ∀ j ∈ exits', j ∈ placed d code ∨ j ∈ exits) :
    Flow exits d code d' := by
  refine ⟨h.balanced, h.ends, ?_, h.legible⟩
  intro j hj
  rcases h.lands j hj with hp | he
  · exact .inl hp
  · exact hin j he

theorem label (l : Label) : Flow exits d [.label l] d :=
  ⟨trivial, rfl, nofun, by simp⟩

theorem op {i : Instruction} (hp : i.pops ≤ d) (hi : i.Legible)
    (ht : ∀ l, i.target? = some l → (l, i.after d) ∈ exits) : Flow exits d [.op i] (i.after d) := by
  refine ⟨⟨hp, trivial⟩, rfl, ?_, by simpa using hi⟩
  intro j hj
  simp only [jumps, List.append_nil, List.mem_map, Option.mem_toList] at hj
  obtain ⟨l, hl, rfl⟩ := hj
  exact .inr (ht l hl)

end Flow

/-! ## Places -/

/-- The depth behind an item of code. -/
def Item.after : Item Instruction → Nat → Nat
  | op i, d => i.after d
  | label _, d => d
  | alternative, d => d - 1

/-- Whether the place behind an item is reached from it. -/
def Item.falls : Item Instruction → Bool
  | op i => !i.isGoto && !i.isReturn
  | label _ => true
  | alternative => true

/-- The depth before code is the depth at its first place, unless a cell is taken back there. -/
theorem getElem?_depths_zero {jumped : Bool} {d : Nat} {code : Segment}
    (h : Balanced jumped d code) (hd : jumped = false ∨ d = 0) :
    (depths d code ++ [endDepth d code])[0]? = some d := by
  cases code with
  | nil => rfl
  | cons item rest =>
    cases item with
    | op i => rfl
    | label l => rfl
    | alternative =>
      obtain ⟨hj, hpos, -⟩ := h
      rcases hd with hd | hd
      · cases hj.symm.trans hd
      · omega

/-- Each item of code as it is written has a depth, which its successors continue. -/
theorem getElem?_depths {jumped : Bool} {d p : Nat} {code : Segment} {item : Item Instruction}
    (h : Balanced jumped d code) (hp : (written code)[p]? = some item) :
    ∃ d', (depths d code)[p]? = some d' ∧
      (item.falls = true → (depths d code ++ [endDepth d code])[p + 1]? = some (item.after d')) ∧
      ∀ i, item = .op i → i.pops ≤ d' ∧
        ∀ l, i.target? = some l → (l, i.after d') ∈ jumps d code := by
  induction code generalizing jumped d p with
  | nil => cases hp
  | cons first rest ih =>
    cases first with
    | op i =>
      cases p with
      | zero =>
        cases hp
        refine ⟨d, rfl, ?_, ?_⟩
        · intro hf
          have hg : i.isGoto = false := by
            simp only [Item.falls, Bool.and_eq_true, Bool.not_eq_true'] at hf
            exact hf.1
          have hrest := h.2
          rw [hg] at hrest
          exact getElem?_depths_zero hrest (.inl rfl)
        · intro i' hi'
          cases hi'
          refine ⟨h.1, ?_⟩
          intro l hl
          simp [jumps, hl]
      | succ p =>
        obtain ⟨d', hd, hnext, hop⟩ := ih h.2 hp
        refine ⟨d', hd, hnext, ?_⟩
        intro i' hi'
        obtain ⟨hpops, hjump⟩ := hop i' hi'
        refine ⟨hpops, fun l hl => ?_⟩
        rw [jumps, List.mem_append]
        exact .inr (hjump l hl)
    | label l =>
      cases p with
      | zero =>
        cases hp
        exact ⟨d, rfl, fun _ => getElem?_depths_zero h (.inl rfl), nofun⟩
      | succ p => exact ih h hp
    | alternative => exact ih h.2.2 hp

/-- A label in code names a place of the depth at it. -/
theorem position_of_mem_placed {d d' : Nat} {code : Segment} {l : Label}
    (h : (l, d') ∈ placed d code) (hn : (labelsOf code).Nodup) :
    l ∈ labelsOf code ∧
      ∃ q, position (written code) l = some q ∧ (depths d code)[q]? = some d' := by
  induction code generalizing d with
  | nil => cases h
  | cons first rest ih =>
    cases first with
    | op i =>
      obtain ⟨hl, q, hq, hd⟩ := ih h hn
      exact ⟨hl, q + 1, by simpa [position, List.findIdx?_cons] using hq, hd⟩
    | label l' =>
      rw [labelsOf_label, List.nodup_cons] at hn
      rw [labelsOf_label, List.mem_cons]
      rcases List.mem_cons.1 h with heq | h
      · cases heq
        exact ⟨.inl rfl, 0, by simp [position, List.findIdx?_cons], rfl⟩
      · obtain ⟨hl, q, hq, hd⟩ := ih h hn.2
        have hne : l' ≠ l := by
          rintro rfl
          exact hn.1 hl
        refine ⟨.inr hl, q + 1, ?_, hd⟩
        simpa [position, List.findIdx?_cons, hne] using hq
    | alternative => exact ih h hn

end Javelet.Assembly
