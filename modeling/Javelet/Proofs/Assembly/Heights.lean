import Javelet.Proofs.Assembly.Depth
import Javelet.Proofs.Assembly.HighWater
import Javelet.Proofs.Assembly.Layout

/-!
# Stack heights of a finished listing

An assignment of heights to the places of a program is consistent if the first place has height
zero, every instruction finds what it takes, and every place has the height that each of its
predecessors leaves. Effects are read off the texts of the instructions. Then the height on every
path to a place is the one assigned to it.

A finished listing of code whose jumps all land has such heights, and the size of the operand
stack that is written for it is the greatest of them, as far as it can be recorded.
-/
namespace Javelet.Assembly

/-- The places that may follow a place of a program. -/
inductive Follows (program : Segment) (p : Nat) : Nat → Prop
  | label {l : Label} : program[p]? = some (.label l) → Follows program p (p + 1)
  | next {i : Instruction} : program[p]? = some (.op i) → i.isGoto = false →
      i.isReturn = false → Follows program p (p + 1)
  | jump {i : Instruction} {l : Label} {q : Nat} : program[p]? = some (.op i) →
      i.target? = some l → position program l = some q → Follows program p q

/-- The cells that the item at a place takes and puts. A label does nothing. -/
def effectAt (program : Segment) (p : Nat) : Option (Nat × Nat) :=
  match program[p]? with
  | some (.op i) => readEffect i.text
  | some (.label _) => some (0, 0)
  | _ => none

/-- A consistent assignment of stack heights to the places of a program. -/
structure Heights (program : Segment) (height : Nat → Nat) : Prop where
  start : height 0 = 0
  effect : ∀ p < program.length, ∃ pops pushes, effectAt program p = some (pops, pushes) ∧
    pops ≤ height p ∧ ∀ q, Follows program p q → height q = height p - pops + pushes
  inside : ∀ p q, Follows program p q → q < program.length
  lands : ∀ (p : Nat) (i : Instruction) (l : Label), program[p]? = some (.op i) →
    i.target? = some l → ∃ q, position program l = some q

/-- The places and heights on the paths through a program. -/
inductive Path (program : Segment) : Nat → Nat → Prop
  | start : Path program 0 0
  | step {p q d pops pushes : Nat} : Path program p d → effectAt program p = some (pops, pushes) →
      Follows program p q → Path program q (d - pops + pushes)

theorem Follows.lt_length {program : Segment} {p q : Nat} (h : Follows program p q) :
    p < program.length := by
  cases h with
  | label hp => exact (List.getElem?_eq_some_iff.1 hp).1
  | next hp => exact (List.getElem?_eq_some_iff.1 hp).1
  | jump hp => exact (List.getElem?_eq_some_iff.1 hp).1

/-- On every path the height is the assigned one. -/
theorem Heights.height_eq {program : Segment} {height : Nat → Nat} (h : Heights program height)
    {p d : Nat} (hp : Path program p d) : d = height p := by
  induction hp with
  | start => exact h.start.symm
  | step _ heff hnext ih =>
    obtain ⟨pops, pushes, heff', -, hsucc⟩ := h.effect _ hnext.lt_length
    rw [heff] at heff'
    cases heff'
    rw [hsucc _ hnext, ih]

/-! ## The greatest depth -/

/-- The greatest depth before an instruction of code. -/
def peak (d : Nat) : Segment → Nat
  | [] => 0
  | .op i :: rest => max d (peak (i.after d) rest)
  | .label _ :: rest => peak d rest
  | .alternative :: rest => peak (d - 1) rest

/-- The greatest depth behind an instruction of code. -/
def high (d : Nat) : Segment → Nat
  | [] => 0
  | .op i :: rest => max (i.after d) (high (i.after d) rest)
  | .label _ :: rest => high d rest
  | .alternative :: rest => high (d - 1) rest

theorem le_peak {d p d' : Nat} {code : Segment} {i : Instruction}
    (hp : (written code)[p]? = some (.op i)) (hd : (depths d code)[p]? = some d') :
    d' ≤ peak d code := by
  induction code generalizing d p with
  | nil => cases hp
  | cons first rest ih =>
    cases first with
    | op i =>
      cases p with
      | zero =>
        cases hd
        exact Nat.le_max_left ..
      | succ p => exact Nat.le_trans (ih hp hd) (Nat.le_max_right ..)
    | label l =>
      cases p with
      | zero => cases hp
      | succ p => exact ih hp hd
    | alternative => exact ih hp hd

/-- The greatest depth is the depth before some instruction. -/
theorem exists_peak {d : Nat} {code : Segment} (h : 0 < peak d code) :
    ∃ (p : Nat) (i : Instruction), (written code)[p]? = some (.op i) ∧
      (depths d code)[p]? = some (peak d code) := by
  induction code generalizing d with
  | nil => cases h
  | cons first rest ih =>
    cases first with
    | op i =>
      by_cases hle : peak (i.after d) rest ≤ d
      · have hpeak : peak d (.op i :: rest) = d := Nat.max_eq_left hle
        exact ⟨0, i, rfl, by rw [hpeak]; rfl⟩
      · have hpeak : peak d (.op i :: rest) = peak (i.after d) rest :=
          Nat.max_eq_right (by omega)
        obtain ⟨p, i', hp, hd⟩ := ih (d := i.after d) (by omega)
        exact ⟨p + 1, i', hp, by rw [hpeak]; exact hd⟩
    | label l =>
      obtain ⟨p, i, hp, hd⟩ := ih h
      exact ⟨p + 1, i, hp, hd⟩
    | alternative => exact ih h

/-- A depth behind an instruction is the depth before the next one, if there is one: a cell is
only taken back behind a jump, which has the same depth before and behind it. -/
theorem high_le {jumped : Bool} {d : Nat} {code : Segment} (h : Balanced jumped d code) :
    high d code ≤ max (peak d code) (endDepth d code) ∧
      (jumped = false → d ≤ max (peak d code) (endDepth d code)) := by
  induction code generalizing jumped d with
  | nil => exact ⟨Nat.zero_le _, fun _ => Nat.le_max_right ..⟩
  | cons first rest ih =>
    cases first with
    | op i =>
      obtain ⟨hrest, hnext⟩ := ih h.2
      have hafter : i.after d ≤ max d (max (peak (i.after d) rest)
          (endDepth (i.after d) rest)) := by
        cases hg : i.isGoto with
        | true =>
          cases i <;> simp [Instruction.isGoto] at hg
          exact Nat.le_max_left ..
        | false => exact Nat.le_trans (hnext hg) (Nat.le_max_right ..)
      simp only [high, peak, endDepth]
      omega
    | label l =>
      obtain ⟨hrest, hnext⟩ := ih h
      exact ⟨hrest, fun _ => hnext rfl⟩
    | alternative =>
      obtain ⟨hrest, hnext⟩ := ih h.2.2
      refine ⟨hrest, ?_⟩
      intro hj
      cases h.1.symm.trans hj

theorem peak_le (d : Nat) (code : Segment) : peak d code ≤ max d (high d code) := by
  induction code generalizing d with
  | nil => exact Nat.zero_le _
  | cons first rest ih =>
    cases first with
    | op i =>
      have hrest := ih (i.after d)
      have heq : max (i.after d) (high (i.after d) rest) = high d (.op i :: rest) := rfl
      rw [heq] at hrest
      exact Nat.max_le.2 ⟨Nat.le_max_left .., Nat.le_trans hrest (Nat.le_max_right ..)⟩
    | label l => exact ih d
    | alternative =>
      have hrest := ih (d - 1)
      have heq : high d (.alternative :: rest) = high (d - 1) rest := rfl
      rw [heq]
      exact Nat.le_trans hrest (Nat.max_le.2
        ⟨Nat.le_trans (Nat.sub_le ..) (Nat.le_max_left ..), Nat.le_max_right ..⟩)

/-! ## What is recorded -/

/-- The recorded stack behind an item of code. -/
def counted (s : OperandStack) : Item Instruction → OperandStack
  | .op i => (s.pop i.pops).push i.pushes
  | .label _ => s
  | .alternative => s.pop 1

theorem stack_addAll (l : Listing Instruction) (code : Segment) :
    (l.addAll code).stack = code.foldl counted l.stack := by
  induction code generalizing l with
  | nil => rfl
  | cons item rest ih =>
    have hitem : (l.add item).stack = counted l.stack item := by
      cases item with
      | op i => rfl
      | label label =>
        obtain ⟨lines, waiting, stack⟩ := l
        cases waiting <;> rfl
      | alternative => rfl
    rw [List.foldl_cons, ← hitem]
    exact ih (l.add item)

namespace Records

variable {s : OperandStack} {d m : Nat}

theorem op (h : Records s d m) (i : Instruction) :
    Records (counted s (.op i)) (i.after d) (max m (i.after d)) :=
  (h.pop i.pops).push i.pushes

theorem alternative (h : Records s d m) : Records (counted s .alternative) (d - 1) m := h.pop 1

theorem code (h : Records s d m) (code : Segment) :
    Records (code.foldl counted s) (endDepth d code) (max m (high d code)) := by
  induction code generalizing s d m with
  | nil => simpa [endDepth, high] using h
  | cons item rest ih =>
    cases item with
    | op i =>
      have hrest := ih (h.op i)
      rw [Nat.max_assoc] at hrest
      exact hrest
    | label l => exact ih h
    | alternative => exact ih h.alternative

end Records

theorem max_foldl_counted {code : Segment} (hb : Balanced false 0 code) (he : endDepth 0 code = 0) :
    (code.foldl counted .empty).max = min depthLimit (peak 0 code) := by
  have hmark := (Records.empty.code code).mark
  have hhigh := (high_le hb).1
  have hpeak := peak_le 0 code
  rw [he] at hhigh
  rw [hmark]
  omega

/-! ## Finished listings -/

/-- The depth at a place, counted along the code. -/
def countedHeight (code : Segment) (p : Nat) : Nat := (depths 0 code)[p]?.getD 0

/-- Where the depth is zero between two parts of code, it is so at the place between them. -/
theorem countedHeight_size {front back : Segment} (h : Balanced false 0 (front ++ back))
    (he : endDepth 0 front = 0) : countedHeight (front ++ back) (size front) = 0 := by
  obtain ⟨jumped, hb⟩ := h.right
  rw [he] at hb
  have hzero := getElem?_depths_zero hb (.inr rfl)
  rw [countedHeight, depths_append, he,
    List.getElem?_append_right (Nat.le_of_eq (length_depths 0 front)), length_depths, Nat.sub_self]
  cases hd : depths 0 back with
  | nil => rfl
  | cons d rest =>
    rw [hd] at hzero
    simpa using hzero

/-- In code whose last item leaves the method, every place that is reached has an item. -/
theorem Follows.lt_length_of_concat {program front : Segment} {i : Instruction} {p q : Nat}
    (h : Follows program p q) (hlast : program = front ++ [Item.op i]) (hi : i.isReturn = true) :
    q < program.length := by
  have hlt := h.lt_length
  have hlength : program.length = front.length + 1 := by simp [hlast]
  have hend : program[front.length]? = some (.op i) := by simp [hlast]
  have hbefore : ∀ item, program[p]? = some item → item ≠ .op i → p + 1 < program.length := by
    intro item hp hne
    have hp' : p ≠ front.length := by
      rintro rfl
      rw [hend] at hp
      exact hne (Option.some.inj hp).symm
    omega
  cases h with
  | label hp => exact hbefore _ hp nofun
  | next hp _ hr =>
    refine hbefore _ hp ?_
    intro he
    cases he
    cases hi.symm.trans hr
  | jump _ _ hq => exact (List.getElem?_eq_some_iff.1 (getElem?_of_position hq)).1

section Written

variable {code : Segment} {p q d : Nat} {i : Instruction} {l : Label}

theorem countedHeight_eq (hd : (depths 0 code)[p]? = some d) : countedHeight code p = d := by
  rw [countedHeight, hd]
  rfl

theorem countedHeight_eq_of_lt (hp : p < (written code).length)
    (hd : (depths 0 code ++ [endDepth 0 code])[p]? = some d) : countedHeight code p = d := by
  have hlen : (depths 0 code).length = (written code).length := length_depths 0 code
  rw [List.getElem?_append_left (by omega)] at hd
  exact countedHeight_eq hd

/-- Every jump leads to a place of the depth that it brings along. -/
theorem Flow.position_target {exit : Nat} (h : Flow [] 0 code exit) (hn : (labelsOf code).Nodup)
    (hp : (written code)[p]? = some (.op i)) (hl : i.target? = some l) :
    ∃ q, position (written code) l = some q ∧
      countedHeight code q = i.after (countedHeight code p) := by
  obtain ⟨d, hd, -, hop⟩ := getElem?_depths h.balanced hp
  obtain ⟨-, hjump⟩ := hop i rfl
  rcases h.lands _ (hjump l hl) with hplaced | hexit
  · obtain ⟨-, q, hq, hdq⟩ := position_of_mem_placed hplaced hn
    exact ⟨q, hq, by rw [countedHeight_eq hdq, countedHeight_eq hd]⟩
  · cases hexit

theorem effectAt_op (h : ∀ i, .op i ∈ code → i.Legible)
    (hp : (written code)[p]? = some (.op i)) :
    effectAt (written code) p = some (i.pops, i.pushes) := by
  have hmem : .op i ∈ code := (List.mem_filter.1 (List.mem_of_getElem? hp)).1
  rw [effectAt, hp]
  exact readEffect_text (h i hmem)

/-- Code whose last item leaves the method has consistent heights. -/
theorem Flow.heights {front : Segment} {r : Instruction} (h : Flow [] 0 code 0)
    (hn : (labelsOf code).Nodup) (hlast : written code = front ++ [Item.op r])
    (hr : r.isReturn = true) : Heights (written code) (countedHeight code) where
  start := by
    have hpos : 0 < (written code).length := by simp [hlast]
    exact countedHeight_eq_of_lt hpos (getElem?_depths_zero h.balanced (.inl rfl))
  effect := by
    intro p hp
    have hget := List.getElem?_eq_getElem hp
    obtain ⟨d, hd, hfall, hop⟩ := getElem?_depths h.balanced hget
    have hheight := countedHeight_eq hd
    cases hitem : (written code)[p] with
    | op i =>
      rw [hitem] at hget hfall hop
      obtain ⟨hpops, -⟩ := hop i rfl
      refine ⟨i.pops, i.pushes, effectAt_op h.legible hget, by rw [hheight]; exact hpops, ?_⟩
      intro q hq
      have hlt := hq.lt_length_of_concat hlast hr
      rw [hheight]
      cases hq with
      | label hp' => cases hget.symm.trans hp'
      | next hp' hg hret =>
        cases hget.symm.trans hp'
        exact countedHeight_eq_of_lt hlt (hfall (by simp [Item.falls, hg, hret]))
      | jump hp' hl hpos =>
        cases hget.symm.trans hp'
        obtain ⟨q', hq', hdepth⟩ := h.position_target hn hget hl
        cases hpos.symm.trans hq'
        rw [hdepth, hheight]
        rfl
    | label l =>
      rw [hitem] at hget hfall
      refine ⟨0, 0, by rw [effectAt, hget], Nat.zero_le _, ?_⟩
      intro q hq
      have hlt := hq.lt_length_of_concat hlast hr
      cases hq with
      | label hp' =>
        rw [hheight]
        exact countedHeight_eq_of_lt hlt (hfall rfl)
      | next hp' => cases hget.symm.trans hp'
      | jump hp' => cases hget.symm.trans hp'
    | alternative =>
      rw [hitem] at hget
      have hwritten := (List.mem_filter.1 (List.mem_of_getElem? hget)).2
      cases hwritten
  inside := fun p q hq => hq.lt_length_of_concat hlast hr
  lands := by
    intro p i l hp hl
    obtain ⟨q, hq, -⟩ := h.position_target hn hp hl
    exact ⟨q, hq⟩

end Written

/-- `m` is the greatest height of an instruction. -/
structure Greatest (program : Segment) (height : Nat → Nat) (m : Nat) : Prop where
  le : ∀ (p : Nat) (i : Instruction), program[p]? = some (.op i) → height p ≤ m
  attained : ∃ (p : Nat) (i : Instruction), program[p]? = some (.op i) ∧ height p = m

theorem greatest_peak {code : Segment} {i : Instruction} (hb : Balanced false 0 code)
    (hi : .op i ∈ written code) :
    Greatest (written code) (countedHeight code) (peak 0 code) := by
  have hle : ∀ (p : Nat) (i : Instruction), (written code)[p]? = some (.op i) →
      countedHeight code p ≤ peak 0 code := by
    intro p i hp
    obtain ⟨d, hd, -⟩ := getElem?_depths hb hp
    rw [countedHeight_eq hd]
    exact le_peak hp hd
  refine ⟨hle, ?_⟩
  by_cases hpos : 0 < peak 0 code
  · obtain ⟨p, i, hp, hd⟩ := exists_peak hpos
    exact ⟨p, i, hp, countedHeight_eq hd⟩
  · obtain ⟨p, hp⟩ := List.mem_iff_getElem?.1 hi
    have hzero := hle p i hp
    exact ⟨p, i, hp, by omega⟩

/-- A finished listing of code whose jumps all land has consistent heights, and the size of its
operand stack is the greatest of them as far as it can be recorded. -/
theorem Flow.listing_heights {code : Segment} (h : Flow [] 0 code 0) (hn : (labelsOf code).Nodup) :
    ∃ tail height m, printed (listing code) = written (code ++ tail) ∧
      Heights (printed (listing code)) height ∧
      (∀ front back, code = front ++ back → endDepth 0 front = 0 → height (size front) = 0) ∧
      Greatest (printed (listing code)) height m ∧
      (listing code).stack.max = min depthLimit m := by
  obtain ⟨tail, htail, hlist, hwait, hreturn⟩ := listing_eq_addAll code
  have hprinted := printed_eq_written hlist hwait
  obtain ⟨front, r, hlast, hr⟩ := printed_eq_concat hreturn
  have hflow : Flow [] 0 (code ++ tail) 0 := by
    refine h.append ?_
    rcases htail with rfl | rfl
    · exact .nil
    · exact .op (Nat.zero_le _) trivial nofun
  have hlabels : (labelsOf (code ++ tail)).Nodup := by
    rcases htail with rfl | rfl <;> simpa using hn
  have hmem : .op r ∈ written (code ++ tail) := by
    rw [← hprinted, hlast]
    simp
  rw [hprinted] at hlast
  have hstack : (listing code).stack = (code ++ tail).foldl counted .empty := by
    rw [hlist, stack_addAll]
    rfl
  refine ⟨tail, countedHeight (code ++ tail), peak 0 (code ++ tail), hprinted, ?_, ?_, ?_, ?_⟩
  · rw [hprinted]
    exact hflow.heights hlabels hlast hr
  · rintro front back rfl he
    rw [List.append_assoc]
    exact countedHeight_size (by rw [← List.append_assoc]; exact hflow.balanced) he
  · rw [hprinted]
    exact greatest_peak hflow.balanced hmem
  · rw [hstack]
    exact max_foldl_counted hflow.balanced hflow.ends

end Javelet.Assembly
