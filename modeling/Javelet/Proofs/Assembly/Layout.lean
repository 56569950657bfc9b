import Javelet.Assembly.Listing

/-!
# Places in code

A program is a list of instructions and labels. A label stands for the place right before the
item behind it, and a jump goes to the first place that carries its label. `Stands` says that a
segment is a part of a program, starting at a place, such that its own labels are found inside
of it. `readings` collects what single instructions tell, such as the slots that they use.

A listing puts a label in front of the instruction behind it, or on a line of its own if another
label comes first. Read line by line it is the code that was added to it, without the corrections
of the depth, and perhaps with a return at its end.
-/
namespace Javelet.Assembly

/-- The label that an item places. -/
def Item.label? {α : Type} : Item α → Option Label
  | op _ => none
  | label l => some l
  | alternative => none

/-- Whether an item is part of the written program. Corrections of the depth are not. -/
def Item.isWritten {α : Type} : Item α → Bool
  | op _ => true
  | label _ => true
  | alternative => false

/-- The labels that are placed in code, in order. -/
def labelsOf (code : Segment) : List Label := code.filterMap Item.label?

/-- The instruction that an item is. -/
def Item.op? {α : Type} : Item α → Option α
  | op i => some i
  | label _ => none
  | alternative => none

/-- What is read off the instructions of code, in order. -/
def readings {α : Type} (read : Instruction → Option α) (code : Segment) : List α :=
  code.filterMap fun item => item.op?.bind read

/-- Code as it is written. -/
def written (code : Segment) : Segment := code.filter Item.isWritten

/-- The number of items of code as it is written. -/
def size (code : Segment) : Nat := (written code).length

section Simp

variable (i : Instruction) (l : Label) (is : List Instruction) (code rest : Segment)

@[simp] theorem labelsOf_nil : labelsOf [] = [] := rfl

@[simp] theorem labelsOf_op : labelsOf (.op i :: code) = labelsOf code := rfl

@[simp] theorem labelsOf_label : labelsOf (.label l :: code) = l :: labelsOf code := rfl

@[simp] theorem labelsOf_alternative : labelsOf (.alternative :: code) = labelsOf code := rfl

@[simp] theorem labelsOf_append : labelsOf (code ++ rest) = labelsOf code ++ labelsOf rest :=
  List.filterMap_append

variable {α : Type} (read : Instruction → Option α)

@[simp] theorem readings_nil : readings read [] = [] := rfl

@[simp] theorem readings_op :
    readings read (.op i :: code) = (read i).toList ++ readings read code := by
  have hitem : (Item.op i).op?.bind read = read i := rfl
  rw [readings, List.filterMap_cons, hitem]
  cases read i <;> rfl

@[simp] theorem readings_label : readings read (.label l :: code) = readings read code := rfl

@[simp] theorem readings_alternative : readings read (.alternative :: code) = readings read code :=
  rfl

@[simp] theorem readings_append :
    readings read (code ++ rest) = readings read code ++ readings read rest :=
  List.filterMap_append

@[simp] theorem written_nil : written [] = [] := rfl

@[simp] theorem written_op : written (.op i :: code) = .op i :: written code := rfl

@[simp] theorem written_label : written (.label l :: code) = .label l :: written code := rfl

@[simp] theorem written_alternative : written (.alternative :: code) = written code := rfl

@[simp] theorem written_append : written (code ++ rest) = written code ++ written rest :=
  List.filter_append ..

@[simp] theorem size_nil : size [] = 0 := rfl

@[simp] theorem size_op : size (.op i :: code) = size code + 1 := rfl

@[simp] theorem size_label : size (.label l :: code) = size code + 1 := rfl

@[simp] theorem size_alternative : size (.alternative :: code) = size code := rfl

@[simp] theorem size_append : size (code ++ rest) = size code + size rest := by
  simp [size]

end Simp

theorem length_written (code : Segment) : (written code).length = size code := rfl

theorem labelsOf_written (code : Segment) : labelsOf (written code) = labelsOf code := by
  induction code with
  | nil => rfl
  | cons item rest ih =>
    cases item with
    | op i => simpa using ih
    | label l => simpa using ih
    | alternative => simpa using ih

theorem readings_written {α : Type} (read : Instruction → Option α) (code : Segment) :
    readings read (written code) = readings read code := by
  induction code with
  | nil => rfl
  | cons item rest ih =>
    cases item with
    | op i => rw [written_op, readings_op, readings_op, ih]
    | label l => exact ih
    | alternative => exact ih

theorem mem_readings {α : Type} {read : Instruction → Option α} {code : Segment} {x : α} :
    x ∈ readings read code ↔ ∃ i, Item.op i ∈ code ∧ read i = some x := by
  rw [readings, List.mem_filterMap]
  constructor
  · rintro ⟨item, hitem, hx⟩
    obtain ⟨i, hi, hx⟩ := Option.bind_eq_some_iff.1 hx
    cases item with
    | op i' =>
      cases hi
      exact ⟨i, hitem, hx⟩
    | label l => cases hi
    | alternative => cases hi
  · rintro ⟨i, hi, hx⟩
    exact ⟨_, hi, hx⟩

theorem mem_labelsOf {code : Segment} {l : Label} : l ∈ labelsOf code ↔ .label l ∈ code := by
  simp only [labelsOf, List.mem_filterMap]
  constructor
  · rintro ⟨item, hitem, hl⟩
    cases item with
    | op i => cases hl
    | label l' =>
      cases hl
      exact hitem
    | alternative => cases hl
  · intro h
    exact ⟨_, h, rfl⟩

/-- The place that a label names in a program. -/
def position (program : Segment) (l : Label) : Option Nat :=
  program.findIdx? fun item => decide (item = .label l)

/-- A label that does not stand before some code names the same place in it. -/
theorem position_behind {before : Segment} {l : Label} (h : l ∉ labelsOf before)
    (rest : Segment) : position (before ++ rest) l = (position rest l).map (· + before.length) := by
  have hb : before.findIdx? (fun item => decide (item = .label l)) = none := by
    rw [List.findIdx?_eq_none_iff]
    intro item hitem
    rw [decide_eq_false_iff_not]
    rintro rfl
    exact h (mem_labelsOf.2 hitem)
  rw [position, position, List.findIdx?_append, hb, Option.none_or]

theorem position_append {before : Segment} {l : Label} (h : l ∉ labelsOf before)
    (rest : Segment) : position (before ++ .label l :: rest) l = some before.length := by
  rw [position_behind h]
  simp [position, List.findIdx?_cons]

theorem getElem?_of_position {program : Segment} {l : Label} {q : Nat}
    (h : position program l = some q) : program[q]? = some (.label l) := by
  rw [position, List.findIdx?_eq_some_iff_getElem] at h
  obtain ⟨hq, hl, _⟩ := h
  rw [List.getElem?_eq_getElem hq, of_decide_eq_true hl]

/-- A segment is part of a program from the place `pos` on, and its labels name places in it. -/
structure Stands (program : Segment) (pos : Nat) (code : Segment) : Prop where
  split : ∃ before after, program = before ++ written code ++ after ∧ before.length = pos ∧
    ∀ l ∈ labelsOf code, l ∉ labelsOf before
  nodup : (labelsOf code).Nodup

namespace Stands

variable {program code : Segment} {pos : Nat} {l : Label} {i : Instruction}

/-- Every part of a segment that stands in a program stands there too. -/
theorem part (h : Stands program pos code) (front middle back : Segment)
    (he : code = front ++ middle ++ back) : Stands program (pos + size front) middle := by
  subst he
  obtain ⟨⟨before, after, hp, hpos, hl⟩, hn⟩ := h
  rw [labelsOf_append, labelsOf_append, List.nodup_append] at hn
  obtain ⟨hn, -, -⟩ := hn
  rw [List.nodup_append] at hn
  refine ⟨⟨before ++ written front, written back ++ after, ?_, ?_, ?_⟩, hn.2.1⟩
  · simpa using hp
  · rw [List.length_append, hpos, length_written]
  · intro l hm
    rw [labelsOf_append, List.mem_append, labelsOf_written]
    rintro (hb | hf)
    · exact hl l (by simp [hm]) hb
    · exact hn.2.2 l hf l hm rfl

theorem get_op (h : Stands program pos (.op i :: code)) : program[pos]? = some (.op i) := by
  obtain ⟨⟨before, after, rfl, rfl, -⟩, -⟩ := h
  simp

theorem get_label (h : Stands program pos (.label l :: code)) :
    program[pos]? = some (.label l) := by
  obtain ⟨⟨before, after, rfl, rfl, -⟩, -⟩ := h
  simp

theorem position_label (h : Stands program pos (.label l :: code)) :
    position program l = some pos := by
  obtain ⟨⟨before, after, rfl, rfl, hl⟩, -⟩ := h
  have hb : l ∉ labelsOf before := hl l (by simp)
  simpa using position_append hb (written code ++ after)

/-- Labels that are not placed in a segment name no place in it. -/
theorem mem_labelsOf_of_position (h : Stands program pos code) {q : Nat}
    (hq : position program l = some q) (hlo : pos ≤ q) (hhi : q < pos + size code) :
    l ∈ labelsOf code := by
  have hget := getElem?_of_position hq
  obtain ⟨⟨before, after, rfl, rfl, -⟩, -⟩ := h
  rw [← length_written] at hhi
  rw [List.getElem?_append_left (by rw [List.length_append]; omega),
    List.getElem?_append_right hlo] at hget
  rw [← labelsOf_written]
  exact mem_labelsOf.2 (List.mem_of_getElem? hget)

/-- A segment between segments that place none of its labels. -/
theorem intro_between (before after : Segment) (hn : (labelsOf code).Nodup)
    (hl : ∀ l ∈ labelsOf code, l ∉ labelsOf before) :
    Stands (written (before ++ code ++ after)) (size before) code := by
  refine ⟨⟨written before, written after, by simp, rfl, ?_⟩, hn⟩
  intro l hm
  rw [labelsOf_written]
  exact hl l hm

end Stands

/-! ## Code in a finished listing -/

/-- A line as items of code. -/
def Line.items {α : Type} : Line α → List (Item α)
  | op none i => [.op i]
  | op (some l) i => [.label l, .op i]
  | label l => [.label l]

/-- The lines of a listing as code. -/
def printed (l : Listing Instruction) : Segment := l.lines.toList.flatMap Line.items

/-- The label that waits in a listing. -/
def pending (l : Listing Instruction) : Segment := l.waiting.toList.map .label

theorem printed_write (l : Listing Instruction) (i : Instruction) :
    printed (l.write i) = printed l ++ pending l ++ [Item.op i] ∧ pending (l.write i) = [] := by
  obtain ⟨lines, waiting, stack⟩ := l
  cases waiting with
  | none => simp [printed, pending, Listing.write, Line.items]
  | some l => simp [printed, pending, Listing.write, Line.items]

theorem printed_place (l : Listing Instruction) (label : Label) :
    printed (l.place label) ++ pending (l.place label) =
      printed l ++ pending l ++ [Item.label label] := by
  obtain ⟨lines, waiting, stack⟩ := l
  cases waiting with
  | none => simp [printed, pending, Listing.place]
  | some l => simp [printed, pending, Listing.place, Line.items]

theorem printed_add (l : Listing Instruction) (item : Item Instruction) :
    printed (l.add item) ++ pending (l.add item) = printed l ++ pending l ++ written [item] := by
  cases item with
  | op i =>
    rw [Listing.add, (printed_write l i).1, (printed_write l i).2, List.append_nil]
    rfl
  | label label => exact printed_place l label
  | alternative =>
    rw [written_alternative, written_nil, List.append_nil]
    rfl

theorem printed_addAll (l : Listing Instruction) (code : Segment) :
    printed (l.addAll code) ++ pending (l.addAll code) = printed l ++ pending l ++ written code := by
  induction code generalizing l with
  | nil => simp [Listing.addAll]
  | cons item rest ih =>
    have hrest := ih (l.add item)
    rw [printed_add, List.append_assoc, ← written_append] at hrest
    exact hrest

/-- A finished listing is written like its code, with a return behind it where one is missing. No
label waits in it, and its last line leaves the method. -/
theorem listing_eq_addAll (code : Segment) :
    ∃ tail, (tail = [] ∨ tail = [Item.op Instruction.returnVoid]) ∧
      listing code = Listing.empty.addAll (code ++ tail) ∧ (listing code).waiting = none ∧
      (listing code).endsWithReturn = true := by
  unfold listing Listing.finish
  split
  · refine ⟨[.op .returnVoid], .inr rfl, ?_, rfl, ?_⟩
    · rw [Listing.addAll_append]
      rfl
    · simp [Listing.endsWithReturn, Listing.write, Writable.isReturn, Writable.plainReturn,
        Instruction.isReturn]
  · rename_i h
    rw [Bool.or_eq_true, not_or, Bool.not_eq_true, Option.isSome_eq_false_iff,
      Option.isNone_iff_eq_none] at h
    exact ⟨[], .inl rfl, by rw [List.append_nil], h.1, by simpa using h.2⟩

/-- A listing in which no label waits is the code that was added. -/
theorem printed_eq_written {l : Listing Instruction} {code : Segment}
    (h : l = Listing.empty.addAll code) (hw : l.waiting = none) : printed l = written code := by
  have hall := printed_addAll .empty code
  have hempty : printed .empty ++ pending .empty = [] := rfl
  rw [← h, hempty, List.nil_append, pending, hw] at hall
  simpa using hall

/-- The last item of a listing that ends with a return. -/
theorem printed_eq_concat {l : Listing Instruction} (h : l.endsWithReturn = true) :
    ∃ front i, printed l = front ++ [Item.op i] ∧ i.isReturn = true := by
  unfold Listing.endsWithReturn at h
  split at h
  · rename_i label i hback
    rw [← Array.getLast?_toList, List.getLast?_eq_some_iff] at hback
    obtain ⟨lines, hlines⟩ := hback
    refine ⟨lines.flatMap Line.items ++ label.toList.map .label, i, ?_, h⟩
    cases label <;> simp [printed, hlines, Line.items]
  · cases h

/-- Whether an item of code is an instruction that leaves the method. -/
def Item.isReturn : Item Instruction → Bool
  | op i => i.isReturn
  | label _ => false
  | alternative => false

/-- Whether code, as it is written, ends with an instruction that leaves the method. -/
def endsInReturn (code : Segment) : Bool := (written code).getLast?.any Item.isReturn

/-- The last line of a listing tells the last item that is printed. -/
theorem endsWithReturn_eq (l : Listing Instruction) :
    l.endsWithReturn = (printed l).getLast?.any Item.isReturn := by
  obtain ⟨⟨lines⟩, waiting, stack⟩ := l
  rcases List.eq_nil_or_concat lines with rfl | ⟨front, last, rfl⟩
  · rfl
  · rw [List.concat_eq_append]
    cases last with
    | op label i =>
      cases label <;>
        simp [Listing.endsWithReturn, printed, Line.items, Writable.isReturn, Item.isReturn]
    | label l => simp [Listing.endsWithReturn, printed, Line.items, Item.isReturn]

/-- A finished listing is its code, with a bare return behind it unless the code ends with a
return. -/
theorem printed_listing_eq (code : Segment) :
    printed (listing code) =
      written code ++ if endsInReturn code then [] else [Item.op Instruction.returnVoid] := by
  have hall : printed (Listing.empty.addAll code) ++ pending (Listing.empty.addAll code) =
      written code :=
    printed_addAll .empty code
  rw [listing, Listing.finish, endsWithReturn_eq, endsInReturn, ← hall]
  generalize Listing.empty.addAll code = l
  have hwrite := (printed_write l .returnVoid).1
  cases hw : l.waiting with
  | none =>
    have hpending : pending l = [] := by rw [pending, hw, Option.toList_none, List.map_nil]
    rw [hpending, List.append_nil] at hwrite ⊢
    cases (printed l).getLast?.any Item.isReturn with
    | false => exact hwrite
    | true => exact (List.append_nil _).symm
  | some label =>
    have hpending : pending l = [Item.label label] := by
      rw [pending, hw, Option.toList_some, List.map_singleton]
    rw [hpending, List.getLast?_concat]
    rw [hpending] at hwrite
    exact hwrite

/-- A finished listing is its code, with a return behind it where one is missing. -/
theorem printed_listing (code : Segment) :
    ∃ tail, (tail = [] ∨ tail = [Item.op Instruction.returnVoid]) ∧
      printed (listing code) = written (code ++ tail) := by
  have hprinted := printed_listing_eq code
  cases hend : endsInReturn code with
  | true =>
    rw [hend] at hprinted
    exact ⟨[], .inl rfl, by simpa using hprinted⟩
  | false =>
    rw [hend] at hprinted
    exact ⟨[.op .returnVoid], .inr rfl, by simpa using hprinted⟩

end Javelet.Assembly
