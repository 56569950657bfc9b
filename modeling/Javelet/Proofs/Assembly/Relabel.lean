import Javelet.Assembly.Section

/-!
# Other numbers for labels

The numbers of labels have no meaning of their own. To relabel code is to put another number for
each label, where it is placed and where it is jumped to. It is written down as before then, line by
line and with the same depth of the stack.
-/
namespace Javelet.Assembly

def Instruction.relabel (ρ : Label → Label) : Instruction → Instruction
  | jumpInts relation target => jumpInts relation (ρ target)
  | jumpReferences same target => jumpReferences same (ρ target)
  | jumpZero target => jumpZero (ρ target)
  | jumpNonzero target => jumpNonzero (ρ target)
  | goto target => goto (ρ target)
  | i => i

def Item.relabel (ρ : Label → Label) : Item Instruction → Item Instruction
  | op i => op (i.relabel ρ)
  | label l => label (ρ l)
  | alternative => alternative

def relabel (ρ : Label → Label) (code : Segment) : Segment := code.map (Item.relabel ρ)

section Simp

variable (ρ σ : Label → Label) (item : Item Instruction) (code rest : Segment)

@[simp] theorem relabel_nil : relabel ρ [] = [] := rfl

@[simp] theorem relabel_cons : relabel ρ (item :: code) = item.relabel ρ :: relabel ρ code := rfl

@[simp] theorem relabel_append : relabel ρ (code ++ rest) = relabel ρ code ++ relabel ρ rest :=
  List.map_append

@[simp] theorem Item.relabel_op (i : Instruction) :
    Item.relabel ρ (.op i) = .op (i.relabel ρ) := rfl

@[simp] theorem Item.relabel_label (l : Label) : Item.relabel ρ (.label l) = .label (ρ l) := rfl

@[simp] theorem Item.relabel_alternative : Item.relabel ρ .alternative = .alternative := rfl

theorem relabel_flatten (codes : List Segment) :
    relabel ρ codes.flatten = (codes.map (relabel ρ)).flatten :=
  List.map_flatten

theorem Instruction.relabel_relabel (i : Instruction) :
    (i.relabel ρ).relabel σ = i.relabel (σ ∘ ρ) := by
  cases i <;> rfl

theorem Item.relabel_relabel : (item.relabel ρ).relabel σ = item.relabel (σ ∘ ρ) := by
  cases item with
  | op i => exact congrArg op (i.relabel_relabel ρ σ)
  | label l => rfl
  | alternative => rfl

theorem relabel_relabel : relabel σ (relabel ρ code) = relabel (σ ∘ ρ) code := by
  rw [relabel, relabel, List.map_map]
  exact List.map_congr_left fun item _ => item.relabel_relabel ρ σ

end Simp

/-! ## Listings -/

def Line.relabel (ρ : Label → Label) : Line Instruction → Line Instruction
  | op l i => op (l.map ρ) (i.relabel ρ)
  | label l => label (ρ l)

namespace Listing

/-- The same listing with other labels. -/
def relabel (ρ : Label → Label) (l : Listing Instruction) : Listing Instruction :=
  ⟨l.lines.map (Line.relabel ρ), l.waiting.map ρ, l.stack⟩

variable (ρ : Label → Label) (l : Listing Instruction)

/-- What an instruction does to the depth of the stack does not depend on its label. -/
theorem relabel_write (i : Instruction) :
    (l.write i).relabel ρ = (l.relabel ρ).write (i.relabel ρ) := by
  have hpops : (i.relabel ρ).pops = i.pops := by cases i <;> rfl
  have hpushes : (i.relabel ρ).pushes = i.pushes := by cases i <;> rfl
  simp [relabel, write, Writable.pops, Writable.pushes, hpops, hpushes, Line.relabel]

theorem relabel_add (item : Item Instruction) :
    (l.add item).relabel ρ = (l.relabel ρ).add (item.relabel ρ) := by
  cases item with
  | op i => exact relabel_write ρ l i
  | label label =>
    obtain ⟨lines, waiting, stack⟩ := l
    cases waiting <;> simp [relabel, add, place, Line.relabel]
  | alternative => rfl

theorem relabel_addAll (code : Segment) :
    (l.addAll code).relabel ρ = (l.relabel ρ).addAll (Assembly.relabel ρ code) := by
  induction code generalizing l with
  | nil => rfl
  | cons item code ih =>
    rw [addAll, List.foldl_cons, ← addAll, ih, relabel_add]
    rfl

theorem endsWithReturn_relabel : (l.relabel ρ).endsWithReturn = l.endsWithReturn := by
  have hreturn : ∀ i : Instruction, (i.relabel ρ).isReturn = i.isReturn := by
    intro i
    cases i <;> rfl
  unfold endsWithReturn
  rw [relabel, Array.back?_map]
  match l.lines.back? with
  | none => rfl
  | some (.op _ i) => exact hreturn i
  | some (.label _) => rfl

theorem relabel_finish : l.finish.relabel ρ = (l.relabel ρ).finish := by
  have hwaiting : (l.relabel ρ).waiting.isSome = l.waiting.isSome := Option.isSome_map
  rw [finish, finish, hwaiting, endsWithReturn_relabel]
  split
  · exact relabel_write ρ l .returnVoid
  · rfl

end Listing

theorem listing_relabel (ρ : Label → Label) (code : Segment) :
    listing (relabel ρ code) = (listing code).relabel ρ := by
  have hempty : Listing.empty.relabel ρ = .empty := by simp [Listing.relabel, Listing.empty]
  rw [listing, listing, Listing.relabel_finish, Listing.relabel_addAll, hempty]

/-! ## Sections -/

def MethodCode.relabel (ρ : Label → Label) (m : MethodCode) : MethodCode :=
  { m with code := Assembly.relabel ρ m.code }

def ClassSection.relabel (ρ : Label → Label) (c : ClassSection) : ClassSection :=
  { c with methods := c.methods.map (MethodCode.relabel ρ) }

/-- An interface has no code. -/
def Section.relabel (ρ : Label → Label) : Section → Section
  | class_ c => class_ (c.relabel ρ)
  | interface i => interface i

theorem MethodCode.relabel_relabel (ρ σ : Label → Label) (m : MethodCode) :
    (m.relabel ρ).relabel σ = m.relabel (σ ∘ ρ) := by
  simp only [MethodCode.relabel, Assembly.relabel_relabel]

theorem Section.relabel_relabel (ρ σ : Label → Label) (s : Section) :
    (s.relabel ρ).relabel σ = s.relabel (σ ∘ ρ) := by
  cases s with
  | class_ c =>
    have hmethods : MethodCode.relabel σ ∘ MethodCode.relabel ρ = MethodCode.relabel (σ ∘ ρ) :=
      funext (MethodCode.relabel_relabel ρ σ)
    simp only [Section.relabel, ClassSection.relabel, List.map_map, hmethods]
  | interface i => rfl

end Javelet.Assembly
