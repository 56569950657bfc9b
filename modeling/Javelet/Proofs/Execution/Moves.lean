import Mathlib.Data.List.Nodup
import Javelet.Proofs.Assembly.Relabel
import Javelet.Proofs.Execution.Machine
import Javelet.Proofs.Lowering.Composes

/-!
# Code at another place

Code whose jumps stay inside of it runs the same way at any place of a program, and with any other
numbers for its labels, as long as different labels keep different numbers.
-/
namespace Javelet.Assembly

theorem written_relabel (ρ : Label → Label) (code : Segment) :
    written (relabel ρ code) = relabel ρ (written code) := by
  rw [written, written, relabel, relabel, List.filter_map]
  congr 2
  funext item
  cases item <;> rfl

theorem labelsOf_relabel (ρ : Label → Label) (code : Segment) :
    labelsOf (relabel ρ code) = (labelsOf code).map ρ := by
  rw [labelsOf, labelsOf, relabel, List.filterMap_map, List.map_filterMap]
  congr 1
  funext item
  cases item <;> rfl

theorem relabel_id (code : Segment) : relabel id code = code := by
  have hitem : Item.relabel id = id := by
    funext item
    rcases item with i | _ | _
    · cases i <;> rfl
    · rfl
    · rfl
  rw [relabel, hitem, List.map_id]

theorem target?_relabel (ρ : Label → Label) (i : Instruction) :
    (i.relabel ρ).target? = i.target?.map ρ := by
  cases i <;> rfl

theorem SelfContained.relabel {code : Segment} (h : SelfContained code) (ρ : Label → Label) :
    SelfContained (relabel ρ code) := by
  intro i hi l hl
  obtain ⟨item, hitem, heq⟩ := List.mem_map.1 hi
  cases item with
  | op i =>
    cases heq
    rw [target?_relabel, Option.map_eq_some_iff] at hl
    obtain ⟨l, hl, rfl⟩ := hl
    rw [labelsOf_relabel]
    exact List.mem_map_of_mem (h i hitem l hl)
  | label l => cases heq
  | alternative => cases heq

theorem exists_position {code : Segment} {l : Label} (h : l ∈ labelsOf code) :
    ∃ q, position code l = some q := by
  rw [← Option.isSome_iff_exists, position, List.findIdx?_isSome, List.any_eq_true]
  exact ⟨.label l, mem_labelsOf.1 h, decide_eq_true rfl⟩

theorem position_relabel {ρ : Label → Label} {code : Segment} {l : Label}
    (h : ∀ l' ∈ labelsOf code, ρ l' = ρ l → l' = l) :
    position (relabel ρ code) (ρ l) = position code l := by
  induction code with
  | nil => rfl
  | cons item code ih =>
    have hitem : item.relabel ρ = .label (ρ l) ↔ item = .label l := by
      cases item with
      | op i => simp
      | label l' =>
        rw [Item.relabel_label, Item.label.injEq, Item.label.injEq]
        exact ⟨h l' (List.mem_cons_self ..), congrArg ρ⟩
      | alternative => simp
    have hlabels : ∀ l' ∈ labelsOf code, ρ l' = ρ l → l' = l := fun l' hl' =>
      h l' (mem_labelsOf.2 (List.mem_cons_of_mem _ (mem_labelsOf.1 hl')))
    have hrest := ih hlabels
    simp only [position] at hrest
    simp only [position, relabel_cons, List.findIdx?_cons, hitem, hrest]

end Javelet.Assembly

namespace Javelet.Execution

open Assembly

variable {World : Type} {p : Platform World} {program program' : Segment}

/-! ## Jumps -/

/-- The same effect with another number for the label of a jump. -/
def Effect.relabel (ρ : Label → Label) : Effect World → Effect World
  | jump l s => jump (ρ l) s
  | effect => effect

namespace Effect

variable (ρ : Label → Label) (s : State World) (l : Label)

@[simp] theorem relabel_next : (next s).relabel ρ = next s := rfl

@[simp] theorem relabel_jump : (jump l s).relabel ρ = jump (ρ l) s := rfl

@[simp] theorem relabel_leave (exit : Exit World) : (leave exit).relabel ρ = leave exit := rfl

@[simp] theorem relabel_give (result : Except Trap Word) :
    (give s result).relabel ρ = give s result := by
  cases result <;> rfl

@[simp] theorem relabel_settle (result : Except Trap (List Word)) :
    (settle s result).relabel ρ = settle s result := by
  cases result <;> rfl

@[simp] theorem relabel_commit (result : Except Trap (Heap World)) :
    (commit s result).relabel ρ = commit s result := by
  cases result <;> rfl

@[simp] theorem relabel_branch (result : Except Trap Bool) :
    (branch s l result).relabel ρ = branch s (ρ l) result := by
  rcases result with _ | _ | _ <;> rfl

@[simp] theorem relabel_return (result : Option (Except Trap (List Word) × Heap World)) :
    (return_ s result).relabel ρ = return_ s result := by
  cases result with
  | none => rfl
  | some result => exact relabel_settle ρ _ result.1

@[simp] theorem relabel_act (i : Instruction) : (p.act i s).relabel ρ = p.act i s := by
  unfold Platform.act
  split
  · exact relabel_return ρ _ _
  · rfl

end Effect

theorem perform_relabel (ρ : Label → Label) (i : Instruction) (s : State World) :
    p.perform (i.relabel ρ) s = (p.perform i s).relabel ρ := by
  obtain ⟨st, slots, heap⟩ := s
  cases i
  case pushInt | pushString | pushNull | load | goto | returnVoid => rfl
  case new | newArray | getPrintStream | print | invokeConstructor | invokeVirtual |
      invokeInterface =>
    exact (Effect.relabel_act ρ _ _).symm
  -- The others take words from the stack, which may hold too few of them.
  all_goals rcases st with _ | ⟨v, _ | ⟨w, _ | ⟨x, st⟩⟩⟩
  all_goals
    first
    | rfl
    | exact (Effect.relabel_give ρ _ _).symm
    | exact (Effect.relabel_commit ρ _ _).symm
    | exact (Effect.relabel_branch ρ _ _ _).symm

theorem relabel_eq_self {ρ : Label → Label} {i : Instruction}
    (h : ∀ l, i.target? = some l → ρ l = l) : i.relabel ρ = i := by
  cases i <;> simp_all [Instruction.relabel, Instruction.target?]

theorem relabel_of_isPlain (ρ : Label → Label) {i : Instruction} (h : i.isPlain = true) :
    i.relabel ρ = i :=
  relabel_eq_self fun _ hl => by cases (Instruction.target?_of_isPlain h).symm.trans hl

/-- Numbers that do not occur in an instruction do not matter to it, so it jumps to its label. -/
theorem target_of_perform {i : Instruction} {s s' : State World} {l : Label}
    (h : p.perform i s = .jump l s') : i.target? = some l := by
  have hself := relabel_eq_self (i := i)
    (ρ := fun l => if i.target? = some l then l else l + 1) fun l hl => if_pos hl
  have hjump := perform_relabel (p := p) (fun l => if i.target? = some l then l else l + 1) i s
  rw [hself, h, Effect.relabel_jump, Effect.jump.injEq] at hjump
  split at hjump
  · assumption
  · exact absurd hjump.1 (Nat.succ_ne_self l).symm

/-! ## Moves -/

/-- The same run with other code in front of it. -/
def Config.move (n : Nat) : Config World → Config World
  | .at pc s => .at (pc + n) s
  | .left exit => .left exit

@[simp] theorem Config.move_zero (c : Config World) : c.move 0 = c := by
  cases c <;> rfl

/-- Runs that go on in step have the same ends. -/
theorem ends_move_iff {n : Nat} (h : ∀ pc s,
      p.step program' (pc + n) s = (p.step program pc s).map (Config.move n))
    {c : Config World} {exit : Exit World} :
    Ends p program' (c.move n) exit ↔ Ends p program c exit := by
  constructor
  · intro hend
    generalize hc' : c.move n = c' at hend
    induction hend generalizing c with
    | left =>
      cases c with
      | «at» pc s => cases hc'
      | left exit =>
        cases hc'
        exact .left
    | step hstep _ ih =>
      cases c with
      | «at» pc s =>
        cases hc'
        rw [h, Option.map_eq_some_iff] at hstep
        obtain ⟨c, hc, hmove⟩ := hstep
        exact .step hc (ih hmove)
      | left exit => cases hc'
  · intro hend
    induction hend with
    | left => exact .left
    | step hstep _ ih => exact .step (by rw [h, hstep]; rfl) ih

section Moves

variable {code before : Segment}

/-- Where an effect leads if other code stands in front. -/
theorem follow_behind {effect : Effect World} (h : ∀ l s, effect = .jump l s → l ∉ labelsOf before)
    (pc : Nat) : follow (before ++ code) (pc + before.length) effect =
      (follow code pc effect).map (Config.move before.length) := by
  cases effect with
  | next s =>
    rw [follow, follow, Nat.add_right_comm]
    rfl
  | jump l s =>
    simp only [follow]
    rw [position_behind (h l s rfl)]
    cases position code l <;> rfl
  | leave exit => rfl
  | lost => rfl

theorem follow_relabel {ρ : Label → Label} {effect : Effect World}
    (hρ : ∀ l ∈ labelsOf code, ∀ l' ∈ labelsOf code, ρ l' = ρ l → l' = l)
    (h : ∀ l s, effect = .jump l s → l ∈ labelsOf code) (pc : Nat) :
    follow (relabel ρ code) pc (effect.relabel ρ) = follow code pc effect := by
  cases effect with
  | next s => rfl
  | jump l s =>
    obtain ⟨q, hq⟩ := exists_position (h l s rfl)
    simp only [Effect.relabel_jump, follow]
    rw [position_relabel (hρ l (h l s rfl)), hq]
  | leave exit => rfl
  | lost => rfl

theorem step_behind (hc : SelfContained code) (hl : ∀ l ∈ labelsOf code, l ∉ labelsOf before)
    (pc : Nat) (s : State World) : p.step (before ++ code) (pc + before.length) s =
      (p.step code pc s).map (Config.move before.length) := by
  rw [Platform.step, Platform.step, List.getElem?_append_right (Nat.le_add_left ..),
    Nat.add_sub_cancel]
  cases hitem : code[pc]? with
  | none => rfl
  | some item =>
    cases item with
    | op i =>
      have hmem := hc i (List.mem_of_getElem? hitem)
      exact follow_behind (fun l _ h => hl l (hmem l (target_of_perform h))) pc
    | label l =>
      simp only [Option.map_some, Config.move]
      rw [Nat.add_right_comm]
    | alternative =>
      simp only [Option.map_some, Config.move]
      rw [Nat.add_right_comm]

theorem step_relabel {ρ : Label → Label} (hc : SelfContained code)
    (hρ : ∀ l ∈ labelsOf code, ∀ l' ∈ labelsOf code, ρ l' = ρ l → l' = l)
    (pc : Nat) (s : State World) : p.step (relabel ρ code) pc s = p.step code pc s := by
  rw [Platform.step, Platform.step, relabel, List.getElem?_map]
  cases hitem : code[pc]? with
  | none => rfl
  | some item =>
    cases item with
    | op i =>
      have hmem := hc i (List.mem_of_getElem? hitem)
      simp only [Option.map_some, Item.relabel_op, perform_relabel]
      exact follow_relabel hρ (fun l _ h => hmem l (target_of_perform h)) pc
    | label l => rfl
    | alternative => rfl

/-- Code whose jumps stay inside of it, behind other code and with other labels, runs as it does
alone. -/
theorem ends_behind_iff (hc : SelfContained code) (hl : ∀ l ∈ labelsOf code, l ∉ labelsOf before)
    {c : Config World} {exit : Exit World} :
    Ends p (before ++ code) (c.move before.length) exit ↔ Ends p code c exit :=
  ends_move_iff (step_behind hc hl)

theorem ends_relabel_iff {ρ : Label → Label} (hc : SelfContained code)
    (hn : (labelsOf (relabel ρ code)).Nodup) {c : Config World} {exit : Exit World} :
    Ends p (relabel ρ code) c exit ↔ Ends p code c exit := by
  rw [labelsOf_relabel] at hn
  have hρ : ∀ l ∈ labelsOf code, ∀ l' ∈ labelsOf code, ρ l' = ρ l → l' = l :=
    fun l hl l' hl' heq => List.inj_on_of_nodup_map hn hl' hl heq
  have hstep : ∀ pc s, p.step (relabel ρ code) (pc + 0) s =
      (p.step code pc s).map (Config.move 0) := by
    intro pc s
    rw [Nat.add_zero, step_relabel hc hρ]
    cases p.step code pc s <;> simp
  have hmove : Ends p (relabel ρ code) (c.move 0) exit ↔ Ends p code c exit := ends_move_iff hstep
  rwa [Config.move_zero] at hmove

end Moves

end Javelet.Execution
