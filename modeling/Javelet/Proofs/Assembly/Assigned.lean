import Javelet.Proofs.Assembly.Heights
import Mathlib.Data.Set.Basic

/-!
# Slots that are stored before they are loaded

A run through a program comes to places one after the other and stores into slots on its way. A scan
reads the code once, from its start to its end, and keeps the slots that are known to be stored.
Behind a label it knows what is known at the label from in front and at every jump to it, and behind
an instruction that never goes on it may take anything for known. Where a scan goes through, each
slot that is loaded is known, so every run has stored into it before it comes to the load.
-/
namespace Javelet.Assembly

/-- The slot that an instruction loads. -/
def Instruction.loaded? : Instruction → Option Nat
  | load _ slot => some slot
  | _ => none

/-- The slot that an instruction stores into. -/
def Instruction.stored? : Instruction → Option Nat
  | store _ slot => some slot
  | _ => none

/-- The slot that is stored into at a place, if there is one. -/
def storedAt (program : Segment) (p : Nat) : List Nat :=
  match program[p]? with
  | some (.op i) => i.stored?.toList
  | _ => []

/-- The places that a run through a program comes to, with the slots that it has stored into before,
latest first. -/
inductive Run (program : Segment) : Nat → List Nat → Prop
  | start : Run program 0 []
  | step {p q : Nat} {stored : List Nat} : Run program p stored → Follows program p q →
      Run program q (storedAt program p ++ stored)

/-- On every path from the start of a program, slots outside of `K` have been stored into before they
are loaded. -/
def StoresFirst (K : Set Nat) (program : Segment) : Prop :=
  ∀ p stored, Run program p stored → ∀ cell slot, program[p]? = some (.op (.load cell slot)) →
    slot ∈ K ∨ slot ∈ stored

/-! ## Scans -/

/-- The slots that are known behind an instruction. Nothing comes there behind a jump or a return,
so that everything is known. -/
def Instruction.known (i : Instruction) (K : Set Nat) : Set Nat :=
  {slot | slot ∈ K ∨ i.stored? = some slot ∨ i.isGoto = true ∨ i.isReturn = true}

theorem Instruction.subset_known (i : Instruction) (K : Set Nat) : K ⊆ i.known K :=
  fun _ hslot => .inl hslot

theorem Instruction.known_mono (i : Instruction) {K L : Set Nat} (h : K ⊆ L) :
    i.known K ⊆ i.known L := by
  intro slot hslot
  rcases hslot with hslot | hslot
  · exact .inl (h hslot)
  · exact .inr hslot

/-- A label with the slots that are known there. -/
abbrev Mark := Label × Set Nat

/-- A scan from in front of code, where the slots of the first set are known, to behind it, where
those of the second one are. The marks of the first list are needed by the jumps, those of the second
one stand in the code. -/
inductive Scan : Set Nat → Segment → Set Nat → List Mark → List Mark → Prop
  | nil {K K' : Set Nat} : K' ⊆ K → Scan K [] K' [] []
  | label {K M K' : Set Nat} {l : Label} {rest : Segment} {needs marks : List Mark} : M ⊆ K →
      Scan M rest K' needs marks → Scan K (.label l :: rest) K' needs ((l, M) :: marks)
  | alternative {K K' : Set Nat} {rest : Segment} {needs marks : List Mark} :
      Scan K rest K' needs marks → Scan K (.alternative :: rest) K' needs marks
  | plain {K K' : Set Nat} {i : Instruction} {rest : Segment} {needs marks : List Mark} :
      i.target? = none → (∀ slot, i.loaded? = some slot → slot ∈ K) →
      Scan (i.known K) rest K' needs marks → Scan K (.op i :: rest) K' needs marks
  | jump {K M K' : Set Nat} {i : Instruction} {l : Label} {rest : Segment}
      {needs marks : List Mark} : i.target? = some l → M ⊆ K →
      Scan (i.known K) rest K' needs marks → Scan K (.op i :: rest) K' ((l, M) :: needs) marks

namespace Scan

variable {K L K' K'' : Set Nat} {code rest : Segment} {needs marks needs' marks' : List Mark}

/-- More may be known in front. -/
theorem mono (h : Scan K code K' needs marks) (hsub : K ⊆ L) : Scan L code K' needs marks := by
  induction h generalizing L with
  | nil hend => exact .nil (hend.trans hsub)
  | label hmark hrest _ => exact .label (hmark.trans hsub) hrest
  | alternative _ ih => exact .alternative (ih hsub)
  | @plain K K' i rest needs marks ht hload _ ih =>
    exact .plain ht (fun slot hslot => hsub (hload slot hslot)) (ih (i.known_mono hsub))
  | @jump K M K' i l rest needs marks ht hmark _ ih =>
    exact .jump ht (hmark.trans hsub) (ih (i.known_mono hsub))

theorem append (h : Scan K code K' needs marks) (h' : Scan K' rest K'' needs' marks') :
    Scan K (code ++ rest) K'' (needs ++ needs') (marks ++ marks') := by
  induction h with
  | nil hend => exact h'.mono hend
  | label hmark _ ih => exact .label hmark (ih h')
  | alternative _ ih => exact .alternative (ih h')
  | plain ht hload _ ih => exact .plain ht hload (ih h')
  | jump ht hmark _ ih => exact .jump ht hmark (ih h')

/-- Less may be known behind. -/
theorem weaken (h : Scan K code K' needs marks) (hsub : K'' ⊆ K') :
    Scan K code K'' needs marks := by
  have hall := h.append (.nil hsub)
  rwa [List.append_nil, List.append_nil, List.append_nil] at hall

/-- The corrections of the depth do not matter. -/
theorem written (h : Scan K code K' needs marks) : Scan K (written code) K' needs marks := by
  induction h with
  | nil hend => exact .nil hend
  | label hmark _ ih => exact .label hmark ih
  | alternative _ ih => exact ih
  | plain ht hload _ ih => exact .plain ht hload ih
  | jump ht hmark _ ih => exact .jump ht hmark ih

/-- A mark stands at its label, and the scan goes on from there with what is known there. -/
theorem exists_label (h : Scan K code K' needs marks) {l : Label} {M : Set Nat}
    (hmem : (l, M) ∈ marks) : ∃ front back needs' marks', code = front ++ .label l :: back ∧
      Scan M (.label l :: back) K' needs' marks' ∧ ∀ j ∈ needs', j ∈ needs := by
  induction h with
  | nil _ => cases hmem
  | @label K M' K' l' rest needs marks hmark hrest ih =>
    rcases List.mem_cons.1 hmem with heq | hmem
    · cases heq
      exact ⟨[], rest, needs, _, rfl, .label (Set.Subset.refl _) hrest, fun _ => id⟩
    · obtain ⟨front, back, needs', marks', rfl, hscan, hsub⟩ := ih hmem
      exact ⟨.label l' :: front, back, needs', marks', rfl, hscan, hsub⟩
  | alternative _ ih =>
    obtain ⟨front, back, needs', marks', rfl, hscan, hsub⟩ := ih hmem
    exact ⟨.alternative :: front, back, needs', marks', rfl, hscan, hsub⟩
  | @plain _ _ i _ _ _ _ _ _ ih =>
    obtain ⟨front, back, needs', marks', rfl, hscan, hsub⟩ := ih hmem
    exact ⟨.op i :: front, back, needs', marks', rfl, hscan, hsub⟩
  | @jump _ _ _ i _ _ _ _ _ _ _ ih =>
    obtain ⟨front, back, needs', marks', rfl, hscan, hsub⟩ := ih hmem
    exact ⟨.op i :: front, back, needs', marks', rfl, hscan,
      fun j hj => List.mem_cons_of_mem _ (hsub j hj)⟩

/-- What a run has stored into is known to the scan. -/
theorem known_of_run (h : Scan K code K' needs marks) (hn : (labelsOf code).Nodup)
    (hin : ∀ j ∈ needs, j ∈ marks) {p : Nat} {stored : List Nat} (hr : Run code p stored) :
    ∃ known needs' marks', Scan known (code.drop p) K' needs' marks' ∧
      (∀ j ∈ needs', j ∈ needs) ∧ known ⊆ {slot | slot ∈ K ∨ slot ∈ stored} := by
  induction hr with
  | start => exact ⟨K, needs, marks, h, fun _ => id, fun _ => .inl⟩
  | @step p q stored _ hnext ih =>
    obtain ⟨known, needs', marks', hscan, hneeds, hknown⟩ := ih
    have hlater : known ⊆ {slot | slot ∈ K ∨ slot ∈ storedAt code p ++ stored} :=
      fun slot hslot => (hknown hslot).imp_right (List.mem_append_right _)
    -- the scan goes on behind an item, and at a label from its mark
    cases hnext with
    | label hp =>
      obtain ⟨hlt, hitem⟩ := List.getElem?_eq_some_iff.1 hp
      rw [List.drop_eq_getElem_cons hlt, hitem] at hscan
      cases hscan with
      | label hmark hrest => exact ⟨_, _, _, hrest, hneeds, hmark.trans hlater⟩
    | @next i hp hgoto hreturn =>
      obtain ⟨hlt, hitem⟩ := List.getElem?_eq_some_iff.1 hp
      have hbehind : i.known known ⊆ {slot | slot ∈ K ∨ slot ∈ storedAt code p ++ stored} := by
        intro slot hslot
        rcases hslot with hslot | hslot | hslot | hslot
        · exact hlater hslot
        · right
          rw [storedAt, hp]
          exact List.mem_append_left _ (Option.mem_toList.2 hslot)
        · cases hgoto.symm.trans hslot
        · cases hreturn.symm.trans hslot
      rw [List.drop_eq_getElem_cons hlt, hitem] at hscan
      cases hscan with
      | plain _ _ hrest => exact ⟨_, _, _, hrest, hneeds, hbehind⟩
      | jump _ _ hrest =>
        exact ⟨_, _, _, hrest, fun j hj => hneeds j (List.mem_cons_of_mem _ hj), hbehind⟩
    | @jump i l _ hp htarget hposition =>
      obtain ⟨hlt, hitem⟩ := List.getElem?_eq_some_iff.1 hp
      rw [List.drop_eq_getElem_cons hlt, hitem] at hscan
      cases hscan with
      | plain hnone _ _ => cases hnone.symm.trans htarget
      | @jump _ M _ _ l' _ _ _ htarget' hmark _ =>
        cases htarget.symm.trans htarget'
        obtain ⟨front, back, needs'', marks'', heq, hlabel, hsub⟩ :=
          h.exists_label (hin _ (hneeds _ (List.mem_cons_self ..)))
        have hfresh : l ∉ labelsOf front := by
          rw [heq, labelsOf_append, labelsOf_label] at hn
          intro hmem
          exact (List.nodup_append.1 hn).2.2 l hmem l List.mem_cons_self rfl
        rw [heq, position_append hfresh] at hposition
        cases hposition
        refine ⟨M, needs'', marks'', ?_, hsub, hmark.trans hlater⟩
        rw [heq, List.drop_left]
        exact hlabel

end Scan

/-! ## Code with exits -/

/-- A scan of code whose jumps need marks of its own or of its exits. -/
def Assures (exits : List Mark) (K : Set Nat) (code : Segment) (K' : Set Nat)
    (marks : List Mark) : Prop :=
  ∃ needs, Scan K code K' needs marks ∧ ∀ j ∈ needs, j ∈ marks ∨ j ∈ exits

namespace Assures

variable {exits exits' : List Mark} {K L K' K'' : Set Nat} {code rest : Segment}
  {marks marks' : List Mark}

theorem append (h : Assures exits K code K' marks) (h' : Assures exits K' rest K'' marks') :
    Assures exits K (code ++ rest) K'' (marks ++ marks') := by
  obtain ⟨needs, hscan, hneeds⟩ := h
  obtain ⟨needs', hscan', hneeds'⟩ := h'
  refine ⟨_, hscan.append hscan', ?_⟩
  intro j hj
  rw [List.mem_append]
  rcases List.mem_append.1 hj with hj | hj
  · exact (hneeds j hj).imp_left .inl
  · exact (hneeds' j hj).imp_left .inr

/-- More may be known in front, and less behind. -/
theorem imp (h : Assures exits K code K' marks) (hfront : K ⊆ L) (hback : K'' ⊆ K') :
    Assures exits L code K'' marks := by
  obtain ⟨needs, hscan, hneeds⟩ := h
  exact ⟨needs, (hscan.mono hfront).weaken hback, hneeds⟩

/-- Exits that stand in the code itself are none. -/
theorem close (h : Assures exits' K code K' marks)
    (hin : ∀ j ∈ exits', j ∈ marks ∨ j ∈ exits) : Assures exits K code K' marks := by
  obtain ⟨needs, hscan, hneeds⟩ := h
  exact ⟨needs, hscan, fun j hj => (hneeds j hj).elim .inl (hin j)⟩

theorem nil (h : K' ⊆ K) : Assures exits K [] K' [] :=
  ⟨[], .nil h, nofun⟩

theorem label (l : Label) (h : K' ⊆ K) : Assures exits K [.label l] K' [(l, K')] :=
  ⟨[], .label h (.nil (Set.Subset.refl _)), nofun⟩

/-- Behind a jump that is always taken everything is known. -/
theorem goto {l : Label} {M : Set Nat} (hexit : (l, M) ∈ exits) (h : M ⊆ K) :
    Assures exits K [.op (.goto l)] K' [] := by
  refine ⟨[(l, M)], .jump rfl h (.nil fun _ _ => .inr (.inr (.inl rfl))), ?_⟩
  intro j hj
  rw [List.mem_singleton.1 hj]
  exact .inr hexit

/-- A store makes its slot known. -/
theorem store (cell : Cell) (slot : Nat) :
    Assures exits K [.op (.store cell slot)] (K ∪ {slot}) [] := by
  refine ⟨[], .plain rfl nofun (.nil ?_), nofun⟩
  intro s hs
  rcases hs with hs | rfl
  · exact .inl hs
  · exact .inr (.inl rfl)

/-- Where what is known stays the same, it is enough that the loaded slots are known and that the
jumps to the outside find no more there. -/
theorem still (hload : ∀ i, .op i ∈ code → ∀ slot, i.loaded? = some slot → slot ∈ K)
    (hjump : ∀ i, .op i ∈ code → ∀ l, i.target? = some l →
      l ∈ labelsOf code ∨ ∃ M ⊆ K, (l, M) ∈ exits) :
    ∃ marks, Assures exits K code K marks := by
  suffices hscan : ∀ part : Segment, (∀ i, .op i ∈ part → .op i ∈ code) →
      ∃ needs, Scan K part K needs ((labelsOf part).map (·, K)) ∧
        ∀ j ∈ needs, j ∈ (labelsOf code).map (·, K) ∨ j ∈ exits by
    obtain ⟨needs, hscan, hneeds⟩ := hscan code fun _ => id
    exact ⟨_, needs, hscan, hneeds⟩
  intro part hpart
  induction part with
  | nil => exact ⟨[], .nil (Set.Subset.refl _), nofun⟩
  | cons item part ih =>
    obtain ⟨needs, hscan, hneeds⟩ := ih fun i hi => hpart i (List.mem_cons_of_mem _ hi)
    cases item with
    | label l => exact ⟨needs, .label (Set.Subset.refl _) hscan, hneeds⟩
    | alternative => exact ⟨needs, .alternative hscan, hneeds⟩
    | op i =>
      have hi := hpart i (List.mem_cons_self ..)
      have hbehind := hscan.mono (i.subset_known K)
      cases ht : i.target? with
      | none => exact ⟨needs, .plain ht (hload i hi) hbehind, hneeds⟩
      | some l =>
        rcases hjump i hi l ht with hl | ⟨M, hM, hexit⟩
        · exact ⟨(l, K) :: needs, .jump ht (Set.Subset.refl _) hbehind,
            List.forall_mem_cons.2 ⟨.inl (List.mem_map_of_mem hl), hneeds⟩⟩
        · exact ⟨(l, M) :: needs, .jump ht hM hbehind,
            List.forall_mem_cons.2 ⟨.inr hexit, hneeds⟩⟩

/-- Code without exits stores into every slot that is not known from the start before it loads it. -/
theorem storesFirst (h : Assures [] K code K' marks) (hn : (labelsOf code).Nodup) :
    StoresFirst K (written code) := by
  intro p stored hr cell slot hload
  obtain ⟨needs, hscan, hneeds⟩ := h
  have hin : ∀ j ∈ needs, j ∈ marks := fun j hj => (hneeds j hj).resolve_right List.not_mem_nil
  obtain ⟨known, needs', marks', hrest, -, hknown⟩ :=
    hscan.written.known_of_run (by rw [labelsOf_written]; exact hn) hin hr
  obtain ⟨hlt, hitem⟩ := List.getElem?_eq_some_iff.1 hload
  rw [List.drop_eq_getElem_cons hlt, hitem] at hrest
  cases hrest with
  | plain _ hfound _ => exact hknown (hfound slot rfl)
  | jump ht _ _ => cases ht

end Assures

/-! ## Known slots at exits and labels -/

/-- Code that takes what is known in front of it to what is known behind it. Its exits can be reached
from it where they find no more than `E`, and it can be entered at its `labels` where `E` is
known. -/
def Carries (exits : List (Label × Nat)) (E K : Set Nat) (code : Segment) (K' : Set Nat)
    (labels : List Label) : Prop :=
  ∀ marks : List Mark, (∀ j ∈ exits, ∃ M ⊆ E, (j.1, M) ∈ marks) →
    ∃ own, Assures marks K code K' own ∧ ∀ l ∈ labels, (l, E) ∈ own

namespace Carries

variable {exits exits' : List (Label × Nat)} {E F K L K' K'' : Set Nat} {code rest : Segment}
  {labels labels' : List Label}

theorem nil : Carries exits E K [] K [] :=
  fun _ _ => ⟨[], .nil (Set.Subset.refl K), nofun⟩

theorem label (l : Label) : Carries exits E E [.label l] E [l] :=
  fun _ _ => ⟨_, .label l (Set.Subset.refl E), List.forall_mem_singleton.2 List.mem_cons_self⟩

theorem goto {l : Label} (h : (l, 0) ∈ exits) :
    Carries exits E E [.op (.goto l)] K' [] := by
  intro marks hmarks
  obtain ⟨M, hM, hmem⟩ := hmarks _ h
  exact ⟨[], .goto hmem hM, nofun⟩

theorem store (cell : Cell) (slot : Nat) :
    Carries exits E K [.op (.store cell slot)] (K ∪ {slot}) [] :=
  fun _ _ => ⟨[], .store cell slot, nofun⟩

theorem append (h : Carries exits E K code K' labels) (h' : Carries exits E K' rest K'' labels') :
    Carries exits E K (code ++ rest) K'' (labels ++ labels') := by
  intro marks hmarks
  obtain ⟨own, hown, hlabels⟩ := h marks hmarks
  obtain ⟨own', hown', hlabels'⟩ := h' marks hmarks
  refine ⟨own ++ own', hown.append hown', List.forall_mem_append.2 ⟨?_, ?_⟩⟩
  · exact fun l hl => List.mem_append_left _ (hlabels l hl)
  · exact fun l hl => List.mem_append_right _ (hlabels' l hl)

/-- More may be known in front, and less behind. -/
theorem imp (h : Carries exits E K code K' labels) (hfront : K ⊆ L) (hback : K'' ⊆ K') :
    Carries exits E L code K'' labels := by
  intro marks hmarks
  obtain ⟨own, hown, hlabels⟩ := h marks hmarks
  exact ⟨own, hown.imp hfront hback, hlabels⟩

theorem mono (h : Carries exits E K code K' labels) (hexits : ∀ j ∈ exits, j ∈ exits') :
    Carries exits' E K code K' labels :=
  fun marks hmarks => h marks fun j hj => hmarks j (hexits j hj)

/-- Code without jumps to the outside. -/
theorem closed (h : Carries [] E K code K' labels) : Carries exits E K code K' labels :=
  h.mono (List.forall_mem_nil _)

/-- From the outside, where less is known, the code is not entered at its labels. -/
theorem lower (h : Carries exits F K code K' labels) (hsub : E ⊆ F) :
    Carries exits E K code K' [] := by
  intro marks hmarks
  obtain ⟨own, hown, -⟩ := h marks fun j hj =>
    let ⟨M, hM, hmem⟩ := hmarks j hj
    ⟨M, hM.trans hsub, hmem⟩
  exact ⟨own, hown, nofun⟩

/-- Exits that stand in the code itself are none. -/
theorem close (h : Carries exits' E K code K' labels)
    (hin : ∀ j ∈ exits', j.1 ∈ labels ∨ j ∈ exits) : Carries exits E K code K' labels := by
  intro marks hmarks
  have hall : ∀ j ∈ exits', ∃ M ⊆ E, (j.1, M) ∈ labels.map (·, E) ++ marks := by
    intro j hj
    rcases hin j hj with hl | hj
    · exact ⟨E, Set.Subset.refl E, List.mem_append_left _ (List.mem_map_of_mem hl)⟩
    · obtain ⟨M, hM, hmem⟩ := hmarks j hj
      exact ⟨M, hM, List.mem_append_right _ hmem⟩
  obtain ⟨own, hown, hlabels⟩ := h _ hall
  refine ⟨own, hown.close ?_, hlabels⟩
  intro m hm
  rcases List.mem_append.1 hm with hm | hm
  · obtain ⟨l, hl, rfl⟩ := List.mem_map.1 hm
    exact .inl (hlabels l hl)
  · exact .inr hm

/-- The return that may be written behind the code changes nothing. -/
theorem storesFirst_listing (h : Carries [] E K code K' labels) (hn : (labelsOf code).Nodup) :
    StoresFirst K (printed (listing code)) := by
  obtain ⟨tail, htail, hprinted⟩ := printed_listing code
  obtain ⟨own, hown, -⟩ := h [] nofun
  have hreturn : Assures [] K' tail K' [] := by
    rcases htail with rfl | rfl
    · exact .nil (Set.Subset.refl K')
    · exact ⟨[], .plain rfl nofun (.nil (Instruction.subset_known _ K')), nofun⟩
  have hlabels : labelsOf tail = [] := by
    rcases htail with rfl | rfl <;> rfl
  rw [hprinted]
  refine (hown.append hreturn).storesFirst ?_
  rw [labelsOf_append, hlabels, List.append_nil]
  exact hn

end Carries

end Javelet.Assembly
