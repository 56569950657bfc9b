import Javelet.Proofs.Types.Rounds

/-!
# The codes of the faults in types

Faults are only added, and every step of collecting adds faults of a few codes. Cycles are reported
where they are cut and nowhere else, and missing methods where a class is checked against its
interface. All other steps report faults with the codes in `declarationCodes`.
-/
namespace Javelet.Types

/-- The codes of faults that a declaration has by itself or by the names in it. -/
def declarationCodes : List Code :=
  [.undefinedType, .duplicateType, .extendsNonClass, .implementsNonInterface, .duplicateProperty,
    .duplicateMethod, .methodNamedLikeProperty]

/-- Faults were added behind those that were there, all of them with codes in a list. -/
def Collected.Grows (codes : List Code) (c c' : Collected) : Prop :=
  ∃ new : List (Located Fault), c'.faults.toList = c.faults.toList ++ new ∧
    ∀ f ∈ new, f.fault.code ∈ codes

namespace Collected

variable {codes : List Code} {c c' c'' : Collected}

namespace Grows

theorem of_faults_eq (h : c'.faults = c.faults) : Grows codes c c' :=
  ⟨[], by rw [h, List.append_nil], List.forall_mem_nil _⟩

theorem refl (codes : List Code) (c : Collected) : Grows codes c c := of_faults_eq rfl

theorem mono {codes' : List Code} (h : Grows codes c c') (hsub : codes ⊆ codes') :
    Grows codes' c c' := by
  obtain ⟨new, hnew, hcodes⟩ := h
  exact ⟨new, hnew, fun f hf => hsub (hcodes f hf)⟩

theorem trans (h : Grows codes c c') (h' : Grows codes c' c'') : Grows codes c c'' := by
  obtain ⟨new, hnew, hcodes⟩ := h
  obtain ⟨more, hmore, hcodes'⟩ := h'
  refine ⟨new ++ more, by rw [hmore, hnew, List.append_assoc], ?_⟩
  exact List.forall_mem_append.2 ⟨hcodes, hcodes'⟩

theorem reportAll {new : List (Located Fault)} (h : ∀ f ∈ new, f.fault.code ∈ codes) :
    Grows codes c (c.reportAll new) :=
  ⟨new, by simp [Collected.reportAll], h⟩

theorem report {fault : Fault} {p : Position} (h : fault.code ∈ codes) :
    Grows codes c (c.report fault p) := by
  rw [report_eq]
  exact reportAll (List.forall_mem_singleton.2 h)

theorem foldl {α : Type} {step : Collected → α → Collected}
    (h : ∀ c x, Grows codes c (step c x)) (xs : List α) (c : Collected) :
    Grows codes c (xs.foldl step c) := by
  induction xs generalizing c with
  | nil => exact refl codes c
  | cons x xs ih => exact (h c x).trans (ih _)

end Grows

/-! ## Single checks -/

theorem code_table_mem (fault : TableFault) : (Fault.table fault).code ∈ declarationCodes := by
  cases fault <;> simp [Fault.code, declarationCodes]

theorem code_typeFaults (t : Table) (ty : Ty) (p : Position) :
    ∀ f ∈ typeFaults t ty p, f.fault.code ∈ declarationCodes := by
  unfold typeFaults
  split
  · exact List.forall_mem_nil _
  · exact List.forall_mem_singleton.2 (code_table_mem _)

theorem code_headerFaults (t : Table) (s : Signature) :
    ∀ f ∈ headerFaults t s, f.fault.code ∈ declarationCodes := by
  intro f hf
  rcases List.mem_append.1 hf with hf | hf
  · split at hf
    · cases hf
    · exact code_typeFaults _ _ _ f hf
  · obtain ⟨param, -, hf⟩ := List.mem_flatMap.1 hf
    exact code_typeFaults _ _ _ f hf

theorem code_supertypeFaults (t : Table) (category : Category) (p : Position)
    (name : Option String) :
    ∀ f ∈ supertypeFaults t category p name, f.fault.code ∈ declarationCodes := by
  cases name with
  | none => exact List.forall_mem_nil _
  | some name =>
    unfold supertypeFaults
    dsimp only
    split
    · exact List.forall_mem_singleton.2 (code_table_mem _)
    · split
      · exact List.forall_mem_nil _
      · refine List.forall_mem_singleton.2 ?_
        cases category <;> simp [Fault.code, declarationCodes]

theorem code_missingFaults (t : Table) (d : ClassDecl) :
    ∀ f ∈ missingFaults t d, f.fault.code = .missingInterfaceMethod := by
  unfold missingFaults
  split
  · exact List.forall_mem_nil _
  · split
    · exact List.forall_mem_nil _
    · intro f hf
      obtain ⟨key, -, rfl⟩ := List.mem_map.1 hf
      rfl

/-! ## Steps -/

theorem grows_registerAll (c : Collected) (decls : List TypeDecl) :
    Grows declarationCodes c (c.registerAll decls).1 := by
  induction decls generalizing c with
  | nil => exact .refl _ c
  | cons d rest ih =>
    have hfirst : Grows declarationCodes c (c.register d).1 := by
      unfold register
      dsimp only
      split
      · exact .of_faults_eq rfl
      · exact .report (code_table_mem _)
    exact hfirst.trans (ih _)

theorem grows_linkSupertypes (c : Collected) (d : ClassDecl) :
    Grows declarationCodes c (c.linkSupertypes d) := by
  rw [linkSupertypes_eq]
  have hcodes := List.forall_mem_append.2
    ⟨code_supertypeFaults c.table .class_ d.position d.superclass,
      code_supertypeFaults c.table .interface d.position d.interface⟩
  exact (Grows.reportAll hcodes).trans (.of_faults_eq rfl)

theorem grows_collectMethod (owner : String) (c : Collected) (s : Signature) :
    Grows declarationCodes c (collectMethod owner c s) := by
  rw [collectMethod_eq]
  split
  · unfold addMethod
    split
    · exact .refl _ c
    · split
      · exact .report (by simp [Fault.code, declarationCodes])
      · exact .of_faults_eq rfl
  · exact .reportAll (code_headerFaults _ _)

theorem grows_collectNamedMethod (owner : String) (c : Collected) (s : Signature) :
    Grows declarationCodes c (collectNamedMethod owner c s) := by
  unfold collectNamedMethod
  split
  · exact .report (by simp [Fault.code, declarationCodes])
  · exact grows_collectMethod owner c s

theorem grows_collectProperty (owner : String) (c : Collected) (p : Property) :
    Grows declarationCodes c (collectProperty owner c p) := by
  rw [collectProperty_eq]
  split
  · split
    · exact .refl _ c
    · split
      · exact .report (by simp [Fault.code, declarationCodes])
      · exact .of_faults_eq rfl
  · exact .reportAll (code_typeFaults _ _ _)

theorem grows_collectInterface (c : Collected) (d : InterfaceDecl) :
    Grows declarationCodes c (c.collectInterface d) :=
  .foldl (grows_collectMethod d.name) d.methods c

theorem grows_collectClass (c : Collected) (d : ClassDecl) :
    Grows declarationCodes c (c.collectClass d) := by
  have hproperties := Grows.foldl (grows_collectProperty d.name) d.properties
  have hconstructors := Grows.foldl (grows_collectMethod d.name)
    (d.constructors.map Method.signature)
  have hmethods := Grows.foldl (grows_collectNamedMethod d.name)
    ((d.methods ++ d.main.toList).map Method.signature)
  exact ((hproperties _).trans (hconstructors _)).trans ((hmethods _).trans (.of_faults_eq rfl))

theorem grows_checkInterface (c : Collected) (d : ClassDecl) :
    Grows [.missingInterfaceMethod] c (c.checkInterface d) := by
  rw [checkInterface_eq]
  exact .reportAll fun f hf => List.mem_singleton.2 (code_missingFaults _ _ f hf)

theorem grows_classStep (c : Collected) (d : ClassDecl) :
    Grows (.missingInterfaceMethod :: declarationCodes) c ((c.collectClass d).checkInterface d) := by
  have hcheck : [Code.missingInterfaceMethod] ⊆ .missingInterfaceMethod :: declarationCodes :=
    List.cons_subset_cons _ (List.nil_subset _)
  exact ((grows_collectClass c d).mono (List.subset_cons_self _ _)).trans
    ((grows_checkInterface _ d).mono hcheck)

end Collected

end Javelet.Types
