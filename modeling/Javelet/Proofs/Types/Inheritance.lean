import Javelet.Proofs.Types.Faultless
import Javelet.Proofs.Types.Reports
import Mathlib.Logic.Relation

/-!
# Inheritance in the collected table

Every class names at most one superclass, so the superclasses of a table are a graph in which each
type has at most one way to go. Climbing follows that way until it ends or comes to a type again,
and so finds exactly the types that the way leads to, round a cycle as well. Cutting every class
that comes back to itself takes a link out of every cycle and none out of the ways that lead into
one. The stages before and behind report no cycles, and those behind leave all supertypes alone.
-/
namespace Javelet.Types

/-! ## The way up -/

/-- A type names another one as its superclass. -/
def Table.Extends (t : Table) (child parent : String) : Prop :=
  ∃ info, t.find? child = some info ∧ info.superclass = some parent

theorem mem_climb_of_findType {unvisited : List TypeInfo} {name : String} {info : TypeInfo}
    (h : findType unvisited name = some info) : info ∈ climb unvisited name := by
  rw [climb]
  split
  · rename_i hnone
    cases h.symm.trans hnone
  · rename_i found hsome
    cases h.symm.trans hsome
    split
    · exact List.mem_singleton_self info
    · exact List.mem_cons_self

/-- The types that a climb comes to are closed under superclasses. -/
theorem mem_climb_of_superclass {unvisited : List TypeInfo} {name parent : String}
    {info above : TypeInfo} (h : info ∈ climb unvisited name) (hsuper : info.superclass = some parent)
    (habove : findType unvisited parent = some above) : above ∈ climb unvisited name := by
  fun_induction climb unvisited name with
  | case1 => cases h
  | case2 unvisited name t hfind hnone =>
    cases List.mem_singleton.1 h
    cases hnone.symm.trans hsuper
  | case3 unvisited name t hfind next hnext ih =>
    by_cases hfirst : parent = name
    · -- the climb has come back to where it began
      rw [hfirst, hfind] at habove
      cases habove
      exact List.mem_cons_self
    · have hrest : findType (dropType unvisited name) parent = some above := by
        rw [findType_dropType, if_neg hfirst]
        exact habove
      apply List.mem_cons_of_mem
      rcases List.mem_cons.1 h with rfl | h
      · cases hnext.symm.trans hsuper
        exact mem_climb_of_findType hrest
      · exact ih h hrest

namespace Table

variable {t : Table} {name : String}

theorem reaches_of_mem_climb {unvisited : List TypeInfo} {info : TypeInfo}
    (hsub : ∀ other found, findType unvisited other = some found → t.find? other = some found)
    (h : info ∈ climb unvisited name) : Relation.ReflTransGen t.Extends name info.name := by
  fun_induction climb unvisited name with
  | case1 => cases h
  | case2 unvisited name found hfind hnone =>
    cases List.mem_singleton.1 h
    rw [(mem_of_findType hfind).2]
  | case3 unvisited name found hfind parent hsuper ih =>
    rcases List.mem_cons.1 h with rfl | h
    · rw [(mem_of_findType hfind).2]
    · refine .head ⟨found, hsub name found hfind, hsuper⟩ (ih ?_ h)
      intro other again hagain
      rw [findType_dropType] at hagain
      split at hagain
      · cases hagain
      · exact hsub other again hagain

/-- A climb comes to the types that superclasses lead to. -/
theorem mem_ancestors {info : TypeInfo} : info ∈ t.ancestors name ↔
    t.find? info.name = some info ∧ Relation.ReflTransGen t.Extends name info.name := by
  constructor
  · exact fun h => ⟨find?_of_mem_ancestors h, reaches_of_mem_climb (fun _ _ hfind => hfind) h⟩
  · rintro ⟨hfind, hreach⟩
    have hall : ∀ other, Relation.ReflTransGen t.Extends name other → ∀ found,
        t.find? other = some found → found ∈ t.ancestors name := by
      intro other hreach
      induction hreach with
      | refl => exact fun found hfound => mem_climb_of_findType hfound
      | tail _ hstep ih =>
        obtain ⟨below, hbelow, hsuper⟩ := hstep
        exact fun found hfound => mem_climb_of_superclass (ih below hbelow) hsuper hfound
    exact hall info.name hreach info hfind

theorem extendsItself_iff : t.extendsItself name = true ↔ Relation.TransGen t.Extends name name := by
  rw [Relation.TransGen.head'_iff, extendsItself]
  constructor
  · intro h
    split at h
    · rename_i parent hparent
      obtain ⟨info, hinfo, hname⟩ := List.any_eq_true.1 h
      rw [beq_iff_eq] at hname
      obtain ⟨-, hreach⟩ := mem_ancestors.1 hinfo
      exact ⟨parent, Option.bind_eq_some_iff.1 hparent, hname ▸ hreach⟩
    · cases h
  · rintro ⟨parent, ⟨info, hfind, hsuper⟩, hreach⟩
    have hname : info.name = name := (mem_of_findType hfind).2
    have hparent : (t.find? name).bind TypeInfo.superclass = some parent :=
      Option.bind_eq_some_iff.2 ⟨info, hfind, hsuper⟩
    rw [hparent]
    refine List.any_eq_true.2 ⟨info, mem_ancestors.2 ?_, beq_iff_eq.2 hname⟩
    rw [hname]
    exact ⟨hfind, hreach⟩

end Table

/-! ## What a program declares -/

/-- The first declaration of a name, which is not built in. -/
def Introduces (p : Program) (d : TypeDecl) : Prop :=
  ∃ before after, p.declarations = before ++ d :: after ∧ d.name ∉ before.map TypeDecl.name ∧
    d.name ∉ builtins

/-- A declared class names a declared class as its superclass. -/
def Links (p : Program) (child parent : String) : Prop :=
  (∃ d, Introduces p (.class_ d) ∧ d.name = child ∧ d.superclass = some parent) ∧
    ∃ d, Introduces p (.class_ d) ∧ d.name = parent

/-- The superclasses of a class lead back to it. -/
def OnCycle (p : Program) (name : String) : Prop := Relation.TransGen (Links p) name name

theorem find?_initial (name : String) : Table.initial.find? name =
    if name ∈ builtins then some (.bare name .primitive) else none := by
  have hfind : ∀ names : List String, (Table.mk (names.map fun n => .bare n .primitive)).find? name =
      if name ∈ names then some (.bare name .primitive) else none := by
    intro names
    induction names with
    | nil => rfl
    | cons n names ih =>
      rw [List.map_cons, Table.find?_mk_cons, ih]
      by_cases hn : n = name
      · simp [TypeInfo.bare, hn]
      · simp [TypeInfo.bare, hn, Ne.symm hn]
  exact hfind builtins

theorem contains_initial_eq_false {name : String} :
    Table.initial.contains name = false ↔ name ∉ builtins := by
  rw [Table.contains_eq_false, find?_initial, ite_eq_right_iff]
  simp

section Program

variable {p : Program}

theorem mem_registration {d : TypeDecl} : d ∈ (registration p).2 ↔ Introduces p d := by
  rw [(recorded_registration p).mem, Collected.Introduced, Introduces, contains_initial_eq_false]

theorem mem_keptClasses_iff {d : ClassDecl} : d ∈ keptClasses p ↔ Introduces p (.class_ d) := by
  rw [← mem_registration, keptClasses, List.mem_filterMap]
  constructor
  · rintro ⟨decl, hdecl, hclass⟩
    exact TypeDecl.class?_eq_some.1 hclass ▸ hdecl
  · exact fun hd => ⟨_, hd, rfl⟩

/-- The categories of the names that are known. -/
theorem find?_registration {name : String} {info : TypeInfo}
    (h : (registration p).1.table.find? name = some info) :
    (∃ d, Introduces p d ∧ d.name = name ∧ d.category = info.category) ∨
      name ∈ builtins ∧ info.category = .primitive := by
  have hr := recorded_registration p
  by_cases hmem : name ∈ (registration p).2.map TypeDecl.name
  · obtain ⟨d, hd, rfl⟩ := List.mem_map.1 hmem
    cases (hr.own d hd).symm.trans h
    exact .inl ⟨d, mem_registration.1 hd, rfl, rfl⟩
  · rw [hr.others name hmem, find?_initial] at h
    split at h
    · rename_i hbuiltin
      cases h
      exact .inr ⟨hbuiltin, rfl⟩
    · cases h

/-- A name stands for a class if a class of that name is declared. -/
theorem isClass_registration {name : String} :
    (∃ info, (registration p).1.table.find? name = some info ∧ info.category = .class_) ↔
      ∃ d, Introduces p (.class_ d) ∧ d.name = name := by
  rw [category_registration .class_ nofun, exists_class_iff]
  simp only [mem_registration]

/-! ## The stages -/

theorem extends_linked {child parent : String} :
    (linked p).table.Extends child parent ↔ Links p child parent := by
  constructor
  · rintro ⟨info, hfind, hsuper⟩
    by_cases hmem : child ∈ (keptClasses p).map ClassDecl.name
    · obtain ⟨d, hd, rfl⟩ := List.mem_map.1 hmem
      cases (find?_linked hd).symm.trans hfind
      dsimp only at hsuper
      split at hsuper
      · rename_i hnone
        rw [hsuper, supertypeFaults_eq_nil_iff] at hnone
        exact ⟨⟨d, mem_keptClasses_iff.1 hd, rfl, hsuper⟩, isClass_registration.1 hnone⟩
      · cases hsuper
    · rw [(round_linked p).others child hmem] at hfind
      rw [bare_of_registration hfind] at hsuper
      cases hsuper
  · rintro ⟨⟨d, hd, rfl, hsuper⟩, hparent⟩
    have hnone : supertypeFaults (registration p).1.table .class_ d.position d.superclass = [] := by
      rw [hsuper, supertypeFaults_eq_nil_iff]
      exact isClass_registration.2 hparent
    exact ⟨_, find?_linked (mem_keptClasses_iff.2 hd), (if_pos hnone).trans hsuper⟩

theorem mem_cyclicClasses {d : ClassDecl} :
    d ∈ Collected.cyclicClasses (linked p).table (keptClasses p) ↔
      Introduces p (.class_ d) ∧ OnCycle p d.name := by
  have hsame : (linked p).table.Extends = Links p :=
    funext₂ fun _ _ => propext extends_linked
  rw [Collected.cyclicClasses, List.mem_filter, mem_keptClasses_iff, Table.extendsItself_iff, hsame,
    OnCycle]

/-- What lies on a cycle is declared. -/
theorem exists_of_onCycle {name : String} (h : OnCycle p name) :
    name ∈ (Collected.cyclicClasses (linked p).table (keptClasses p)).map ClassDecl.name := by
  obtain ⟨-, ⟨⟨d, hd, rfl, -⟩, -⟩, -⟩ := Relation.TransGen.head'_iff.1 h
  exact List.mem_map_of_mem (mem_cyclicClasses.2 ⟨hd, h⟩)

theorem extends_acyclic {child parent : String} :
    (acyclic p).table.Extends child parent ↔ Links p child parent ∧ ¬ OnCycle p child := by
  have hcut : child ∈ (Collected.cyclicClasses (linked p).table (keptClasses p)).map
      ClassDecl.name ↔ OnCycle p child := by
    refine ⟨?_, exists_of_onCycle⟩
    intro hmem
    obtain ⟨d, hd, rfl⟩ := List.mem_map.1 hmem
    exact (mem_cyclicClasses.1 hd).2
  rw [← extends_linked, Table.Extends, acyclic, Collected.find?_cutCycles]
  by_cases hcycle : OnCycle p child
  · rw [if_pos (hcut.2 hcycle)]
    refine ⟨?_, fun h => (h.2 hcycle).elim⟩
    rintro ⟨info, hfind, hsuper⟩
    obtain ⟨before, -, rfl⟩ := Option.map_eq_some_iff.1 hfind
    cases hsuper
  · rw [if_neg (mt hcut.1 hcycle), and_iff_left hcycle]
    rfl

/-- Every way up ends: a cycle would consist of links that were not cut. -/
theorem not_transGen_acyclic (name : String) : ¬ Relation.TransGen (acyclic p).table.Extends name name := by
  intro h
  have hcycle : OnCycle p name := by
    refine Relation.TransGen.mono ?_ name name h
    intro child parent hstep
    exact (extends_acyclic.1 hstep).1
  obtain ⟨_, hfirst, -⟩ := Relation.TransGen.head'_iff.1 h
  exact (extends_acyclic.1 hfirst).2 hcycle

/-- Members change neither the category nor the supertypes of a type. -/
theorem headed_collect {name : String} {info : TypeInfo}
    (h : (collect p).table.find? name = some info) :
    ∃ info', (acyclic p).table.find? name = some info' ∧ info.category = info'.category ∧
      info.superclass = info'.superclass ∧ info.interface = info'.interface := by
  have hshows := (round_classes p).shows name
  rw [h, Option.map_some, Table.sights, eq_comm, Option.map_eq_some_iff] at hshows
  obtain ⟨middle, hmiddle, hcontract⟩ := hshows
  obtain ⟨before, hbefore, hheading⟩ := find?_withInterfaces hmiddle
  have hcut : ∀ info : TypeInfo, info.contract.heading = info.heading := by
    intro info
    unfold TypeInfo.contract
    split <;> rfl
  have hsame : info.heading = before.heading := by
    rw [← hheading, ← hcut info, ← hcut middle, hcontract]
  simp only [TypeInfo.heading, TypeInfo.mk.injEq] at hsame
  exact ⟨before, hbefore, hsame.2.1, hsame.2.2.1, hsame.2.2.2.1⟩

theorem category_collect {name : String} : ((collect p).table.find? name).map TypeInfo.category =
    ((registration p).1.table.find? name).map TypeInfo.category := by
  have h := congrArg (Option.map TypeInfo.category) ((round_classes p).shows name)
  have hcategory : TypeInfo.category ∘ TypeInfo.contract = TypeInfo.category := by
    funext info
    rw [Function.comp_apply, TypeInfo.contract]
    split <;> rfl
  rw [Table.sights, Option.map_map, Option.map_map, hcategory] at h
  exact h.trans category_withInterfaces

theorem extends_collect {child parent : String} :
    (collect p).table.Extends child parent ↔ Links p child parent ∧ ¬ OnCycle p child := by
  rw [← extends_acyclic]
  constructor
  · rintro ⟨info, hfind, hsuper⟩
    obtain ⟨before, hbefore, -, hsame, -⟩ := headed_collect hfind
    exact ⟨before, hbefore, hsame ▸ hsuper⟩
  · rintro ⟨before, hbefore, hsuper⟩
    have hknown : ((collect p).table.find? child).map TypeInfo.category =
        ((acyclic p).table.find? child).map TypeInfo.category :=
      category_collect.trans category_acyclic.symm
    rw [hbefore, Option.map_some, Option.map_eq_some_iff] at hknown
    obtain ⟨info, hfind, -⟩ := hknown
    obtain ⟨before', hbefore', -, hsame, -⟩ := headed_collect hfind
    cases hbefore.symm.trans hbefore'
    exact ⟨info, hfind, hsame.trans hsuper⟩

end Program

/-! ## Reports -/

/-- A report of a cycle. -/
def Fault.IsCyclic (f : Located Fault) : Prop := f.fault.code = .cyclicInheritance

instance : DecidablePred Fault.IsCyclic := fun f =>
  inferInstanceAs (Decidable (f.fault.code = .cyclicInheritance))

namespace Collected

/-- The reports of cycles. -/
def cyclicFaults (c : Collected) : List (Located Fault) := c.faults.toList.filter Fault.IsCyclic

/-- The steps before and behind the cut report no cycles. -/
theorem Grows.cyclicFaults {codes : List Code} {c c' : Collected} (h : Grows codes c c')
    (hcodes : .cyclicInheritance ∉ codes) : c'.cyclicFaults = c.cyclicFaults := by
  obtain ⟨new, hnew, hcode⟩ := h
  have hnone : new.filter Fault.IsCyclic = [] := by
    rw [List.filter_eq_nil_iff]
    intro f hf
    rw [decide_eq_true_iff]
    exact fun hcyclic => hcodes (hcyclic ▸ hcode f hf)
  rw [Collected.cyclicFaults, Collected.cyclicFaults, hnew, List.filter_append, hnone,
    List.append_nil]

theorem cyclicFaults_cutCycles (c : Collected) (classes : List ClassDecl) :
    (c.cutCycles classes).cyclicFaults = c.cyclicFaults ++
      (cyclicClasses c.table classes).map fun d => ⟨.cyclic d.name, d.position⟩ := by
  rw [cyclicFaults, faults_cutCycles, List.filter_append]
  congr 1
  rw [List.filter_eq_self]
  intro f hf
  obtain ⟨d, -, rfl⟩ := List.mem_map.1 hf
  exact decide_eq_true rfl

end Collected

section Program

variable {p : Program}

/-- The reports of cycles are those of the classes that were cut. -/
theorem cyclicFaults_collect : (collect p).cyclicFaults =
    (Collected.cyclicClasses (linked p).table (keptClasses p)).map fun d =>
      ⟨.cyclic d.name, d.position⟩ := by
  have hapart : Code.cyclicInheritance ∉ declarationCodes := by decide
  have hregistered : (registration p).1.cyclicFaults = [] :=
    (Collected.grows_registerAll ⟨.initial, #[]⟩ p.declarations).cyclicFaults hapart
  have hlinked : (linked p).cyclicFaults = (registration p).1.cyclicFaults :=
    (Collected.Grows.foldl Collected.grows_linkSupertypes _ _).cyclicFaults hapart
  have hacyclic := Collected.cyclicFaults_cutCycles (linked p) (keptClasses p)
  have hinterfaces : (withInterfaces p).cyclicFaults = (acyclic p).cyclicFaults :=
    (Collected.Grows.foldl Collected.grows_collectInterface _ _).cyclicFaults hapart
  have hclasses : (collect p).cyclicFaults = (withInterfaces p).cyclicFaults := by
    rw [collect_eq]
    exact (Collected.Grows.foldl Collected.grows_classStep _ _).cyclicFaults (by decide)
  rw [hclasses, hinterfaces, acyclic, hacyclic, hlinked, hregistered, List.nil_append]

/-! ## The hierarchy -/

/-- How the types of a table stand to each other and to a program, and which cycles were reported. -/
structure Hierarchy (p : Program) (c : Collected) : Prop where
  declared : ∀ d, Introduces p d →
    ∃ info, c.table.find? d.name = some info ∧ info.category = d.category
  builtin : ∀ name ∈ builtins,
    ∃ info, c.table.find? name = some info ∧ info.category = .primitive
  known : ∀ name info, c.table.find? name = some info →
    (∃ d, Introduces p d ∧ d.name = name) ∨ name ∈ builtins
  acyclic : ∀ name, ¬ Relation.TransGen c.table.Extends name name
  superclass : ∀ name info, c.table.find? name = some info → ∀ s ∈ info.superclass,
    ∃ above, c.table.find? s = some above ∧ above.category = .class_
  interface : ∀ name info, c.table.find? name = some info → ∀ i ∈ info.interface,
    ∃ above, c.table.find? i = some above ∧ above.category = .interface
  plain : ∀ name info, c.table.find? name = some info → info.category ≠ .class_ →
    info.superclass = none ∧ info.interface = none
  kept : ∀ child parent, c.table.Extends child parent ↔ Links p child parent ∧ ¬ OnCycle p child
  reported : ∃ cyclic : List ClassDecl, cyclic.Sublist (p.declarations.filterMap TypeDecl.class?) ∧
    (cyclic.map ClassDecl.name).Nodup ∧
    (∀ d, d ∈ cyclic ↔ Introduces p (.class_ d) ∧ OnCycle p d.name) ∧
    c.cyclicFaults = cyclic.map fun d => ⟨.cyclic d.name, d.position⟩

/-- What stands behind the category of a name. -/
theorem exists_of_category {name : String} {category : Category}
    (h : ∃ info, (registration p).1.table.find? name = some info ∧ info.category = category) :
    ∃ info, (collect p).table.find? name = some info ∧ info.category = category := by
  have hsame := @category_collect p name
  obtain ⟨before, hbefore, hcategory⟩ := h
  rw [hbefore, Option.map_some, Option.map_eq_some_iff] at hsame
  obtain ⟨info, hfind, hinfo⟩ := hsame
  exact ⟨info, hfind, hinfo.trans hcategory⟩

/-- Only classes have supertypes. -/
theorem supertypes_linked {name : String} {info : TypeInfo}
    (h : (linked p).table.find? name = some info) (hcategory : info.category ≠ .class_) :
    info.superclass = none ∧ info.interface = none := by
  by_cases hmem : name ∈ (keptClasses p).map ClassDecl.name
  · obtain ⟨d, hd, rfl⟩ := List.mem_map.1 hmem
    cases (find?_linked hd).symm.trans h
    exact (hcategory rfl).elim
  · rw [(round_linked p).others name hmem] at h
    rw [bare_of_registration h]
    exact ⟨rfl, rfl⟩

/-- A type has the category and the interface with which it was linked, and its superclass
unless that was cut. -/
theorem supertypes_collect {name : String} {info : TypeInfo}
    (h : (collect p).table.find? name = some info) :
    ∃ before, (linked p).table.find? name = some before ∧ info.category = before.category ∧
      info.interface = before.interface ∧
      (before.superclass = none → info.superclass = none) := by
  obtain ⟨middle, hmiddle, hcategory, hsuper, hinterface⟩ := headed_collect h
  rw [acyclic, Collected.find?_cutCycles] at hmiddle
  split at hmiddle
  · obtain ⟨before, hbefore, rfl⟩ := Option.map_eq_some_iff.1 hmiddle
    exact ⟨before, hbefore, hcategory, hinterface, fun _ => hsuper⟩
  · exact ⟨middle, hmiddle, hcategory, hinterface, fun hnone => hsuper.trans hnone⟩

theorem hierarchy_collect (p : Program) : Hierarchy p (collect p) where
  declared d hd := by
    apply exists_of_category
    exact ⟨_, (recorded_registration p).own d (mem_registration.2 hd), rfl⟩
  builtin name hname := by
    apply exists_of_category
    refine ⟨.bare name .primitive, ?_, rfl⟩
    rw [(recorded_registration p).others name, find?_initial, if_pos hname]
    intro hmem
    obtain ⟨d, hd, rfl⟩ := List.mem_map.1 hmem
    obtain ⟨-, -, -, -, hfree⟩ := mem_registration.1 hd
    exact hfree hname
  known name info hfind := by
    have hsame := @category_collect p name
    rw [hfind, Option.map_some, eq_comm, Option.map_eq_some_iff] at hsame
    obtain ⟨before, hbefore, -⟩ := hsame
    rcases find?_registration hbefore with ⟨d, hd, hname, -⟩ | ⟨hbuiltin, -⟩
    · exact .inl ⟨d, hd, hname⟩
    · exact .inr hbuiltin
  acyclic name h := by
    have hsame : (collect p).table.Extends = (acyclic p).table.Extends :=
      funext₂ fun _ _ => propext (extends_collect.trans extends_acyclic.symm)
    rw [hsame] at h
    exact not_transGen_acyclic name h
  superclass name info hfind s hs := by
    apply exists_of_category
    have hlink := (extends_collect.1 ⟨info, hfind, hs⟩).1
    exact isClass_registration.2 hlink.2
  interface name info hfind i hi := by
    obtain ⟨before, hbefore, -, hinterface, -⟩ := supertypes_collect hfind
    apply exists_of_category
    exact isInterface_linked hbefore (hinterface ▸ hi)
  plain name info hfind hcategory := by
    obtain ⟨before, hbefore, hsame, hinterface, hsuper⟩ := supertypes_collect hfind
    obtain ⟨hnone, hnone'⟩ := supertypes_linked hbefore (hsame ▸ hcategory)
    exact ⟨hsuper hnone, hinterface.trans hnone'⟩
  kept _ _ := extends_collect
  reported := by
    have hclasses : (keptClasses p).Sublist (p.declarations.filterMap TypeDecl.class?) :=
      (recorded_registration p).sublist.filterMap _
    exact ⟨Collected.cyclicClasses (linked p).table (keptClasses p),
      List.filter_sublist.trans hclasses, nodup_keptClasses.sublist (List.filter_sublist.map _),
      fun _ => mem_cyclicClasses, cyclicFaults_collect⟩

end Program

end Javelet.Types
