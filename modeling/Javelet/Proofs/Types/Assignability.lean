import Javelet.Proofs.Lowering.OperandStack
import Javelet.Proofs.Types.Inheritance

/-!
# Assignability is an order

A type names its superclass and its interface, and what it is a subtype of is what these names lead
to, in any number of steps. The superclasses lead into no cycle, and an interface names no further
types, so no way leads from a type back to itself. Besides subtypes, the null type may be stored
where references are, and characters where integers are. Nothing lies between these cases, because
no type is below a built-in type but itself. So assignability is a partial order on the types over
the names of the table, whether or not collecting them has found faults.
-/
namespace Javelet.Types

namespace Table

/-- A type names another one as its interface. -/
def Implements (t : Table) (child interface : String) : Prop :=
  ∃ info, t.find? child = some info ∧ info.interface = some interface

/-- A type names another one, as its superclass or as its interface. -/
def NamesAbove (t : Table) (child above : String) : Prop :=
  t.Extends child above ∨ t.Implements child above

/-- The types of a table stand in layers: the superclasses are classes and lead into no cycle, the
interfaces have nothing above them, and neither have the built-in types. -/
structure Layered (t : Table) : Prop where
  acyclic : ∀ name, ¬ Relation.TransGen t.Extends name name
  superclass : ∀ {child parent}, t.Extends child parent →
    ∃ info, t.find? parent = some info ∧ info.category = .class_
  interface : ∀ {child i}, t.Implements child i →
    ∃ info, t.find? i = some info ∧ info.category = .interface
  plain : ∀ {name info}, t.find? name = some info → info.category ≠ .class_ →
    info.superclass = none ∧ info.interface = none
  builtin : ∀ name ∈ builtins, ∃ info, t.find? name = some info ∧ info.category = .primitive

end Table

theorem layered_collect (p : Program) : (collect p).table.Layered where
  acyclic name := by
    have hsame : (collect p).table.Extends = (acyclic p).table.Extends :=
      funext₂ fun _ _ => propext (extends_collect.trans extends_acyclic.symm)
    rw [hsame]
    exact not_transGen_acyclic name
  superclass h := exists_of_category (isClass_registration.2 (extends_collect.1 h).1.2)
  interface := by
    rintro child i ⟨info, hfind, hi⟩
    obtain ⟨before, hbefore, -, hsame, -⟩ := supertypes_collect hfind
    exact exists_of_category (isInterface_linked hbefore (hsame ▸ hi))
  plain := by
    intro name info hfind hcategory
    obtain ⟨before, hbefore, hsame, hinterface, hsuper⟩ := supertypes_collect hfind
    obtain ⟨hnone, hnone'⟩ := supertypes_linked hbefore (hsame ▸ hcategory)
    exact ⟨hsuper hnone, hinterface.trans hnone'⟩
  builtin name hname := by
    refine exists_of_category ⟨.bare name .primitive, ?_, rfl⟩
    rw [(recorded_registration p).others name, find?_initial, if_pos hname]
    intro hmem
    obtain ⟨d, hd, rfl⟩ := List.mem_map.1 hmem
    obtain ⟨-, -, -, -, hfree⟩ := mem_registration.1 hd
    exact hfree hname

namespace Table

variable {t : Table} {name sub sup middle : String}

theorem contains_of_find? {info : TypeInfo} (h : t.find? name = some info) :
    t.contains name = true := by
  rw [contains, h]
  rfl

theorem contains_of_namesAbove (h : t.NamesAbove sub sup) : t.contains sub = true := by
  rcases h with ⟨info, hfind, -⟩ | ⟨info, hfind, -⟩
  · exact contains_of_find? hfind
  · exact contains_of_find? hfind

namespace Layered

variable (ht : t.Layered)

include ht

/-! ## Ways up -/

/-- What stands above a type is known, and it is not built in. -/
theorem category_above (h : t.NamesAbove sub sup) :
    ∃ info, t.find? sup = some info ∧ info.category ≠ .primitive := by
  rcases h with hsuper | hinterface
  · obtain ⟨info, hfind, hcategory⟩ := ht.superclass hsuper
    exact ⟨info, hfind, by rw [hcategory]; nofun⟩
  · obtain ⟨info, hfind, hcategory⟩ := ht.interface hinterface
    exact ⟨info, hfind, by rw [hcategory]; nofun⟩

/-- Only classes have something above them. -/
theorem not_namesAbove {info : TypeInfo} (hfind : t.find? sub = some info)
    (hcategory : info.category ≠ .class_) : ¬ t.NamesAbove sub sup := by
  obtain ⟨hsuper, hinterface⟩ := ht.plain hfind hcategory
  rintro (⟨info', hfind', h⟩ | ⟨info', hfind', h⟩)
  · cases hfind.symm.trans hfind'
    cases hsuper.symm.trans h
  · cases hfind.symm.trans hfind'
    cases hinterface.symm.trans h

theorem not_namesAbove_of_implements (h : t.Implements middle sub) : ¬ t.NamesAbove sub sup := by
  obtain ⟨info, hfind, hcategory⟩ := ht.interface h
  exact ht.not_namesAbove hfind (by rw [hcategory]; nofun)

/-- A way up goes along superclasses, until it perhaps ends in an interface. -/
theorem extends_or_implements (h : Relation.ReflTransGen t.NamesAbove sub sup) :
    Relation.ReflTransGen t.Extends sub sup ∨ ∃ child, t.Implements child sup := by
  induction h with
  | refl => exact .inl .refl
  | tail _ hstep ih =>
    rcases ih with hway | ⟨child, himplements⟩
    · exact hstep.imp hway.tail fun himplements => ⟨_, himplements⟩
    · exact (ht.not_namesAbove_of_implements himplements hstep).elim

/-- No way up leads back to where it began. -/
theorem not_transGen_namesAbove (name : String) : ¬ Relation.TransGen t.NamesAbove name name := by
  intro h
  obtain ⟨above, hstep, hway⟩ := Relation.TransGen.head'_iff.1 h
  -- a type that something stands above is not an interface
  rcases ht.extends_or_implements hway with hback | ⟨child, himplements⟩
  · rcases hstep with hsuper | himplements
    · exact ht.acyclic name (Relation.TransGen.head'_iff.2 ⟨above, hsuper, hback⟩)
    · rcases Relation.ReflTransGen.cases_head hway with rfl | ⟨next, hnext, -⟩
      · exact ht.not_namesAbove_of_implements himplements (.inr himplements)
      · exact ht.not_namesAbove_of_implements himplements hnext
  · exact ht.not_namesAbove_of_implements himplements hstep

theorem eq_of_ways (h : Relation.ReflTransGen t.NamesAbove sub sup)
    (hback : Relation.ReflTransGen t.NamesAbove sup sub) : sub = sup := by
  rcases Relation.reflTransGen_iff_eq_or_transGen.1 h with heq | hway
  · exact heq.symm
  · exact (ht.not_transGen_namesAbove sub (hway.trans_left hback)).elim

/-! ## Subtypes -/

/-- A known type is a subtype of what the names above it lead to. -/
theorem isSubtype_iff : t.isSubtype sub sup = true ↔
    t.contains sub = true ∧ Relation.ReflTransGen t.NamesAbove sub sup := by
  constructor
  · intro h
    obtain ⟨info, hinfo, hmeets⟩ := List.any_eq_true.1 h
    obtain ⟨hfind, hclimb⟩ := mem_ancestors.1 hinfo
    have hway : Relation.ReflTransGen t.NamesAbove sub info.name :=
      Relation.ReflTransGen.mono (fun _ _ h => Or.inl h) _ _ hclimb
    refine ⟨?_, ?_⟩
    · rcases Relation.ReflTransGen.cases_head hway with heq | ⟨next, hnext, -⟩
      · exact heq ▸ contains_of_find? hfind
      · exact contains_of_namesAbove hnext
    · rw [Bool.or_eq_true, beq_iff_eq, beq_iff_eq] at hmeets
      rcases hmeets with rfl | hinterface
      · exact hway
      · exact hway.tail (.inr ⟨info, hfind, hinterface⟩)
  · rintro ⟨hknown, hway⟩
    rw [isSubtype, List.any_eq_true]
    obtain ⟨info, hfind⟩ := Option.isSome_iff_exists.1 hknown
    induction hway with
    | refl =>
      have hname : info.name = sub := (mem_of_findType hfind).2
      exact ⟨info, mem_ancestors.2 ⟨hname ▸ hfind, by rw [hname]⟩, by simp [hname]⟩
    | tail _ hstep ih =>
      obtain ⟨found, hfound, hmeets⟩ := ih
      obtain ⟨hfind', hclimb⟩ := mem_ancestors.1 hfound
      rw [Bool.or_eq_true, beq_iff_eq, beq_iff_eq] at hmeets
      rcases hmeets with rfl | hinterface
      · rcases hstep with hsuper | ⟨found', hfind'', hinterface⟩
        · obtain ⟨above, habove, -⟩ := ht.superclass hsuper
          have hname : above.name = _ := (mem_of_findType habove).2
          refine ⟨above, mem_ancestors.2 ⟨hname ▸ habove, ?_⟩, by simp [hname]⟩
          rw [hname]
          exact hclimb.tail hsuper
        · cases hfind'.symm.trans hfind''
          exact ⟨found, hfound, by simp [hinterface]⟩
      · exact (ht.not_namesAbove_of_implements ⟨found, hfind', hinterface⟩ hstep).elim

theorem isSubtype_trans (h : t.isSubtype sub middle = true) (h' : t.isSubtype middle sup = true) :
    t.isSubtype sub sup = true := by
  rw [ht.isSubtype_iff] at h h' ⊢
  exact ⟨h.1, h.2.trans h'.2⟩

/-- Built-in types are apart: nothing is below or above them. -/
theorem eq_of_builtin (hname : sub ∈ builtins ∨ sup ∈ builtins)
    (h : t.isSubtype sub sup = true) : sub = sup := by
  obtain ⟨-, hway⟩ := ht.isSubtype_iff.1 h
  rcases hname with hsub | hsup
  · obtain ⟨info, hfind, hcategory⟩ := ht.builtin sub hsub
    rcases Relation.ReflTransGen.cases_head hway with heq | ⟨above, hstep, -⟩
    · exact heq
    · exact (ht.not_namesAbove hfind (by rw [hcategory]; nofun) hstep).elim
  · obtain ⟨info, hfind, hcategory⟩ := ht.builtin sup hsup
    rcases Relation.ReflTransGen.cases_tail hway with heq | ⟨below, -, hstep⟩
    · exact heq.symm
    · obtain ⟨info', hfind', hcategory'⟩ := ht.category_above hstep
      cases hfind.symm.trans hfind'
      exact (hcategory' hcategory).elim

end Layered

/-! ## Assignability -/

/-- What may be stored where a type is declared: values of the type, the null reference where
references are, characters where integers are, and values of the subtypes that are not built in. -/
inductive MayStore (t : Table) (a b : Ty) : Prop
  | same : a = b → MayStore t a b
  | null : a = .null → b.isReference = true → MayStore t a b
  | widened : a = .char → b = .int → MayStore t a b
  | subtype {sub sup : String} : a = .plain sub → b = .plain sup → sub ∉ builtins →
      sup ∉ builtins → t.isSubtype sub sup = true → MayStore t a b

theorem isNull_iff {ty : Ty} : ty.isNull = true ↔ ty = .null := by
  obtain ⟨name, isArray⟩ := ty
  simp [Ty.isNull, Ty.null, Ty.plain, and_comm]

theorem eq_plain {ty : Ty} (h : ty.isArray = false) : ty = .plain ty.name := by
  obtain ⟨name, isArray⟩ := ty
  cases h
  rfl

/-- The types that are held as integers are built in. -/
theorem mem_builtins_of_isInteger (h : (Ty.plain name).isInteger = true) : name ∈ builtins := by
  simp only [Ty.isInteger, Ty.plain, Bool.not_false, Bool.true_and, Bool.or_eq_true,
    beq_iff_eq] at h
  rcases h with (rfl | rfl) | rfl
  all_goals decide

/-- The types that are not built in are references, where they are not void. -/
theorem isReference_plain (hname : name ∉ builtins) (hvoid : (Ty.plain name).isVoid = false) :
    (Ty.plain name).isReference = true := by
  have hinteger : (Ty.plain name).isInteger = false :=
    Bool.eq_false_iff.2 fun h => hname (mem_builtins_of_isInteger h)
  rw [Ty.isReference, hvoid, hinteger]
  rfl

theorem plain_apart (hname : name ∉ builtins) :
    Ty.plain name ≠ .null ∧ Ty.plain name ≠ .char ∧ Ty.plain name ≠ .int := by
  refine ⟨?_, ?_, ?_⟩
  all_goals
    intro h
    have hbuiltin : (Ty.plain name).name ∈ builtins := by
      rw [h]
      decide
    exact hname hbuiltin

theorem isAssignable_iff (ht : t.Layered) {a b : Ty} :
    t.isAssignable a b = true ↔ t.MayStore a b := by
  constructor
  · intro h
    unfold isAssignable at h
    split at h
    · rename_i hsame
      exact .same hsame
    rename_i hne
    split at h
    · rename_i hnull
      exact .null (isNull_iff.1 hnull) h
    split at h
    · cases h
    rename_i harray
    rw [Bool.or_eq_true, not_or, Bool.not_eq_true, Bool.not_eq_true] at harray
    have ha := eq_plain harray.1
    have hb := eq_plain harray.2
    split at h
    · rename_i hwiden
      rw [Bool.and_eq_true, beq_iff_eq, beq_iff_eq] at hwiden
      rw [hwiden.1] at ha
      rw [hwiden.2] at hb
      exact .widened ha hb
    split at h
    · cases h
    · have hapart : ¬ (a.name ∈ builtins ∨ b.name ∈ builtins) := fun hbuiltin =>
        hne (by rw [ha, hb, ht.eq_of_builtin hbuiltin h])
      rw [not_or] at hapart
      exact .subtype ha hb hapart.1 hapart.2 h
  · intro h
    unfold isAssignable
    by_cases hne : a = b
    · rw [if_pos hne]
    rw [if_neg hne]
    cases h with
    | same heq => exact (hne heq).elim
    | null hnull href => rw [if_pos (isNull_iff.2 hnull), href]
    | widened ha hb =>
      subst ha hb
      rfl
    | @subtype sub sup ha hb hsub hsup hbelow =>
      subst ha hb
      have hnull : ¬ (Ty.plain sub).isNull = true := fun hnull =>
        (plain_apart hsub).1 (isNull_iff.1 hnull)
      have hchar : ¬ ((Ty.plain sub).name == "char" && (Ty.plain sup).name == "int") = true := by
        rw [Bool.and_eq_true, beq_iff_eq]
        rintro ⟨rfl, -⟩
        exact hsub (by decide)
      have hintegers : ¬ ((Ty.plain sub).isInteger || (Ty.plain sup).isInteger) = true := by
        rw [Bool.or_eq_true, not_or]
        exact ⟨fun h => hsub (mem_builtins_of_isInteger h),
          fun h => hsup (mem_builtins_of_isInteger h)⟩
      rw [if_neg hnull, if_neg (by simp [Ty.plain]), if_neg hchar, if_neg hintegers]
      exact hbelow

namespace Layered

variable (ht : t.Layered) {a b c : Ty}

include ht

theorem mayStore_trans (hvoid : c.isVoid = false) (h : t.MayStore a b) (h' : t.MayStore b c) :
    t.MayStore a c := by
  cases h with
  | same heq => exact heq ▸ h'
  | null ha href =>
    -- the null reference may be stored wherever references are
    refine .null ha ?_
    cases h' with
    | same heq => exact heq ▸ href
    | null _ href' => exact href'
    | widened hb => rw [hb] at href; cases href
    | subtype _ hc _ hsup _ => exact hc ▸ isReference_plain hsup (hc ▸ hvoid)
  | widened ha hb =>
    subst hb
    cases h' with
    | same heq => exact .widened ha heq.symm
    | null hint => exact absurd hint (by decide)
    | widened hint => exact absurd hint (by decide)
    | subtype hint _ hsub => exact ((plain_apart hsub).2.2 hint.symm).elim
  | subtype ha hb hsub hmiddle hbelow =>
    subst hb
    cases h' with
    | same heq => exact .subtype ha heq.symm hsub hmiddle hbelow
    | null hnull => exact ((plain_apart hmiddle).1 hnull).elim
    | widened hchar => exact ((plain_apart hmiddle).2.1 hchar).elim
    | subtype hmiddle' hc _ hsup hbelow' =>
      cases hmiddle'
      exact .subtype ha hc hsub hsup (ht.isSubtype_trans hbelow hbelow')

theorem mayStore_antisymm (h : t.MayStore a b) (h' : t.MayStore b a) : a = b := by
  cases h with
  | same heq => exact heq
  | null ha =>
    subst ha
    cases h' with
    | same heq => exact heq.symm
    | null hb => exact hb.symm
    | widened _ hint => exact absurd hint (by decide)
    | subtype _ hnull _ hsup => exact ((plain_apart hsup).1 hnull.symm).elim
  | widened ha =>
    subst ha
    cases h' with
    | same heq => exact heq.symm
    | null _ href => cases href
    | widened _ hint => exact absurd hint (by decide)
    | subtype _ hchar _ hsup => exact ((plain_apart hsup).2.1 hchar.symm).elim
  | subtype ha hb hsub hsup hbelow =>
    subst ha hb
    cases h' with
    | same heq => exact heq.symm
    | null hnull => exact ((plain_apart hsup).1 hnull).elim
    | widened hchar => exact ((plain_apart hsup).2.1 hchar).elim
    | subtype hsup' hsub' _ _ hback =>
      cases hsup'
      cases hsub'
      rw [ht.eq_of_ways (ht.isSubtype_iff.1 hbelow).2 (ht.isSubtype_iff.1 hback).2]

/-- A value of a subtype may be stored where the type is declared. -/
theorem mayStore_of_isSubtype (h : t.isSubtype sub sup = true) :
    t.MayStore (.plain sub) (.plain sup) := by
  by_cases hbuiltin : sub ∈ builtins ∨ sup ∈ builtins
  · exact .same (congrArg Ty.plain (ht.eq_of_builtin hbuiltin h))
  · rw [not_or] at hbuiltin
    exact .subtype rfl rfl hbuiltin.1 hbuiltin.2 h

end Layered

/-- Assignability orders the types over the names of a table, and subtyping follows the superclasses
and the interfaces. -/
structure Ordered (t : Table) : Prop where
  refl : ∀ a, t.contains a.name = true → t.isAssignable a a = true
  trans : ∀ a b c, t.contains a.name = true → t.contains b.name = true →
    t.contains c.name = true → t.isAssignable a b = true → t.isAssignable b c = true →
    t.isAssignable a c = true
  antisymm : ∀ a b, t.contains a.name = true → t.contains b.name = true →
    t.isAssignable a b = true → t.isAssignable b a = true → a = b
  subtype_iff : ∀ sub sup, t.isSubtype sub sup = true ↔
    t.contains sub = true ∧ Relation.ReflTransGen t.NamesAbove sub sup
  subtype_trans : ∀ sub middle sup, t.isSubtype sub middle = true → t.isSubtype middle sup = true →
    t.isSubtype sub sup = true
  inherits : ∀ sub middle i, t.isSubtype sub middle = true → t.Implements middle i →
    t.isAssignable (.plain sub) (.plain i) = true

end Table

/-- The types that are collected from a program are ordered, with faults or without. -/
theorem ordered_collect {source : String} {p : Program} (h : parseSource source = .ok p) :
    (collect p).table.Ordered := by
  have ht := layered_collect p
  have hnamed := wellNamed_collect (Lowering.wellNamed_of_parseSource h).1
  refine ⟨?_, ?_, ?_, fun _ _ => ht.isSubtype_iff, fun _ _ _ => ht.isSubtype_trans, ?_⟩
  · intro a _
    exact (Table.isAssignable_iff ht).2 (.same rfl)
  · intro a b c _ _ hc hab hbc
    rw [Table.isAssignable_iff ht] at hab hbc ⊢
    exact ht.mayStore_trans (Ty.IsValue.isVoid (hnamed.of_contains hc)) hab hbc
  · intro a b _ _ hab hba
    rw [Table.isAssignable_iff ht] at hab hba
    exact ht.mayStore_antisymm hab hba
  · intro sub middle i hsub himplements
    obtain ⟨hknown, hway⟩ := ht.isSubtype_iff.1 hsub
    exact (Table.isAssignable_iff ht).2
      (ht.mayStore_of_isSubtype (ht.isSubtype_iff.2 ⟨hknown, hway.tail (.inr himplements)⟩))

/-- A subclass of a class with an interface, beside two classes on a cycle. -/
def subclassAndCycle : String :=
  "interface I { } class A implements I { } class B extends A { } " ++
    "class C extends D { } class D extends C { }"

theorem subclassAndCycle_ordered : ∃ p, parseSource subclassAndCycle = .ok p ∧
    (collect p).faults.size = 2 ∧ (collect p).table.isAssignable (.plain "B") (.plain "I") = true ∧
    (collect p).table.Ordered := by
  have hok : (parseSource subclassAndCycle).toOption.any (fun p => (collect p).faults.size == 2 &&
      (collect p).table.isAssignable (.plain "B") (.plain "I")) = true := by
    rw [parseSource, tokenize_ofList (s := subclassAndCycle) (Source.append_ofList rfl rfl)]
    decide +kernel
  obtain ⟨p, h, hboth⟩ := Lowering.exists_ok_of_any hok
  obtain ⟨hsize, hassign⟩ := (Bool.and_eq_true _ _).mp hboth
  exact ⟨p, h, beq_iff_eq.1 hsize, hassign, ordered_collect h⟩

end Javelet.Types
