import Javelet.Proofs.Lowering.OperandStack
import Javelet.Proofs.Types.Faultless
import Javelet.Proofs.Types.Inheritance

/-!
# The rules of declarations

What has to hold of the declared types of a program is said here without a table and without an
order: of the names of the types, of supertypes, of properties and of headers. The main statement is
that collecting reports nothing, or only methods that an interface asks for, exactly if the program
obeys these rules.

A stage adds no fault exactly if every declaration obeys the rules that the stage checks. That is
shown stage by stage, each one for programs with which the stages before it found nothing wrong.
-/
namespace Javelet

/-- The headers of the members of a type. -/
def TypeDecl.headers : TypeDecl → List Signature
  | class_ d => d.headers
  | interface e => e.methods

namespace Program

/-- The types that values can be declared with: the built-in types, but not the one of `null`, the
declared types, and the arrays over them. -/
def Knows (p : Program) (ty : Ty) : Prop :=
  ty.name ∈ ["int", "char", "boolean", "String"] ∨ ty.name ∈ p.declarations.map TypeDecl.name

/-- A class names another type as its superclass. -/
def Extends (p : Program) (child parent : String) : Prop :=
  ∃ d, .class_ d ∈ p.declarations ∧ d.name = child ∧ d.superclass = some parent

end Program

/-- The rules for the members of a class: its properties have known types and different names, and
no method has the name of a property. -/
structure ClassDecl.ObeysRules (p : Program) (d : ClassDecl) : Prop where
  propertyTypes : ∀ q ∈ d.properties, p.Knows q.variable_.type
  propertyNames : (d.properties.map fun q => q.variable_.name).Nodup
  methodNames : ∀ m ∈ d.methods ++ d.main.toList,
    m.signature.name ∉ d.properties.map fun q => q.variable_.name

/-- The rules for the headers of a type: the types in them are known, and no two of them agree in
their names and in the types of their parameters. -/
structure HeadersObey (p : Program) (headers : List Signature) : Prop where
  params : ∀ s ∈ headers, ∀ q ∈ s.params, p.Knows q.type
  returns : ∀ s ∈ headers, s.returns = .void ∨ p.Knows s.returns
  signatures : (headers.map fun s => (s.name, s.paramTypes)).Nodup

/-- The rules for the declarations of a program. -/
structure Program.ObeysRules (p : Program) : Prop where
  names : (p.declarations.map TypeDecl.name).Nodup
  free : ∀ d ∈ p.declarations, d.name ∉ Types.builtins
  superclasses : ∀ d, .class_ d ∈ p.declarations → ∀ s ∈ d.superclass,
    ∃ d', .class_ d' ∈ p.declarations ∧ d'.name = s
  interfaces : ∀ d, .class_ d ∈ p.declarations → ∀ i ∈ d.interface,
    ∃ e, .interface e ∈ p.declarations ∧ e.name = i
  acyclic : ∀ name, ¬ Relation.TransGen p.Extends name name
  members : ∀ d, .class_ d ∈ p.declarations → d.ObeysRules p
  headers : ∀ d ∈ p.declarations, HeadersObey p d.headers

namespace Types

open Lowering

/-! ## Stages that report nothing -/

/-- All faults have one code. -/
def Collected.Only (code : Code) (c : Collected) : Prop :=
  ∀ f ∈ c.faults.toList, f.fault.code = code

section Only

variable {c c' : Collected} {code : Code} {codes : List Code}

theorem Collected.Grows.only_iff (h : Collected.Grows codes c c') (hcode : code ∉ codes) :
    c'.Only code ↔ c.Only code ∧ c'.faults.toList = c.faults.toList := by
  obtain ⟨new, hnew, hcodes⟩ := h
  rw [Collected.Only, hnew, List.forall_mem_append, List.append_right_eq_self]
  refine and_congr_right fun _ => ⟨fun hall => ?_, fun hnil => hnil ▸ List.forall_mem_nil _⟩
  refine List.eq_nil_iff_forall_not_mem.2 fun f hf => hcode ?_
  exact hall f hf ▸ hcodes f hf

/-- In a round all faults have one code, if that is so of the faults that each step reports. -/
theorem Round.only_iff {α : Type} {view : TypeInfo → TypeInfo} {sights : String → Option TypeInfo}
    {name : α → String} {step : Collected → α → Collected} {xs : List α}
    (hr : Round view sights name step xs c c') :
    c'.Only code ↔ c.Only code ∧ ∀ x ∈ xs, (step c x).Only code := by
  rw [Collected.Only, hr.faults, List.forall_mem_append, List.forall_mem_flatMap]
  refine and_congr_right fun hc => forall₂_congr fun x hx => ?_
  rw [Collected.Only, hr.alone x hx, List.forall_mem_append]
  exact (and_iff_right hc).symm

end Only

theorem typeFaults_eq_nil {t : Table} {ty : Ty} {pos : Position} : typeFaults t ty pos = [] ↔
    ty.isVoid = false ∧ ty.name ≠ "null" ∧ t.contains ty.name = true := by
  unfold typeFaults Table.resolve
  by_cases hno : (ty.isVoid || ty.name == "null") = true
  · rw [if_pos hno]
    simp only [Bool.or_eq_true, beq_iff_eq] at hno
    refine iff_of_false (List.cons_ne_nil _ _) ?_
    rintro ⟨hvoid, hnull, -⟩
    exact hno.elim (ne_true_of_eq_false hvoid) hnull
  · rw [if_neg hno]
    simp only [Bool.or_eq_true, beq_iff_eq, not_or, Bool.not_eq_true] at hno
    rw [and_iff_right hno.1, and_iff_right hno.2]
    cases t.contains ty.name <;> simp

section Stages

variable {p : Program}

theorem only_registration :
    (registration p).1.Only .missingInterfaceMethod ↔ (registration p).1.faults.toList = [] := by
  have hgrows := Collected.grows_registerAll ⟨.initial, #[]⟩ p.declarations
  exact (hgrows.only_iff (by decide)).trans (and_iff_right (List.forall_mem_nil _))

theorem only_linked : (linked p).Only .missingInterfaceMethod ↔
    (registration p).1.Only .missingInterfaceMethod ∧ ∀ d ∈ keptClasses p,
      supertypeFaults (registration p).1.table .class_ d.position d.superclass = [] ∧
        supertypeFaults (registration p).1.table .interface d.position d.interface = [] := by
  rw [(round_linked p).only_iff]
  refine and_congr_right fun hbefore => forall₂_congr fun d _ => ?_
  rw [(Collected.grows_linkSupertypes _ d).only_iff (by decide), and_iff_right hbefore,
    Collected.linkSupertypes_eq, ← List.append_eq_nil_iff]
  exact faults_reportAll _ _

theorem only_acyclic : (acyclic p).Only .missingInterfaceMethod ↔
    (linked p).Only .missingInterfaceMethod ∧
      Collected.cyclicClasses (linked p).table (keptClasses p) = [] := by
  rw [Collected.Only, acyclic, Collected.faults_cutCycles, List.forall_mem_append,
    List.forall_mem_map]
  refine and_congr_right fun _ => ⟨fun h => ?_, fun hnil => hnil ▸ List.forall_mem_nil _⟩
  refine List.eq_nil_iff_forall_not_mem.2 fun d hd => ?_
  cases h d hd

theorem only_withInterfaces : (withInterfaces p).Only .missingInterfaceMethod ↔
    (acyclic p).Only .missingInterfaceMethod ∧ ∀ e ∈ keptInterfaces p,
      ((acyclic p).collectInterface e).faults.toList = (acyclic p).faults.toList := by
  rw [(round_interfaces p).only_iff]
  refine and_congr_right fun hbefore => forall₂_congr fun e _ => ?_
  rw [(Collected.grows_collectInterface _ e).only_iff (by decide), and_iff_right hbefore]

theorem only_collect : (collect p).Only .missingInterfaceMethod ↔
    (withInterfaces p).Only .missingInterfaceMethod ∧ ∀ d ∈ keptClasses p,
      ((withInterfaces p).collectClass d).faults.toList = (withInterfaces p).faults.toList := by
  rw [(round_classes p).only_iff]
  refine and_congr_right fun hbefore => forall₂_congr fun d _ => ?_
  have hcollect := (Collected.grows_collectClass (withInterfaces p) d).only_iff
    (show Code.missingInterfaceMethod ∉ declarationCodes by decide)
  rw [and_iff_right hbefore] at hcollect
  rw [← hcollect]
  -- the methods that an interface asks for are missing without harm
  obtain ⟨new, hnew, hcodes⟩ := Collected.grows_checkInterface ((withInterfaces p).collectClass d) d
  rw [Collected.Only, hnew, List.forall_mem_append]
  exact and_iff_left fun f hf => List.mem_singleton.1 (hcodes f hf)

end Stages

/-! ## Rules and stages -/

section Rules

variable {p : Program}

theorem registration_iff : (registration p).1.faults.toList = [] ↔
    (p.declarations.map TypeDecl.name).Nodup ∧ ∀ d ∈ p.declarations, d.name ∉ builtins := by
  constructor
  · intro h
    obtain ⟨-, hnodup, hfree⟩ := registerAll_faultless h
    exact ⟨hnodup, fun d hd => contains_initial_eq_false.1 (hfree d hd)⟩
  · rintro ⟨hnodup, hfree⟩
    have hnone : (p.declarations.filter fun d => Table.initial.contains d.name) = [] :=
      List.filter_eq_nil_iff.2 fun d hd =>
        ne_true_of_eq_false (contains_initial_eq_false.2 (hfree d hd))
    rw [(registered_registration hnodup).faults, hnone]
    rfl

theorem cyclicClasses_eq_nil_iff : Collected.cyclicClasses (linked p).table (keptClasses p) = [] ↔
    ∀ name, ¬ OnCycle p name := by
  constructor
  · intro hnil name hcycle
    have hmem := exists_of_onCycle hcycle
    rw [hnil] at hmem
    cases hmem
  · exact fun hnone => List.eq_nil_iff_forall_not_mem.2 fun d hd => hnone _ (mem_cyclicClasses.1 hd).2

theorem contains_acyclic : (acyclic p).table.contains = (registration p).1.table.contains := by
  funext name
  have hsame := congrArg Option.isSome (@category_acyclic p name)
  rwa [Option.isSome_map, Option.isSome_map] at hsame

theorem contains_withInterfaces :
    (withInterfaces p).table.contains = (registration p).1.table.contains := by
  funext name
  have hsame := congrArg Option.isSome (@category_withInterfaces p name)
  rwa [Option.isSome_map, Option.isSome_map] at hsame

/-- The keys of headers are different exactly if the names and the types of parameters are. -/
theorem nodup_texts_iff {headers : List Signature} (hn : ∀ s ∈ headers, s.WellNamed) :
    (headers.map Signature.text).Nodup ↔ (headers.map fun s => (s.name, s.paramTypes)).Nodup := by
  have htext : headers.map Signature.text =
      (headers.map fun s => (s.name, s.paramTypes)).map fun key => signatureText key.1 key.2 := by
    rw [List.map_map]
    rfl
  rw [htext]
  refine ⟨List.Nodup.of_map _, fun hkeys => hkeys.map_on ?_⟩
  intro key hkey key' hkey' heq
  obtain ⟨s, hs, rfl⟩ := List.mem_map.1 hkey
  obtain ⟨s', hs', rfl⟩ := List.mem_map.1 hkey'
  exact Prod.ext_iff.2 ((hn s hs).text_inj (hn s' hs') heq)

section Registered

variable (h : (registration p).1.faults.toList = [])

include h

theorem links_eq (hsuperclass : ∀ d, .class_ d ∈ p.declarations → ∀ s ∈ d.superclass,
    ∃ d', .class_ d' ∈ p.declarations ∧ d'.name = s) : Links p = p.Extends := by
  have hkept : ∀ d, Introduces p d ↔ d ∈ p.declarations := fun d => by
    rw [← mem_registration, kept_eq h]
  funext child parent
  simp only [Links, Program.Extends, hkept]
  refine propext (and_iff_left_of_imp ?_)
  rintro ⟨d, hd, rfl, hs⟩
  exact hsuperclass d hd parent hs

/-- The names that are known are those of the built-in types and those that are declared. -/
theorem contains_registration {name : String} : (registration p).1.table.contains name = true ↔
    name ∈ builtins ∨ name ∈ p.declarations.map TypeDecl.name := by
  have hr := recorded_registration p
  by_cases hmem : name ∈ p.declarations.map TypeDecl.name
  · refine iff_of_true ?_ (.inr hmem)
    obtain ⟨d, hd, rfl⟩ := List.mem_map.1 hmem
    rw [Table.contains, hr.own d ((kept_eq h).symm ▸ hd)]
    rfl
  · rw [or_iff_left hmem, ← not_iff_not, ← contains_initial_eq_false, Bool.not_eq_true,
      Table.contains, hr.others name ((kept_eq h).symm ▸ hmem)]
    rfl

/-- Nothing is wrong with a type exactly if values can be declared with it. -/
theorem typeFaults_eq_nil_iff (hvoid : ∀ d ∈ p.declarations, d.name ≠ "void") {t : Table}
    (ht : t.contains = (registration p).1.table.contains) {ty : Ty} {pos : Position} :
    typeFaults t ty pos = [] ↔ p.Knows ty := by
  rw [typeFaults_eq_nil, ht, contains_registration h]
  constructor
  · rintro ⟨-, hnull, hbuiltin | hdeclared⟩
    · left
      simpa [builtins, hnull] using hbuiltin
    · exact .inr hdeclared
  · intro hknown
    have hne : ty.name ≠ "void" ∧ ty.name ≠ "null" := by
      rcases hknown with hbuiltin | hdeclared
      · constructor <;> rintro heq <;> revert hbuiltin <;> rw [heq] <;> decide
      · obtain ⟨d, hd, hname⟩ := List.mem_map.1 hdeclared
        refine ⟨hname ▸ hvoid d hd, fun hnull => (registration_iff.1 h).2 d hd ?_⟩
        rw [hname, hnull]
        decide
    refine ⟨by simp [Ty.isVoid, hne.1], hne.2, hknown.imp_left fun hbuiltin => ?_⟩
    exact List.mem_append_left ["null"] hbuiltin

theorem headerFaults_eq_nil_iff (hvoid : ∀ d ∈ p.declarations, d.name ≠ "void") {t : Table}
    (ht : t.contains = (registration p).1.table.contains) {s : Signature} :
    headerFaults t s = [] ↔
      (s.returns = .void ∨ p.Knows s.returns) ∧ ∀ q ∈ s.params, p.Knows q.type := by
  have htype : ∀ {ty pos}, typeFaults t ty pos = [] ↔ p.Knows ty := typeFaults_eq_nil_iff h hvoid ht
  rw [headerFaults, List.append_eq_nil_iff, List.flatMap_eq_nil_iff]
  simp only [htype]
  refine and_congr_left fun _ => ?_
  rw [← Ty.isVoid_iff]
  split
  · rename_i hreturns
    exact iff_of_true rfl (.inl hreturns)
  · rename_i hreturns
    rw [or_iff_right hreturns, htype]

theorem headersObey_iff (hvoid : ∀ d ∈ p.declarations, d.name ≠ "void") {t : Table}
    (ht : t.contains = (registration p).1.table.contains) {headers : List Signature}
    (hn : ∀ s ∈ headers, s.WellNamed) :
    (∀ s ∈ headers, headerFaults t s = []) ∧ (headers.map Signature.text).Nodup ↔
      HeadersObey p headers := by
  simp only [headerFaults_eq_nil_iff h hvoid ht, nodup_texts_iff hn]
  constructor
  · rintro ⟨hheaders, hkeys⟩
    exact ⟨fun s hs => (hheaders s hs).2, fun s hs => (hheaders s hs).1, hkeys⟩
  · rintro ⟨hparams, hreturns, hkeys⟩
    exact ⟨fun s hs => ⟨hreturns s hs, hparams s hs⟩, hkeys⟩

theorem supertypes_iff : (∀ d ∈ keptClasses p,
    supertypeFaults (registration p).1.table .class_ d.position d.superclass = [] ∧
      supertypeFaults (registration p).1.table .interface d.position d.interface = []) ↔
    ∀ d, .class_ d ∈ p.declarations →
      (∀ s ∈ d.superclass, ∃ d', .class_ d' ∈ p.declarations ∧ d'.name = s) ∧
        ∀ i ∈ d.interface, ∃ e, .interface e ∈ p.declarations ∧ e.name = i := by
  simp only [mem_keptClasses h, supertypeFaults_registration h .class_ nofun,
    supertypeFaults_registration h .interface nofun, exists_class_iff, exists_interface_iff]

theorem quiet_interface_iff (hvoid : ∀ d ∈ p.declarations, d.name ≠ "void")
    (hcycles : Collected.cyclicClasses (linked p).table (keptClasses p) = []) {e : InterfaceDecl}
    (he : .interface e ∈ p.declarations) (hn : ∀ s ∈ e.methods, s.WellNamed) :
    ((acyclic p).collectInterface e).faults.toList = (acyclic p).faults.toList ↔
      HeadersObey p e.methods := by
  have hbare := find?_bareInterface hcycles ((mem_keptInterfaces h).2 he)
  rw [(quiet_collectInterface hbare).1]
  exact headersObey_iff h hvoid contains_acyclic hn

theorem quiet_class_iff (hvoid : ∀ d ∈ p.declarations, d.name ≠ "void")
    (hcycles : Collected.cyclicClasses (linked p).table (keptClasses p) = []) {d : ClassDecl}
    (hd : d ∈ keptClasses p) (hn : ∀ s ∈ d.headers, s.WellNamed)
    (hsuperclass : supertypeFaults (registration p).1.table .class_ d.position d.superclass = [])
    (hinterface : supertypeFaults (registration p).1.table .interface d.position d.interface = []) :
    ((withInterfaces p).collectClass d).faults.toList = (withInterfaces p).faults.toList ↔
      d.ObeysRules p ∧ HeadersObey p d.headers := by
  have htype : ∀ {ty pos}, typeFaults (withInterfaces p).table ty pos = [] ↔ p.Knows ty :=
    typeFaults_eq_nil_iff h hvoid contains_withInterfaces
  have hheaders := headersObey_iff h hvoid contains_withInterfaces hn
  rw [(quiet_collectClass (find?_headingOf hcycles hd hsuperclass hinterface)).1]
  constructor
  · rintro ⟨htypes, hproperties, hmethods, hs, hkeys⟩
    exact ⟨⟨fun q hq => htype.1 (htypes q hq), hproperties,
      fun m hm => hmethods _ (List.mem_map_of_mem hm)⟩, hheaders.1 ⟨hs, hkeys⟩⟩
  · rintro ⟨⟨htypes, hproperties, hmethods⟩, hrest⟩
    obtain ⟨hs, hkeys⟩ := hheaders.2 hrest
    exact ⟨fun q hq => htype.2 (htypes q hq), hproperties, List.forall_mem_map.2 hmethods, hs, hkeys⟩

end Registered

end Rules

variable {p : Program}

theorem headers_wellNamed (hp : p.WellNamed) {d : TypeDecl} (hd : d ∈ p.declarations) :
    ∀ s ∈ d.headers, s.WellNamed := by
  cases d with
  | class_ d => exact ClassDecl.WellNamed.headers (hp _ hd)
  | interface e => exact InterfaceDecl.WellNamed.methods (hp _ hd)

/-- Collecting reports nothing but missing methods exactly if the rules are obeyed. -/
theorem only_missing_iff (hp : p.WellNamed) :
    (collect p).Only .missingInterfaceMethod ↔ p.ObeysRules := by
  have hvoid : ∀ d ∈ p.declarations, d.name ≠ "void" := fun d hd =>
    (Collected.valueName_of_typeDecl (hp d hd)).ne_void
  rw [only_collect, only_withInterfaces, only_acyclic, only_linked, only_registration]
  constructor
  · rintro ⟨⟨⟨⟨hr, hlinked⟩, hcycles⟩, hinterfaces⟩, hclasses⟩
    have hsupertypes := (supertypes_iff hr).1 hlinked
    have hmembers : ∀ d, .class_ d ∈ p.declarations → d.ObeysRules p ∧ HeadersObey p d.headers := by
      intro d hd
      have hkept := (mem_keptClasses hr).2 hd
      obtain ⟨hsuperclass, hinterface⟩ := hlinked d hkept
      exact (quiet_class_iff hr hvoid hcycles hkept (headers_wellNamed hp hd) hsuperclass
        hinterface).1 (hclasses d hkept)
    refine ⟨(registration_iff.1 hr).1, (registration_iff.1 hr).2, fun d hd => (hsupertypes d hd).1,
      fun d hd => (hsupertypes d hd).2, ?_, fun d hd => (hmembers d hd).1, ?_⟩
    · rw [← links_eq hr fun d hd => (hsupertypes d hd).1]
      exact cyclicClasses_eq_nil_iff.1 hcycles
    · intro d hd
      cases d with
      | class_ d => exact (hmembers d hd).2
      | interface e =>
        exact (quiet_interface_iff hr hvoid hcycles hd (headers_wellNamed hp hd)).1
          (hinterfaces e ((mem_keptInterfaces hr).2 hd))
  · rintro ⟨hnames, hfree, hsuperclasses, hinterfaces, hacyclic, hmembers, hheaders⟩
    have hr := registration_iff.2 ⟨hnames, hfree⟩
    have hlinked := (supertypes_iff hr).2 fun d hd => ⟨hsuperclasses d hd, hinterfaces d hd⟩
    have hcycles : Collected.cyclicClasses (linked p).table (keptClasses p) = [] := by
      rw [← links_eq hr hsuperclasses] at hacyclic
      exact cyclicClasses_eq_nil_iff.2 hacyclic
    refine ⟨⟨⟨⟨hr, hlinked⟩, hcycles⟩, ?_⟩, ?_⟩
    · intro e hkept
      have he := (mem_keptInterfaces hr).1 hkept
      exact (quiet_interface_iff hr hvoid hcycles he (headers_wellNamed hp he)).2 (hheaders _ he)
    · intro d hkept
      have hd := (mem_keptClasses hr).1 hkept
      obtain ⟨hsuperclass, hinterface⟩ := hlinked d hkept
      exact (quiet_class_iff hr hvoid hcycles hkept (headers_wellNamed hp hd) hsuperclass
        hinterface).2 ⟨hmembers d hd, hheaders _ hd⟩

/-- Collecting the types of a parsed program finds nothing wrong but methods that an interface asks
for and a class lacks, exactly if the declarations obey the rules. -/
theorem collect_only_missing_iff {source : String} (h : parseSource source = .ok p) :
    (∀ f ∈ (collect p).faults, f.fault.code = .missingInterfaceMethod) ↔ p.ObeysRules := by
  have honly := only_missing_iff (wellNamed_of_parseSource h).1
  simpa only [Collected.Only, Array.mem_toList_iff] using honly

/-- A class that lacks a method of its interface, and is in order otherwise. -/
def lackingMethod : String :=
  "interface I { int f(A[] a); } class B { B(String s) { } } " ++
    "class A extends B implements I { B b; void f() { } void f(int[] n) { } }"

theorem lackingMethod_obeysRules : ∃ p, parseSource lackingMethod = .ok p ∧
    (collect p).faults.size = 1 ∧ p.ObeysRules := by
  have hok : (parseSource lackingMethod).toOption.any (fun p => (collect p).faults.size == 1 &&
      (collect p).faults.all fun f => f.fault.code == .missingInterfaceMethod) = true := by
    rw [parseSource, tokenize_ofList (s := lackingMethod) (Source.append_ofList rfl rfl)]
    decide +kernel
  obtain ⟨p, h, hone⟩ := exists_ok_of_any hok
  obtain ⟨hsize, hcodes⟩ := (Bool.and_eq_true _ _).mp hone
  refine ⟨p, h, beq_iff_eq.1 hsize, (collect_only_missing_iff h).1 fun f hf => ?_⟩
  obtain ⟨i, hi, rfl⟩ := Array.mem_iff_getElem.1 hf
  exact beq_iff_eq.1 (Array.all_eq_true.1 hcodes i hi)

end Types

/-! ## Programs that obey the rules -/

theorem Program.Knows.isValue {p : Program} (hp : p.WellNamed) {ty : Ty} (h : p.Knows ty) :
    ty.IsValue := by
  rcases h with hbuiltin | hdeclared
  · exact valueName_of_mem (List.mem_append_left ["null"] hbuiltin)
  · obtain ⟨d, hd, hname⟩ := List.mem_map.1 hdeclared
    rw [Ty.IsValue, ← hname]
    exact Types.Collected.valueName_of_typeDecl (hp d hd)

/-- The result of a method that obeys the rules is the type of a value, or `void`. -/
theorem HeadersObey.isResult {p : Program} (hp : p.WellNamed) {headers : List Signature}
    (h : HeadersObey p headers) : ∀ s ∈ headers, s.returns.IsResult :=
  fun s hs => (h.returns s hs).imp_right (Program.Knows.isValue hp)

/-- The declarations of an accepted program obey the rules. -/
theorem Lowering.Accepted.obeysRules {source : String} {program : Program} {analysis : Analysis}
    {sections : List Assembly.Section} (h : Accepted source program analysis sections) :
    program.ObeysRules := by
  refine (Types.only_missing_iff (wellNamed_of_parseSource h.parsed).1).1 fun f hf => ?_
  rw [types_of_analyze h.analyzed] at hf
  cases hf

end Javelet
