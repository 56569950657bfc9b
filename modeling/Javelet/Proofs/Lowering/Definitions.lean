import Javelet.Proofs.Lowering.Linkage
import Javelet.Proofs.Types.Rules

/-!
# Definitions in the text

The descriptors of parameters stand side by side without a separator. They can be read back: the
first letter of a descriptor tells its end, and the name of the text type is the only one with a
package in front. So methods of a type that differ in their overload keys differ in their names or
in the descriptors of their parameters as well, and no section defines anything twice.
-/
namespace Javelet

namespace Assembly

/-! ## Reading descriptors -/

/-- Read the descriptor of a plain type: the name of the type, and what stands behind. -/
def readPlain : List Char → Option (String × List Char)
  | 'I' :: rest => some ("int", rest)
  | 'Z' :: rest => some ("boolean", rest)
  | 'C' :: rest => some ("char", rest)
  | 'L' :: rest =>
    let name := String.ofList (rest.takeWhile (· ≠ ';'))
    some (if name = stringClass then "String" else name, (rest.dropWhile (· ≠ ';')).tail)
  | _ => none

/-- Read the descriptor of a type. -/
def readType : List Char → Option (Ty × List Char)
  | '[' :: rest => (readPlain rest).map fun r => (⟨r.1, true⟩, r.2)
  | cs => (readPlain cs).map fun r => (.plain r.1, r.2)

section Reading

variable {name : String} {ty : Ty}

theorem takeWhile_ne_append {c : Char} {cs : List Char} (h : c ∉ cs) (rest : List Char) :
    (cs ++ c :: rest).takeWhile (· ≠ c) = cs ∧ (cs ++ c :: rest).dropWhile (· ≠ c) = c :: rest := by
  have hall : ∀ d ∈ cs, decide (d ≠ c) = true :=
    fun d hd => decide_eq_true fun heq => h (heq ▸ hd)
  rw [List.takeWhile_append_of_pos hall, List.dropWhile_append_of_pos hall]
  simp

/-- No name that is declared is the one of the class of texts. -/
theorem readPlain_class (h : ValueName name) (rest : List Char) :
    readPlain ((classDescriptor (internalName name)).toList ++ rest) = some (name, rest) := by
  have hsemicolon : ';' ∉ (internalName name).toList :=
    (plainName_internalName h.toPlainName).not_mem (by decide)
  have htext : (classDescriptor (internalName name)).toList ++ rest =
      'L' :: ((internalName name).toList ++ ';' :: rest) := by
    simp [classDescriptor]
  obtain ⟨htake, hdrop⟩ := takeWhile_ne_append hsemicolon rest
  rw [htext, readPlain, htake, hdrop, String.ofList_toList, List.tail_cons]
  unfold internalName
  split
  · rename_i hstring
    rw [hstring]
    rfl
  · have hne : name ≠ stringClass := by
      rintro rfl
      exact h.unqualified (by decide)
    simp [hne]

theorem readPlain_plainDescriptor (h : ValueName name) (rest : List Char) :
    readPlain ((plainDescriptor name).toList ++ rest) = some (name, rest) := by
  unfold plainDescriptor
  rw [if_neg h.ne_void]
  split
  · rename_i hint
    rw [hint]
    rfl
  · split
    · rename_i hboolean
      rw [hboolean]
      rfl
    · split
      · rename_i hchar
        rw [hchar]
        rfl
      · exact readPlain_class h rest

theorem readType_of_readPlain {cs rest : List Char} (h : readPlain cs = some (name, rest)) :
    readType cs = some (.plain name, rest) := by
  unfold readType
  split
  · cases h
  · rw [h]
    rfl

theorem readType_descriptor (h : ty.IsValue) (rest : List Char) :
    readType ((descriptor ty).toList ++ rest) = some (ty, rest) := by
  have hplain := readPlain_plainDescriptor h rest
  obtain ⟨name, isArray⟩ := ty
  cases isArray with
  | true =>
    have htext : (descriptor ⟨name, true⟩).toList ++ rest =
        '[' :: ((plainDescriptor name).toList ++ rest) := by
      simp [descriptor]
    rw [htext, readType, hplain]
    rfl
  | false => exact readType_of_readPlain hplain

end Reading

/-- The descriptors of parameters, as they stand in the descriptor of a method. -/
def paramsDescriptor (params : List Ty) : String := String.join (params.map descriptor)

theorem toList_paramsDescriptor_cons (ty : Ty) (params : List Ty) :
    (paramsDescriptor (ty :: params)).toList =
      (descriptor ty).toList ++ (paramsDescriptor params).toList := by
  rw [paramsDescriptor, List.map_cons, String.join_cons, String.toList_append, paramsDescriptor]

/-- Descriptors of parameters are told apart though nothing stands between two of them. -/
theorem paramsDescriptor_inj {params params' : List Ty} (h : ∀ t ∈ params, t.IsValue)
    (h' : ∀ t ∈ params', t.IsValue) (heq : paramsDescriptor params = paramsDescriptor params') :
    params = params' := by
  have hnone : ∀ {t ts}, t.IsValue → paramsDescriptor [] ≠ paramsDescriptor (t :: ts) := by
    intro t ts ht hnil
    have hread := readType_descriptor ht (paramsDescriptor ts).toList
    rw [← toList_paramsDescriptor_cons, ← hnil] at hread
    cases hread
  induction params generalizing params' with
  | nil =>
    cases params' with
    | nil => rfl
    | cons t' params' => exact (hnone (List.forall_mem_cons.1 h').1 heq).elim
  | cons t params ih =>
    rw [List.forall_mem_cons] at h
    cases params' with
    | nil => exact (hnone h.1 heq.symm).elim
    | cons t' params' =>
      rw [List.forall_mem_cons] at h'
      have hread := readType_descriptor h.1 (paramsDescriptor params).toList
      rw [← toList_paramsDescriptor_cons, heq, toList_paramsDescriptor_cons,
        readType_descriptor h'.1] at hread
      obtain ⟨rfl, hrest⟩ := Prod.ext_iff.1 (Option.some.inj hread)
      rw [ih h.2 h'.2 (String.toList_inj.1 hrest.symm)]

/-- The header of a block is made of names and types that can be written in a program, but for the
name of a constructor. -/
structure Header.WellNamed (h : Header) : Prop where
  name : PlainName h.name ∨ h.name = "<init>"
  params : ∀ t ∈ h.params, t.IsValue
  returns : h.returns.IsResult

/-! ## What a section defines -/

/-- The names in the lines of fields. -/
def Section.fieldNames : Section → List String
  | class_ c => c.fields.map Field.name
  | interface _ => []

/-- The names and the descriptors of parameters in the lines of method headers. -/
def Section.methodKeys : Section → List (String × String)
  | class_ c => c.methods.map fun m => (m.header.name, paramsDescriptor m.header.params)
  | interface i => i.methods.map fun m => (m.name, paramsDescriptor m.params)

end Assembly

open Assembly Javelet.Types

/-- Names and types of parameters that are different have different descriptors. -/
theorem nodup_methodKeys {α : Type} {xs : List α} {name : α → String} {params : α → List Ty}
    (hn : (xs.map fun x => (name x, params x)).Nodup) (hv : ∀ x ∈ xs, ∀ t ∈ params x, t.IsValue) :
    (xs.map fun x => (name x, paramsDescriptor (params x))).Nodup := by
  have hkeys : (xs.map fun x => (name x, paramsDescriptor (params x))) =
      (xs.map fun x => (name x, params x)).map fun key => (key.1, paramsDescriptor key.2) := by
    rw [List.map_map]
    rfl
  rw [hkeys]
  refine hn.map_on ?_
  intro key hkey key' hkey' heq
  obtain ⟨x, hx, rfl⟩ := List.mem_map.1 hkey
  obtain ⟨x', hx', rfl⟩ := List.mem_map.1 hkey'
  obtain ⟨hname, hdescriptor⟩ := Prod.ext_iff.1 heq
  exact Prod.ext_iff.2 ⟨hname, paramsDescriptor_inj (hv x hx) (hv x' hx') hdescriptor⟩

namespace Lowering

section Headers

variable {d : ClassDecl}

/-- The header of a block has the name and the types of parameters that are declared. -/
theorem key_ofMethod (hfit : d.MembersFit) {m : Method} (hm : m ∈ d.methods ++ d.main.toList) :
    ((Header.ofMethod m).name, (Header.ofMethod m).params) =
      (m.signature.name, m.signature.paramTypes) := by
  rcases List.mem_append.1 hm with hm | hm
  · rw [Header.ofMethod, hfit.methods m hm]
  · obtain ⟨hkind, hname, hparams, -⟩ := hfit.main m (Option.mem_toList.1 hm)
    rw [Header.ofMethod, hkind, hname, hparams]

theorem map_key_ofMethod (hfit : d.MembersFit) :
    ((d.methods ++ d.main.toList).map Header.ofMethod).map (fun h => (h.name, h.params)) =
      (d.methods ++ d.main.toList).map fun m => (m.signature.name, m.signature.paramTypes) := by
  rw [List.map_map]
  exact List.map_congr_left fun m hm => key_ofMethod hfit hm

/-- All constructors have the name of the class, so they differ in their parameters. -/
theorem nodup_constructors (hfit : d.MembersFit)
    (hn : (d.constructors.map fun m => (m.signature.name, m.signature.paramTypes)).Nodup) :
    (d.constructors.map fun m => ("<init>", m.signature.paramTypes)).Nodup := by
  have hsame : d.constructors.map (fun m => (m.signature.name, m.signature.paramTypes)) =
      (d.constructors.map fun m => m.signature.paramTypes).map (Prod.mk d.name) := by
    rw [List.map_map]
    exact List.map_congr_left fun m hm => by simp [(hfit.constructors m hm).2]
  rw [hsame] at hn
  have hparams := (List.Nodup.of_map _ hn).map
    (fun _ _ heq => (Prod.mk.inj heq).2 : Function.Injective (Prod.mk "<init>"))
  rwa [List.map_map] at hparams

/-- Constructors are named apart from methods. -/
theorem init_ne_key (hd : d.WellNamed) {key : String × List Ty}
    (hkey : key ∈ (d.methods ++ d.main.toList).map
      fun m => (m.signature.name, m.signature.paramTypes)) (params : List Ty) :
    ("<init>", params) ≠ key := by
  rintro rfl
  obtain ⟨m, hm, heq⟩ := List.mem_map.1 hkey
  have hmember : m ∈ d.constructors ++ d.methods ++ d.main.toList := by
    rw [List.append_assoc]
    exact List.mem_append_right _ hm
  have hname : m.signature.name = "<init>" := (Prod.mk.inj heq).1
  exact init_notPlain (hname ▸ (hd.methods m hmember).signature.name)

/-- No two blocks of a class agree in their names and in the types of their parameters, if no two of
its headers do. -/
theorem nodup_blockHeaders (hfit : d.MembersFit) (hd : d.WellNamed)
    (hn : (d.headers.map fun s => (s.name, s.paramTypes)).Nodup) :
    (d.blockHeaders.map fun h => (h.name, h.params)).Nodup := by
  rw [ClassDecl.headers, List.map_append, List.map_map, List.map_map, List.nodup_append] at hn
  obtain ⟨hconstructors, hmethods, -⟩ := hn
  have hinits := nodup_constructors hfit hconstructors
  rw [ClassDecl.blockHeaders, List.map_append, List.map_append, map_key_ofMethod hfit, List.map_map]
  by_cases hnone : d.constructors.isEmpty = true
  · rw [if_pos hnone, List.isEmpty_iff.1 hnone]
    refine List.nodup_append.2 ⟨hmethods, List.nodup_singleton _, fun key hkey key' hkey' => ?_⟩
    cases List.mem_singleton.1 hkey'
    exact (init_ne_key hd hkey []).symm
  · rw [if_neg hnone, List.map_nil, List.append_nil]
    refine List.nodup_append.2 ⟨hinits, hmethods, fun key hkey key' hkey' => ?_⟩
    obtain ⟨m, -, rfl⟩ := List.mem_map.1 hkey
    exact init_ne_key hd hkey' _

/-- The names and types in the headers of blocks are those that can be written in a program. -/
theorem blockHeaders_wellNamed (hd : d.WellNamed) (hr : ∀ s ∈ d.headers, s.returns.IsResult) :
    ∀ h ∈ d.blockHeaders, h.WellNamed := by
  have hmain : Header.WellNamed ⟨.public_, true, "main", [.arrayOf .string], .void⟩ :=
    ⟨.inl ⟨by decide, by decide⟩, List.forall_mem_singleton.2 Ty.isValue_string, .inl rfl⟩
  intro h hh
  rw [ClassDecl.blockHeaders, List.mem_append, List.mem_append] at hh
  rcases hh with (hh | hh) | hh
  · obtain ⟨m, hm, rfl⟩ := List.mem_map.1 hh
    have hs : m.signature ∈ d.headers := mem_headers.2 (.inl ⟨m, hm, rfl⟩)
    exact ⟨.inr rfl, (hd.headers _ hs).paramTypes, .inl rfl⟩
  · obtain ⟨m, hm, rfl⟩ := List.mem_map.1 hh
    have hs : m.signature ∈ d.headers := List.mem_append_right _ (List.mem_map_of_mem hm)
    unfold Header.ofMethod
    split
    · exact hmain
    · exact ⟨.inl (hd.headers _ hs).name, (hd.headers _ hs).paramTypes, hr _ hs⟩
  · split at hh
    · cases List.mem_singleton.1 hh
      exact ⟨.inr rfl, List.forall_mem_nil _, .inl rfl⟩
    · cases hh

end Headers

/-- In the text of an accepted program the names of the sections are different, and no section
defines two fields of one name or two methods that agree in their names and in the descriptors of
their parameters. -/
theorem compiled_definitions_differ {source text : String} (h : compile source = .ok text) :
    ∃ program analysis sections, Accepted source program analysis sections ∧
      text = programText sections ∧ (sections.map Section.name).Nodup ∧
      ∀ s ∈ sections, s.fieldNames.Nodup ∧ s.methodKeys.Nodup := by
  obtain ⟨program, analysis, sections, ha, htext⟩ := compile_eq_ok_iff.1 h
  refine ⟨program, analysis, sections, ha, htext, ha.nodup_names, fun s hs => ?_⟩
  have hrules := ha.obeysRules
  have hnamed := (wellNamed_of_parseSource ha.parsed).1
  cases s with
  | class_ c =>
    obtain ⟨d, first, next, hd, hy⟩ := ha.exists_declaration hs
    have hholds := ha.class_holds hd hy
    have hheaders := hrules.headers _ hd
    have hwell := blockHeaders_wellNamed (hnamed _ hd) (hheaders.isResult hnamed)
    have hblocks := nodup_blockHeaders (ha.membersFit _ hd) (hnamed _ hd) hheaders.signatures
    rw [← hholds.headers] at hblocks hwell
    refine ⟨?_, ?_⟩
    · have hnames := (hrules.members d hd).propertyNames
      rw [Section.fieldNames, hholds.fields, List.map_map]
      exact hnames
    · have hkeys := nodup_methodKeys hblocks fun h hh => (hwell h hh).params
      rwa [List.map_map] at hkeys
  | interface i =>
    obtain ⟨e, he, rfl⟩ := ha.exists_interface hs
    refine ⟨List.nodup_nil, ?_⟩
    have hkeys := nodup_methodKeys (hrules.headers _ he).signatures
      fun s hs => (headers_wellNamed hnamed he s hs).paramTypes
    rw [Section.methodKeys, interface, List.map_map]
    exact hkeys

/-- Overloads whose parameters have descriptors made of the same letters. -/
def closeOverloads : String :=
  "class A { int n; A m; A() { } A(String s) { } void f(int a, A[] b) { } void f(int[] a, A b) { } }"

theorem closeOverloads_definitions_differ : ∃ text program analysis sections,
    compile closeOverloads = .ok text ∧ Accepted closeOverloads program analysis sections ∧
      text = programText sections ∧ (sections.map Section.name).Nodup ∧
      ∀ s ∈ sections, s.fieldNames.Nodup ∧ s.methodKeys.Nodup := by
  have hok : (compile closeOverloads).isOk = true := by
    rw [compile, parseSource, tokenize_ofList (s := closeOverloads) rfl]
    decide +kernel
  obtain ⟨text, h⟩ := exists_ok_of_isOk hok
  obtain ⟨program, analysis, sections, hall⟩ := compiled_definitions_differ h
  exact ⟨text, program, analysis, sections, h, hall⟩

end Lowering

end Javelet
