import Javelet.Proofs.Lowering.Methods
import Javelet.Proofs.Types.Declared
import Mathlib.Data.List.Induction
import Mathlib.Data.String.Basic

/-!
# All members of a class

A dictionary is kept in the order of its keys, so a key that is inserted takes the place of the
entry that had it, and of no other. If collecting finds no fault, no two members of a class have the
same key, and the class has one entry for each of them. The constructor that a class is given is
inserted without a look at its key: it takes the place of a method that is named like the class and
has no parameters.
-/
namespace Javelet

namespace Dictionary

variable {α : Type}

/-- The keys stand in ascending order. -/
def Sorted (entries : List (String × α)) : Prop := entries.Pairwise fun e e' => e.1 < e'.1

theorem sorted_place {entries : List (String × α)} (h : Sorted entries) (key : String) (value : α) :
    Sorted (place key value entries) := by
  induction entries with
  | nil => exact List.pairwise_singleton ..
  | cons first rest ih =>
    obtain ⟨hfirst, hrest⟩ := List.pairwise_cons.1 h
    rw [place]
    split
    · rename_i heq
      exact List.pairwise_cons.2 ⟨fun e he => heq ▸ hfirst e he, hrest⟩
    · rename_i hne
      split
      · rename_i hlt
        refine List.pairwise_cons.2 ⟨List.forall_mem_cons.2 ⟨hlt, fun e he => ?_⟩, h⟩
        exact hlt.trans (hfirst e he)
      · rename_i hnot
        refine List.pairwise_cons.2 ⟨fun e he => ?_, ih hrest⟩
        rcases mem_place he with rfl | he
        · exact lt_of_le_of_ne (not_lt.1 hnot) (Ne.symm hne)
        · exact hfirst e he

/-- An entry takes the place of the one with its key. -/
theorem perm_place {entries : List (String × α)} (h : Sorted entries) (key : String) (value : α) :
    (place key value entries).Perm ((key, value) :: entries.filter fun e => e.1 ≠ key) := by
  have hkeep : ∀ {rest : List (String × α)}, (∀ e ∈ rest, key < e.1) →
      rest.filter (fun e => e.1 ≠ key) = rest := fun hgreater =>
    List.filter_eq_self.2 fun e he => decide_eq_true (hgreater e he).ne'
  induction entries with
  | nil => exact .refl _
  | cons first rest ih =>
    obtain ⟨hfirst, hrest⟩ := List.pairwise_cons.1 h
    rw [place]
    split
    · rename_i heq
      rw [List.filter_cons_of_neg (by simp [heq]), hkeep (heq ▸ hfirst)]
    · rename_i hne
      split
      · rename_i hlt
        rw [hkeep (List.forall_mem_cons.2 ⟨hlt, fun e he => hlt.trans (hfirst e he)⟩)]
      · rw [List.filter_cons_of_pos (by simpa using Ne.symm hne)]
        exact ((ih hrest).cons first).trans (.swap ..)

/-- Values under their keys, inserted one after the other. -/
def insertAll {β : Type} (key : β → String) (value : β → α) (xs : List β) : Dictionary α :=
  xs.foldl (fun d x => d.insert (key x) (value x)) .empty

/-- Under different keys all values are kept. -/
theorem entries_insertAll {β : Type} {key : β → String} (value : β → α) {xs : List β}
    (hn : (xs.map key).Nodup) : Sorted (insertAll key value xs).entries ∧
      (insertAll key value xs).entries.Perm (xs.map fun x => (key x, value x)) := by
  induction xs using List.reverseRecOn with
  | nil => exact ⟨.nil, .refl _⟩
  | append_singleton xs x ih =>
    rw [List.map_append, List.nodup_append] at hn
    obtain ⟨hsorted, hperm⟩ := ih hn.1
    have hlast : (insertAll key value (xs ++ [x])).entries =
        place (key x) (value x) (insertAll key value xs).entries := by
      rw [insertAll, List.foldl_append]
      rfl
    -- the new key is none of the earlier ones
    have hfresh : ∀ e ∈ (insertAll key value xs).entries, e.1 ≠ key x := by
      intro e he
      obtain ⟨y, hy, rfl⟩ := List.mem_map.1 (hperm.subset he)
      exact hn.2.2 _ (List.mem_map_of_mem hy) _ (List.mem_singleton_self _)
    rw [hlast]
    refine ⟨sorted_place hsorted _ _, (perm_place hsorted _ _).trans ?_⟩
    rw [List.filter_eq_self.2 fun e he => decide_eq_true (hfresh e he), List.map_append]
    exact (hperm.cons _).trans (List.perm_append_singleton ..).symm

end Dictionary

/-- The entries for the members of a class that have a header. -/
def ClassDecl.declaredEntries (d : ClassDecl) : List (String × Types.MethodInfo) :=
  d.headers.map fun s => (s.text, .ofSignature s)

/-- The entries for the methods of a class in the table. A class that declares no constructor has one
without parameters, which takes the place of a method with its key. -/
def ClassDecl.methodEntries (d : ClassDecl) : List (String × Types.MethodInfo) :=
  if d.constructors.isEmpty then
    (signatureText d.name [], Types.Collected.defaultConstructor d.name) ::
      d.declaredEntries.filter fun e => e.1 ≠ signatureText d.name []
  else d.declaredEntries

/-- The entries for the properties of a class in the table. -/
def ClassDecl.propertyEntries (d : ClassDecl) : List (String × Types.PropertyInfo) :=
  d.properties.map fun q => (q.variable_.name, .ofProperty q)

namespace Types

open Lowering

theorem properties_putProperties (info : TypeInfo) (properties : List Property) :
    (info.putProperties properties).properties = properties.foldl
      (fun dict q => dict.insert q.variable_.name (.ofProperty q)) info.properties := by
  induction properties generalizing info with
  | nil => rfl
  | cons q properties ih => exact ih _

theorem methods_putMethods (info : TypeInfo) (headers : List Signature) :
    (info.putMethods headers).methods =
      headers.foldl (fun dict s => dict.insert s.text (.ofSignature s)) info.methods := by
  induction headers generalizing info with
  | nil => rfl
  | cons s headers ih => exact ih _

section Class

variable {d : ClassDecl}

theorem properties_ofClass : (TypeInfo.ofClass d).properties =
    .insertAll (fun q : Property => q.variable_.name) .ofProperty d.properties := by
  have hdeclared : (TypeInfo.declaredClass d).properties =
      .insertAll (fun q : Property => q.variable_.name) .ofProperty d.properties := by
    rw [TypeInfo.declaredClass, putMethods_eq, properties_putProperties]
    rfl
  unfold TypeInfo.ofClass
  split
  · exact hdeclared
  · exact hdeclared

theorem methods_declaredClass : (TypeInfo.declaredClass d).methods =
    .insertAll Signature.text .ofSignature d.headers := by
  rw [TypeInfo.declaredClass, methods_putMethods, putProperties_eq]
  rfl

theorem propertyEntries_ofClass (hn : (d.properties.map fun q => q.variable_.name).Nodup) :
    Dictionary.Sorted (TypeInfo.ofClass d).properties.entries ∧
      (TypeInfo.ofClass d).properties.entries.Perm d.propertyEntries := by
  rw [properties_ofClass]
  exact Dictionary.entries_insertAll _ hn

theorem hasConstructor_declaredClass (hfit : d.MembersFit)
    (hkeys : (d.headers.map Signature.text).Nodup) :
    (TypeInfo.declaredClass d).hasConstructor = !d.constructors.isEmpty := by
  rw [Bool.eq_iff_iff, Bool.not_eq_true', List.isEmpty_eq_false_iff_exists_mem]
  constructor
  · intro h
    obtain ⟨m, hm, hconstructor⟩ := List.any_eq_true.1 h
    obtain ⟨s, hs, rfl⟩ := mem_methods_declaredClass hm
    obtain ⟨f, hf, -⟩ := exists_constructor_of_header hfit hs (beq_iff_eq.1 hconstructor)
    exact ⟨f, hf⟩
  · rintro ⟨f, hf⟩
    exact hasConstructor_of_mem hfit hkeys hf

theorem methodEntries_ofClass (hfit : d.MembersFit)
    (hkeys : (d.headers.map Signature.text).Nodup) :
    Dictionary.Sorted (TypeInfo.ofClass d).methods.entries ∧
      (TypeInfo.ofClass d).methods.entries.Perm d.methodEntries := by
  obtain ⟨hsorted, hperm⟩ := Dictionary.entries_insertAll MethodInfo.ofSignature hkeys
  rw [← methods_declaredClass] at hsorted hperm
  unfold TypeInfo.ofClass ClassDecl.methodEntries
  rw [hasConstructor_declaredClass hfit hkeys]
  cases d.constructors.isEmpty with
  | false => exact ⟨hsorted, hperm⟩
  | true =>
    refine ⟨Dictionary.sorted_place hsorted _ _, ?_⟩
    exact (Dictionary.perm_place hsorted _ _).trans ((hperm.filter _).cons _)

end Class

/-- If collecting the types of a parsed program finds no fault, a class has one entry for each of
its properties and one for each of its members with a header, unless the constructor that it is given
takes the place of one. -/
theorem collect_keeps_members {source : String} {p : Program} (h : parseSource source = .ok p)
    (hfaults : (collect p).faults = #[]) {d : ClassDecl} (hd : .class_ d ∈ p.declarations) :
    ∃ info, (collect p).table.find? d.name = some info ∧
      Dictionary.Sorted info.methods.entries ∧ info.methods.entries.Perm d.methodEntries ∧
      Dictionary.Sorted info.properties.entries ∧
      info.properties.entries.Perm d.propertyEntries := by
  obtain ⟨tokens, -, hparse⟩ := parseSource_eq_ok_iff.1 h
  have hfit : d.MembersFit := parse_membersFit hparse _ hd
  have hnone : (collect p).faults.toList = [] := by rw [hfaults]
  have hkept := (mem_keptClasses (registration_faultless hnone)).2 hd
  obtain ⟨hobey, -⟩ := quiet_classStep hnone hkept
  obtain ⟨hsorted, hmethods⟩ := methodEntries_ofClass hfit hobey.keys
  exact ⟨.ofClass d, find?_ofClass hnone hkept, hsorted, hmethods,
    propertyEntries_ofClass hobey.propertyNames⟩

/-- A class with overloads, one of them named like the class, and with an entry point. -/
def overloads : String :=
  "class A \x7b int n; private A next; protected A f() { return next; } int f(A[] b) { return n; } " ++
    "void A(int n) { } public static void main(String[] args) { } \x7d"

theorem overloads_keeps_members : ∃ p, parseSource overloads = .ok p ∧
    (collect p).faults = #[] ∧ ∃ d, .class_ d ∈ p.declarations ∧ d.headers.length = 4 ∧
      ∃ info, (collect p).table.find? d.name = some info ∧
        Dictionary.Sorted info.methods.entries ∧ info.methods.entries.Perm d.methodEntries ∧
        Dictionary.Sorted info.properties.entries ∧
        info.properties.entries.Perm d.propertyEntries := by
  have hok : ((parseSource overloads).toOption.any fun p => (collect p).faults.isEmpty &&
      p.declarations.any fun decl => decl.class?.any fun d => d.headers.length == 4) = true := by
    rw [parseSource, tokenize_ofList (s := overloads) (Source.append_ofList rfl rfl)]
    decide +kernel
  obtain ⟨p, h, hok⟩ := exists_ok_of_any hok
  obtain ⟨hfaults, hdeclared⟩ := (Bool.and_eq_true _ _).mp hok
  obtain ⟨decl, hdecl, hclass⟩ := List.any_eq_true.1 hdeclared
  obtain ⟨d, hd, hlength⟩ := (Option.any_eq_true _ _).1 hclass
  obtain rfl := TypeDecl.class?_eq_some.1 hd
  exact ⟨p, h, Array.isEmpty_iff.1 hfaults, d, hdecl, beq_iff_eq.1 hlength,
    collect_keeps_members h (Array.isEmpty_iff.1 hfaults) hdecl⟩

/-- A class without a constructor, and with a method that is named like the class. -/
def namesake : String := "class A { void A() { } }"

/-- Collecting finds no fault, and the class has no entry for its method. -/
theorem namesake_lost : ∃ p d, parseSource namesake = .ok p ∧ (collect p).faults = #[] ∧
    .class_ d ∈ p.declarations ∧ ∃ s ∈ d.headers, ∃ info,
      (collect p).table.find? d.name = some info ∧
        (s.text, MethodInfo.ofSignature s) ∉ info.methods.entries := by
  have hcheck : ((parseSource namesake).toOption.any fun p => (collect p).faults.isEmpty &&
      p.declarations.any fun decl => decl.class?.any fun d => d.headers.any fun s =>
        ((collect p).table.find? d.name).any fun info =>
          decide ((s.text, MethodInfo.ofSignature s) ∉ info.methods.entries)) = true := by
    rw [parseSource, tokenize_ofList (s := namesake) rfl]
    decide +kernel
  obtain ⟨p, h, hcheck⟩ := exists_ok_of_any hcheck
  obtain ⟨hfaults, hdeclared⟩ := (Bool.and_eq_true _ _).mp hcheck
  obtain ⟨decl, hdecl, hclass⟩ := List.any_eq_true.1 hdeclared
  obtain ⟨d, hd, hheaders⟩ := (Option.any_eq_true _ _).1 hclass
  obtain ⟨s, hs, hentry⟩ := List.any_eq_true.1 hheaders
  obtain ⟨info, hinfo, hlost⟩ := (Option.any_eq_true _ _).1 hentry
  obtain rfl := TypeDecl.class?_eq_some.1 hd
  exact ⟨p, d, h, Array.isEmpty_iff.1 hfaults, hdecl, s, hs, info, hinfo, of_decide_eq_true hlost⟩

end Types

end Javelet
