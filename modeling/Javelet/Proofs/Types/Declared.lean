import Javelet.Proofs.Grammar.Receivers
import Javelet.Proofs.Types.Faultless

/-!
# The members of declared types

What is known of a declared type comes from its declaration: a property from a property, a method
that can be called on an object from a method, a method of an interface from a header of it, and a
constructor from a constructor, or it is the one of a class that declares none.
-/
namespace Javelet.Types

theorem find?_properties_ofClass {d : ClassDecl} {name : String} {info : PropertyInfo}
    (h : (TypeInfo.ofClass d).properties.find? name = some info) :
    ∃ p ∈ d.properties, p.variable_.name = name ∧ info = .ofProperty p := by
  have hdeclared : (TypeInfo.declaredClass d).properties.find? name = some info := by
    unfold TypeInfo.ofClass at h
    split at h
    · exact h
    · exact h
  rw [TypeInfo.declaredClass, putMethods_eq] at hdeclared
  rcases find?_putProperties hdeclared with hempty | hfound
  · cases hempty
  · exact hfound

theorem mem_methods_declaredClass {d : ClassDecl} {m : MethodInfo}
    (h : m ∈ (TypeInfo.declaredClass d).methods.values) : ∃ s ∈ d.headers, m = .ofSignature s := by
  rcases mem_values_putMethods h with hempty | hfound
  · rw [putProperties_eq] at hempty
    cases hempty
  · exact hfound

theorem mem_methods_ofClass {d : ClassDecl} {m : MethodInfo}
    (h : m ∈ (TypeInfo.ofClass d).methods.values) :
    (∃ s ∈ d.headers, m = .ofSignature s) ∨
      m = Collected.defaultConstructor d.name ∧
        (TypeInfo.declaredClass d).hasConstructor = false := by
  unfold TypeInfo.ofClass at h
  split at h
  · exact .inl (mem_methods_declaredClass h)
  · rename_i hnone
    rcases Dictionary.mem_values_insert h with rfl | h
    · exact .inr ⟨rfl, Bool.eq_false_iff.2 hnone⟩
    · exact .inl (mem_methods_declaredClass h)

theorem mem_methods_ofInterface {d : InterfaceDecl} {m : MethodInfo}
    (h : m ∈ (TypeInfo.ofInterface d).methods.values) :
    ∃ s ∈ d.methods, m = .ofSignature s := by
  rcases mem_values_putMethods h with hempty | hfound
  · cases hempty
  · exact hfound

theorem isInterface_ofClass (d : ClassDecl) : (TypeInfo.ofClass d).isInterface = false := by
  have hdeclared : (TypeInfo.declaredClass d).isInterface = false := by
    rw [TypeInfo.declaredClass, putMethods_eq, putProperties_eq]
    rfl
  unfold TypeInfo.ofClass
  split
  · exact hdeclared
  · exact hdeclared

theorem isInterface_ofInterface (d : InterfaceDecl) :
    (TypeInfo.ofInterface d).isInterface = true := by
  rw [TypeInfo.ofInterface, putMethods_eq]
  rfl

theorem mem_headers {d : ClassDecl} {s : Signature} : s ∈ d.headers ↔
    (∃ m ∈ d.constructors, s = m.signature) ∨ (∃ m ∈ d.methods, s = m.signature) ∨
      ∃ m ∈ d.main, s = m.signature := by
  simp only [ClassDecl.headers, List.map_append, List.mem_append, List.mem_map,
    Option.mem_toList, Option.mem_def, eq_comm]

/-- The keys of a class are those of its headers, and perhaps the one of the constructor that it is
given. -/
theorem exists_header_of_contains {d : ClassDecl} {key : String}
    (h : (TypeInfo.ofClass d).methods.contains key = true) :
    (∃ s ∈ d.headers, s.text = key) ∨ key = signatureText d.name [] := by
  have hdeclared : (TypeInfo.declaredClass d).methods.contains key = true →
      ∃ s ∈ d.headers, s.text = key := by
    intro hcontains
    obtain ⟨m, hm⟩ := Dictionary.contains_iff.1 hcontains
    rw [TypeInfo.declaredClass] at hm
    rcases find?_putMethods _ d.headers key with ⟨hempty, -⟩ | ⟨s, hs, hkey, -⟩
    · rw [hempty, putProperties_eq] at hm
      cases hm
    · exact ⟨s, hs, hkey⟩
  unfold TypeInfo.ofClass at h
  split at h
  · exact .inl (hdeclared h)
  · obtain ⟨m, hm⟩ := Dictionary.contains_iff.1 h
    have hput := Dictionary.find?_insert (TypeInfo.declaredClass d).methods
      (signatureText d.name []) key (Collected.defaultConstructor d.name)
    by_cases hkey : key = signatureText d.name []
    · exact .inr hkey
    · rw [if_neg hkey] at hput
      exact .inl (hdeclared (Dictionary.contains_iff.2 ⟨m, hput ▸ hm⟩))

section Fit

variable {d : ClassDecl} {m : MethodInfo} (hfit : d.MembersFit)

include hfit

/-- A method that can be called on an object is a declared method. -/
theorem exists_method_of_mem (h : m ∈ (TypeInfo.ofClass d).methods.values)
    (hconstructor : m.isConstructor = false) (hstatic : m.isStatic = false) :
    ∃ f ∈ d.methods, m = .ofSignature f.signature := by
  rcases mem_methods_ofClass h with ⟨s, hs, rfl⟩ | ⟨rfl, -⟩
  · rcases mem_headers.1 hs with ⟨f, hf, rfl⟩ | ⟨f, hf, rfl⟩ | ⟨f, hf, rfl⟩
    · have hkind := (hfit.constructors f hf).1
      simp [MethodInfo.isConstructor, MethodInfo.ofSignature, hkind] at hconstructor
    · exact ⟨f, hf, rfl⟩
    · have hkind := (hfit.main f hf).1
      simp [MethodInfo.isStatic, MethodInfo.ofSignature, hkind] at hstatic
  · cases hconstructor

/-- A header of a constructor stands in front of a constructor. -/
theorem exists_constructor_of_header {s : Signature} (hs : s ∈ d.headers)
    (hkind : s.kind = .constructor) : ∃ f ∈ d.constructors, s = f.signature := by
  rcases mem_headers.1 hs with ⟨f, hf, rfl⟩ | ⟨f, hf, rfl⟩ | ⟨f, hf, rfl⟩
  · exact ⟨f, hf, rfl⟩
  · cases (hfit.methods f hf).symm.trans hkind
  · cases (hfit.main f hf).1.symm.trans hkind

/-- Whether a class declares a constructor is seen in the table. -/
theorem hasConstructor_of_mem (hkeys : (d.headers.map Signature.text).Nodup) {f : Method}
    (hf : f ∈ d.constructors) : (TypeInfo.declaredClass d).hasConstructor = true := by
  have hmem : f.signature ∈ d.headers := mem_headers.2 (.inl ⟨f, hf, rfl⟩)
  have hvalue := Dictionary.mem_values (find?_putMethods_of_mem
    (TypeInfo.putProperties ⟨d.name, .class_, d.superclass, d.interface, .empty, .empty⟩
      d.properties) hkeys hmem)
  refine List.any_eq_true.2 ⟨_, hvalue, ?_⟩
  simp [MethodInfo.isConstructor, MethodInfo.ofSignature, (hfit.constructors f hf).1]

/-- A constructor in the table is declared, or the class declares none. -/
theorem exists_constructor_of_mem (hkeys : (d.headers.map Signature.text).Nodup)
    (h : m ∈ (TypeInfo.ofClass d).constructors) :
    (∃ f ∈ d.constructors, m = .ofSignature f.signature) ∨
      d.constructors = [] ∧ m = Collected.defaultConstructor d.name := by
  obtain ⟨hvalue, hconstructor⟩ := List.mem_filter.1 h
  rcases mem_methods_ofClass hvalue with ⟨s, hs, rfl⟩ | ⟨rfl, hnone⟩
  · obtain ⟨f, hf, rfl⟩ := exists_constructor_of_header hfit hs (beq_iff_eq.1 hconstructor)
    exact .inl ⟨f, hf, rfl⟩
  · refine .inr ⟨List.eq_nil_iff_forall_not_mem.2 fun f hf => ?_, rfl⟩
    cases hnone.symm.trans (hasConstructor_of_mem hfit hkeys hf)

end Fit

/-- A type in the table is declared or built in. -/
theorem Declares.cases_find? {p : Program} {t : Table} (h : Declares p t) {name : String}
    {info : TypeInfo} (hfind : t.find? name = some info) :
    (∃ d ∈ p.declarations, d.name = name ∧ info = .ofDecl d) ∨
      ∃ builtin, info = .bare builtin .primitive := by
  by_cases hname : name ∈ p.declarations.map TypeDecl.name
  · obtain ⟨d, hd, rfl⟩ := List.mem_map.1 hname
    rw [h.own d hd] at hfind
    cases hfind
    exact .inl ⟨d, hd, rfl, rfl⟩
  · rw [h.others name hname] at hfind
    obtain ⟨builtin, -, heq⟩ := List.mem_map.1 (mem_of_findType hfind).1
    exact .inr ⟨builtin, heq.symm⟩

end Javelet.Types
