import Javelet.Proofs.Lowering.Linkage

/-!
# Conformance to interfaces

A class has to declare every method of its interface itself. Methods are compared by their keys,
which hold the name and the types of the parameters and nothing else. So the class has a block with
the name and the parameters of each method of the interface, but perhaps with another result, and
perhaps the entry point.
-/
namespace Javelet.Lowering

open Assembly Javelet.Types

/-- A class has a block for a method of an interface, which is no constructor. The result may be
another one, and the block may be the one of the entry point. -/
def Implements (c : ClassSection) (m : AbstractMethod) : Prop :=
  ∃ mc ∈ c.methods, mc.header.name = m.name ∧ mc.header.name ≠ "<init>" ∧
    mc.header.params = m.params ∧
    (mc.header.isStatic = true → m.name = "main" ∧ m.params = [.arrayOf .string])

variable {d : ClassDecl} {c : ClassSection}

/-- The block of a header of a class that is no constructor. -/
theorem Holds.implements (h : Holds d c) (hfit : d.MembersFit) {s s' : Signature}
    (hs : PlainName s.name) (hs' : s' ∈ d.headers) (hname : s'.name = s.name)
    (hparams : s'.paramTypes = s.paramTypes) (hne : s.name ≠ d.name) :
    Implements c ⟨s.name, s.paramTypes, s.returns⟩ := by
  have hinit : s.name ≠ "<init>" := fun heq => init_notPlain (heq ▸ hs)
  have hblock : ∀ m ∈ d.methods ++ d.main.toList, ∃ mc ∈ c.methods, mc.header = .ofMethod m := by
    intro m hm
    exact h.block (List.mem_append_left _ (List.mem_append_right _ (List.mem_map_of_mem hm)))
  rcases mem_headers.1 hs' with ⟨m, hm, rfl⟩ | ⟨m, hm, rfl⟩ | ⟨m, hm, rfl⟩
  · exact (hne (hname.symm.trans (hfit.constructors m hm).2)).elim
  · obtain ⟨mc, hmc, hheader⟩ := hblock m (List.mem_append_left _ hm)
    rw [Header.ofMethod, hfit.methods m hm] at hheader
    refine ⟨mc, hmc, ?_⟩
    rw [hheader]
    exact ⟨hname, hname ▸ hinit, hparams, fun hstatic => absurd hstatic Bool.false_ne_true⟩
  · obtain ⟨mc, hmc, hheader⟩ := hblock m (List.mem_append_right _ (Option.mem_toList.2 hm))
    obtain ⟨hkind, hmain, htypes, -⟩ := hfit.main m hm
    rw [Header.ofMethod, hkind] at hheader
    refine ⟨mc, hmc, ?_⟩
    rw [hheader]
    have hsname : s.name = "main" := hname.symm.trans hmain
    have hstypes : s.paramTypes = [.arrayOf .string] := hparams.symm.trans htypes
    exact ⟨hsname.symm, fun heq => hinit (hsname.trans heq), hstypes.symm, fun _ => ⟨hsname, hstypes⟩⟩

theorem Accepted.implements {source : String} {program : Program} {analysis : Analysis}
    {sections : List Section} (h : Accepted source program analysis sections)
    (hd : .class_ d ∈ program.declarations) (hholds : Holds d c) {e : InterfaceDecl}
    (he : .interface e ∈ program.declarations)
    (hall : ∀ s ∈ e.methods, (TypeInfo.ofClass d).methods.contains s.text = true)
    {m : AbstractMethod} (hm : m ∈ (interface e).methods) (hne : m.name ≠ d.name) :
    Implements c m := by
  obtain ⟨s, hs, rfl⟩ := List.mem_map.1 hm
  have hnamed := (wellNamed_of_parseSource h.parsed).1
  have hclass : d.WellNamed := hnamed _ hd
  have hinterface : e.WellNamed := hnamed _ he
  have hsnamed := hinterface.methods s hs
  rcases exists_header_of_contains (hall s hs) with ⟨s', hs', hkey⟩ | hkey
  · obtain ⟨hname, hparams⟩ := (hclass.headers s' hs').text_inj hsnamed hkey
    exact hholds.implements (h.membersFit _ hd) hsnamed.name hs' hname hparams hne
  · have hname := (signatureText_inj hsnamed.name hclass.name.toPlainName hsnamed.paramTypes
      (List.forall_mem_nil _) hkey).1
    exact (hne hname).elim

/-- In the text of an accepted program the interface of a class has a section, and the class
implements every method of it that is not named like the class. -/
theorem compiled_classes_conform {source text : String} (h : compile source = .ok text) :
    ∃ program analysis sections, Accepted source program analysis sections ∧
      text = programText sections ∧ (sections.map Section.name).Nodup ∧
      ∀ c, .class_ c ∈ sections → ∀ name ∈ c.interface, ∃ i, .interface i ∈ sections ∧
        i.name = name ∧ ∀ m ∈ i.methods, m.name ≠ c.name → Implements c m := by
  obtain ⟨program, analysis, sections, ha, htext⟩ := compile_eq_ok_iff.1 h
  refine ⟨program, analysis, sections, ha, htext, ha.nodup_names, ?_⟩
  intro c hc name hname
  obtain ⟨d, first, next, hd, hy⟩ := ha.exists_declaration hc
  have hholds := ha.class_holds hd hy
  rw [hholds.interface] at hname
  obtain ⟨e, he, hename, hall⟩ := ha.declares.interface d hd name hname
  refine ⟨interface e, ha.mem_interface he, hename, ?_⟩
  intro m hm hne
  exact ha.implements hd hholds he hall hm (hholds.name ▸ hne)

/-- A class that implements a method with another result, and one by its entry point. -/
def otherResult : String :=
  "interface I { int f(int n); void main(String[] args); } " ++
    "class A implements I { void f(int n) { } public static void main(String[] args) { } }"

theorem otherResult_conforms : ∃ text program analysis sections,
    compile otherResult = .ok text ∧ Accepted otherResult program analysis sections ∧
      text = programText sections ∧ (sections.map Section.name).Nodup ∧
      ∀ c, .class_ c ∈ sections → ∀ name ∈ c.interface, ∃ i, .interface i ∈ sections ∧
        i.name = name ∧ ∀ m ∈ i.methods, m.name ≠ c.name → Implements c m := by
  have hok : (compile otherResult).isOk = true := by
    rw [compile, parseSource, tokenize_ofList (s := otherResult) (Source.append_ofList rfl rfl)]
    decide +kernel
  obtain ⟨text, h⟩ := exists_ok_of_isOk hok
  obtain ⟨program, analysis, sections, hall⟩ := compiled_classes_conform h
  exact ⟨text, program, analysis, sections, h, hall⟩

/-- An interface and a class that differ in the result of a method. -/
def resultDiffers : String := "interface I { int f(); } class A implements I { void f() { } }"

/-- The program is accepted although the class has no block with the descriptor of the method. -/
theorem resultDiffers_not_defined : ∃ program analysis c i,
    Accepted resultDiffers program analysis [.interface i, .class_ c] ∧
    compile resultDiffers = .ok (programText [.interface i, .class_ c]) ∧
    c.interface = some i.name ∧ ∃ m ∈ i.methods, ¬ c.Defines m.name m.params m.returns := by
  have hcheck : ((parseSource resultDiffers).toOption.any fun program =>
      (analyze program).toOption.any fun (analysis : Analysis) =>
        (Lowering.program analysis.table analysis.arena program).toOption.any fun sections =>
          decide (sections = [.interface ⟨"I", [⟨"f", [], .int⟩]⟩,
            .class_ ⟨"A", objectClass, some "I", [], [⟨⟨.public_, false, "f", [], .void⟩, 1, []⟩,
              ⟨.init .public_ [], 1, superCall objectClass⟩]⟩])) = true := by
    rw [parseSource, tokenize_ofList (s := resultDiffers) rfl]
    decide +kernel
  obtain ⟨program, analysis, sections, ha, hcheck⟩ := exists_accepted_of_any hcheck
  obtain rfl := of_decide_eq_true hcheck
  refine ⟨program, analysis, _, _, ha, ha.compile_eq, rfl, _, List.mem_singleton.2 rfl, ?_⟩
  rintro ⟨mc, hmc, -, hname, -, hreturns⟩
  rcases List.mem_cons.1 hmc with rfl | hmc
  · exact absurd hreturns (by decide)
  · cases List.mem_singleton.1 hmc
    exact absurd hname (by decide)

end Javelet.Lowering
