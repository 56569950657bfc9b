import Javelet.Proofs.Lowering.Sections

/-!
# Linkage

References to members are made from the table, where members are found by climbing superclasses and
by the types of arguments, while sections are made from declarations. In an accepted program the two
agree: what an instruction refers to stands in the section of the type that it names. The call of a
constructor of the superclass is apart: it always means the one without parameters, which the
superclass need not have.
-/
namespace Javelet

namespace Assembly

/-- A class has a block for a method on objects. -/
def ClassSection.Defines (c : ClassSection) (name : String) (params : List Ty) (returns : Ty) :
    Prop :=
  ∃ mc ∈ c.methods, mc.header.isStatic = false ∧ mc.header.name = name ∧
    mc.header.params = params ∧ mc.header.returns = returns

/-- What an instruction refers to stands in the section of the type that it names. A call of a
method of an interface counts the cells that it takes in one byte. -/
def Linked (sections : List Section) : Instruction → Prop
  | .getField owner name type | .putField owner name type =>
    ∃ c, .class_ c ∈ sections ∧ c.name = owner ∧ ∃ f ∈ c.fields, f.name = name ∧ f.type = type
  | .invokeVirtual owner name params returns =>
    ∃ c, .class_ c ∈ sections ∧ c.name = owner ∧ c.Defines name params returns
  | .invokeConstructor owner params =>
    ∃ c, .class_ c ∈ sections ∧ c.name = owner ∧ c.Defines "<init>" params .void
  | .invokeInterface owner name params returns =>
    (∃ i, .interface i ∈ sections ∧ i.name = owner ∧ ⟨name, params, returns⟩ ∈ i.methods) ∧
      Instruction.callCells params = 1 + params.length ∧ Instruction.callCells params ≤ 255
  | _ => True

theorem linked_of_plain {sections : List Section} {i : Instruction} (h : i.namesMember = false) :
    Linked sections i := by
  cases i with
  | getField | putField | invokeConstructor | invokeVirtual | invokeInterface => cases h
  | _ => exact trivial

end Assembly

namespace Lowering

open Assembly Javelet.Types

namespace Holds

variable {d : ClassDecl} {c : ClassSection}

theorem field (h : Holds d c) {p : Property} (hp : p ∈ d.properties) :
    ∃ f ∈ c.fields, f.name = p.variable_.name ∧ f.type = p.variable_.type := by
  rw [h.fields]
  exact ⟨.ofProperty p, List.mem_map_of_mem hp, rfl, rfl⟩

/-- Every header of a class has a block. -/
theorem block (h : Holds d c) {header : Header} (hh : header ∈ d.blockHeaders) :
    ∃ mc ∈ c.methods, mc.header = header := by
  rw [← h.headers] at hh
  exact List.mem_map.1 hh

theorem defines (h : Holds d c) {header : Header} (hh : header ∈ d.blockHeaders)
    (hstatic : header.isStatic = false) :
    c.Defines header.name header.params header.returns := by
  obtain ⟨mc, hmc, rfl⟩ := h.block hh
  exact ⟨mc, hmc, hstatic, rfl, rfl, rfl⟩

theorem defines_method (h : Holds d c) (hfit : d.MembersFit) {m : Method} (hm : m ∈ d.methods) :
    c.Defines m.signature.name m.signature.paramTypes m.signature.returns := by
  have hmem : Header.ofMethod m ∈ d.blockHeaders :=
    List.mem_append_left _ (List.mem_append_right _
      (List.mem_map_of_mem (List.mem_append_left _ hm)))
  rw [Header.ofMethod, hfit.methods m hm] at hmem
  exact h.defines hmem rfl

theorem defines_constructor (h : Holds d c) {m : Method} (hm : m ∈ d.constructors) :
    c.Defines "<init>" m.signature.paramTypes .void := by
  refine @defines d c h (.init m.signature.access m.signature.paramTypes) ?_ rfl
  exact List.mem_append_left _ (List.mem_append_left _ (List.mem_map.2 ⟨m, hm, rfl⟩))

theorem defines_default (h : Holds d c) (hnone : d.constructors = []) :
    c.Defines "<init>" [] .void := by
  refine @defines d c h (.init .public_ []) ?_ rfl
  refine List.mem_append_right _ ?_
  rw [hnone]
  exact List.mem_singleton.2 rfl

end Holds

/-! ## Accepted programs -/

/-- The table of a program whose types are in order. -/
theorem declares_of_analyze {program : Program} {analysis : Analysis}
    (h : analyze program = .ok analysis) : Declares program analysis.table := by
  rw [(analyze_eq_ok h).1]
  apply declares_collect
  rw [types_of_analyze h]

namespace Accepted

variable {source : String} {program : Program} {analysis : Analysis} {sections : List Section}

theorem declares (h : Accepted source program analysis sections) :
    Declares program analysis.table :=
  declares_of_analyze h.analyzed

theorem membersFit (h : Accepted source program analysis sections) :
    ∀ d ∈ program.declarations, d.MembersFit := by
  obtain ⟨tokens, -, hparse⟩ := parseSource_eq_ok_iff.1 h.parsed
  exact parse_membersFit hparse

theorem class_holds (h : Accepted source program analysis sections) {d : ClassDecl}
    (hd : .class_ d ∈ program.declarations) {first next : Label} {c : ClassSection}
    (hc : Yields (class_ (.outermost analysis.table analysis.arena) d) first c next) :
    Holds d c :=
  Lowering.class_holds (Table.lookup_eq_ok.2 (h.declares.own _ hd)) hc

/-- The section of a declared class. -/
theorem exists_class (h : Accepted source program analysis sections) {d : ClassDecl}
    (hd : .class_ d ∈ program.declarations) : ∃ c, .class_ c ∈ sections ∧ Holds d c := by
  obtain ⟨_, hy⟩ := yields_program h.lowered
  obtain ⟨s, hs, first, next, hy⟩ := yields_mapM_of_mem_source hy hd
  obtain ⟨c, hc, rfl⟩ := yields_typeDecl_class.1 hy
  exact ⟨c, hs, h.class_holds hd hc⟩

/-- The section of a declared interface. -/
theorem mem_interface (h : Accepted source program analysis sections) {e : InterfaceDecl}
    (he : .interface e ∈ program.declarations) : .interface (interface e) ∈ sections := by
  obtain ⟨_, hy⟩ := yields_program h.lowered
  obtain ⟨s, hs, first, next, hy⟩ := yields_mapM_of_mem_source hy he
  obtain ⟨rfl, -⟩ := yields_pure.1 hy
  exact hs

/-- The declaration of a class that has a section. -/
theorem exists_declaration (h : Accepted source program analysis sections) {c : ClassSection}
    (hc : .class_ c ∈ sections) : ∃ d first next, .class_ d ∈ program.declarations ∧
      Yields (class_ (.outermost analysis.table analysis.arena) d) first c next := by
  obtain ⟨_, hy⟩ := yields_program h.lowered
  obtain ⟨d, hd, first, next, hy⟩ := yields_mapM_of_mem hy hc
  cases d with
  | class_ d =>
    obtain ⟨c', hc', heq⟩ := yields_typeDecl_class.1 hy
    cases heq
    exact ⟨d, first, next, hd, hc'⟩
  | interface e => cases (yields_pure.1 hy).1

/-- The declaration of an interface that has a section. -/
theorem exists_interface (h : Accepted source program analysis sections) {i : InterfaceSection}
    (hi : .interface i ∈ sections) :
    ∃ e, .interface e ∈ program.declarations ∧ i = Lowering.interface e := by
  obtain ⟨_, hy⟩ := yields_program h.lowered
  obtain ⟨d, hd, first, next, hy⟩ := yields_mapM_of_mem hy hi
  cases d with
  | class_ d =>
    obtain ⟨c, -, heq⟩ := yields_typeDecl_class.1 hy
    cases heq
  | interface e =>
    cases (yields_pure.1 hy).1
    exact ⟨e, hd, rfl⟩

/-- The sections have the names of the declarations, so no two of them have the same. -/
theorem nodup_names (h : Accepted source program analysis sections) :
    (sections.map Section.name).Nodup := by
  obtain ⟨_, hy⟩ := yields_program h.lowered
  have hnames : sections.map Section.name = program.declarations.map TypeDecl.name := by
    refine yields_mapM_map_eq ?_ hy
    intro d hd first s next hs
    cases d with
    | class_ d =>
      obtain ⟨c, hc, rfl⟩ := yields_typeDecl_class.1 hs
      exact (h.class_holds hd hc).name
    | interface e =>
      obtain ⟨rfl, -⟩ := yields_pure.1 hs
      rfl
  rw [hnames]
  exact h.declares.nodup

/-! ## References -/

/-- A property that is found is a field of the section of its owner. -/
theorem linked_property (h : Accepted source program analysis sections) {className name : String}
    {owner : TypeInfo} {info : PropertyInfo}
    (hp : analysis.table.findProperty className name = some (owner, info)) :
    ∃ c, .class_ c ∈ sections ∧ c.name = owner.name ∧
      ∃ f ∈ c.fields, f.name = name ∧ f.type = info.type := by
  obtain ⟨owner', hmem, hfind⟩ := List.exists_of_findSome?_eq_some hp
  obtain ⟨info', hinfo, heq⟩ := Option.map_eq_some_iff.1 hfind
  cases heq
  rcases h.declares.cases_find? (Table.find?_of_mem_ancestors hmem) with
    ⟨d, hd, hname, rfl⟩ | ⟨builtin, rfl⟩
  · cases d with
    | class_ d =>
      obtain ⟨p, hmem, rfl, rfl⟩ := find?_properties_ofClass hinfo
      obtain ⟨c, hc, hholds⟩ := h.exists_class hd
      exact ⟨c, hc, hholds.name.trans hname, hholds.field hmem⟩
    | interface e =>
      rw [TypeInfo.ofDecl, TypeInfo.ofInterface, putMethods_eq] at hinfo
      cases hinfo
  · cases hinfo

theorem linked_call (h : Accepted source program analysis sections) {type name : String}
    {args : List Ty} {owner : TypeInfo} {m : MethodInfo}
    (hm : analysis.table.resolveMethod type name args = some (owner, m))
    (hstatic : m.isStatic = false) (hargs : ∀ a ∈ args, a.IsValue)
    (hcount : args.length ≤ argumentLimit) : Linked sections (invocation owner name m) := by
  obtain ⟨hfound, -⟩ := foundOn_resolveMethod hm
  have htable : analysis.table.WellNamed := by
    rw [(analyze_eq_ok h.analyzed).1]
    exact wellNamed_collect (wellNamed_of_parseSource h.parsed).1
  obtain ⟨-, -, rfl, hlength⟩ := htable.of_resolveMethod hargs hm
  rcases h.declares.cases_find? (Table.find?_of_mem_ancestors hfound.owner) with
    ⟨d, hd, hname, rfl⟩ | ⟨builtin, rfl⟩
  · cases d with
    | class_ d =>
      obtain ⟨f, hf, rfl⟩ := exists_method_of_mem (h.membersFit _ hd) hfound.method
        hfound.isConstructor hstatic
      obtain ⟨c, hc, hholds⟩ := h.exists_class hd
      have hinvoke := isInterface_ofClass d
      rw [invocation, if_neg (by simp [TypeInfo.ofDecl, hinvoke])]
      exact ⟨c, hc, hholds.name.trans hname, hholds.defines_method (h.membersFit _ hd) hf⟩
    | interface e =>
      obtain ⟨s, hs, rfl⟩ := mem_methods_ofInterface hfound.method
      have hinvoke := isInterface_ofInterface e
      rw [invocation, if_pos (by simp [TypeInfo.ofDecl, hinvoke])]
      refine ⟨⟨interface e, h.mem_interface hd, hname, List.mem_map.2 ⟨s, hs, rfl⟩⟩,
        Nat.add_comm _ 1, ?_⟩
      rw [Instruction.callCells, hlength]
      exact Nat.succ_le_succ hcount
  · cases hfound.method

theorem linked_creation (h : Accepted source program analysis sections) {className : String}
    {args : List Ty} {m : MethodInfo}
    (hm : analysis.table.resolveConstructor className args = some m) :
    Linked sections (.invokeConstructor className m.params) := by
  obtain ⟨info, hfind, hmem, -⟩ := mem_constructors_of_resolveConstructor hm
  rcases h.declares.cases_find? hfind with ⟨d, hd, hname, rfl⟩ | ⟨builtin, rfl⟩
  · cases d with
    | class_ d =>
      obtain ⟨c, hc, hholds⟩ := h.exists_class hd
      refine ⟨c, hc, hholds.name.trans hname, ?_⟩
      rcases exists_constructor_of_mem (h.membersFit _ hd) (h.declares.keys d hd) hmem with
        ⟨f, hf, rfl⟩ | ⟨hnone, rfl⟩
      · exact hholds.defines_constructor hf
      · exact hholds.defines_default hnone
    | interface e =>
      obtain ⟨hvalue, hconstructor⟩ := List.mem_filter.1 hmem
      obtain ⟨s, hs, rfl⟩ := mem_methods_ofInterface hvalue
      have hkind : s.kind = .method := h.membersFit _ hd s hs
      simp [MethodInfo.isConstructor, MethodInfo.ofSignature, hkind] at hconstructor
  · cases hmem

/-- Whatever is made from what the table answers is linked. -/
theorem linked_emitted (h : Accepted source program analysis sections) {i : Instruction}
    (hi : Emitted analysis.table i) : Linked sections i := by
  cases hi with
  | plain hplain => exact linked_of_plain hplain
  | getField hp => exact h.linked_property hp
  | putField hp => exact h.linked_property hp
  | call hm hstatic hargs hcount => exact h.linked_call hm hstatic hargs hcount
  | construct hm => exact h.linked_creation hm

/-- The block of a method, behind the call of a constructor of the superclass, is linked. -/
theorem block_linked (h : Accepted source program analysis sections) {c : ClassSection}
    (hc : .class_ c ∈ sections) {mc : MethodCode} (hmc : mc ∈ c.methods) :
    ∃ rest, mc.block = (if mc.header.name = "<init>" then superCall c.superclass else []) ++ rest ∧
      ∀ i, .op i ∈ rest → Linked sections i := by
  obtain ⟨d, first, next, hd, hy⟩ := h.exists_declaration hc
  obtain ⟨hdecl, henv⟩ := h.wellNamed_classEnv hd
  obtain ⟨rest, hblock, hrest⟩ := (class_refers henv hdecl hy mc hmc).block
  refine ⟨rest, hblock, ?_⟩
  intro i hi
  rcases hrest i hi with hemitted | ⟨p, hp, rfl⟩
  · exact h.linked_emitted hemitted
  · have hholds := h.class_holds hd hy
    exact ⟨c, hc, hholds.name, hholds.field hp⟩

end Accepted

/-- In the text of an accepted program no two sections are about the same type, and all references
to members are linked. Only the first call in a constructor is left out, which means a constructor
of the superclass. -/
theorem compiled_references_linked {source text : String} (h : compile source = .ok text) :
    ∃ program analysis sections, Accepted source program analysis sections ∧
      text = programText sections ∧ (sections.map Section.name).Nodup ∧
      ∀ c, .class_ c ∈ sections → ∀ mc ∈ c.methods, ∃ rest,
        mc.block = (if mc.header.name = "<init>" then superCall c.superclass else []) ++ rest ∧
          ∀ i, .op i ∈ rest → Linked sections i := by
  obtain ⟨program, analysis, sections, ha, htext⟩ := compile_eq_ok_iff.1 h
  exact ⟨program, analysis, sections, ha, htext, ha.nodup_names,
    fun c hc mc hmc => ha.block_linked hc hmc⟩

/-- Classes that use inherited, overloaded and abstract members of other types. -/
def membersOfOthers : String :=
  "class B extends A { int n = x; B(int k) { x = k; } int g(I i, char c) { return f(c); } } " ++
    "class A { int x; int f(int k) { return k; } int f(A a) { return x; } } " ++
    "interface I { char m(A a); } " ++
    "class C { int h(A a, I i) { B b = new B(1); return b.g(null, i.m(b)); } }"

/-- The text is accepted, and what it refers to is linked. -/
theorem membersOfOthers_linked : ∃ text program analysis sections,
    compile membersOfOthers = .ok text ∧ Accepted membersOfOthers program analysis sections ∧
      text = programText sections ∧ (sections.map Section.name).Nodup ∧
      ∀ c, .class_ c ∈ sections → ∀ mc ∈ c.methods, ∃ rest,
        mc.block = (if mc.header.name = "<init>" then superCall c.superclass else []) ++ rest ∧
          ∀ i, .op i ∈ rest → Linked sections i := by
  have hok : (compile membersOfOthers).isOk = true := by
    rw [compile, parseSource, tokenize_ofList (s := membersOfOthers)
      (Source.append_ofList (Source.append_ofList (Source.append_ofList rfl rfl) rfl) rfl)]
    decide +kernel
  obtain ⟨text, h⟩ := exists_ok_of_isOk hok
  obtain ⟨program, analysis, sections, hall⟩ := compiled_references_linked h
  exact ⟨text, program, analysis, sections, h, hall⟩

/-! ## Constructors of superclasses -/

/-- The constructor without parameters of a class, declared or given to it. -/
theorem Holds.defines_init_iff {d : ClassDecl} {c : ClassSection} (h : Holds d c)
    (hd : d.WellNamed) : c.Defines "<init>" [] .void ↔
      d.constructors = [] ∨ ∃ m ∈ d.constructors, m.signature.paramTypes = [] := by
  constructor
  · rintro ⟨mc, hmc, -, hname, hparams, -⟩
    have hmem : mc.header ∈ d.blockHeaders := by
      rw [← h.headers]
      exact List.mem_map_of_mem hmc
    rw [ClassDecl.blockHeaders, List.mem_append, List.mem_append] at hmem
    rcases hmem with (hmem | hmem) | hmem
    · obtain ⟨m, hm, heq⟩ := List.mem_map.1 hmem
      rw [← heq] at hparams
      exact .inr ⟨m, hm, hparams⟩
    · obtain ⟨m, hm, heq⟩ := List.mem_map.1 hmem
      have hm' := List.mem_append_right d.constructors hm
      rw [← List.append_assoc] at hm'
      exact (name_ofMethod_ne (hd.methods m hm') (heq ▸ hname)).elim
    · split at hmem
      · rename_i hnone
        exact .inl (List.isEmpty_iff.1 hnone)
      · cases hmem
  · rintro (hnone | ⟨m, hm, hparams⟩)
    · exact h.defines_default hnone
    · exact hparams ▸ h.defines_constructor hm

/-- In the text of an accepted program every constructor first calls the constructor without
parameters of its superclass. That one is there if the superclass is the root of all classes, and
else exactly if the superclass declares it or declares no constructor at all. -/
theorem compiled_superclass_calls {source text : String} (h : compile source = .ok text) :
    ∃ program analysis sections, Accepted source program analysis sections ∧
      text = programText sections ∧
      ∀ c, .class_ c ∈ sections → ∀ mc ∈ c.methods, mc.header.name = "<init>" →
        (∃ rest, mc.block = superCall c.superclass ++ rest) ∧
        (c.superclass = objectClass ∨ ∃ d s, .class_ d ∈ program.declarations ∧
          .class_ s ∈ sections ∧ d.name = c.superclass ∧ s.name = c.superclass ∧
          (s.Defines "<init>" [] .void ↔
            d.constructors = [] ∨ ∃ m ∈ d.constructors, m.signature.paramTypes = [])) := by
  obtain ⟨program, analysis, sections, ha, htext⟩ := compile_eq_ok_iff.1 h
  refine ⟨program, analysis, sections, ha, htext, ?_⟩
  intro c hc mc hmc hname
  obtain ⟨rest, hblock, -⟩ := ha.block_linked hc hmc
  rw [if_pos hname] at hblock
  refine ⟨⟨rest, hblock⟩, ?_⟩
  obtain ⟨d, first, next, hd, hy⟩ := ha.exists_declaration hc
  have hsuper := (ha.class_holds hd hy).superclass
  cases hs : d.superclass with
  | none =>
    rw [hs] at hsuper
    exact .inl hsuper
  | some parent =>
    rw [hs] at hsuper
    obtain ⟨d', hd', hparent⟩ := ha.declares.superclass d hd parent hs
    obtain ⟨s, hsec, hholds⟩ := ha.exists_class hd'
    have hd'name : d'.name = c.superclass := hparent.trans hsuper.symm
    exact .inr ⟨d', s, hd', hsec, hd'name, hholds.name.trans hd'name,
      hholds.defines_init_iff (ha.wellNamed_classEnv hd').1⟩

/-- A class whose superclass declares a constructor, but none without parameters. -/
def parameterRequired : String := "class S { S(int x) { } } class A extends S { }"

theorem parameterRequired_superclass_calls : ∃ text program analysis sections,
    compile parameterRequired = .ok text ∧ Accepted parameterRequired program analysis sections ∧
      text = programText sections ∧
      ∀ c, .class_ c ∈ sections → ∀ mc ∈ c.methods, mc.header.name = "<init>" →
        (∃ rest, mc.block = superCall c.superclass ++ rest) ∧
        (c.superclass = objectClass ∨ ∃ d s, .class_ d ∈ program.declarations ∧
          .class_ s ∈ sections ∧ d.name = c.superclass ∧ s.name = c.superclass ∧
          (s.Defines "<init>" [] .void ↔
            d.constructors = [] ∨ ∃ m ∈ d.constructors, m.signature.paramTypes = [])) := by
  have hok : (compile parameterRequired).isOk = true := by
    rw [compile, parseSource, tokenize_ofList (s := parameterRequired) rfl]
    decide +kernel
  obtain ⟨text, h⟩ := exists_ok_of_isOk hok
  obtain ⟨program, analysis, sections, hall⟩ := compiled_superclass_calls h
  exact ⟨text, program, analysis, sections, h, hall⟩

/-- The program is accepted although the constructor that `A` calls is not in the section of its
superclass. -/
theorem parameterRequired_unlinked : ∃ program analysis c s,
    Accepted parameterRequired program analysis [.class_ s, .class_ c] ∧
    compile parameterRequired = .ok (programText [.class_ s, .class_ c]) ∧
    c.superclass = s.name ∧ (∃ mc ∈ c.methods, .op (.invokeConstructor s.name []) ∈ mc.block) ∧
    ¬ s.Defines "<init>" [] .void := by
  have hcheck : ((parseSource parameterRequired).toOption.any fun program =>
      (analyze program).toOption.any fun (analysis : Analysis) =>
        (Lowering.program analysis.table analysis.arena program).toOption.any fun sections =>
          decide (sections = [
            .class_ ⟨"S", objectClass, none, [], [⟨.init .public_ [.int], 2, superCall objectClass⟩]⟩,
            .class_ ⟨"A", "S", none, [], [⟨.init .public_ [], 1, superCall "S"⟩]⟩])) = true := by
    rw [parseSource, tokenize_ofList (s := parameterRequired) rfl]
    decide +kernel
  obtain ⟨program, analysis, sections, ha, hcheck⟩ := exists_accepted_of_any hcheck
  obtain rfl := of_decide_eq_true hcheck
  refine ⟨program, analysis, _, _, ha, ha.compile_eq, rfl,
    ⟨_, List.mem_singleton.2 rfl, by decide +kernel⟩, ?_⟩
  rintro ⟨mc, hmc, -, -, hparams, -⟩
  cases List.mem_singleton.1 hmc
  cases hparams

end Lowering

end Javelet
