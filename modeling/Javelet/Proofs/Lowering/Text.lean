import Javelet.Proofs.Assembly.Lines
import Javelet.Proofs.Lowering.Definitions
import Javelet.Proofs.Lowering.Slots

/-!
# The text of a program

A program that is compiled has a section for each declaration, and the section of a class has a block
for each method with code. Names, types and numbers hold no characters that end a line, and text
constants are quoted. So every line that is written is one line of the text, and the sections are told
apart by the empty lines between them.
-/
namespace Javelet

namespace Assembly

/-- The lines of the block of a method: its header, the sizes of its frame, its code, of which there
is at least one line, and the ends of the code and of the method. -/
inductive BlockText (h : Header) : List String → Prop
  | mk (stack locals : Nat) {code : List String} : code ≠ [] → (∀ line ∈ code, CodeLine line) →
      BlockText h (h.line :: (".code stack " ++ stack.repr ++ " locals " ++ locals.repr) :: code ++
        [".end code", ".end method"])

/-- The lines of the section of a type. The section of a class has a block for each constructor,
method and entry point, and one for the constructor of a class that declares none. -/
inductive SectionText : TypeDecl → List String → Prop
  | class_ {d : ClassDecl} {blocks : List (List String)} :
      List.Forall₂ BlockText d.blockHeaders blocks →
      SectionText (.class_ d) ([".version 49 0", ".class public " ++ d.name,
          ".super " ++ d.superclass.getD "java/lang/Object"] ++
        d.interface.toList.map (".implements " ++ ·) ++
        d.properties.map (fun p => (Field.ofProperty p).line) ++ blocks.flatten ++ [".end class"])
  | interface {e : InterfaceDecl} :
      SectionText (.interface e) ([".version 49 0", ".class interface abstract " ++ e.name,
          ".super java/lang/Object"] ++
        e.methods.flatMap (fun s => [".method public abstract " ++ s.name ++ " : " ++
          methodDescriptor s.paramTypes s.returns, ".end method"]) ++ [".end class"])

/-! ## Lines of sections -/

theorem lacks_access (access : Access) : Lacks controls access.text := by
  cases access <;> decide

theorem row_field {p : Property} (h : p.WellNamed) : Row (Field.ofProperty p).line := by
  have hopening : Row ".field " := by decide
  have hspace : Lacks controls " " := by decide
  have haccess := (hopening.append (lacks_access p.access)).append hspace
  have hname := (haccess.append (lacks_name h.name)).append hspace
  exact hname.append (lacks_descriptor (.inr h.variable_.type))

theorem Header.WellNamed.row {h : Header} (hw : h.WellNamed) : Row h.line := by
  have hopening : Row ".method " := by decide
  have hstatic : Lacks controls (if h.isStatic then " static " else " ") := by
    split <;> decide
  have hname : Lacks controls h.name := by
    rcases hw.name with hplain | hinit
    · exact lacks_name hplain
    · rw [hinit]
      decide
  have hcolon : Lacks controls " : " := by decide
  have hfront := ((hopening.append (lacks_access h.access)).append hstatic).append hname
  exact (hfront.append hcolon).append (lacks_methodDescriptor hw.params hw.returns)

theorem BlockText.rows {h : Header} {block : List String} (hw : h.WellNamed)
    (hb : BlockText h block) : ∀ line ∈ block, Row line := by
  cases hb with
  | mk stack locals _ hcode =>
    have hopening : Row ".code stack " := by decide
    have hlocals : Lacks controls " locals " := by decide
    have hframe := ((hopening.append (lacks_repr stack)).append hlocals).append
      (lacks_repr locals)
    rw [List.forall_mem_append, List.forall_mem_cons, List.forall_mem_cons]
    exact ⟨⟨hw.row, hframe, fun line hline => (hcode line hline).row⟩, by decide⟩

theorem rows_abstract {s : Signature} (h : s.WellNamed) (hr : s.returns.IsResult) :
    ∀ line ∈ [".method public abstract " ++ s.name ++ " : " ++
      methodDescriptor s.paramTypes s.returns, ".end method"], Row line := by
  have hopening : Row ".method public abstract " := by decide
  have hcolon : Lacks controls " : " := by decide
  have hheader := ((hopening.append (lacks_name h.name)).append hcolon).append
    (lacks_methodDescriptor h.paramTypes hr)
  exact List.forall_mem_cons.2 ⟨hheader, List.forall_mem_singleton.2 (by decide)⟩

/-- In the section of a type of a program that obeys the rules every line can be read back. -/
theorem SectionText.rows {p : Program} (hp : p.WellNamed) (hrules : p.ObeysRules) {d : TypeDecl}
    (hd : d ∈ p.declarations) {part : List String} (h : SectionText d part) :
    ∀ line ∈ part, Row line := by
  have hversion : Row ".version 49 0" := by decide
  have hend : Row ".end class" := by decide
  have hdeclared : ∀ d' ∈ p.declarations, Lacks controls d'.name := fun d' hd' =>
    lacks_name (Types.Collected.valueName_of_typeDecl (hp d' hd')).toPlainName
  have hreturns := (hrules.headers d hd).isResult hp
  cases h with
  | @class_ d blocks hblocks =>
    have hnamed : d.WellNamed := hp _ hd
    have hclass : Row (".class public " ++ d.name) :=
      Row.append (by decide) (hdeclared _ hd)
    have hsuperclass : Row (".super " ++ d.superclass.getD "java/lang/Object") := by
      refine Row.append (by decide) ?_
      cases hs : d.superclass with
      | none => decide
      | some s =>
        obtain ⟨d', hd', rfl⟩ := hrules.superclasses d hd s hs
        exact hdeclared _ hd'
    have hinterface : ∀ i ∈ d.interface.toList, Row (".implements " ++ i) := by
      intro i hi
      obtain ⟨e, he, rfl⟩ := hrules.interfaces d hd i (Option.mem_toList.1 hi)
      exact Row.append (by decide) (hdeclared _ he)
    have hcode : ∀ line ∈ blocks.flatten, Row line := by
      intro line hline
      obtain ⟨block, hblock, hmem⟩ := List.mem_flatten.1 hline
      obtain ⟨header, hheader, hb⟩ := Lowering.exists_of_mem_right hblocks hblock
      exact hb.rows (Lowering.blockHeaders_wellNamed hnamed hreturns header hheader) line hmem
    simp only [List.forall_mem_append, List.forall_mem_cons, List.forall_mem_map]
    exact ⟨⟨⟨⟨⟨hversion, hclass, hsuperclass, List.forall_mem_nil _⟩, hinterface⟩,
      fun q hq => row_field (hnamed.properties q hq)⟩, hcode⟩, hend, List.forall_mem_nil _⟩
  | @interface e =>
    have hnamed : e.WellNamed := hp _ hd
    have hinterface : Row (".class interface abstract " ++ e.name) :=
      Row.append (by decide) (hdeclared _ hd)
    have hsuperclass : Row ".super java/lang/Object" := by decide
    have hmethods : ∀ s ∈ e.methods, ∀ line ∈ [".method public abstract " ++ s.name ++ " : " ++
        methodDescriptor s.paramTypes s.returns, ".end method"], Row line :=
      fun s hs => rows_abstract (hnamed.methods s hs) (hreturns s hs)
    rw [List.forall_mem_append, List.forall_mem_append, List.forall_mem_flatMap]
    refine ⟨⟨?_, hmethods⟩, List.forall_mem_singleton.2 hend⟩
    exact List.forall_mem_cons.2 ⟨hversion, List.forall_mem_cons.2 ⟨hinterface,
      List.forall_mem_singleton.2 hsuperclass⟩⟩

theorem SectionText.ne_nil {d : TypeDecl} {part : List String} (h : SectionText d part) :
    part ≠ [] := by
  cases h <;> exact List.append_ne_nil_of_right_ne_nil _ (List.cons_ne_nil _ _)

end Assembly

open Assembly

namespace Lowering

/-- The lines of a method whose code can be read back are a block. -/
theorem blockText_lines {mc : MethodCode} (h : ∀ i, .op i ∈ mc.code → i.Legible) :
    BlockText mc.header mc.lines := by
  obtain ⟨hne, hcode⟩ := codeLines_listing h
  rw [lines_methodCode]
  exact .mk _ _ (mt List.map_eq_nil_iff.1 hne) (List.forall_mem_map.2 hcode)

theorem opening_eq (kind name superclass : String) : opening kind name superclass =
    [".version 49 0", ".class " ++ kind ++ " " ++ name, ".super " ++ superclass] := by
  have hversion : ".version " ++ classVersion.1.repr ++ " " ++ classVersion.2.repr =
      ".version 49 0" := by decide
  rw [opening, hversion]

theorem opening_class (name superclass : String) : opening "public" name superclass =
    [".version 49 0", ".class public " ++ name, ".super " ++ superclass] := by
  have hkind : ".class " ++ "public" ++ " " = ".class public " := by decide
  rw [opening_eq, hkind]

theorem opening_interface (name : String) : opening "interface abstract" name objectClass =
    [".version 49 0", ".class interface abstract " ++ name, ".super java/lang/Object"] := by
  have hkind : ".class " ++ "interface abstract" ++ " " = ".class interface abstract " := by decide
  have hsuper : ".super " ++ objectClass = ".super java/lang/Object" := by decide
  rw [opening_eq, hkind, hsuper]

theorem Holds.sectionText {d : ClassDecl} {c : ClassSection} (h : Holds d c)
    (hcode : ∀ mc ∈ c.methods, BlockText mc.header mc.lines) :
    SectionText (.class_ d) c.lines := by
  have hblocks : List.Forall₂ BlockText d.blockHeaders (c.methods.map MethodCode.lines) := by
    rw [← h.headers, List.forall₂_map_left_iff, List.forall₂_map_right_iff, List.forall₂_same]
    exact hcode
  have hlines := SectionText.class_ hblocks
  have hproperties : d.properties.map (fun p => (Field.ofProperty p).line) =
      c.fields.map Field.line := by
    rw [h.fields, List.map_map]
    rfl
  have hsuperclass : d.superclass.getD "java/lang/Object" = c.superclass := h.superclass.symm
  rwa [← opening_class, ← List.flatMap_def, hproperties, hsuperclass, ← h.name, ← h.interface]
    at hlines

/-- The section of an interface lists the headers of its methods. -/
theorem sectionText_interface (e : InterfaceDecl) :
    SectionText (.interface e) (interface e).lines := by
  have hlines := @SectionText.interface e
  have hmethods : (interface e).methods.flatMap AbstractMethod.lines =
      e.methods.flatMap fun s => [".method public abstract " ++ s.name ++ " : " ++
        methodDescriptor s.paramTypes s.returns, ".end method"] := by
    rw [interface, List.flatMap_map]
    rfl
  rwa [← opening_interface, ← hmethods] at hlines

/-- The section of a declaration of an accepted program. -/
theorem Accepted.sectionText {source : String} {program : Program} {analysis : Analysis}
    {sections : List Section} (ha : Accepted source program analysis sections) {decl : TypeDecl}
    (hd : decl ∈ program.declarations) {first next : Label} {s : Section}
    (h : Yields (typeDecl (.outermost analysis.table analysis.arena) decl) first s next) :
    SectionText decl s.lines := by
  cases decl with
  | class_ d =>
    obtain ⟨c, hc, rfl⟩ := yields_typeDecl_class.1 h
    obtain ⟨hdecl, henv⟩ := ha.wellNamed_classEnv hd
    obtain ⟨-, hflow⟩ := Lowering.class_flow henv rfl hdecl hc
    exact (ha.class_holds hd hc).sectionText fun mc hmc => blockText_lines (hflow mc hmc).legible
  | interface e =>
    obtain ⟨rfl, -⟩ := yields_pure.1 h
    exact sectionText_interface e

/-- The text of an accepted program consists of a section for each declaration, in order, with one
empty line between two of them. No line of a section is empty or broken, so the sections are read back
from the text. -/
theorem compiled_text {source text : String} (h : compile source = .ok text) :
    ∃ program parts, parseSource source = .ok program ∧
      List.Forall₂ SectionText program.declarations parts ∧
      (∀ part ∈ parts, ∀ line ∈ part, Row line) ∧
      text = textOfLines ([""].intercalate parts) ∧ (parts ≠ [] → readSections text = parts) := by
  obtain ⟨program, analysis, sections, ha, htext⟩ := compile_eq_ok_iff.1 h
  obtain ⟨next, hy⟩ := yields_program ha.lowered
  have hsections : List.Forall₂ SectionText program.declarations (sections.map Section.lines) := by
    rw [List.forall₂_map_right_iff]
    exact forall₂_mapM (fun decl hd _ _ _ hs => ha.sectionText hd hs) hy
  have hnamed := (wellNamed_of_parseSource ha.parsed).1
  have hrows : ∀ part ∈ sections.map Section.lines, ∀ line ∈ part, Row line := by
    intro part hpart
    obtain ⟨decl, hdecl, hsection⟩ := exists_of_mem_right hsections hpart
    exact hsection.rows hnamed ha.obeysRules hdecl
  have hfull : ∀ part ∈ sections.map Section.lines, part ≠ [] := by
    intro part hpart
    obtain ⟨decl, -, hsection⟩ := exists_of_mem_right hsections hpart
    exact hsection.ne_nil
  refine ⟨program, sections.map Section.lines, ha.parsed, hsections, hrows, htext, fun hne => ?_⟩
  rw [htext]
  exact readSections_textOfLines hrows hfull hne

/-- Text constants with a tab, quotes and line breaks, written in the source as they are or by
escapes, and a method with a loop. -/
def controlsInTexts : String :=
  "interface I \x7b String f(A a); \x7d class A implements I \x7b String s = \"\t\u2028.end code\"; " ++
    "public String f(A a) \x7b while (a != null) \x7b a = null; \x7d return \"\\n\\tL0:\\\"\"; \x7d \x7d"

theorem controlsInTexts_text : ∃ text program parts, compile controlsInTexts = .ok text ∧
    parseSource controlsInTexts = .ok program ∧
      List.Forall₂ SectionText program.declarations parts ∧
      (∀ part ∈ parts, ∀ line ∈ part, Row line) ∧
      text = textOfLines ([""].intercalate parts) ∧ (parts ≠ [] → readSections text = parts) := by
  have hok : (compile controlsInTexts).isOk = true := by
    rw [compile, parseSource, tokenize_ofList (s := controlsInTexts) (Source.append_ofList rfl rfl)]
    decide +kernel
  obtain ⟨text, h⟩ := exists_ok_of_isOk hok
  obtain ⟨program, parts, hall⟩ := compiled_text h
  exact ⟨text, program, parts, h, hall⟩

end Lowering

end Javelet
