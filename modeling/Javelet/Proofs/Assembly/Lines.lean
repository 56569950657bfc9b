import Javelet.Assembly.Section
import Javelet.Proofs.Assembly.Effect
import Javelet.Proofs.Assembly.Layout

/-!
# Lines of a text

A text is read line by line, and a line of code is split at its tab. Names and descriptors hold
neither a tab nor a line break, and in quotes both are written in other characters. So the text of an
instruction stays on its line, whatever the text constants of a program are.
-/
namespace Javelet.Assembly

/-- The characters at which lines end and at which lines of code are split. -/
def controls : List Char := '\t' :: lineBreaks

/-- A text holds none of the characters. -/
def Lacks (cs : List Char) (text : String) : Prop := ∀ c ∈ cs, c ∉ text.toList

instance (cs : List Char) (text : String) : Decidable (Lacks cs text) :=
  List.decidableBAll _ cs

theorem lacks_append {cs : List Char} {text text' : String} :
    Lacks cs (text ++ text') ↔ Lacks cs text ∧ Lacks cs text' := by
  simp only [Lacks, String.toList_append, List.mem_append, not_or]
  exact ⟨fun h => ⟨fun c hc => (h c hc).1, fun c hc => (h c hc).2⟩,
    fun h c hc => ⟨h.1 c hc, h.2 c hc⟩⟩

/-- Without tabs and line breaks a text stands on one line. -/
theorem Lacks.lineBreaks {text : String} (h : Lacks controls text) : Lacks lineBreaks text :=
  fun c hc => h c (List.mem_cons_of_mem _ hc)

/-! ## Names, descriptors and numbers -/

/-- Tabs and line breaks end names, and they do not mark anything in descriptors. -/
theorem controls_apart : ∀ c ∈ controls,
    separators.contains c = true ∧ c ∉ [';', '[', '(', ')'] := by
  simp [controls, lineBreaks, separators]

theorem lacks_name {name : String} (h : PlainName name) : Lacks controls name :=
  fun c hc => h.not_mem (controls_apart c hc).1

theorem lacks_descriptor {ty : Ty} (h : ty.IsResult) : Lacks controls (descriptor ty) := by
  intro c hc
  obtain ⟨hseparator, hmark⟩ := controls_apart c hc
  exact not_mem_descriptor hseparator (fun hmem => hmark (List.mem_append_left ['(', ')'] hmem)) h

theorem lacks_methodDescriptor {params : List Ty} {returns : Ty} (hp : ∀ t ∈ params, t.IsValue)
    (hr : returns.IsResult) : Lacks controls (methodDescriptor params returns) := by
  intro c hc
  obtain ⟨hseparator, hmark⟩ := controls_apart c hc
  exact not_mem_methodDescriptor hseparator hmark hp hr

theorem lacks_printDescriptor (ty : Ty) : Lacks controls (printDescriptor ty) := by
  have hall : ∀ text ∈ ["I", "C", "Z", classDescriptor stringClass, classDescriptor objectClass],
      Lacks controls text := by decide
  exact hall _ (printDescriptor_mem ty)

theorem lacks_repr (n : Nat) : Lacks controls n.repr := by
  have hdigits : ∀ c ∈ controls, c.isDigit = false := by simp [controls, lineBreaks]
  intro c hc hmem
  rw [Nat.repr_eq_ofList_toDigits, String.toList_ofList] at hmem
  have hdigit := Nat.isDigit_of_mem_toDigits (by decide) (by decide) hmem
  cases (hdigits c hc).symm.trans hdigit

theorem lacks_reprInt (n : Int) : Lacks controls n.repr := by
  rw [Int.repr_eq_if]
  split
  · exact lacks_repr _
  · exact lacks_append.2 ⟨by decide, lacks_repr _⟩

theorem lacks_labelText (l : Label) : Lacks controls (labelText l) :=
  lacks_append.2 ⟨by decide, lacks_repr l⟩

/-! ## Quoted texts -/

/-- The characters that stand in quotes. -/
def isPrintable (c : Char) : Bool := ' ' ≤ c ∧ c ≤ '~'

theorem isPrintable_hexDigits4 {n : Nat} {c : Char} (h : c ∈ Text.hexDigits4 n) :
    isPrintable c = true := by
  have hdigit : ∀ k < 16, isPrintable k.digitChar = true := by decide
  obtain ⟨k, hk, rfl⟩ := Text.exists_of_mem_hexDigits4 h
  exact hdigit k hk

theorem isPrintable_quoteChar (c : Char) : ∀ d ∈ quoteChar c, isPrintable d = true := by
  have hpair : ∀ {d : Char}, isPrintable d = true → ∀ x ∈ ['\\', d], isPrintable x = true :=
    fun hd => List.forall_mem_cons.2 ⟨by decide, List.forall_mem_singleton.2 hd⟩
  fun_cases quoteChar c with
  | case1 | case2 | case3 | case4 | case5 => exact hpair (by decide)
  | case6 _ _ _ _ _ hprintable => exact List.forall_mem_singleton.2 (decide_eq_true hprintable)
  | case7 =>
    rw [List.forall_mem_flatMap]
    intro unit _
    exact List.forall_mem_cons.2 ⟨by decide, List.forall_mem_cons.2
      ⟨by decide, fun _ => isPrintable_hexDigits4⟩⟩

theorem isPrintable_quote (text : String) : ∀ c ∈ (quote text).toList, isPrintable c = true := by
  rw [quote, String.toList_ofList, List.cons_append, List.forall_mem_cons, List.forall_mem_append,
    List.forall_mem_flatMap]
  exact ⟨by decide, fun c _ => isPrintable_quoteChar c, List.forall_mem_singleton.2 (by decide)⟩

/-- In quotes tabs and line breaks are written in other characters. -/
theorem lacks_quote (text : String) : Lacks controls (quote text) := by
  have hcontrols : ∀ c ∈ controls, isPrintable c = false := by
    simp [controls, lineBreaks, isPrintable]
  intro c hc hmem
  cases (hcontrols c hc).symm.trans (isPrintable_quote text c hmem)

/-! ## Instructions -/

theorem lacks_fieldText {owner name : String} {ty : Ty} (ho : PlainName owner)
    (hn : PlainName name) (ht : ty.IsValue) : Lacks controls (fieldText owner name ty) := by
  simp only [fieldText, lacks_append]
  exact ⟨⟨⟨⟨⟨by decide, lacks_name ho⟩, by decide⟩, lacks_name hn⟩, by decide⟩,
    lacks_descriptor (.inr ht)⟩

theorem lacks_methodText {owner name : String} {params : List Ty} {returns : Ty}
    (ho : PlainName owner) (hn : Lacks controls name) (hp : ∀ t ∈ params, t.IsValue)
    (hr : returns.IsResult) : Lacks controls (methodText owner name params returns) := by
  simp only [methodText, lacks_append]
  exact ⟨⟨⟨⟨lacks_name ho, by decide⟩, hn⟩, by decide⟩, lacks_methodDescriptor hp hr⟩

theorem lacks_pushIntText (value : Int32) : Lacks controls (pushIntText value) := by
  unfold pushIntText
  dsimp only
  split
  · exact lacks_append.2 ⟨by decide, lacks_reprInt _⟩
  · split
    · exact lacks_append.2 ⟨by decide, lacks_reprInt _⟩
    · exact lacks_append.2 ⟨by decide, lacks_reprInt _⟩

theorem lacks_slotText (cell : Cell) {action : String} (h : Lacks controls action) (slot : Nat) :
    Lacks controls (slotText cell action slot) := by
  simp only [slotText, lacks_append]
  refine ⟨⟨⟨by cases cell <;> decide, h⟩, ?_⟩, lacks_repr slot⟩
  split <;> decide

theorem lacks_print (line : Bool) (value : Option Ty) :
    Lacks controls (Instruction.print line value).text := by
  have hopening : Lacks controls ("invokevirtual Method " ++ printStreamClass) :=
    lacks_append.2 ⟨by decide, by decide⟩
  have hname : Lacks controls (if line then " println (" else " print (") := by
    cases line <;> decide
  have hvalue : Lacks controls (value.elim "" printDescriptor) := by
    cases value with
    | none => decide
    | some ty => exact lacks_printDescriptor ty
  exact lacks_append.2 ⟨lacks_append.2 ⟨lacks_append.2 ⟨hopening, hname⟩, hvalue⟩, by decide⟩

/-- The text of an instruction has no tab and no line break. -/
theorem lacks_text {i : Instruction} (h : i.Legible) : Lacks controls i.text := by
  have hjump : ∀ {opening : String} (l : Label), Lacks controls opening →
      Lacks controls (opening ++ labelText l) :=
    fun l hopening => lacks_append.2 ⟨hopening, lacks_labelText l⟩
  cases i with
  | pushInt value => exact lacks_pushIntText value
  | pushString value => exact lacks_append.2 ⟨by decide +kernel, lacks_quote value⟩
  | load cell slot => exact lacks_slotText cell (by decide +kernel) slot
  | store cell slot => exact lacks_slotText cell (by decide +kernel) slot
  | arithmetic op => cases op <;> decide +kernel
  | jumpInts relation target => exact hjump target (by cases relation <;> decide +kernel)
  | jumpReferences same target => exact hjump target (by cases same <;> decide +kernel)
  | jumpZero target | jumpNonzero target | goto target => exact hjump target (by decide +kernel)
  | new className => exact lacks_append.2 ⟨by decide +kernel, lacks_name h⟩
  | newArray element className =>
    cases element with
    | reference => exact lacks_append.2 ⟨by decide +kernel, lacks_name h⟩
    | int | char | boolean => exact lacks_append.2 ⟨by decide +kernel, by decide +kernel⟩
  | arrayLoad element | arrayStore element => cases element <;> decide +kernel
  | getField owner name ty | putField owner name ty =>
    exact lacks_append.2 ⟨by decide +kernel, lacks_fieldText h.1 h.2.1 h.2.2⟩
  | print line value => exact lacks_print line value
  | invokeConstructor owner params =>
    exact lacks_append.2 ⟨by decide +kernel,
      lacks_methodText h.1 (by decide +kernel) h.2 (.inl rfl)⟩
  | invokeVirtual owner name params returns =>
    exact lacks_append.2 ⟨by decide +kernel,
      lacks_methodText h.1 (lacks_name h.2.1) h.2.2.1 h.2.2.2⟩
  | invokeInterface owner name params returns =>
    have hmethod := lacks_methodText h.1 (lacks_name h.2.1) h.2.2.1 h.2.2.2
    exact lacks_append.2 ⟨lacks_append.2 ⟨lacks_append.2 ⟨by decide +kernel, hmethod⟩,
      by decide +kernel⟩, lacks_repr _⟩
  | getPrintStream => exact lacks_append.2 ⟨by decide +kernel, by decide +kernel⟩
  | pushNull | pop | dup | dup2 | arrayLength | returnVoid | returnInt | returnReference =>
    decide +kernel

/-! ## Lines -/

/-- A line that can be read back from a text: it is not empty, and nothing in it ends it. -/
structure Row (line : String) : Prop where
  nonempty : line ≠ ""
  lineBreaks : Lacks lineBreaks line

theorem row_iff {line : String} : Row line ↔ line ≠ "" ∧ Lacks lineBreaks line :=
  ⟨fun h => ⟨h.nonempty, h.lineBreaks⟩, fun h => ⟨h.1, h.2⟩⟩

instance (line : String) : Decidable (Row line) := decidable_of_iff _ row_iff.symm

theorem Row.append {opening rest : String} (h : Row opening) (hrest : Lacks controls rest) :
    Row (opening ++ rest) := by
  refine ⟨fun hempty => h.nonempty ?_, lacks_append.2 ⟨h.lineBreaks, hrest.lineBreaks⟩⟩
  exact (String.append_eq_empty_iff.1 hempty).1

/-- Lines are read back from their text; behind the last line break stands nothing. -/
theorem splitOn_textOfLines {lines : List String} (h : ∀ line ∈ lines, '\n' ∉ line.toList)
    (hne : lines ≠ []) :
    (textOfLines lines).toList.splitOn '\n' = (lines ++ [""]).map String.toList := by
  have htext : textOfLines lines = "\n".intercalate (lines ++ [""]) := by
    rw [String.intercalate_append_of_ne_nil hne (List.cons_ne_nil _ _), String.intercalate_singleton,
      String.append_empty, textOfLines]
  rw [htext, String.toList_intercalate]
  refine List.splitOn_intercalate '\n' ?_ (by simp)
  simpa [or_imp, forall_and] using h

/-- The sections of a text: its lines, but for what stands behind the last line break, cut at the
empty ones. -/
def readSections (text : String) : List (List String) :=
  ((text.toList.splitOn '\n').map String.ofList).dropLast.splitOn ""

theorem mem_intercalate {α : Type} {separator x : α} {xss : List (List α)}
    (h : x ∈ [separator].intercalate xss) : x = separator ∨ ∃ xs ∈ xss, x ∈ xs := by
  induction xss with
  | nil => cases h
  | cons xs xss ih =>
    cases xss with
    | nil =>
      rw [List.intercalate_singleton] at h
      exact .inr ⟨xs, List.mem_singleton_self _, h⟩
    | cons ys xss =>
      rw [List.intercalate_cons_cons, List.mem_append, List.mem_append, List.mem_singleton] at h
      rcases h with (h | h) | h
      · exact .inr ⟨xs, List.mem_cons_self .., h⟩
      · exact .inl h
      · exact (ih h).imp_right fun ⟨zs, hzs, hx⟩ => ⟨zs, List.mem_cons_of_mem _ hzs, hx⟩

theorem intercalate_ne_nil {α : Type} {separator : List α} {xss : List (List α)}
    (h : ∀ xs ∈ xss, xs ≠ []) (hne : xss ≠ []) : separator.intercalate xss ≠ [] := by
  cases xss with
  | nil => exact (hne rfl).elim
  | cons xs xss =>
    have hxs := h xs (List.mem_cons_self ..)
    cases xss with
    | nil => rwa [List.intercalate_singleton]
    | cons ys xss =>
      rw [List.intercalate_cons_cons, List.append_assoc]
      exact List.append_ne_nil_of_left_ne_nil hxs _

/-- Sections are read back from a text if none of their lines is empty or broken. -/
theorem readSections_textOfLines {parts : List (List String)}
    (hrows : ∀ part ∈ parts, ∀ line ∈ part, Row line) (hfull : ∀ part ∈ parts, part ≠ [])
    (hne : parts ≠ []) : readSections (textOfLines ([""].intercalate parts)) = parts := by
  have hbreaks : ∀ line ∈ [""].intercalate parts, '\n' ∉ line.toList := by
    intro line hline
    rcases mem_intercalate hline with rfl | ⟨part, hpart, hmem⟩
    · decide
    · exact (hrows part hpart line hmem).lineBreaks '\n' (List.mem_cons_self ..)
  have hempty : ∀ part ∈ parts, "" ∉ part :=
    fun part hpart hmem => (hrows part hpart "" hmem).nonempty rfl
  have hlines := splitOn_textOfLines hbreaks (intercalate_ne_nil hfull hne)
  have htexts : String.ofList ∘ String.toList = id := funext fun text => String.ofList_toList
  rw [readSections, hlines, List.map_map, htexts, List.map_id, List.dropLast_concat]
  exact List.splitOn_intercalate "" hempty hne

/-- A line of code: a label alone, or an instruction, perhaps behind a label and a tab. In the text of
the instruction there is neither a tab nor a line break. -/
inductive CodeLine : String → Prop
  | label (l : Label) : CodeLine (labelText l ++ ":")
  | instruction {i : Instruction} : i.text ≠ "" → Lacks controls i.text → CodeLine i.text
  | labelled (l : Label) {i : Instruction} : i.text ≠ "" → Lacks controls i.text →
      CodeLine (labelText l ++ ":\t" ++ i.text)

theorem row_label (l : Label) {ending : String} (h : Lacks lineBreaks ending) :
    Row (labelText l ++ ending) := by
  refine ⟨?_, lacks_append.2 ⟨(lacks_labelText l).lineBreaks, h⟩⟩
  rw [labelText, String.append_assoc]
  exact fun hempty => absurd (String.append_eq_empty_iff.1 hempty).1 (by decide)

theorem CodeLine.row {line : String} (h : CodeLine line) : Row line := by
  cases h with
  | label l => exact row_label l (by decide)
  | instruction hne hlacks => exact ⟨hne, hlacks.lineBreaks⟩
  | labelled l _ hlacks => exact (row_label l (by decide)).append hlacks

/-- An instruction that can be read back has a text. -/
theorem text_ne_empty {i : Instruction} (h : i.Legible) : i.text ≠ "" := by
  intro hempty
  have hread := readEffect_text h
  rw [hempty] at hread
  have hnone : readEffect "" = none := by decide
  cases hnone.symm.trans hread

/-- A line of a listing is a line of code. -/
theorem codeLine_text {line : Line Instruction} (h : ∀ i, .op i ∈ line.items → i.Legible) :
    CodeLine line.text := by
  cases line with
  | op label i =>
    cases label with
    | none =>
      have hi := h i (List.mem_singleton_self _)
      exact .instruction (text_ne_empty hi) (lacks_text hi)
    | some l =>
      have hi := h i (List.mem_cons_of_mem _ (List.mem_singleton_self _))
      exact .labelled l (text_ne_empty hi) (lacks_text hi)
  | label l => exact .label l

/-- The lines of a finished listing of legible code; there is at least one. -/
theorem codeLines_listing {code : Segment} (h : ∀ i, .op i ∈ code → i.Legible) :
    (listing code).lines.toList ≠ [] ∧
      ∀ line ∈ (listing code).lines.toList, CodeLine line.text := by
  obtain ⟨tail, htail, hprinted⟩ := printed_listing code
  have hops : ∀ i, .op i ∈ printed (listing code) → i.Legible := by
    intro i hi
    rw [hprinted, written_append] at hi
    rcases List.mem_append.1 hi with hi | hi
    · exact h i (List.mem_filter.1 hi).1
    · rcases htail with rfl | rfl
      · cases hi
      · cases List.mem_singleton.1 hi
        trivial
  refine ⟨fun hnil => ?_, fun line hline => codeLine_text fun i hi => hops i ?_⟩
  · obtain ⟨-, -, -, -, hreturn⟩ := listing_eq_addAll code
    obtain ⟨front, i, hconcat, -⟩ := printed_eq_concat hreturn
    rw [printed, hnil] at hconcat
    simp at hconcat
  · exact List.mem_flatMap.2 ⟨line, hline, hi⟩

end Javelet.Assembly
