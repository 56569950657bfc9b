import Javelet.Diagnostic.Report
import Javelet.Proofs.Positions.Layout
import Javelet.Proofs.Token.Course

/-!
# Carets

A report shows the line that its diagnostic points at and a caret below it. The column has been
counted by the decoder, along the spans of the raw text; the line is cut out of this text later, and
widened on its own. Both agree since a decoded text has no carriage return but those in front of
line feeds: so what is in front of a place on its line is widened to as many characters as the place
has columns. Every diagnostic stands at such a place, for it stands at a token, or at what could not
be read as one.
-/
namespace Javelet

/-! ## Lines -/

namespace Text

/-- The lines of a text with their numbers, counted from 1. There is no line feed in a line; one
stands in front of it and one behind it, but for the ends of the text. -/
inductive IsLine : List Char → Nat → List Char → Prop
  | mk {before line after : List Char} : (∀ c ∈ before.getLast?, c = '\n') → '\n' ∉ line →
      (∀ c ∈ after.head?, c = '\n') →
      IsLine (before ++ (line ++ after)) (1 + before.count '\n') line

theorem splitLinesFrom_done (done : List (List Char)) (open_ cs : List Char) :
    splitLinesFrom done open_ cs = done.reverse ++ splitLinesFrom [] open_ cs := by
  induction cs generalizing done open_ with
  | nil => simp [splitLinesFrom]
  | cons c cs ih =>
    rw [splitLinesFrom, splitLinesFrom]
    split
    · rw [ih, ih [open_.reverse], List.reverse_cons, List.append_assoc]
      rfl
    · exact ih _ _

theorem splitLinesFrom_append {line : List Char} (h : '\n' ∉ line) (done : List (List Char))
    (open_ after : List Char) : splitLinesFrom done open_ (line ++ after) =
      splitLinesFrom done (line.reverse ++ open_) after := by
  induction line generalizing open_ with
  | nil => rfl
  | cons c line ih =>
    rw [List.mem_cons, not_or] at h
    rw [List.cons_append, splitLinesFrom, if_neg (Ne.symm h.1), ih h.2]
    simp

/-- Behind a line feed a line starts, with a number that counts the line feeds so far. -/
theorem splitLinesFrom_lineFeed (before rest : List Char) (done : List (List Char))
    (open_ : List Char) : ∃ done', done'.length = done.length + before.count '\n' + 1 ∧
      splitLinesFrom done open_ (before ++ '\n' :: rest) = splitLinesFrom done' [] rest := by
  induction before generalizing done open_ with
  | nil => exact ⟨open_.reverse :: done, rfl, by rw [List.nil_append, splitLinesFrom, if_pos rfl]⟩
  | cons c before ih =>
    rw [List.cons_append, splitLinesFrom]
    split
    · rename_i hc
      obtain ⟨done', hlength, hsplit⟩ := ih (open_.reverse :: done) []
      refine ⟨done', ?_, hsplit⟩
      rw [hlength, hc, List.count_cons_self, List.length_cons]
      omega
    · rename_i hc
      obtain ⟨done', hlength, hsplit⟩ := ih done (c :: open_)
      refine ⟨done', ?_, hsplit⟩
      rw [hlength, List.count_cons_of_ne hc]

/-- The pieces of a text between its line feeds are its lines. -/
theorem IsLine.getElem?_splitLines {raw line : List Char} {number : Nat}
    (h : IsLine raw number line) : (splitLines raw)[number - 1]? = some line := by
  obtain @⟨before, line, after, hbefore, hline, hafter⟩ := h
  obtain ⟨done, hlength, hsplit⟩ : ∃ done : List (List Char), done.length = before.count '\n' ∧
      splitLines (before ++ (line ++ after)) = splitLinesFrom done [] (line ++ after) := by
    rcases List.eq_nil_or_concat before with rfl | ⟨before, c, rfl⟩
    · exact ⟨[], rfl, rfl⟩
    · obtain rfl : c = '\n' := hbefore c (by simp)
      obtain ⟨done, hlength, hsplit⟩ := splitLinesFrom_lineFeed before (line ++ after) [] []
      refine ⟨done, ?_, ?_⟩
      · rw [hlength, List.concat_eq_append, List.count_append, List.length_nil, Nat.zero_add]
        rfl
      · rw [splitLines, List.concat_eq_append, List.append_assoc]
        exact hsplit
  rw [hsplit, splitLinesFrom_append hline, List.append_nil, Nat.add_sub_cancel_left, ← hlength]
  cases after with
  | nil => simp [splitLinesFrom]
  | cons c after =>
    obtain rfl : c = '\n' := hafter c rfl
    rw [splitLinesFrom, if_pos rfl, splitLinesFrom_done]
    simp

end Text

/-! ## Shown lines -/

namespace Excerpt

/-- A text with a row of blanks for each tab. -/
def widened (cs : List Char) : List Char :=
  cs.flatMap fun c => if c = '\t' then List.replicate tabWidth ' ' else [c]

/-- What is shown of a line: the text in front of the carriage returns at its end, widened. -/
inductive IsShown : List Char → List Char → Prop
  | mk {text : List Char} {returns : Nat} : text.getLast? ≠ some '\r' →
      IsShown (text ++ List.replicate returns '\r') (widened text)

theorem length_widened (cs : List Char) : (widened cs).length = Source.columns cs := by
  rw [widened, List.length_flatMap, Source.columns]
  congr 1
  refine List.map_congr_left fun c _ => ?_
  split <;> rfl

theorem shown_eq (line : List Char) : shown line = widened (line.rdropWhile (· == '\r')) := rfl

theorem isShown_shown (line : List Char) : IsShown line (shown line) := by
  have hreturns : line.rtakeWhile (· == '\r') =
      List.replicate (line.rtakeWhile (· == '\r')).length '\r' :=
    List.eq_replicate_of_mem fun c hc => by simpa using List.mem_rtakeWhile_imp hc
  have hlast : (line.rdropWhile (· == '\r')).getLast? ≠ some '\r' := by
    intro h
    have hne : line.rdropWhile (· == '\r') ≠ [] := by
      intro hnil
      rw [hnil] at h
      cases h
    have hnot := List.rdropWhile_last_not (· == '\r') line hne
    rw [List.getLast?_eq_some_getLast hne] at h
    rw [Option.some.inj h] at hnot
    exact hnot rfl
  have hshown : IsShown (line.rdropWhile (· == '\r') ++
      List.replicate (line.rtakeWhile (· == '\r')).length '\r') (shown line) := .mk hlast
  rwa [← hreturns, List.rdropWhile_append_rtakeWhile] at hshown

/-- Text without carriage returns is shown as it is, whatever comes behind it. -/
theorem shown_append {text : List Char} (h : '\r' ∉ text) (more : List Char) :
    shown (text ++ more) = widened text ++ shown more := by
  have hdrop : (text ++ more).rdropWhile (· == '\r') = text ++ more.rdropWhile (· == '\r') := by
    induction more using List.reverseRecOn with
    | nil =>
      rw [List.rdropWhile_nil, List.append_nil, List.rdropWhile_eq_self_iff]
      intro hne hlast
      rw [beq_iff_eq] at hlast
      exact h (hlast ▸ List.getLast_mem hne)
    | append_singleton more c ih =>
      rw [← List.append_assoc, List.rdropWhile_concat, List.rdropWhile_concat, ih]
      split
      · rfl
      · rw [List.append_assoc]
  rw [shown_eq, shown_eq, hdrop, widened, List.flatMap_append]
  rfl

end Excerpt

/-! ## Places -/

namespace Source

/-- The text in front of a place and the text behind it. There is no carriage return in front of the
place on its line. -/
structure Place (raw before after : List Char) (p : Position) : Prop where
  raw_eq : raw = before ++ after
  position : p = placeBehind before
  plain : '\r' ∉ before.rtakeWhile (· != '\n')

/-- The line around a place. -/
def lineAround (before after : List Char) : List Char :=
  before.rtakeWhile (· != '\n') ++ after.takeWhile (· != '\n')

section Places

variable {raw before after before' after' : List Char} {p : Position}

/-- A place is told by its line and its column. -/
theorem eq_of_placeBehind (h : before ++ after = before' ++ after')
    (hp : placeBehind before = placeBehind before') : before = before' ∧ after = after' := by
  have hne : ∀ {q : Position}, ¬ q.Before q := fun {q} hq =>
    hq.elim (Nat.lt_irrefl _) fun hq => Nat.lt_irrefl _ hq.2
  have hnil : ∀ {place more : List Char}, placeBehind place = placeBehind (place ++ more) →
      more = [] := by
    intro place more heq
    by_contra hmore
    have hbefore := placeBehind_before hmore place
    rw [← heq] at hbefore
    exact hne hbefore
  rcases List.append_eq_append_iff.1 h with ⟨more, rfl, hafter⟩ | ⟨more, rfl, hafter⟩
  · obtain rfl := hnil hp
    exact ⟨(List.append_nil _).symm, hafter⟩
  · obtain rfl := hnil hp.symm
    exact ⟨List.append_nil _, hafter.symm⟩

theorem Place.isLine (h : Place raw before after p) :
    Text.IsLine raw p.line (lineAround before after) := by
  have hfront : before.rdropWhile (· != '\n') ++ before.rtakeWhile (· != '\n') = before :=
    List.rdropWhile_append_rtakeWhile
  have hback : after.takeWhile (· != '\n') ++ after.dropWhile (· != '\n') = after :=
    List.takeWhile_append_dropWhile
  have hcount : before.count '\n' = (before.rdropWhile (· != '\n')).count '\n' := by
    have hnone : (before.rtakeWhile (· != '\n')).count '\n' = 0 :=
      List.count_eq_zero.2 fun hmem => by simpa using List.mem_rtakeWhile_imp hmem
    conv_lhs => rw [← hfront, List.count_append, hnone, Nat.add_zero]
  have hline : '\n' ∉ lineAround before after := by
    rw [lineAround, List.mem_append, not_or]
    exact ⟨fun hmem => by simpa using List.mem_rtakeWhile_imp hmem,
      fun hmem => by simpa using List.mem_takeWhile_imp hmem⟩
  have hbefore : ∀ c ∈ (before.rdropWhile (· != '\n')).getLast?, c = '\n' := by
    intro c hc
    have hne : before.rdropWhile (· != '\n') ≠ [] := by
      intro hnil
      rw [hnil] at hc
      cases hc
    have hlast := List.rdropWhile_last_not (· != '\n') before hne
    rw [List.getLast?_eq_some_getLast hne] at hc
    rw [Option.some.inj hc] at hlast
    simpa using hlast
  have hafter : ∀ c ∈ (after.dropWhile (· != '\n')).head?, c = '\n' := by
    intro c hc
    have hhead := List.head?_dropWhile_not (· != '\n') after
    rw [Option.mem_def.1 hc] at hhead
    simpa using hhead
  have hmk := Text.IsLine.mk hbefore hline hafter
  rw [← hcount] at hmk
  have hall : before ++ after = before.rdropWhile (· != '\n') ++
      (lineAround before after ++ after.dropWhile (· != '\n')) := by
    rw [lineAround, List.append_assoc, hback, ← List.append_assoc, hfront]
  rw [h.position, h.raw_eq, hall]
  exact hmk

/-- The place is as many columns behind the start of its line as are shown in front of it. -/
theorem Place.shown_lineAround (h : Place raw before after p) :
    ∃ shown, Excerpt.shown (lineAround before after) =
        shown ++ Excerpt.shown (after.takeWhile (· != '\n')) ∧ shown.length = p.column := by
  refine ⟨_, Excerpt.shown_append h.plain _, ?_⟩
  rw [Excerpt.length_widened, h.position]
  rfl

theorem Place.column_le (h : Place raw before after p) :
    p.column ≤ (Excerpt.shown (lineAround before after)).length := by
  obtain ⟨shown, heq, hlength⟩ := h.shown_lineAround
  rw [heq, List.length_append, hlength]
  exact Nat.le_add_right ..

/-- A character that is neither a blank nor the end of a line is shown at its column. -/
theorem Place.getElem?_shown {c : Char} (h : Place raw before (c :: after) p) (hline : c ≠ '\n')
    (hreturn : c ≠ '\r') (htab : c ≠ '\t') :
    (Excerpt.shown (lineAround before (c :: after)))[p.column]? = some c := by
  obtain ⟨shown, heq, hlength⟩ := h.shown_lineAround
  have hsingle : '\r' ∉ [c] := fun hmem => hreturn (List.mem_singleton.1 hmem).symm
  have htail : Excerpt.shown ((c :: after).takeWhile (· != '\n')) =
      c :: Excerpt.shown (after.takeWhile (· != '\n')) := by
    rw [List.takeWhile_cons_of_pos (by simpa using hline)]
    refine (Excerpt.shown_append hsingle _).trans ?_
    rw [Excerpt.widened, List.flatMap_singleton, if_neg htab]
    rfl
  rw [heq, htail, ← hlength, List.getElem?_append_right (Nat.le_refl _), Nat.sub_self]
  rfl

/-- The excerpt at a place is what is shown of the line around it. -/
theorem Place.excerpt {source : String} (h : Place source.toList before after p) :
    Excerpt.ofPosition source p =
      ⟨p.line, p.column, String.ofList (Excerpt.shown (lineAround before after))⟩ := by
  rw [Excerpt.ofPosition, h.isLine.getElem?_splitLines]
  rfl

end Places

/-! ## Places of a decoded text -/

/-- A span ends its line or adds no carriage return to it. -/
theorem Span.plain {before span : List Char} {c : Char} (h : Span span c)
    (hbefore : '\r' ∉ before.rtakeWhile (· != '\n')) :
    '\r' ∉ (before ++ span).rtakeWhile (· != '\n') := by
  have hconcat : ∀ {text : List Char} {d : Char}, d ≠ '\r' →
      '\r' ∉ text.rtakeWhile (· != '\n') → '\r' ∉ (text ++ [d]).rtakeWhile (· != '\n') := by
    intro text d hd htext
    rw [List.rtakeWhile_concat]
    split
    · rw [List.mem_append, not_or, List.mem_singleton]
      exact ⟨htext, hd.symm⟩
    · exact List.not_mem_nil
  cases h with
  | char hc => exact hconcat hc hbefore
  | lineEnd =>
    rw [show before ++ ['\r', '\n'] = before ++ ['\r'] ++ ['\n'] by simp,
      List.rtakeWhile_concat_neg _ _ _ (by decide)]
    exact List.not_mem_nil
  | escape h =>
    obtain ⟨tail, rfl, -, hplain⟩ := h.tail_plain
    have hall : ∀ d ∈ '\\' :: 'u' :: tail, d ≠ '\r' :=
      List.forall_mem_cons.2 ⟨by decide, fun d hd => (hplain d hd).2.1⟩
    generalize '\\' :: 'u' :: tail = text at hall
    induction text using List.reverseRecOn with
    | nil => rwa [List.append_nil]
    | append_singleton text d ih =>
      rw [List.forall_mem_append, List.forall_mem_singleton] at hall
      rw [← List.append_assoc]
      exact hconcat hall.2 (ih hall.1)

/-- A walk along the first characters and then along the others. -/
theorem Walk.exists_append {before rest : List Char} {spans : List (List Char)}
    {earlier later : List SourceChar} {fault : Option (Located Lexeme.Fault)}
    (h : Walk before spans rest (earlier ++ later) fault) :
    ∃ spans₁ spans₂, spans = spans₁ ++ spans₂ ∧
      List.Forall₂ Span spans₁ (earlier.map SourceChar.char) ∧
      Walk (before ++ spans₁.flatten) spans₂ rest later fault ∧
      ('\r' ∉ before.rtakeWhile (· != '\n') →
        '\r' ∉ (before ++ spans₁.flatten).rtakeWhile (· != '\n')) := by
  induction earlier generalizing before spans with
  | nil =>
    refine ⟨[], spans, rfl, .nil, ?_, ?_⟩
    · rwa [List.flatten_nil, List.append_nil]
    · rw [List.flatten_nil, List.append_nil]
      exact id
  | cons c earlier ih =>
    generalize hchars : c :: earlier ++ later = chars at h
    cases h with
    | finish => cases hchars
    | fault => cases hchars
    | span hspan _ hwalk =>
      obtain ⟨rfl, rfl⟩ := List.cons.inj hchars
      obtain ⟨spans₁, spans₂, rfl, hspans, hlater, hplain⟩ := ih hwalk
      rw [List.append_assoc, ← List.flatten_cons] at hlater hplain
      exact ⟨_ :: spans₁, spans₂, rfl, .cons hspan hspans, hlater,
        fun hbefore => hplain (hspan.plain hbefore)⟩

variable {source : String}

/-- The characters of a decoded text stand where their spans start in the raw text. -/
theorem exists_place {earlier later : List SourceChar}
    (h : (decode source).chars = earlier ++ later) :
    ∃ before spans rest, Place source.toList before (spans.flatten ++ rest) (placeBehind before) ∧
      Walk before spans rest later (decode source).fault := by
  obtain ⟨spans, rest, chars, fault, hraw, hwalk, hdecode⟩ := exists_walk [] source.toList .start
  have hall : decode source = ⟨chars, placeBehind spans.flatten, fault⟩ := hdecode
  rw [hall] at h ⊢
  obtain rfl : chars = earlier ++ later := h
  obtain ⟨spans₁, spans₂, rfl, -, hlater, hplain⟩ := hwalk.exists_append
  refine ⟨spans₁.flatten, spans₂, rest, ⟨?_, rfl, ?_⟩, hlater⟩
  · rw [hraw, List.flatten_append, List.append_assoc]
  · exact hplain (by rw [List.rtakeWhile_nil]; exact List.not_mem_nil)

/-- A decoded character is at a place of the raw text. -/
theorem place_of_char {c : SourceChar} (h : c ∈ (decode source).chars) :
    ∃ before after, Place source.toList before after c.position := by
  obtain ⟨earlier, later, hchars⟩ := List.append_of_mem h
  obtain ⟨before, spans, rest, hplace, hwalk⟩ := exists_place hchars
  cases hwalk with
  | span _ _ _ => exact ⟨_, _, hplace⟩

/-- The fault of a decoding is at a place of the raw text. -/
theorem place_of_fault {l : Located Lexeme.Fault} (h : (decode source).fault = some l) :
    ∃ before after, Place source.toList before after l.position := by
  obtain ⟨before, spans, rest, hplace, hwalk⟩ := exists_place (List.append_nil _).symm
  rw [h] at hwalk
  cases hwalk with
  | fault _ => exact ⟨_, _, hplace⟩

end Source

/-! ## Tokens in the raw text -/

open Lexeme

/-- The raw text of a token, with what stands in front of it and behind it: the spans of the
characters that make up a lexeme of the token. -/
structure Token.Written (source : String) (t : Token) (before text after : List Char) : Prop where
  raw_eq : source.toList = before ++ (text ++ after)
  position : t.position = Source.placeBehind before
  spells : ∃ earlier lexeme later spans,
    (Source.decode source).chars = earlier ++ (lexeme ++ later) ∧
      IsLexeme (textOf later) t.kind t.text.toList (textOf lexeme) ∧
      lexeme.head?.map SourceChar.position = some t.position ∧
      List.Forall₂ Source.Span spans (textOf lexeme) ∧ text = spans.flatten

theorem Lexer.Step.rest_suffix {l l' : Lexer} {found : Except (Located Fault) Token}
    (h : l.Step l' found) : l'.rest <:+ l.rest := by
  cases h with
  | token hrest => exact ⟨_, hrest.symm⟩
  | fault hrest => exact ⟨_, hrest.symm⟩
  | pending _ hend =>
    rw [hend]
    exact List.nil_suffix

/-- A token that a lexer hands out has a lexeme in the text of the lexer. -/
theorem Lexer.lexeme_of_result {l : Lexer} {t : Token} (h : .ok t ∈ l.results) :
    ∃ earlier lexeme later, l.rest = earlier ++ (lexeme ++ later) ∧
      Bare (textOf (lexeme ++ later)) ∧
      IsLexeme (textOf later) t.kind t.text.toList (textOf lexeme) ∧
      lexeme.head?.map SourceChar.position = some t.position := by
  induction l using Lexer.induction with
  | finish l hnext =>
    rw [results_of_none hnext] at h
    cases h
  | step l l' found hnext ih =>
    rw [results_of_next hnext] at h
    rcases List.mem_cons.1 h with rfl | h
    · obtain ⟨-, trivia, lexeme, hrest, -, hbare, hlexeme, hposition⟩ := next_eq_token.1 hnext
      exact ⟨trivia, lexeme, l'.rest, hrest, hbare, hlexeme, hposition⟩
    · obtain ⟨earlier, lexeme, later, hrest, hfound⟩ := ih h
      obtain ⟨used, hused⟩ := (step_of_next hnext).rest_suffix
      refine ⟨used ++ earlier, lexeme, later, ?_, hfound⟩
      rw [← hused, hrest, List.append_assoc]

/-- The raw text of a character that is no blank starts with a character that is none, either. -/
theorem Source.Span.head_plain {c : Char} {more : List Char} {d : Char} (h : Span (c :: more) d)
    (hd : d ∉ [' ', '\t', '\n', '\r', '\x0c']) : c ≠ '\n' ∧ c ≠ '\r' ∧ c ≠ '\t' := by
  generalize hraw : c :: more = span at h
  cases h with
  | char =>
    cases hraw
    refine ⟨?_, ?_, ?_⟩
    all_goals
      rintro rfl
      exact hd (by decide)
  | lineEnd => exact absurd (by decide) hd
  | escape h =>
    obtain ⟨tail, rfl, -⟩ := h.tail_plain
    cases hraw
    decide

/-- A token is written at a place of the raw text, and not with a blank first. -/
theorem Token.exists_written {source : String} {t : Token}
    (h : .ok t ∈ (Lexer.ofSource source).results) :
    ∃ before c text after, t.Written source before (c :: text) after ∧
      Source.Place source.toList before (c :: (text ++ after)) t.position ∧
      c ≠ '\n' ∧ c ≠ '\r' ∧ c ≠ '\t' := by
  obtain ⟨earlier, lexeme, later, hchars, hbare, hlexeme, hposition⟩ := Lexer.lexeme_of_result h
  obtain ⟨before, spans, rest, hplace, hwalk⟩ := Source.exists_place hchars
  obtain ⟨spans₁, spans₂, hspans, hlexemes, -, -⟩ := hwalk.exists_append
  cases lexeme with
  | nil => cases hposition
  | cons d lexeme =>
    have hhead : t.position = Source.placeBehind before := by
      rw [← Option.some.inj hposition, hwalk.position (k := 0) rfl]
      exact congrArg _ (List.append_nil _)
    obtain ⟨span, spans₁, hspan, hmore, rfl⟩ := List.forall₂_cons_right_iff.1 hlexemes
    obtain ⟨c, more, rfl⟩ := List.exists_cons_of_ne_nil hspan.ne_nil
    have hraw : spans.flatten ++ rest =
        c :: (more ++ spans₁.flatten ++ (spans₂.flatten ++ rest)) := by
      rw [hspans]
      simp
    rw [hraw, ← hhead] at hplace
    refine ⟨before, c, more ++ spans₁.flatten, spans₂.flatten ++ rest, ⟨hplace.raw_eq, hhead,
      earlier, d :: lexeme, later, (c :: more) :: spans₁, hchars, hlexeme, hposition, hlexemes, rfl⟩,
      hplace, hspan.head_plain (hbare.blank d.char rfl)⟩

/-! ## Where diagnostics stand -/

section Diagnostics

variable {source : String} {ts : List Token} {ds : List Diagnostic} {d : Diagnostic}

/-- Diagnostics do not move where no token does. -/
theorem position_fixed {f : Position → Position} (h : tokenize source = .ok ts)
    (hf : ∀ t ∈ ts, f t.position = t.position) (hds : compile source = .error ds) (hd : d ∈ ds) :
    f d.position = d.position := by
  have hts : movedTokens f ts = ts := by
    have hmoved : ts.map (Token.moved f) = ts.map id := List.map_congr_left fun t ht =>
      congrArg (Token.mk t.kind t.text) (hf t ht)
    rwa [List.map_id] at hmoved
  have hall : ∀ {es : List Diagnostic}, es = es.map (Diagnostic.moved f) → ∀ e ∈ es,
      f e.position = e.position := by
    intro es hes e he
    conv_lhs at hes => rw [← List.map_id es]
    exact congrArg Diagnostic.position (List.map_inj_left.1 hes e he).symm
  have hparse := parse_moves f ts
  rw [hts] at hparse
  have hsource := parseSource_of_tokens h
  generalize parse ts = o at hparse hsource
  cases hparse with
  | error htold =>
    cases (compile_of_refused hsource).symm.trans hds
    exact hall (congrArg List.singleton htold) d hd
  | @ok p p' hp =>
    cases ha : analyze p with
    | error es =>
      have hes := analyze_moved f p
      rw [← hp, ha] at hes
      cases (compile_of_faults hsource ha).symm.trans hds
      exact hall (Except.error.inj hes) d hd
    | ok analysis =>
      have hg := generate_moved f p analysis
      rw [← hp] at hg
      have hcompile := (compile_of_analysis hsource ha).symm.trans hds
      generalize generate p analysis = o at hg hcompile
      cases o with
      | ok text => cases hcompile
      | error e =>
        cases hcompile
        exact hall (congrArg List.singleton (Except.error.inj hg)) d hd

/-- Where there are tokens, every diagnostic stands at one of them. -/
theorem exists_token_of_diagnostic (h : tokenize source = .ok ts) (hds : compile source = .error ds)
    (hd : d ∈ ds) : ∃ t ∈ ts, t.position = d.position := by
  by_contra hnone
  -- all tokens stay where they are, and every other place moves
  have hfixed := position_fixed
    (f := fun p => if p ∈ ts.map Token.position then p else p.right 1) h
    (fun t ht => if_pos (List.mem_map_of_mem ht)) hds hd
  rw [if_neg fun hmem => hnone (List.mem_map.1 hmem)] at hfixed
  exact Nat.succ_ne_self _ (congrArg Position.column hfixed)

theorem Alternates.exists_char {cs : List SourceChar} {t : Token} (h : Alternates cs ts)
    (ht : t ∈ ts) : ∃ c ∈ cs, c.position = t.position := by
  induction h with
  | finish _ => cases ht
  | token _ _ _ hposition _ ih =>
    rename_i trivia lexeme after u us _ _
    rcases List.mem_cons.1 ht with rfl | ht
    · obtain ⟨c, hc, hp⟩ := Option.map_eq_some_iff.1 hposition
      exact ⟨c, List.mem_append_right _ (List.mem_append_left _ (List.mem_of_head? hc)), hp⟩
    · obtain ⟨c, hc, hp⟩ := ih ht
      exact ⟨c, List.mem_append_right _ (List.mem_append_right _ hc), hp⟩

/-- Every diagnostic is at a place of the raw text. -/
theorem place_of_diagnostic (hds : compile source = .error ds) (hd : d ∈ ds) :
    ∃ before after, Source.Place source.toList before after d.position := by
  cases h : tokenize source with
  | error e =>
    have hsource : parseSource source = .error e.diagnostic := by
      rw [parseSource, h]
      rfl
    cases (compile_of_refused hsource).symm.trans hds
    obtain rfl : d = e.diagnostic := List.mem_singleton.1 hd
    show ∃ before after, Source.Place source.toList before after e.position
    rcases fault_of_tokenize h with hraised | hfault
    · obtain ⟨c, hc, hp⟩ := hraised.position
      rw [← hp]
      exact Source.place_of_char hc
    · exact Source.place_of_fault hfault
  | ok ts =>
    obtain ⟨t, ht, hposition⟩ := exists_token_of_diagnostic h hds hd
    obtain ⟨us, rfl, -, hus⟩ := Lexer.tokensFrom_eq_ok.1 h
    obtain ⟨c, hc, hp⟩ := hus.exists_char ht
    rw [← hposition, ← hp]
    exact Source.place_of_char hc

/-- A report shows the line of the raw text that has the number of the diagnostic, and its caret
stands below this line or right behind it. If the diagnostic is at a token, what is above the caret
is the first raw character of the token. -/
theorem compile_carets (h : compile source = .error ds) (hd : d ∈ ds) :
    ∃ line shown, Text.IsLine source.toList d.position.line line ∧ Excerpt.IsShown line shown ∧
      (∃ front front' : String, front.length = front'.length ∧ ∀ file,
        (d.reportLines source file)[3]? = some (front ++ String.ofList shown) ∧
        (d.reportLines source file)[4]? = some (front' ++ blanks d.position.column ++ "^")) ∧
      d.position.column ≤ shown.length ∧
      ∀ t, .ok t ∈ (Lexer.ofSource source).results → t.position = d.position →
        ∃ before c text after, t.Written source before (c :: text) after ∧
          shown[d.position.column]? = some c := by
  obtain ⟨before, after, hplace⟩ := place_of_diagnostic h hd
  refine ⟨_, _, hplace.isLine, Excerpt.isShown_shown _, ?_, hplace.column_le, ?_⟩
  · refine ⟨d.position.line.repr ++ " | ", blanks d.position.line.repr.length ++ " | ", ?_, ?_⟩
    · simp [blanks]
    · intro file
      rw [Diagnostic.reportLines, hplace.excerpt]
      exact ⟨rfl, rfl⟩
  · intro t ht hposition
    obtain ⟨before', c, text, after', hwritten, htoken, hline, hreturn, htab⟩ :=
      Token.exists_written ht
    rw [hposition] at htoken
    obtain ⟨rfl, rfl⟩ := Source.eq_of_placeBehind (hplace.raw_eq.symm.trans htoken.raw_eq)
      (hplace.position.symm.trans htoken.position)
    exact ⟨before, c, text, after', hwritten, htoken.getElem?_shown hline hreturn htab⟩

/-- A method with a tab, with line ends of two characters and with a name that is written by an
escape. -/
def escapedName : String := "class A \x7b\r\n\tint f() \x7b return \\u0079; \x7d\r\n\x7d\r\n"

/-- The name stands behind a widened tab, and the caret below the backslash of its escape. -/
theorem escapedName_carets : ∃ ds d line shown t before text after,
    compile escapedName = .error ds ∧ d ∈ ds ∧ d.position = ⟨2, 21⟩ ∧
      Text.IsLine escapedName.toList 2 line ∧ Excerpt.IsShown line shown ∧
      .ok t ∈ (Lexer.ofSource escapedName).results ∧ t.position = d.position ∧
      t.Written escapedName before ('\\' :: text) after ∧ shown[21]? = some '\\' := by
  have hplaces : (compile escapedName).mapError (List.map Diagnostic.position) =
      .error [⟨2, 21⟩] := by
    rw [compile, parseSource, tokenize_ofList (s := escapedName) rfl]
    decide +kernel
  have hresults : (Lexer.ofSource escapedName).results.any
      (fun r => r.toOption.any (·.position == ⟨2, 21⟩)) = true := by
    rw [Lexer.ofSource, Source.decode_ofList (s := escapedName) rfl]
    decide +kernel
  have hplace : Source.placeBehind (escapedName.toList.take 29) = ⟨2, 21⟩ := by decide +kernel
  have hslash : (escapedName.toList.drop 29).head? = some '\\' := by decide +kernel
  obtain ⟨r, ht, hr⟩ := List.any_eq_true.1 hresults
  cases r with
  | error e => cases hr
  | ok t =>
    have htoken : t.position = ⟨2, 21⟩ := eq_of_beq hr
    cases h : compile escapedName with
    | ok text =>
      rw [h] at hplaces
      cases hplaces
    | error ds =>
      rw [h] at hplaces
      obtain ⟨d, rfl, hd⟩ := List.map_eq_singleton_iff.1 (Except.error.inj hplaces)
      obtain ⟨line, shown, hline, hshown, -, -, hcaret⟩ :=
        compile_carets h (List.mem_singleton_self d)
      obtain ⟨before, c, text, after, hwritten, hc⟩ := hcaret t ht (htoken.trans hd.symm)
      obtain ⟨-, hafter⟩ := Source.eq_of_placeBehind
        (hwritten.raw_eq.symm.trans (List.take_append_drop 29 _).symm)
        (hwritten.position.symm.trans (htoken.trans hplace.symm))
      rw [← hafter] at hslash
      obtain rfl : c = '\\' := Option.some.inj hslash
      rw [hd] at hline hc
      exact ⟨[d], d, line, shown, t, before, text, after, rfl, List.mem_singleton_self d, hd, hline,
        hshown, ht, htoken.trans hd.symm, hwritten, hc⟩

end Diagnostics

end Javelet
