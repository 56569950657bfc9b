import Javelet.Proofs.Lexeme.Numbers
import Javelet.Proofs.Source.Verbatim
import Javelet.Token.Stream
import Mathlib.Data.List.Basic
import Mathlib.Data.List.Find

/-!
# Lexemes are read again from their spelling

The spelling of a scanned token is decoded character by character, is no blank and no comment, and
is scanned as the same token if a blank or nothing follows it. Words and numbers are spelled as
they stood in the source. Literals between quotes are spelled anew, with an escape for each
character that could not stand there; symbols have one spelling each.
-/
namespace Javelet.Lexeme

/-- A token whose spelling is read as this token again. -/
structure Legible (t : Token) : Prop where
  verbatim : Source.Verbatim t.spelling.toList
  read : ∀ again rest, textOf again = t.spelling.toList → Apart rest →
    ∃ c more p, again = c :: more ∧
      skipTrivia .between (again ++ rest) = .ok (again ++ rest) ∧
      scan c (more ++ rest) = ⟨.ok ⟨t.kind, t.text, p⟩, rest⟩

/-- What starts with neither a blank nor a comment is not skipped. -/
theorem skipTrivia_lexeme {c : SourceChar} {rest : List SourceChar}
    (hblank : isBlank c.char = false)
    (hopen : c.char = '/' → ∀ d ∈ rest.head?, d.char ≠ '/' ∧ d.char ≠ '*') :
    skipTrivia .between (c :: rest) = .ok (c :: rest) := by
  cases rest with
  | nil => simp [skipTrivia, hblank]
  | cons d rest =>
    have hline : ¬ (c.char = '/' ∧ d.char = '/') := fun h => (hopen h.1 d rfl).1 h.2
    have hblock : ¬ (c.char = '/' ∧ d.char = '*') := fun h => (hopen h.1 d rfl).2 h.2
    simp [skipTrivia, hblank, hline, hblock]

theorem verbatim_of_isRaw {text : List Char} (h : ∀ c ∈ text, IsRaw c) : Source.Verbatim text :=
  Source.verbatim_of_forall h

/-! ## Words -/

theorem ne_of_isWordPart {c d : Char} (h : Text.isWordPart c = true)
    (hd : Text.isWordPart d = false) : c ≠ d := by
  rintro rfl
  rw [hd] at h
  cases h

theorem wordKind_mem (word : String) :
    Token.wordKind word ∈ [Kind.boolean, .null, .keyword, .identifier] := by
  unfold Token.wordKind
  split
  · decide
  · split
    · decide
    · split
      · decide
      · decide

theorem spelling_ofWord (word : String) (p : Position) :
    (Token.ofWord word p).spelling = word := by
  have hkind := wordKind_mem word
  simp only [List.mem_cons, List.not_mem_nil, or_false] at hkind
  rcases hkind with hkind | hkind | hkind | hkind
  all_goals simp only [Token.spelling, Token.ofWord, hkind]

theorem legible_word {start : SourceChar} {cs rest : List SourceChar} {t : Token}
    (hstart : Text.isWordStart start.char = true) (h : word start cs = ⟨.ok t, rest⟩) :
    Legible t := by
  cases h
  have hparts : ∀ c ∈ start.char :: textOf (cs.takeWhile fun c => Text.isWordPart c.char),
      Text.isWordPart c = true := by
    rw [List.forall_mem_cons]
    refine ⟨Text.isWordPart_of_isWordStart hstart, ?_⟩
    intro c hc
    obtain ⟨d, hd, rfl⟩ := List.mem_map.1 hc
    exact List.all_eq_true.1 List.all_takeWhile d hd
  refine ⟨?_, ?_⟩
  · rw [spelling_ofWord, String.toList_ofList]
    refine verbatim_of_isRaw fun c hc => ?_
    exact ⟨ne_of_isWordPart (hparts c hc) (by decide), ne_of_isWordPart (hparts c hc) (by decide)⟩
  · intro again rest' htext ha
    rw [spelling_ofWord, String.toList_ofList] at htext
    obtain ⟨c, more, rfl, hc, hmore⟩ := exists_cons_of_textOf htext
    have hin : ∀ d ∈ more, Text.isWordPart d.char = true := by
      intro d hd
      refine hparts d.char (List.mem_cons_of_mem _ ?_)
      rw [← hmore]
      exact List.mem_map_of_mem hd
    have hout : ∀ d ∈ rest'.head?, Text.isWordPart d.char = false := by
      intro d hd
      rw [ha d hd]
      decide
    obtain ⟨htake, hdrop⟩ := span_append (q := fun d => Text.isWordPart d.char) hin hout
    refine ⟨c, more, c.position, rfl, ?_, ?_⟩
    · refine skipTrivia_lexeme ?_ fun hslash => ?_
      · simp only [isBlank, Bool.or_eq_false_iff, beq_eq_false_iff_ne, hc]
        have hstart' := hparts _ (List.mem_cons_self ..)
        exact ⟨⟨⟨⟨ne_of_isWordPart hstart' (by decide), ne_of_isWordPart hstart' (by decide)⟩,
          ne_of_isWordPart hstart' (by decide)⟩, ne_of_isWordPart hstart' (by decide)⟩,
          ne_of_isWordPart hstart' (by decide)⟩
      · rw [hc] at hslash
        rw [hslash] at hstart
        exact absurd hstart (by decide)
    · rw [scan, hc, if_pos hstart, word, htake, hdrop, hc, hmore]
      rfl

/-! ## Numbers -/

/-- A number starts with a digit or a point, so it is no blank and no comment. -/
theorem skipTrivia_number {cs : List SourceChar} (h : startsNumber cs = true) :
    skipTrivia .between cs = .ok cs := by
  rcases startsNumber_cases h with ⟨c, more, rfl, hc⟩ | ⟨c, d, more, rfl, hc, -⟩
  · have hne : ∀ d, d.isDigit = false → c.char ≠ d := by
      rintro d hd rfl
      rw [hd] at hc
      cases hc
    refine skipTrivia_lexeme ?_ fun hslash => absurd hslash (hne _ (by decide))
    simp only [isBlank, Bool.or_eq_false_iff, beq_eq_false_iff_ne]
    exact ⟨⟨⟨⟨hne _ (by decide), hne _ (by decide)⟩, hne _ (by decide)⟩, hne _ (by decide)⟩,
      hne _ (by decide)⟩
  · refine skipTrivia_lexeme ?_ ?_
    · rw [hc]
      decide
    · rw [hc]
      exact fun hslash => absurd hslash (by decide)

theorem startsNumber_apart {cs : List SourceChar} (ha : Apart cs) : startsNumber cs = false := by
  cases cs with
  | nil => rfl
  | cons c cs =>
    simp only [startsNumber, ha c rfl]
    rfl

theorem legible_number {p : Position} {cs rest : List SourceChar} {t : Token}
    (hword : ∀ c ∈ cs.head?, Text.isWordStart c.char = false) (hstarts : startsNumber cs = true)
    (h : number p cs = ⟨.ok t, rest⟩) : Legible t := by
  obtain ⟨used, rfl, hspelling, hraw, hagain⟩ := rescans_number _ _ _ _ h
  refine ⟨?_, ?_⟩
  · rw [hspelling, String.toList_ofList]
    exact verbatim_of_isRaw hraw
  · intro again rest' htext ha
    rw [hspelling, String.toList_ofList] at htext
    have hstarts' : startsNumber (again ++ rest') = true := startsNumber_again hstarts h htext
    have hword' := head_again (q := fun c => Text.isWordStart c = false) (by decide) htext ha hword
    cases again with
    | nil =>
      rw [List.nil_append, startsNumber_apart ha] at hstarts'
      cases hstarts'
    | cons c more =>
      refine ⟨c, more, c.position, rfl, skipTrivia_number hstarts', ?_⟩
      rw [scan, hword' c rfl, if_neg Bool.false_ne_true, ← List.cons_append, if_pos hstarts']
      exact hagain c.position (c :: more) rest' htext ha

/-! ## Literals between quotes -/

/-- How a character is spelled between quotes: by an escape of one sign, or by itself. -/
theorem escaped_cases {quote : Char} (hquote : quote = '"' ∨ quote = '\'') (c : Char) :
    (∃ sign, Token.escaped quote c = ['\\', sign] ∧ namedEscape? sign = some c ∧
      sign ≠ 'u' ∧ sign ≠ '\r') ∨
    (Token.escaped quote c = [c] ∧ c ≠ '\n' ∧ c ≠ quote ∧ IsRaw c) := by
  unfold Token.escaped
  split
  · rename_i hc
    exact .inl ⟨'b', rfl, hc ▸ rfl, by decide, by decide⟩
  split
  · rename_i hc
    exact .inl ⟨'t', rfl, hc ▸ rfl, by decide, by decide⟩
  split
  · rename_i hc
    exact .inl ⟨'n', rfl, hc ▸ rfl, by decide, by decide⟩
  split
  · rename_i hc
    exact .inl ⟨'f', rfl, hc ▸ rfl, by decide, by decide⟩
  split
  · rename_i hc
    exact .inl ⟨'r', rfl, hc ▸ rfl, by decide, by decide⟩
  split
  · rename_i hc
    refine .inl ⟨c, rfl, ?_⟩
    rcases hc with rfl | rfl
    · exact ⟨rfl, by decide, by decide⟩
    · rcases hquote with rfl | rfl
      · exact ⟨rfl, by decide, by decide⟩
      · exact ⟨rfl, by decide, by decide⟩
  · rename_i hline _ hreturn hother
    exact .inr ⟨rfl, hline, fun hc => hother (.inr hc), fun hc => hother (.inl hc), hreturn⟩

theorem verbatim_quoted {quote : Char} (hquote : quote = '"' ∨ quote = '\'') (value : String) :
    Source.Verbatim (Token.quoted quote value).toList := by
  have hmark : Source.Verbatim [quote] := by
    rcases hquote with rfl | rfl
    · exact Source.verbatim_char (by decide) (by decide)
    · exact Source.verbatim_char (by decide) (by decide)
  have hchars : Source.Verbatim (value.toList.flatMap (Token.escaped quote)) := by
    refine .flatMap fun c _ => ?_
    rcases escaped_cases hquote c with ⟨sign, hc, -, hu, hr⟩ | ⟨hc, -, -, hraw⟩
    · rw [hc]
      exact Source.verbatim_pair hu hr
    · rw [hc]
      exact Source.verbatim_char hraw.1 hraw.2
  rw [Token.quoted, String.toList_ofList]
  exact (hmark.append hchars).append hmark

theorem skipTrivia_quote {c : SourceChar} (h : c.char = '"' ∨ c.char = '\'')
    (rest : List SourceChar) : skipTrivia .between (c :: rest) = .ok (c :: rest) := by
  refine skipTrivia_lexeme ?_ fun hslash => ?_
  · rcases h with h | h
    · rw [h]
      decide
    · rw [h]
      decide
  · rw [hslash] at h
    exact absurd h (by decide)

theorem escape_named {c : SourceChar} {value : Char} (h : namedEscape? c.char = some value)
    (rest : List SourceChar) : escape (c :: rest) = (.ok value, rest) := by
  simp only [escape, h]

/-- One spelled character is read back. -/
theorem stringFrom_escaped {again : List SourceChar} {value : Char}
    (h : textOf again = Token.escaped '"' value) (opened : Position) (done : List Char)
    (rest : List SourceChar) :
    stringFrom opened done (again ++ rest) = stringFrom opened (value :: done) rest := by
  rcases escaped_cases (.inl rfl) value with ⟨sign, hc, hsign, -, -⟩ | ⟨hc, hline, hquote, hraw⟩
  · obtain ⟨slash, more, rfl, hslash, hmore⟩ := exists_cons_of_textOf (h.trans hc)
    obtain ⟨c, none, rfl, rfl, hnone⟩ := exists_cons_of_textOf hmore
    obtain rfl := eq_nil_of_textOf hnone
    rw [List.cons_append, List.cons_append, List.nil_append, stringFrom, hslash,
      if_neg (by decide), if_neg (by decide), if_pos rfl]
    split
    · rename_i found
      cases (escape_named hsign rest).symm.trans found
      rfl
    · rename_i found
      cases (escape_named hsign rest).symm.trans found
  · obtain ⟨c, more, rfl, rfl, hmore⟩ := exists_cons_of_textOf (h.trans hc)
    obtain rfl := eq_nil_of_textOf hmore
    rw [List.cons_append, List.nil_append, stringFrom, if_neg hline, if_neg hquote,
      if_neg hraw.1]

theorem stringFrom_spelled {value : List Char} {again : List SourceChar} {quote : SourceChar}
    (h : textOf again = value.flatMap (Token.escaped '"')) (hquote : quote.char = '"')
    (opened : Position) (done : List Char) (rest : List SourceChar) :
    stringFrom opened done (again ++ quote :: rest) =
      .token .string (done.reverse ++ value) opened rest := by
  induction value generalizing again done with
  | nil =>
    obtain rfl := eq_nil_of_textOf h
    rw [List.nil_append, stringFrom, hquote, if_neg (by decide), if_pos rfl, List.append_nil]
  | cons c value ih =>
    rw [List.flatMap_cons] at h
    obtain ⟨first, others, rfl, hfirst, hothers⟩ := List.map_eq_append_iff.1 h
    rw [List.append_assoc, stringFrom_escaped hfirst, ih hothers, List.reverse_cons,
      List.append_assoc]
    rfl

/-- What a string literal gives is a string token. -/
theorem stringFrom_eq_ok {opened : Position} {done : List Char} {cs rest : List SourceChar}
    {t : Token} (h : stringFrom opened done cs = ⟨.ok t, rest⟩) :
    ∃ value, t = ⟨.string, value, opened⟩ := by
  fun_induction stringFrom opened done cs with
  | case1 => cases h
  | case2 => cases h
  | case3 =>
    cases h
    exact ⟨_, rfl⟩
  | case4 done c rest _ _ _ decoded more found ih => exact ih h
  | case5 => cases h
  | case6 done c rest _ _ _ ih => exact ih h

/-- A quoted literal stands between its quotes. -/
theorem quoted_again {quote : Char} {value : String} {again : List SourceChar}
    (h : textOf again = (Token.quoted quote value).toList) :
    ∃ opening inner closing, again = opening :: (inner ++ [closing]) ∧ opening.char = quote ∧
      textOf inner = value.toList.flatMap (Token.escaped quote) ∧ closing.char = quote := by
  rw [Token.quoted, String.toList_ofList, List.cons_append] at h
  obtain ⟨opening, others, rfl, hopening, hothers⟩ := exists_cons_of_textOf h
  obtain ⟨inner, last, rfl, hinner, hlast⟩ := List.map_eq_append_iff.1 hothers
  obtain ⟨closing, none, rfl, hclosing, hnone⟩ := exists_cons_of_textOf hlast
  obtain rfl := eq_nil_of_textOf hnone
  exact ⟨opening, inner, closing, rfl, hopening, hinner, hclosing⟩

theorem legible_string {opened : Position} {cs rest : List SourceChar} {t : Token}
    (h : stringFrom opened [] cs = ⟨.ok t, rest⟩) : Legible t := by
  obtain ⟨value, rfl⟩ := stringFrom_eq_ok h
  refine ⟨verbatim_quoted (.inl rfl) value, ?_⟩
  intro again rest' htext _
  obtain ⟨opening, inner, closing, rfl, hopening, hinner, hclosing⟩ := quoted_again htext
  refine ⟨opening, inner ++ [closing], opening.position, rfl,
    skipTrivia_quote (.inl hopening) _, ?_⟩
  have hstarts : startsNumber (opening :: (inner ++ [closing] ++ rest')) = false := by
    simp only [startsNumber, hopening]
    rfl
  rw [scan, hstarts, hopening, if_neg (by decide), if_neg (by decide), if_pos rfl,
    List.append_assoc, List.cons_append, List.nil_append, stringFrom_spelled hinner hclosing]
  simp [Scan.token]

theorem closeCharacter_eq_ok {opened : Position} {c : Char} {cs rest : List SourceChar} {t : Token}
    (h : closeCharacter opened c cs = ⟨.ok t, rest⟩) :
    t = ⟨.character, String.ofList [c], opened⟩ := by
  unfold closeCharacter at h
  split at h
  · split at h
    · cases h
      rfl
    · cases h
  · cases h

/-- What a character literal gives is a character token. -/
theorem characterFrom_eq_ok {opened : Position} {cs rest : List SourceChar} {t : Token}
    (h : characterFrom opened cs = ⟨.ok t, rest⟩) :
    ∃ c, t = ⟨.character, String.ofList [c], opened⟩ := by
  unfold characterFrom at h
  split at h
  · cases h
  · split at h
    · cases h
    · split at h
      · cases h
      · split at h
        · split at h
          · exact ⟨_, closeCharacter_eq_ok h⟩
          · cases h
        · exact ⟨_, closeCharacter_eq_ok h⟩

theorem characterFrom_spelled {value : Char} {again : List SourceChar} {quote : SourceChar}
    (h : textOf again = Token.escaped '\'' value) (hquote : quote.char = '\'')
    (opened : Position) (rest : List SourceChar) :
    characterFrom opened (again ++ quote :: rest) = .token .character [value] opened rest := by
  have hclose : closeCharacter opened value (quote :: rest) =
      .token .character [value] opened rest := by
    simp only [closeCharacter, hquote, if_true]
  rcases escaped_cases (.inr rfl) value with ⟨sign, hc, hsign, -, -⟩ | ⟨hc, hline, hother, hraw⟩
  · obtain ⟨slash, more, rfl, hslash, hmore⟩ := exists_cons_of_textOf (h.trans hc)
    obtain ⟨c, none, rfl, rfl, hnone⟩ := exists_cons_of_textOf hmore
    obtain rfl := eq_nil_of_textOf hnone
    rw [List.cons_append, List.cons_append, List.nil_append, characterFrom, hslash,
      if_neg (by decide), if_neg (by decide), if_pos rfl, escape_named hsign]
    exact hclose
  · obtain ⟨c, none, rfl, rfl, hnone⟩ := exists_cons_of_textOf (h.trans hc)
    obtain rfl := eq_nil_of_textOf hnone
    rw [List.cons_append, List.nil_append, characterFrom, if_neg hline, if_neg hother,
      if_neg hraw.1]
    exact hclose

theorem legible_character {opened : Position} {cs rest : List SourceChar} {t : Token}
    (h : characterFrom opened cs = ⟨.ok t, rest⟩) : Legible t := by
  obtain ⟨value, rfl⟩ := characterFrom_eq_ok h
  refine ⟨verbatim_quoted (.inr rfl) _, ?_⟩
  intro again rest' htext _
  obtain ⟨opening, inner, closing, rfl, hopening, hinner, hclosing⟩ := quoted_again htext
  refine ⟨opening, inner ++ [closing], opening.position, rfl,
    skipTrivia_quote (.inr hopening) _, ?_⟩
  have hstarts : startsNumber (opening :: (inner ++ [closing] ++ rest')) = false := by
    simp only [startsNumber, hopening]
    rfl
  have hvalue : textOf inner = Token.escaped '\'' value := by
    rw [hinner, String.toList_ofList, List.flatMap_cons, List.flatMap_nil, List.append_nil]
  rw [scan, hstarts, hopening, if_neg (by decide), if_neg (by decide), if_neg (by decide),
    if_pos rfl, List.append_assoc, List.cons_append, List.nil_append,
    characterFrom_spelled hvalue hclosing]
  rfl

/-! ## Symbols -/

/-- The characters of symbols start nothing else. -/
theorem symbol_chars (s : Symbol) : ∀ c ∈ s.spelling.toList,
    Text.isWordStart c = false ∧ c.isDigit = false ∧ isBlank c = false ∧
      c ≠ '"' ∧ c ≠ '\'' ∧ c ≠ '\\' := by
  refine List.forall_iff_forall_mem.mp ?_
  cases s <;> decide

/-- No symbol is the start of a comment. -/
theorem symbol_tail (s : Symbol) : ∀ c ∈ s.spelling.toList.tail, c ≠ '/' ∧ c ≠ '*' := by
  refine List.forall_iff_forall_mem.mp ?_
  cases s <;> decide

theorem startsWith_eq (spelling : List Char) (cs : List SourceChar) :
    startsWith spelling cs = spelling.isPrefixOf (textOf cs) := by
  fun_induction startsWith spelling cs with
  | case1 => simp
  | case2 => simp
  | case3 c spelling d rest ih =>
    rw [ih]
    rfl

/-- A blank is no part of a spelling. -/
theorem isPrefixOf_apart {spelling text tail : List Char} (hspelling : ' ' ∉ spelling)
    (htail : ∀ c ∈ tail.head?, c = ' ') :
    spelling.isPrefixOf (text ++ tail) = spelling.isPrefixOf text := by
  induction spelling generalizing text with
  | nil => simp
  | cons c spelling ih =>
    rw [List.mem_cons, not_or] at hspelling
    cases text with
    | cons d text =>
      rw [List.cons_append, List.isPrefixOf_cons_cons, List.isPrefixOf_cons_cons, ih hspelling.2]
    | nil =>
      cases tail with
      | nil => rfl
      | cons d tail =>
        rw [List.nil_append, htail d rfl, List.isPrefixOf_cons_cons,
          beq_false_of_ne (Ne.symm hspelling.1)]
        rfl

/-- Of all spellings the one that was written is the longest that fits. -/
theorem symbolAt?_spelled {s : Symbol} {again rest : List SourceChar}
    (h : textOf again = s.spelling.toList) (ha : Apart rest) :
    symbolAt? (again ++ rest) = some s := by
  have hall : ∀ entry ∈ spellings, ' ' ∉ entry.1 := by decide
  have hspelled : (spellings.find? fun entry => entry.1.isPrefixOf s.spelling.toList).map Prod.snd =
      some s := by
    cases s <;> decide
  have htail : ∀ c ∈ (textOf rest).head?, c = ' ' := by
    intro c hc
    obtain ⟨d, hd, rfl⟩ := Option.map_eq_some_iff.1 ((List.head?_map ..).symm.trans hc)
    exact ha d hd
  rw [symbolAt?, ← hspelled]
  congr 1
  refine List.find?_congr fun entry hentry => ?_
  rw [startsWith_eq, textOf_append, h, isPrefixOf_apart (hall entry hentry) htail]

theorem legible_symbol (s : Symbol) (p : Position) : Legible (Token.ofSymbol s p) := by
  refine ⟨verbatim_of_isRaw fun c hc => ?_, ?_⟩
  · obtain ⟨-, -, hblank, -, -, hslash⟩ := symbol_chars s c hc
    refine ⟨hslash, ?_⟩
    rintro rfl
    exact absurd hblank (by decide)
  · intro again rest htext ha
    change textOf again = s.spelling.toList at htext
    have hsymbol := symbolAt?_spelled htext ha
    have hlength : s.spelling.length = again.length := by
      rw [← String.length_toList, ← htext, textOf, List.length_map]
    cases hagain : again with
    | nil =>
      have hpos := spelling_length_pos s
      rw [String.length_toList, hlength, hagain] at hpos
      exact absurd hpos (Nat.lt_irrefl 0)
    | cons c more =>
      rw [hagain] at hsymbol hlength
      rw [hagain, textOf_cons] at htext
      obtain ⟨hword, hdigit, hblank, hstring, hcharacter, -⟩ :=
        symbol_chars s c.char (htext ▸ List.mem_cons_self ..)
      -- what follows the first character is another one of the symbol, or a blank
      have hmore : ∀ d ∈ (more ++ []).head?, d.char.isDigit = false ∧
          d.char ≠ '/' ∧ d.char ≠ '*' := by
        intro d hd
        rw [List.append_nil] at hd
        have hmem : d.char ∈ textOf more := List.mem_map_of_mem (List.mem_of_mem_head? hd)
        refine ⟨(symbol_chars s d.char ?_).2.1, symbol_tail s d.char ?_⟩
        · exact htext ▸ List.mem_cons_of_mem _ hmem
        · exact htext ▸ hmem
      have hnext := head_again (q := fun c => c.isDigit = false ∧ c ≠ '/' ∧ c ≠ '*')
        (by decide) rfl ha hmore
      have hnumber : startsNumber (c :: (more ++ rest)) = false := by
        simp only [startsNumber, hdigit, Bool.false_or, Bool.and_eq_false_iff]
        right
        cases hhead : (more ++ rest).head? with
        | none => rfl
        | some d => exact (hnext d hhead).1
      refine ⟨c, more, c.position, rfl, skipTrivia_lexeme hblank fun _ d hd => (hnext d hd).2, ?_⟩
      rw [List.cons_append] at hsymbol
      rw [scan, hword, if_neg Bool.false_ne_true, hnumber, if_neg Bool.false_ne_true,
        if_neg hstring, if_neg hcharacter, hsymbol]
      simp only [hlength, List.length_cons, List.drop_succ_cons, List.drop_left]
      rfl

/-! ## All lexemes -/

theorem legible_scan {c : SourceChar} {rest : List SourceChar} {t : Token}
    (h : (scan c rest).found = .ok t) : Legible t := by
  have hscan : scan c rest = ⟨.ok t, (scan c rest).rest⟩ := by rw [← h]
  generalize (scan c rest).rest = after at hscan
  unfold scan at hscan
  split at hscan
  · rename_i hstart
    exact legible_word hstart hscan
  · rename_i hstart
    split at hscan
    · rename_i hnumber
      refine legible_number ?_ hnumber hscan
      rintro _ ⟨⟩
      exact Bool.eq_false_iff.2 hstart
    · split at hscan
      · exact legible_string hscan
      · split at hscan
        · exact legible_character hscan
        · split at hscan
          · cases hscan
            exact legible_symbol _ _
          · cases hscan

end Javelet.Lexeme
