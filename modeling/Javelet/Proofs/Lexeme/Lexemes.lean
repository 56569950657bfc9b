import Javelet.Proofs.Lexeme.Legible
import Javelet.Proofs.Lexeme.LongestNumber

/-!
# Lexemes

Which text is a lexeme, of which kind and with which text, is told without a scanner, from the
characters of the lexeme and of what follows it. Words and numbers are as long as they can be, a
symbol is the longest one that stands there, and a literal is a body between quotes whose characters
are written plainly or by escapes. The scanner finds a token exactly where a lexeme of this token
stands, and uses up this lexeme.
-/
namespace Javelet.Lexeme

/-! ## What lexemes are -/

/-- The signs that may stand behind a backslash, with the characters they are written for. -/
def escapeSigns : List (Char × Char) :=
  [('b', '\x08'), ('t', '\t'), ('n', '\n'), ('f', '\x0c'), ('r', '\r'), ('"', '"'), ('\'', '\''),
    ('\\', '\\')]

/-- How many digits an octal escape may have, so that its value is less than 256. -/
def octalLimit (first : Char) : Nat := if first ≤ '3' then 3 else 2

/-- What may stand behind a backslash in front of the character `next`: a sign, or octal digits, as
many as there are within the limit. -/
inductive IsEscape (next : Option Char) : List Char → Char → Prop
  | sign {sign c : Char} : (sign, c) ∈ escapeSigns → IsEscape next [sign] c
  | octal {digits : List Char} {first : Char} : digits.head? = some first →
      (∀ d ∈ digits, Text.isDigitOf 8 d = true) → digits.length ≤ octalLimit first →
      (digits.length = octalLimit first ∨ ∀ c ∈ next, Text.isDigitOf 8 c = false) →
      IsEscape next digits (Char.ofNat (Text.digitsValue 8 digits))

/-- A body that is written between quotes, and its value. -/
inductive IsBody (quote : Char) : List Char → List Char → Prop
  | nil : IsBody quote [] []
  | plain {c : Char} {body value : List Char} : c ∉ ['\n', quote, '\\'] → IsBody quote body value →
      IsBody quote (c :: body) (c :: value)
  | escape {written : List Char} {c : Char} {body value : List Char} :
      IsEscape (body ++ [quote]).head? written c → IsBody quote body value →
      IsBody quote ('\\' :: (written ++ body)) (c :: value)

/-- The lexemes in front of `after`, each with the kind and the text of its token. -/
inductive IsLexeme (after : List Char) : Kind → List Char → List Char → Prop
  | word {w : List Char} : (∃ c ∈ w.head?, Text.isWordStart c = true) →
      (∀ c ∈ w, Text.isWordPart c = true) → (∀ c ∈ after.head?, Text.isWordPart c = false) →
      IsLexeme after (Token.wordKind (String.ofList w)) w w
  | number {kind : Kind} {n : List Char} : IsNumber kind n → LongestNumber (n ++ after) n →
      (∀ c ∈ after.head?, Text.isWordPart c = false) → IsLexeme after kind n n
  | string {body value : List Char} : IsBody '"' body value →
      IsLexeme after .string value ('"' :: (body ++ ['"']))
  | character {body : List Char} {c : Char} : IsBody '\'' body [c] →
      IsLexeme after .character [c] ('\'' :: (body ++ ['\'']))
  | symbol {s : Symbol} : (∀ other : Symbol, other.spelling.toList <+: s.spelling.toList ++ after →
        other.spelling.length ≤ s.spelling.length) →
      (s = .dot → ∀ c ∈ after.head?, c.isDigit = false) →
      IsLexeme after (.symbol s) s.spelling.toList s.spelling.toList

/-! ## Escapes -/

theorem namedEscape?_eq_some {sign c : Char} :
    namedEscape? sign = some c ↔ (sign, c) ∈ escapeSigns := by
  unfold namedEscape?
  split
  all_goals simp_all [escapeSigns, eq_comm]

theorem namedEscape?_digit {d : Char} (h : Text.isDigitOf 8 d = true) : namedEscape? d = none := by
  have hsigns : ∀ entry ∈ escapeSigns, Text.isDigitOf 8 entry.1 = false := by decide
  cases hd : namedEscape? d with
  | none => rfl
  | some c =>
    have hnot := hsigns _ (namedEscape?_eq_some.1 hd)
    rw [h] at hnot
    cases hnot

theorem takeWhile_take_append {q : SourceChar → Bool} {k : Nat} {used rest : List SourceChar}
    (hin : ∀ c ∈ used, q c = true) (hfits : used.length ≤ k)
    (hout : used.length = k ∨ ∀ c ∈ rest.head?, q c = false) :
    ((used ++ rest).take k).takeWhile q = used := by
  rw [List.take_append, List.take_of_length_le hfits, List.takeWhile_append_of_pos hin]
  rcases hout with hfull | hout
  · simp [hfull]
  · have hnone : (rest.take (k - used.length)).takeWhile q = [] := by
      cases rest with
      | nil => simp
      | cons c rest =>
        cases k - used.length with
        | zero => rfl
        | succ n => rw [List.take_succ_cons, List.takeWhile_cons_of_neg (by simp [hout c rfl])]
    rw [hnone, List.append_nil]

theorem exists_takeWhile_take (q : SourceChar → Bool) (k : Nat) (cs : List SourceChar) :
    ∃ rest, cs = (cs.take k).takeWhile q ++ rest ∧ ((cs.take k).takeWhile q).length ≤ k ∧
      (((cs.take k).takeWhile q).length = k ∨ ∀ c ∈ rest.head?, q c = false) := by
  induction cs generalizing k with
  | nil => exact ⟨[], by simp, by simp, .inr nofun⟩
  | cons c cs ih =>
    cases k with
    | zero => exact ⟨c :: cs, rfl, Nat.le_refl _, .inl rfl⟩
    | succ k =>
      rw [List.take_succ_cons]
      by_cases hc : q c = true
      · obtain ⟨rest, hcs, hle, hout⟩ := ih k
        rw [List.takeWhile_cons_of_pos hc]
        refine ⟨rest, congrArg (c :: ·) hcs, Nat.succ_le_succ hle, ?_⟩
        exact hout.imp (congrArg Nat.succ) id
      · rw [List.takeWhile_cons_of_neg hc]
        refine ⟨c :: cs, rfl, Nat.zero_le _, .inr ?_⟩
        rintro _ ⟨⟩
        exact Bool.eq_false_iff.2 hc

theorem head?_textOf (cs : List SourceChar) : (textOf cs).head? = cs.head?.map SourceChar.char :=
  List.head?_map

theorem forall_head?_textOf {cs : List SourceChar} {q : Char → Prop} :
    (∀ c ∈ (textOf cs).head?, q c) ↔ ∀ c ∈ cs.head?, q c.char := by
  rw [head?_textOf]
  cases cs.head? with
  | none => simp
  | some c => simp

/-- An octal escape takes as many digits as it can. -/
theorem exists_octalDigits {d : SourceChar} (h : Text.isDigitOf 8 d.char = true)
    (more : List SourceChar) :
    ∃ used rest, d :: more = used ++ rest ∧ octalDigits d.char (d :: more) = textOf used ∧
      used.head? = some d ∧ (∀ c ∈ used, Text.isDigitOf 8 c.char = true) ∧
      used.length ≤ octalLimit d.char ∧
      (used.length = octalLimit d.char ∨ ∀ c ∈ rest.head?, Text.isDigitOf 8 c.char = false) := by
  obtain ⟨k, hk⟩ : ∃ k, octalLimit d.char = k + 1 := by
    unfold octalLimit
    split
    · exact ⟨2, rfl⟩
    · exact ⟨1, rfl⟩
  obtain ⟨rest, hcs, hle, hout⟩ := exists_takeWhile_take (fun c => Text.isDigitOf 8 c.char)
    (octalLimit d.char) (d :: more)
  refine ⟨_, rest, hcs, rfl, ?_, fun c hc => ?_, hle, hout⟩
  · rw [List.head?_takeWhile, hk, List.take_succ_cons, List.head?_cons, Option.filter_some,
      if_pos h]
  · exact List.all_eq_true.1 List.all_takeWhile c hc

theorem escape_eq_ok {cs rest : List SourceChar} {c : Char} :
    escape cs = (.ok c, rest) ↔
      ∃ used, cs = used ++ rest ∧ IsEscape (textOf rest).head? (textOf used) c := by
  constructor
  · intro h
    unfold escape at h
    split at h
    · cases h
    · rename_i d more
      split at h
      · rename_i hsign
        cases h
        exact ⟨[d], rfl, .sign (namedEscape?_eq_some.1 hsign)⟩
      · split at h
        · rename_i hdigit
          obtain ⟨used, rest', hcs, hdigits, hfirst, hin, hle, hout⟩ :=
            exists_octalDigits hdigit more
          have hdrop : (d :: more).drop (textOf used).length = rest' := by simp [hcs, textOf]
          simp only [hdigits, hdrop, Prod.mk.injEq, Except.ok.injEq] at h
          obtain ⟨rfl, rfl⟩ := h
          rw [← List.length_map (f := SourceChar.char)] at hle hout
          refine ⟨used, hcs, .octal ?_ ?_ hle ?_⟩
          · rw [head?_textOf, hfirst]
            rfl
          · exact List.forall_mem_map.2 hin
          · exact hout.imp_right forall_head?_textOf.2
        · cases h
  · rintro ⟨used, rfl, hescape⟩
    generalize hwritten : textOf used = written at hescape
    cases hescape with
    | sign hsign =>
      obtain ⟨d, tail, rfl, rfl, htail⟩ := exists_cons_of_textOf hwritten
      obtain rfl := eq_nil_of_textOf htail
      exact escape_named (namedEscape?_eq_some.2 hsign) rest
    | octal hfirst hin hle hout =>
      rename_i first
      rw [← hwritten, head?_textOf] at hfirst
      obtain ⟨d, hd, rfl⟩ := Option.map_eq_some_iff.1 hfirst
      obtain ⟨more, rfl⟩ := List.head?_eq_some_iff.1 hd
      rw [← hwritten, textOf, List.length_map] at hle hout
      rw [← hwritten] at hin ⊢
      have hin : ∀ c ∈ d :: more, Text.isDigitOf 8 c.char = true := List.forall_mem_map.1 hin
      have hdigit := hin d (List.mem_cons_self ..)
      have hdigits : octalDigits d.char (d :: (more ++ rest)) = textOf (d :: more) := by
        refine congrArg textOf ?_
        exact takeWhile_take_append (q := fun c => Text.isDigitOf 8 c.char) hin hle
          (hout.imp_right forall_head?_textOf.1)
      rw [List.cons_append, escape]
      simp only [namedEscape?_digit hdigit, hdigit, if_true, hdigits]
      simp [textOf]

/-! ## Literals between quotes -/

theorem head?_body (body : List SourceChar) (quote : SourceChar) (rest : List SourceChar) :
    (textOf (body ++ quote :: rest)).head? = (textOf body ++ [quote.char]).head? := by
  cases body with
  | nil => rfl
  | cons c body => rfl

theorem stringFrom_isBody {opened : Position} {done : List Char} {cs rest : List SourceChar}
    {t : Token} (h : stringFrom opened done cs = ⟨.ok t, rest⟩) :
    ∃ body quote value, cs = body ++ quote :: rest ∧ quote.char = '"' ∧
      IsBody '"' (textOf body) value ∧
      t = ⟨.string, String.ofList (done.reverse ++ value), opened⟩ := by
  fun_induction stringFrom opened done cs with
  | case1 => cases h
  | case2 => cases h
  | case3 done c more _ hquote =>
    cases h
    exact ⟨[], c, [], rfl, hquote, .nil, by rw [List.append_nil]⟩
  | case4 done c more _ _ hslash decoded left hescape ih =>
    obtain ⟨body, quote, value, rfl, hquote, hbody, rfl⟩ := ih h
    obtain ⟨written, rfl, hwritten⟩ := escape_eq_ok.1 hescape
    rw [head?_body, hquote] at hwritten
    refine ⟨c :: (written ++ body), quote, decoded :: value, by simp, hquote, ?_, by simp⟩
    rw [textOf_cons, hslash, textOf_append]
    exact .escape hwritten hbody
  | case5 => cases h
  | case6 done c more hline hquote hslash ih =>
    obtain ⟨body, quote, value, rfl, hclose, hbody, rfl⟩ := ih h
    exact ⟨c :: body, quote, c.char :: value, rfl, hclose, .plain (by simp [*]) hbody, by simp⟩

theorem stringFrom_body {body : List SourceChar} {quote : SourceChar} {value : List Char}
    (h : IsBody '"' (textOf body) value) (hquote : quote.char = '"') (opened : Position)
    (done : List Char) (rest : List SourceChar) :
    stringFrom opened done (body ++ quote :: rest) =
      .token .string (done.reverse ++ value) opened rest := by
  generalize htext : textOf body = text at h
  induction h generalizing body done with
  | nil =>
    obtain rfl := eq_nil_of_textOf htext
    rw [List.nil_append, stringFrom, hquote, if_neg (by decide), if_pos rfl, List.append_nil]
  | plain hc _ ih =>
    obtain ⟨c, body, rfl, rfl, hbody⟩ := exists_cons_of_textOf htext
    simp only [List.mem_cons, List.not_mem_nil, or_false, not_or] at hc
    rw [List.cons_append, stringFrom, if_neg hc.1, if_neg hc.2.1, if_neg hc.2.2, ih _ hbody]
    simp
  | escape hwritten _ ih =>
    obtain ⟨slash, tail, rfl, hslash, htail⟩ := exists_cons_of_textOf htext
    obtain ⟨written, body, rfl, rfl, rfl⟩ := exists_append_of_textOf htail
    rw [← hquote, ← head?_body _ _ rest] at hwritten
    have hescape := escape_eq_ok.2 ⟨written, rfl, hwritten⟩
    rw [List.cons_append, List.append_assoc, stringFrom, hslash, if_neg (by decide),
      if_neg (by decide), if_pos rfl]
    split
    · rename_i found
      cases hescape.symm.trans found
      rw [ih _ rfl]
      simp
    · rename_i found
      cases hescape.symm.trans found

theorem closeCharacter_eq {opened : Position} {c : Char} {cs rest : List SourceChar} {t : Token} :
    closeCharacter opened c cs = ⟨.ok t, rest⟩ ↔
      ∃ quote, cs = quote :: rest ∧ quote.char = '\'' ∧
        t = ⟨.character, String.ofList [c], opened⟩ := by
  constructor
  · intro h
    have ht := closeCharacter_eq_ok h
    unfold closeCharacter at h
    split at h
    · rename_i quote more
      split at h
      · rename_i hquote
        cases h
        exact ⟨quote, rfl, hquote, ht⟩
      · cases h
    · cases h
  · rintro ⟨quote, rfl, hquote, rfl⟩
    simp only [closeCharacter, hquote, if_true]
    rfl

theorem isBody_single {quote c : Char} {body : List Char} :
    IsBody quote body [c] ↔ (body = [c] ∧ c ∉ ['\n', quote, '\\']) ∨
      ∃ written, body = '\\' :: written ∧ IsEscape (some quote) written c := by
  constructor
  · intro h
    cases h with
    | plain hc hnil =>
      cases hnil
      exact .inl ⟨rfl, hc⟩
    | escape hwritten hnil =>
      cases hnil
      exact .inr ⟨_, by rw [List.append_nil], hwritten⟩
  · rintro (⟨rfl, hc⟩ | ⟨written, rfl, hwritten⟩)
    · exact .plain hc .nil
    · rw [← List.append_nil written]
      exact .escape hwritten .nil

theorem characterFrom_eq {opened : Position} {cs rest : List SourceChar} {t : Token} :
    characterFrom opened cs = ⟨.ok t, rest⟩ ↔
      ∃ body quote c, cs = body ++ quote :: rest ∧ quote.char = '\'' ∧
        IsBody '\'' (textOf body) [c] ∧ t = ⟨.character, String.ofList [c], opened⟩ := by
  constructor
  · intro h
    unfold characterFrom at h
    split at h
    · cases h
    · rename_i c more
      split at h
      · cases h
      · split at h
        · cases h
        · rename_i hline hquote
          split at h
          · rename_i hslash
            split at h
            · rename_i decoded left hescape
              obtain ⟨quote, rfl, hclose, rfl⟩ := closeCharacter_eq.1 h
              obtain ⟨written, rfl, hwritten⟩ := escape_eq_ok.1 hescape
              refine ⟨c :: written, quote, decoded, rfl, hclose, isBody_single.2 (.inr ?_), rfl⟩
              rw [textOf_cons, hslash, ← hclose]
              exact ⟨_, rfl, hwritten⟩
            · cases h
          · rename_i hslash
            obtain ⟨quote, rfl, hclose, rfl⟩ := closeCharacter_eq.1 h
            refine ⟨[c], quote, c.char, rfl, hclose, isBody_single.2 (.inl ⟨rfl, ?_⟩), rfl⟩
            simp [*]
  · rintro ⟨body, quote, c, rfl, hclose, hbody, rfl⟩
    rcases isBody_single.1 hbody with ⟨hbody, hc⟩ | ⟨written, hbody, hwritten⟩
    · obtain ⟨d, tail, rfl, rfl, htail⟩ := exists_cons_of_textOf hbody
      obtain rfl := eq_nil_of_textOf htail
      simp only [List.mem_cons, List.not_mem_nil, or_false, not_or] at hc
      rw [List.cons_append, List.nil_append, characterFrom, if_neg hc.1, if_neg hc.2.1,
        if_neg hc.2.2]
      exact closeCharacter_eq.2 ⟨quote, rfl, hclose, rfl⟩
    · obtain ⟨slash, written, rfl, hslash, rfl⟩ := exists_cons_of_textOf hbody
      rw [← hclose] at hwritten
      have hescape := escape_eq_ok.2 ⟨written, rfl, show IsEscape (textOf (quote :: rest)).head? _ _
        from hwritten⟩
      rw [List.cons_append, characterFrom, hslash, if_neg (by decide), if_neg (by decide),
        if_pos rfl, hescape]
      exact closeCharacter_eq.2 ⟨quote, rfl, hclose, rfl⟩

/-! ## Symbols -/

theorem mem_longestFirst (s : Symbol) : s ∈ Symbol.longestFirst := by
  cases s <;> decide

theorem textOf_map (p : Position) (text : List Char) :
    textOf (text.map fun c => ⟨c, p⟩) = text := by
  simp [textOf, Function.comp_def]

/-- A symbol is told by its spelling. -/
theorem eq_of_spelling {s s' : Symbol} (h : s.spelling.toList = s'.spelling.toList) : s = s' := by
  have hread : ∀ {s' : Symbol}, s.spelling.toList = s'.spelling.toList →
      symbolAt? ((s.spelling.toList.map fun c => ⟨c, .start⟩) ++ []) = some s' :=
    fun h => symbolAt?_spelled ((textOf_map _ _).trans h) nofun
  exact Option.some.inj ((hread rfl).symm.trans (hread h))

theorem symbolAt?_eq_find? (cs : List SourceChar) :
    symbolAt? cs = Symbol.longestFirst.find? fun s => s.spelling.toList.isPrefixOf (textOf cs) := by
  simp only [symbolAt?, spellings, startsWith_eq, List.find?_map, Option.map_map]
  exact Option.map_id'

theorem symbolAt?_longest {cs : List SourceChar} {s : Symbol} (h : symbolAt? cs = some s) :
    s.spelling.toList <+: textOf cs ∧
      ∀ other : Symbol, other.spelling.toList <+: textOf cs →
        other.spelling.length ≤ s.spelling.length := by
  have hsorted : Symbol.longestFirst.Pairwise fun s s' =>
      s'.spelling.length ≤ s.spelling.length := by decide
  rw [symbolAt?_eq_find?, List.find?_eq_some_iff_append] at h
  obtain ⟨hs, before, after, hall, hbefore⟩ := h
  refine ⟨List.isPrefixOf_iff_prefix.1 hs, fun other hother => ?_⟩
  have hmem := mem_longestFirst other
  rw [hall] at hmem hsorted
  rw [List.pairwise_append, List.pairwise_cons] at hsorted
  rw [List.mem_append, List.mem_cons] at hmem
  rcases hmem with hmem | rfl | hmem
  · have hnot := hbefore other hmem
    rw [List.isPrefixOf_iff_prefix.2 hother] at hnot
    cases hnot
  · exact Nat.le_refl _
  · exact hsorted.2.1.1 other hmem

theorem symbolAt?_eq_some {cs : List SourceChar} {s : Symbol} :
    symbolAt? cs = some s ↔ s.spelling.toList <+: textOf cs ∧
      ∀ other : Symbol, other.spelling.toList <+: textOf cs →
        other.spelling.length ≤ s.spelling.length := by
  refine ⟨symbolAt?_longest, fun ⟨hs, hlongest⟩ => ?_⟩
  cases hfound : symbolAt? cs with
  | none =>
    rw [symbolAt?_eq_find?, List.find?_eq_none] at hfound
    exact absurd (List.isPrefixOf_iff_prefix.2 hs) (hfound s (mem_longestFirst s))
  | some s' =>
    obtain ⟨hs', hlongest'⟩ := symbolAt?_longest hfound
    have hlength : s'.spelling.toList.length = s.spelling.toList.length := by
      rw [String.length_toList, String.length_toList]
      exact Nat.le_antisymm (hlongest s' hs') (hlongest' s hs)
    have hfront := List.prefix_of_prefix_length_le hs' hs (Nat.le_of_eq hlength)
    rw [eq_of_spelling (hfront.eq_of_length hlength)]

/-! ## The scanner -/

theorem not_isWordStart_of_isDigit {c : Char} (h : c.isDigit = true) :
    Text.isWordStart c = false := by
  have hrange : '0' ≤ c ∧ c ≤ '9' := by simpa [Char.isDigit, Char.le_def] using h
  have hlow : 48 ≤ c.toNat := hrange.1
  have hhigh : c.toNat ≤ 57 := hrange.2
  have hne : ∀ d : Char, 57 < d.toNat ∨ d.toNat < 48 → c ≠ d := by
    rintro d hd rfl
    omega
  have hupper : c.isUpper = false := by
    rw [← Bool.not_eq_true]
    intro hc
    have hc : 65 ≤ c.toNat := (of_decide_eq_true hc).1
    omega
  have hlower : c.isLower = false := by
    rw [← Bool.not_eq_true]
    intro hc
    have hc : 97 ≤ c.toNat := of_decide_eq_true (Bool.and_eq_true_iff.1 hc).1
    omega
  have halpha : c.isAlpha = false := Bool.or_eq_false_iff.2 ⟨hupper, hlower⟩
  simp [Text.isWordStart, Text.isAlphabetic, halpha, hne '_' (by decide), hne '$' (by decide),
    Nat.lt_of_le_of_lt hhigh (by decide : 57 < 128)]

theorem startsNumber_quote {quote : SourceChar} (h : quote.char = '"' ∨ quote.char = '\'')
    (rest : List SourceChar) : startsNumber (quote :: rest) = false := by
  rcases h with h | h
  · simp [startsNumber, h]
  · simp [startsNumber, h]

/-- A symbol starts no number, unless it is a point in front of a digit. -/
theorem startsNumber_symbol {s : Symbol} {c : SourceChar} {more after : List SourceChar}
    (hs : textOf (c :: more) = s.spelling.toList)
    (hdot : s = .dot → ∀ d ∈ after.head?, d.char.isDigit = false) :
    startsNumber (c :: (more ++ after)) = false := by
  rw [← Bool.not_eq_true]
  intro hstarts
  have hnot : ∀ d ∈ c :: more, d.char.isDigit = false := by
    intro d hd
    exact (symbol_chars s d.char (hs ▸ List.mem_map_of_mem hd)).2.1
  rcases startsNumber_cases hstarts with ⟨d, tail, hcs, hdigit⟩ | ⟨d, e, tail, hcs, hpoint, hdigit⟩
  · cases hcs
    rw [hnot _ (List.mem_cons_self ..)] at hdigit
    cases hdigit
  · cases more with
    | nil =>
      cases hcs
      rw [textOf_cons, hpoint] at hs
      rw [hdot (eq_of_spelling hs.symm) e rfl] at hdigit
      cases hdigit
    | cons d more =>
      cases hcs
      rw [hnot _ (List.mem_cons_of_mem _ (List.mem_cons_self ..))] at hdigit
      cases hdigit

/-- A lexeme is found where it stands. -/
theorem IsLexeme.scan {kind : Kind} {text : List Char} {lexeme after : List SourceChar}
    (h : IsLexeme (textOf after) kind text (textOf lexeme)) :
    ∃ c more, lexeme = c :: more ∧
      scan c (more ++ after) = ⟨.ok ⟨kind, String.ofList text, c.position⟩, after⟩ := by
  generalize hwritten : textOf lexeme = written at h
  cases h with
  | word hstart hparts hafter =>
    obtain ⟨c, hc, hstart⟩ := hstart
    obtain ⟨w, rfl⟩ := List.head?_eq_some_iff.1 hc
    obtain ⟨c, more, rfl, rfl, rfl⟩ := exists_cons_of_textOf hwritten
    refine ⟨c, more, rfl, ?_⟩
    have hin : ∀ d ∈ more, Text.isWordPart d.char = true :=
      List.forall_mem_map.1 (List.forall_mem_cons.1 hparts).2
    have hout := forall_head?_textOf.1 hafter
    obtain ⟨htake, hdrop⟩ := span_append (q := fun d => Text.isWordPart d.char) hin hout
    rw [Lexeme.scan, if_pos hstart, Lexeme.word, htake, hdrop]
    rfl
  | number hnumber hlongest hafter =>
    rw [← hwritten] at hnumber hlongest
    have hends : Ends after := forall_head?_textOf.1 hafter
    rw [← textOf_append] at hlongest
    have hstarts := hnumber.startsNumber after
    have hfound := fun p => (finds_number p hstarts _ _ _).2
      ⟨lexeme, rfl, rfl, hends, (literals_iff hends).2 ⟨hnumber, hlongest⟩⟩
    have hword : ∀ c ∈ (textOf lexeme).head?, Text.isWordStart c = false := by
      intro c hc
      rcases hnumber.front with ⟨d, more, htext, hdigit⟩ | ⟨d, more, htext, -⟩
      · rw [htext] at hc
        cases hc
        exact not_isWordStart_of_isDigit hdigit
      · rw [htext] at hc
        cases hc
        decide
    cases lexeme with
    | nil =>
      rcases hnumber.front with ⟨_, _, hnil, -⟩ | ⟨_, _, hnil, -⟩
      · cases hnil
      · cases hnil
    | cons c more =>
      refine ⟨c, more, rfl, ?_⟩
      rw [Lexeme.scan, hword _ rfl, if_neg Bool.false_ne_true, ← List.cons_append, if_pos hstarts,
        hfound, ← hwritten]
      rfl
  | string hbody =>
    obtain ⟨c, tail, rfl, hopen, htail⟩ := exists_cons_of_textOf hwritten
    obtain ⟨body, tail, rfl, rfl, hend⟩ := exists_append_of_textOf htail
    obtain ⟨quote, tail, rfl, hquote, hnil⟩ := exists_cons_of_textOf hend
    obtain rfl := eq_nil_of_textOf hnil
    refine ⟨c, body ++ [quote], rfl, ?_⟩
    rw [Lexeme.scan, startsNumber_quote (.inl hopen), hopen, if_neg (by decide),
      if_neg (by decide), if_pos rfl, List.append_assoc]
    exact stringFrom_body hbody hquote _ _ _
  | character hbody =>
    obtain ⟨c, tail, rfl, hopen, htail⟩ := exists_cons_of_textOf hwritten
    obtain ⟨body, tail, rfl, rfl, hend⟩ := exists_append_of_textOf htail
    obtain ⟨quote, tail, rfl, hquote, hnil⟩ := exists_cons_of_textOf hend
    obtain rfl := eq_nil_of_textOf hnil
    refine ⟨c, body ++ [quote], rfl, ?_⟩
    rw [Lexeme.scan, startsNumber_quote (.inr hopen), hopen, if_neg (by decide),
      if_neg (by decide), if_neg (by decide), if_pos rfl, List.append_assoc]
    exact characterFrom_eq.2 ⟨body, quote, _, rfl, hquote, hbody, rfl⟩
  | symbol hlongest hdot =>
    rename_i s
    cases lexeme with
    | nil =>
      have hpos := spelling_length_pos s
      rw [← hwritten] at hpos
      cases hpos
    | cons c more =>
      refine ⟨c, more, rfl, ?_⟩
      rw [← hwritten, ← textOf_append, List.cons_append] at hlongest
      obtain ⟨hword, -, -, hstring, hcharacter, -⟩ :=
        symbol_chars s c.char (hwritten ▸ List.mem_cons_self ..)
      have hsymbol : symbolAt? (c :: (more ++ after)) = some s := by
        refine symbolAt?_eq_some.2 ⟨⟨textOf after, ?_⟩, hlongest⟩
        rw [← hwritten, ← textOf_append, List.cons_append]
      have hlength : s.spelling.length = (c :: more).length := by
        rw [← String.length_toList, ← hwritten, textOf, List.length_map]
      rw [Lexeme.scan, hword, if_neg Bool.false_ne_true,
        startsNumber_symbol hwritten fun hs => forall_head?_textOf.1 (hdot hs),
        if_neg Bool.false_ne_true, if_neg hstring, if_neg hcharacter, hsymbol]
      simp only [hlength, List.length_cons, List.drop_succ_cons, List.drop_left]
      rw [String.ofList_toList]
      rfl

/-- What is found is a lexeme in front of what is left. -/
theorem isLexeme_of_scan {c : SourceChar} {rest after : List SourceChar} {t : Token}
    (h : scan c rest = ⟨.ok t, after⟩) :
    t.position = c.position ∧ ∃ lexeme, c :: rest = lexeme ++ after ∧
      IsLexeme (textOf after) t.kind t.text.toList (textOf lexeme) := by
  unfold scan at h
  split at h
  · rename_i hstart
    cases h
    refine ⟨rfl, c :: rest.takeWhile fun d => Text.isWordPart d.char, ?_, ?_⟩
    · rw [List.cons_append, List.takeWhile_append_dropWhile]
    · rw [Token.ofWord, String.toList_ofList]
      refine .word ⟨c.char, rfl, hstart⟩ ?_ ?_
      · refine List.forall_mem_cons.2 ⟨Text.isWordPart_of_isWordStart hstart, ?_⟩
        exact List.forall_mem_map.2 fun d hd => List.all_eq_true.1 List.all_takeWhile d hd
      · exact forall_head?_textOf.2 (head?_dropWhile_eq_false _ rest)
  · split at h
    · rename_i hstarts
      rcases isNumeric_number c.position (c :: rest) with
        ⟨kind, -, n, rest', htoken⟩ | ⟨_, _, _, hfault⟩
      · obtain ⟨used, hcs, rfl, hends, hs⟩ := (finds_number _ hstarts _ _ _).1 htoken
        obtain ⟨hnumber, hlongest⟩ := (literals_iff hends).1 hs
        cases htoken.symm.trans h
        refine ⟨rfl, used, hcs, ?_⟩
        rw [String.toList_ofList]
        exact .number hnumber (by rwa [← textOf_append]) (forall_head?_textOf.2 hends)
      · cases hfault.symm.trans h
    · rename_i hnumber
      split at h
      · rename_i hopen
        obtain ⟨body, quote, value, rfl, hquote, hbody, rfl⟩ := stringFrom_isBody h
        refine ⟨rfl, c :: (body ++ [quote]), by simp, ?_⟩
        rw [textOf_cons, textOf_append, hopen, textOf_cons, hquote, String.toList_ofList]
        exact .string hbody
      · split at h
        · rename_i hopen
          obtain ⟨body, quote, value, rfl, hquote, hbody, rfl⟩ := characterFrom_eq.1 h
          refine ⟨rfl, c :: (body ++ [quote]), by simp, ?_⟩
          rw [textOf_cons, textOf_append, hopen, textOf_cons, hquote, String.toList_ofList]
          exact .character hbody
        · split at h
          · rename_i s hsymbol
            obtain ⟨⟨tail, htail⟩, hlongest⟩ := symbolAt?_eq_some.1 hsymbol
            obtain ⟨used, rest', hcs, hused, rfl⟩ := exists_append_of_textOf htail.symm
            have hdrop : (c :: rest).drop s.spelling.length = rest' := by
              rw [← String.length_toList, ← hused, hcs]
              simp [textOf]
            rw [hdrop] at h
            cases h
            refine ⟨rfl, used, hcs, ?_⟩
            rw [hused]
            refine .symbol (by rwa [htail]) ?_
            rintro rfl
            refine forall_head?_textOf.2 fun d hd => ?_
            obtain ⟨more, rfl⟩ := List.head?_eq_some_iff.1 hd
            obtain ⟨point, tail, rfl, hpoint, htail⟩ :=
              exists_cons_of_textOf (show textOf used = '.' :: [] from hused)
            obtain rfl := eq_nil_of_textOf htail
            rw [hcs] at hnumber
            simpa [startsNumber, hpoint] using hnumber
          · cases h

/-- The scanner finds the lexeme that stands there, if there is one, and uses it up. -/
theorem scan_eq_ok {c : SourceChar} {rest after : List SourceChar} {t : Token} :
    scan c rest = ⟨.ok t, after⟩ ↔ t.position = c.position ∧
      ∃ lexeme, c :: rest = lexeme ++ after ∧
        IsLexeme (textOf after) t.kind t.text.toList (textOf lexeme) := by
  refine ⟨isLexeme_of_scan, ?_⟩
  rintro ⟨hposition, lexeme, hcs, hlexeme⟩
  obtain ⟨d, more, rfl, hscan⟩ := hlexeme.scan
  rw [List.cons_append, List.cons.injEq] at hcs
  obtain ⟨rfl, rfl⟩ := hcs
  rw [hscan, String.ofList_toList, ← hposition]

end Javelet.Lexeme
