import Javelet.Proofs.Lexeme.Numbers
import Javelet.Proofs.Syntax.Names
import Javelet.Token.Stream

/-!
# Identifiers are words

Of all scanners only the one for words gives identifiers. So the text of an identifier is a word
and no keyword, and words hold no separators.
-/
namespace Javelet

/-- The identifiers among tokens can be told apart from each other, and none of them is `void`. -/
def NamesPlain (ts : List Token) : Prop :=
  ∀ t ∈ ts, t.kind = .identifier → ValueName t.text

theorem NamesPlain.tail {t : Token} {ts : List Token} (h : NamesPlain (t :: ts)) : NamesPlain ts :=
  fun u hu => h u (List.mem_cons_of_mem _ hu)

theorem not_separator_of_isWordPart {c : Char} (h : Text.isWordPart c = true) :
    separators.contains c = false := by
  have hall : (separators.all fun c => !Text.isWordPart c) = true := by decide +kernel
  rw [← Bool.not_eq_true, List.contains_iff_mem]
  intro hc
  have hc' := List.all_eq_true.1 hall c hc
  rw [h] at hc'
  cases hc'

theorem valueName_of_wordKind {word : String} (hne : word ≠ "")
    (hparts : ∀ c ∈ word.toList, Text.isWordPart c = true)
    (hkind : Token.wordKind word = .identifier) : ValueName word := by
  have hapart : (word.toList.all fun c => !separators.contains c) = true := by
    rw [List.all_eq_true]
    intro c hc
    rw [not_separator_of_isWordPart (hparts c hc)]
    rfl
  refine ⟨⟨hne, hapart⟩, ?_, fun hslash => ?_⟩
  · rintro rfl
    revert hkind
    decide
  · exact absurd (hparts '/' hslash) (by decide)

namespace Lexeme

/-- A scanner that finds tokens of certain kinds only. -/
def Scan.OfKind (kinds : List Kind) (s : Scan) : Prop := ∀ t, s.found = .ok t → t.kind ∈ kinds

theorem ofKind_fault {kinds : List Kind} {f : Fault} {p : Position} {rest : List SourceChar} :
    (Scan.fault f p rest).OfKind kinds := nofun

theorem ofKind_token {kinds : List Kind} {kind : Kind} {text : List Char} {p : Position}
    {rest : List SourceChar} (h : kind ∈ kinds) : (Scan.token kind text p rest).OfKind kinds := by
  intro t ht
  cases ht
  exact h

theorem ofKind_number {p : Position} {cs : List SourceChar} :
    (number p cs).OfKind [.integer, .floating] := by
  rcases isNumeric_number p cs with ⟨kind, hkind, t, rest, h⟩ | ⟨text, reason, rest, h⟩
  · rw [h]
    exact ofKind_token hkind
  · rw [h]
    exact ofKind_fault

theorem ofKind_stringFrom {p : Position} {done : List Char} {cs : List SourceChar} :
    (stringFrom p done cs).OfKind [.string] := by
  fun_induction stringFrom p done cs with
  | case1 => exact ofKind_fault
  | case2 => exact ofKind_fault
  | case3 => exact ofKind_token (by decide)
  | case4 done c rest _ _ _ decoded more found ih => exact ih
  | case5 => exact ofKind_fault
  | case6 done c rest _ _ _ ih => exact ih

theorem ofKind_closeCharacter {p : Position} {value : Char} {cs : List SourceChar} :
    (closeCharacter p value cs).OfKind [.character] := by
  unfold closeCharacter
  split
  · split
    · exact ofKind_token (by decide)
    · exact ofKind_fault
  · exact ofKind_fault

theorem ofKind_characterFrom {p : Position} {cs : List SourceChar} :
    (characterFrom p cs).OfKind [.character] := by
  unfold characterFrom
  split
  · exact ofKind_fault
  · split
    · exact ofKind_fault
    · split
      · exact ofKind_fault
      · split
        · split
          · exact ofKind_closeCharacter
          · exact ofKind_fault
        · exact ofKind_closeCharacter

/-- What is found has the kind that goes with the first character, and words are found nowhere
else. -/
theorem scan_cases {c : SourceChar} {rest : List SourceChar} {t : Token}
    (ht : (scan c rest).found = .ok t) :
    (Text.isWordStart c.char = true ∧ (word c rest).found = .ok t) ∨
      (startsNumber (c :: rest) = true ∧ (number c.position (c :: rest)).found = .ok t ∧
        t.kind ∈ [Kind.integer, .floating]) ∨
      t.kind ∈ [Kind.string, .character] ∨ ∃ s, t.kind = .symbol s := by
  unfold scan at ht
  split at ht
  · exact .inl ⟨‹_›, ht⟩
  · split at ht
    · exact .inr (.inl ⟨‹_›, ht, ofKind_number t ht⟩)
    · split at ht
      · have hkind := List.mem_singleton.1 (ofKind_stringFrom t ht)
        exact .inr (.inr (.inl (by simp [hkind])))
      · split at ht
        · have hkind := List.mem_singleton.1 (ofKind_characterFrom t ht)
          exact .inr (.inr (.inl (by simp [hkind])))
        · split at ht
          · cases ht
            exact .inr (.inr (.inr ⟨_, rfl⟩))
          · cases ht

/-- An identifier is a word of word characters that is no keyword. -/
theorem identifier_of_scan {c : SourceChar} {rest : List SourceChar} {t : Token}
    (ht : (scan c rest).found = .ok t) (hkind : t.kind = .identifier) :
    t.text ≠ "" ∧ (∀ d ∈ t.text.toList, Text.isWordPart d = true) ∧
      Token.wordKind t.text = .identifier := by
  rcases scan_cases ht with ⟨hstart, hword⟩ | ⟨-, -, hnumber⟩ | hquoted | ⟨s, hsymbol⟩
  · simp only [word, Except.ok.injEq] at hword
    subst hword
    refine ⟨by simp [Token.ofWord], fun d hd => ?_, hkind⟩
    simp only [Token.ofWord, String.toList_ofList, List.mem_cons, textOf, List.mem_map] at hd
    rcases hd with rfl | ⟨e, he, rfl⟩
    · exact Text.isWordPart_of_isWordStart hstart
    · exact List.all_eq_true.1 List.all_takeWhile e he
  · rw [hkind] at hnumber
    exact absurd hnumber (by decide)
  · rw [hkind] at hquoted
    exact absurd hquoted (by decide)
  · rw [hkind] at hsymbol
    cases hsymbol

theorem valueName_of_scan {c : SourceChar} {rest : List SourceChar} {t : Token}
    (ht : (scan c rest).found = .ok t) (hkind : t.kind = .identifier) : ValueName t.text := by
  obtain ⟨hne, hparts, hword⟩ := identifier_of_scan ht hkind
  exact valueName_of_wordKind hne hparts hword

end Lexeme

/-- Each token of a lexer was scanned where some lexeme starts. -/
theorem Lexer.exists_scan_of_next {l l' : Lexer} {t : Token} (h : l.next = some (.ok t, l')) :
    ∃ c rest, (Lexeme.scan c rest).found = .ok t := by
  unfold Lexer.next at h
  split at h
  · cases h
  · obtain ⟨fault, -, he⟩ := Option.map_eq_some_iff.1 h
    cases he
  · rename_i c rest _
    simp only at h
    split at h
    · rename_i token hscan
      cases h
      exact ⟨c, rest, hscan⟩
    · split at h
      · cases h
      · cases h

/-- What is true of every token that the scanner finds is true of all tokens of a lexer. -/
theorem Lexer.forall_mem_tokensFrom {q : Token → Prop}
    (hscan : ∀ c rest t, (Lexeme.scan c rest).found = .ok t → q t) {done ts : List Token}
    {l : Lexer} (hdone : ∀ t ∈ done, q t) (h : l.tokensFrom done = .ok ts) : ∀ t ∈ ts, q t := by
  fun_induction Lexer.tokensFrom done l with
  | case1 done l hnone =>
    cases h
    intro t ht
    exact hdone t (List.mem_reverse.1 ht)
  | case2 done l token l' hnext ih =>
    refine ih ?_ h
    obtain ⟨c, rest, hfound⟩ := Lexer.exists_scan_of_next hnext
    rw [List.forall_mem_cons]
    exact ⟨hscan c rest token hfound, hdone⟩
  | case3 => cases h

theorem forall_mem_tokenize {q : Token → Prop}
    (hscan : ∀ c rest t, (Lexeme.scan c rest).found = .ok t → q t) {source : String}
    {ts : List Token} (h : tokenize source = .ok ts) : ∀ t ∈ ts, q t :=
  Lexer.forall_mem_tokensFrom hscan (fun _ ht => absurd ht List.not_mem_nil) h

/-- The identifiers of a source text are plain names. -/
theorem namesPlain_tokenize {source : String} {ts : List Token} (h : tokenize source = .ok ts) :
    NamesPlain ts :=
  forall_mem_tokenize (fun _ _ _ => Lexeme.valueName_of_scan) h

end Javelet
