import Javelet.Proofs.Lexeme.Numbers
import Javelet.Token.Stream

/-!
# Where scanners find faults

A scanner reports a fault at one of the characters that it was given, never at a place of its own
making. Only a decoder reports unicode escapes and line ends.
-/
namespace Javelet.Lexeme

/-- The faults that decoding finds, and no scanner. -/
def Fault.OfDecoding (f : Fault) : Prop := f = .badUnicodeEscape ∨ f = .loneCarriageReturn

/-- A scanner's fault at one of the given characters. -/
structure Raised (cs : List SourceChar) (e : Located Fault) : Prop where
  position : ∃ c ∈ cs, c.position = e.position
  scanned : ¬ e.fault.OfDecoding

theorem Raised.mono {cs cs' : List SourceChar} {e : Located Fault} (h : Raised cs e)
    (hcs : cs ⊆ cs') : Raised cs' e := by
  obtain ⟨c, hc, hposition⟩ := h.position
  exact ⟨⟨c, hcs hc, hposition⟩, h.scanned⟩

theorem Raised.cons {c : SourceChar} {cs : List SourceChar} {e : Located Fault}
    (h : Raised cs e) : Raised (c :: cs) e :=
  h.mono (List.subset_cons_self ..)

theorem raised_head {c : SourceChar} {cs : List SourceChar} {f : Fault} (h : ¬ f.OfDecoding) :
    Raised (c :: cs) ⟨f, c.position⟩ :=
  ⟨⟨c, List.mem_cons_self .., rfl⟩, h⟩

/-- A comment that is not closed is reported where it was opened. -/
theorem raised_skipTrivia {state : Trivia} {cs : List SourceChar} {e : Located Fault}
    (h : skipTrivia state cs = .error e) :
    Raised cs e ∨ ∃ opened, state = .block opened ∧ e = ⟨.openComment, opened⟩ := by
  fun_induction skipTrivia state cs with
  | case1 => cases h
  | case2 => cases h
  | case3 => cases h
  | case4 c d cs _ ih =>
    rcases ih h with hraised | ⟨_, ⟨⟩, -⟩
    exact .inl (hraised.cons)
  | case5 c d cs _ _ ih =>
    rcases ih h with hraised | ⟨_, ⟨⟩, -⟩
    exact .inl (hraised.cons.cons)
  | case6 c d cs _ _ _ ih =>
    rcases ih h with hraised | ⟨opened, hopened, rfl⟩
    · exact .inl (hraised.cons.cons)
    · cases hopened
      exact .inl (raised_head (by simp [Fault.OfDecoding]))
  | case7 => cases h
  | case8 => cases h
  | case9 c cs _ ih =>
    rcases ih h with hraised | ⟨_, ⟨⟩, -⟩
    exact .inl (hraised.cons)
  | case10 c cs _ ih =>
    rcases ih h with hraised | ⟨_, ⟨⟩, -⟩
    exact .inl (hraised.cons)
  | case11 =>
    cases h
    exact .inr ⟨_, rfl, rfl⟩
  | case12 =>
    cases h
    exact .inr ⟨_, rfl, rfl⟩
  | case13 opened c d cs _ ih =>
    rcases ih h with hraised | ⟨_, ⟨⟩, -⟩
    exact .inl (hraised.cons.cons)
  | case14 opened c d cs _ ih =>
    exact (ih h).imp_left Raised.cons

/-- What is left behind an escape. -/
theorem subset_of_escape {cs more : List SourceChar} {result : Except (Option Char) Char}
    (h : escape cs = (result, more)) : more ⊆ cs := by
  have hsuffix := escape_suffix cs
  rw [h] at hsuffix
  exact hsuffix.subset

theorem raised_stringFrom {quote : SourceChar} {done : List Char} {cs : List SourceChar}
    {e : Located Fault} (h : (stringFrom quote.position done cs).found = .error e) :
    Raised (quote :: cs) e := by
  fun_induction stringFrom quote.position done cs with
  | case1 =>
    cases h
    exact raised_head (by simp [Fault.OfDecoding])
  | case2 =>
    cases h
    exact raised_head (by simp [Fault.OfDecoding])
  | case3 => cases h
  | case4 done c rest _ _ _ decoded more found ih =>
    refine (ih h).mono (List.cons_subset_cons _ ?_)
    exact List.Subset.trans (subset_of_escape found) (List.subset_cons_self ..)
  | case5 =>
    cases h
    exact Raised.cons (raised_head (by simp [Fault.OfDecoding]))
  | case6 done c rest _ _ _ ih =>
    exact (ih h).mono (List.cons_subset_cons _ (List.subset_cons_self ..))

theorem raised_closeCharacter {quote : SourceChar} {value : Char} {cs : List SourceChar}
    {e : Located Fault} (h : (closeCharacter quote.position value cs).found = .error e)
    (cs' : List SourceChar) : Raised (quote :: cs') e := by
  unfold closeCharacter at h
  split at h
  · split at h
    · cases h
    · cases h
      exact raised_head (by simp [Fault.OfDecoding])
  · cases h
    exact raised_head (by simp [Fault.OfDecoding])

theorem raised_characterFrom {quote : SourceChar} {cs : List SourceChar} {e : Located Fault}
    (h : (characterFrom quote.position cs).found = .error e) : Raised (quote :: cs) e := by
  unfold characterFrom at h
  split at h
  · cases h
    exact raised_head (by simp [Fault.OfDecoding])
  · split at h
    · cases h
      exact raised_head (by simp [Fault.OfDecoding])
    · split at h
      · cases h
        exact raised_head (by simp [Fault.OfDecoding])
      · split at h
        · split at h
          · exact raised_closeCharacter h _
          · cases h
            exact Raised.cons (raised_head (by simp [Fault.OfDecoding]))
        · exact raised_closeCharacter h _

/-- A fault of the scanner is found at one of the characters that it was given. -/
theorem raised_scan {c : SourceChar} {rest : List SourceChar} {e : Located Fault}
    (h : (scan c rest).found = .error e) : Raised (c :: rest) e := by
  unfold scan at h
  split at h
  · cases h
  · split at h
    · rcases isNumeric_number c.position (c :: rest) with ⟨_, -, _, _, hn⟩ | ⟨_, _, _, hn⟩
      · rw [hn] at h
        cases h
      · rw [hn] at h
        cases h
        exact raised_head (by simp [Fault.OfDecoding])
    · split at h
      · exact raised_stringFrom h
      · split at h
        · exact raised_characterFrom h
        · split at h
          · cases h
          · cases h
            exact raised_head (by simp [Fault.OfDecoding])

end Javelet.Lexeme
