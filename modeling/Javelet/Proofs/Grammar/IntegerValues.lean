import Mathlib.Data.Bool.AllAny
import Mathlib.Data.Int.ModEq
import Mathlib.Data.List.Induction
import Mathlib.Data.Nat.Digits.Defs
import Javelet.Proofs.Lexeme.Legible
import Javelet.Proofs.Lexeme.LongestNumber
import Javelet.Proofs.Phrases.Expression
import Javelet.Proofs.Token.Words

/-!
# The values of integer literals

The grammar of number literals tells what the text of an integer token looks like. So such a text has
a magnitude in one of four radices, given by its digits, and what becomes of the literal depends on
this magnitude only.
-/
namespace Javelet

/-! ## Digits and 32-bit integers -/

/-- Digits are read in positional notation. -/
theorem Text.digitsValue_eq_ofDigits {radix : Nat} {cs : List Char} {values : List Nat}
    (h : cs.map digitValue? = values.map some) :
    digitsValue radix cs = Nat.ofDigits radix values.reverse := by
  induction cs using List.reverseRecOn generalizing values with
  | nil =>
    obtain rfl := List.map_eq_nil_iff.1 h.symm
    rfl
  | append_singleton cs c ih =>
    rw [List.map_append] at h
    obtain ⟨before, last, rfl, hbefore, hlast⟩ := List.map_eq_append_iff.1 h.symm
    obtain ⟨value, rfl, hvalue⟩ := List.map_eq_singleton_iff.1 hlast
    rw [digitsValue_concat, ih hbefore.symm, ← hvalue, List.reverse_append,
      List.reverse_singleton, List.singleton_append, Nat.ofDigits_cons, Option.getD_some]
    ring

/-- There is one signed integer of 32 bits in each residue class. -/
theorem toInt_modEq_iff (i : Int) (w : Int32) : w.toInt ≡ i [ZMOD 2 ^ 32] ↔ w = Int32.ofInt i := by
  rw [← Int32.toInt_inj, Int32.toInt_ofInt, Int.ModEq, Int32.size]
  constructor
  · intro h
    have := w.toInt_lt
    have := w.le_toInt
    rw [Int.bmod_def]
    omega
  · intro h
    rw [h]
    exact Int.bmod_emod

namespace Grammar

/-- The magnitude of a text in its radix: the value of its digits, without separators. -/
inductive HasMagnitude (text : List Char) : Nat → Nat → Prop
  | mk {radix : Nat} {digits : List Char} {values : List Nat} :
      SpellsRadix (text.filter (· != '_')) radix digits → digits ≠ [] →
      digits.map Text.digitValue? = values.map some → (∀ value ∈ values, value < radix) →
      HasMagnitude text radix (Nat.ofDigits radix values.reverse)

/-- Literals of type `long` end in a letter. -/
def IsLong (text : List Char) : Prop := text.getLast? ∈ [some 'l', some 'L']

theorem isDigitOf_iff {radix : Nat} {c : Char} :
    Text.isDigitOf radix c = true ↔ ∃ value < radix, Text.digitValue? c = some value := by
  unfold Text.isDigitOf
  cases Text.digitValue? c with
  | none => simp
  | some value => simp

theorem exists_values {radix : Nat} {digits : List Char} :
    (∀ c ∈ digits, Text.isDigitOf radix c = true) ↔
      ∃ values : List Nat, digits.map Text.digitValue? = values.map some ∧
        ∀ value ∈ values, value < radix := by
  induction digits with
  | nil => exact iff_of_true nofun ⟨[], rfl, nofun⟩
  | cons c digits ih =>
    rw [List.forall_mem_cons, ih, isDigitOf_iff]
    constructor
    · rintro ⟨⟨value, hlt, hvalue⟩, values, hvalues, hall⟩
      refine ⟨value :: values, ?_, List.forall_mem_cons.2 ⟨hlt, hall⟩⟩
      rw [List.map_cons, List.map_cons, hvalue, hvalues]
    · rintro ⟨values, hvalues, hall⟩
      obtain ⟨value, values, rfl, hvalue, hrest⟩ := List.map_eq_cons_iff.1 hvalues.symm
      obtain ⟨hlt, hall⟩ := List.forall_mem_cons.1 hall
      exact ⟨⟨value, hlt, hvalue.symm⟩, values, hrest.symm, hall⟩

theorem hasMagnitude_of_digits {text : List Char} {radix : Nat} (digits : List Char)
    (hradix : SpellsRadix (text.filter (· != '_')) radix digits) (hne : digits ≠ [])
    (hdigits : ∀ c ∈ digits, Text.isDigitOf radix c = true) : ∃ m, HasMagnitude text radix m := by
  obtain ⟨values, hvalues, hlt⟩ := exists_values.1 hdigits
  exact ⟨_, .mk hradix hne hvalues hlt⟩

/-! ## The texts of integer literals have magnitudes -/

section Texts

open Lexeme

/-- A run without its separators starts with the same digit, and has digits only. -/
theorem exists_digits_of_isRun {radix : Nat} {run : List Char} (h : IsRun radix run) :
    ∃ d ds, run.filter (· != '_') = d :: ds ∧ run.head? = some d ∧
      ∀ c ∈ d :: ds, c ∈ run ∧ Text.isDigitOf radix c = true := by
  have hall : ∀ c ∈ run.filter (· != '_'), c ∈ run ∧ Text.isDigitOf radix c = true := by
    intro c hc
    obtain ⟨hc, hne⟩ := List.mem_filter.1 hc
    exact ⟨hc, (h.digits c hc).resolve_right (bne_iff_ne.1 hne)⟩
  obtain ⟨d, ds, rfl, hd⟩ := h.exists_cons
  have hne : d ≠ '_' := by
    rintro rfl
    cases hd
  rw [List.filter_cons_of_pos (p := (· != '_')) (bne_iff_ne.2 hne)] at hall ⊢
  exact ⟨d, _, rfl, rfl, hall⟩

theorem not_mem_letters_of_isDigitOf {c : Char} (h : Text.isDigitOf 10 c = true) :
    c ∉ ['x', 'X', 'b', 'B'] := by
  have hletters : ∀ c ∈ ['x', 'X', 'b', 'B'], ¬ Text.isDigitOf 10 c = true :=
    List.all_iff_forall_prop.1 (by decide)
  exact fun hc => hletters c hc h

theorem isDigitOf_eight {c : Char} (h : Text.isDigitOf 10 c = true) (h8 : c ≠ '8') (h9 : c ≠ '9') :
    Text.isDigitOf 8 c = true := by
  have hrange : '0' ≤ c ∧ c ≤ '9' := by
    simpa [Char.isDigit, Char.le_def] using isDigit_of_isDigitOf h
  have hlow : 48 ≤ c.toNat := hrange.1
  have hhigh : c.toNat ≤ 57 := hrange.2
  have hne8 : c.toNat ≠ 56 := fun he => h8 (Char.toNat_inj.1 he)
  have hne9 : c.toNat ≠ 57 := fun he => h9 (Char.toNat_inj.1 he)
  refine isDigitOf_iff.2 ⟨c.toNat - 48, by omega, ?_⟩
  rw [Text.digitValue?, if_pos hrange]
  rfl

theorem hasMagnitude_of_decimal {run : List Char} (hrun : IsRun 10 run) (hoctal : OctalFits run) :
    ∃ radix m, HasMagnitude run radix m := by
  obtain ⟨d, ds, hfilter, hhead, hall⟩ := exists_digits_of_isRun hrun
  have hdecimal : ∀ c ∈ d :: ds, Text.isDigitOf 10 c = true := fun c hc => (hall c hc).2
  by_cases hzero : d = '0' ∧ ds ≠ []
  · obtain ⟨rfl, hne⟩ := hzero
    obtain ⟨c, ds, rfl⟩ := List.exists_cons_of_ne_nil hne
    have hlong : 1 < run.length := by
      refine Nat.lt_of_lt_of_le ?_ (List.length_filter_le (· != '_') run)
      simp [hfilter]
    obtain ⟨h8, h9⟩ := hoctal hlong hhead
    refine ⟨8, hasMagnitude_of_digits (c :: ds) ?_ (List.cons_ne_nil _ _) fun e he => ?_⟩
    · rw [hfilter]
      exact .octal (not_mem_letters_of_isDigitOf (hdecimal c (by simp)))
    · obtain ⟨hmem, hdigit⟩ := hall e (List.mem_cons_of_mem _ he)
      refine isDigitOf_eight hdigit ?_ ?_
      · rintro rfl
        exact h8 hmem
      · rintro rfl
        exact h9 hmem
  · refine ⟨10, hasMagnitude_of_digits (d :: ds) ?_ (List.cons_ne_nil _ _) hdecimal⟩
    rw [hfilter]
    refine .decimal ?_
    rintro c rest ⟨⟩
    exact hzero ⟨rfl, List.cons_ne_nil _ _⟩

theorem hasMagnitude_of_marked {x : Char} {radix : Nat} {run : List Char}
    (hx : x ∈ ['x', 'X', 'b', 'B'])
    (hradix : ∀ digits, SpellsRadix ('0' :: x :: digits) radix digits) (hrun : IsRun radix run) :
    ∃ radix m, HasMagnitude ('0' :: x :: run) radix m := by
  obtain ⟨d, ds, hfilter, -, hall⟩ := exists_digits_of_isRun hrun
  have hkeep : ∀ c ∈ ['x', 'X', 'b', 'B'], (c != '_') = true :=
    List.all_iff_forall_prop.1 (by decide)
  refine ⟨radix, hasMagnitude_of_digits (d :: ds) ?_ (List.cons_ne_nil _ _)
    fun c hc => (hall c hc).2⟩
  rw [List.filter_cons_of_pos (by decide), List.filter_cons_of_pos (p := (· != '_')) (hkeep x hx),
    hfilter]
  exact hradix _

theorem hasMagnitude_of_isInteger {text : List Char} (h : IsInteger text) (hlong : ¬ IsLong text) :
    ∃ radix m, HasMagnitude text radix m := by
  have hnone : ∀ (front : List Char) {suffix : List Char}, IsOptional ['l', 'L'] suffix →
      ¬ IsLong (front ++ suffix) → suffix = [] := by
    rintro front suffix (rfl | ⟨c, hc, rfl⟩) hlong
    · rfl
    · refine absurd ?_ hlong
      simpa [IsLong] using hc
  cases h with
  | @hexadecimal x run suffix hx hrun hsuffix =>
    obtain rfl := hnone ('0' :: x :: run) hsuffix hlong
    rw [List.append_nil]
    exact hasMagnitude_of_marked (List.mem_append_left ['b', 'B'] hx) (fun _ => .hexadecimal hx) hrun
  | @binary b run suffix hb hrun hsuffix =>
    obtain rfl := hnone ('0' :: b :: run) hsuffix hlong
    rw [List.append_nil]
    exact hasMagnitude_of_marked (List.mem_append_right ['x', 'X'] hb) (fun _ => .binary hb) hrun
  | decimal hrun hoctal hsuffix =>
    obtain rfl := hnone _ hsuffix hlong
    rw [List.append_nil]
    exact hasMagnitude_of_decimal hrun hoctal

end Texts

/-- What becomes of a literal depends on its magnitude. -/
theorem integerValue_of_magnitude {text : String} {radix m : Nat}
    (hlong : ¬ IsLong text.toList) (h : HasMagnitude text.toList radix m) (negative : Bool) :
    integerValue text negative =
      if m ≤ literalLimit radix negative then .ok (Int32.ofInt (if negative then -m else m))
      else .error (.integerRange text) := by
  obtain ⟨hradix, hne, hvalues, hlt⟩ := h
  have hmagnitude := spellsMagnitude_iff.1 (.digits hne (exists_values.2 ⟨_, hvalues, hlt⟩))
  rw [Text.digitsValue_eq_ofDigits hvalues] at hmagnitude
  simp only [IsLong, List.mem_cons, List.not_mem_nil, or_false] at hlong
  simp only [integerValue, hlong, hradix.eq, hmagnitude, ↓reduceIte]

/-! ## Integer tokens -/

/-- The text of an integer token is an integer literal. -/
theorem isInteger_of_scan {c : SourceChar} {rest : List SourceChar} {t : Token}
    (ht : (Lexeme.scan c rest).found = .ok t) (hkind : t.kind = .integer) :
    Lexeme.IsInteger t.text.toList := by
  rcases Lexeme.scan_cases ht with ⟨-, hword⟩ | ⟨hstarts, hnumber, -⟩ | hquoted | ⟨s, hsymbol⟩
  · cases hword
    have hmem := Lexeme.wordKind_mem
      (String.ofList (c.char :: Lexeme.textOf (rest.takeWhile fun c => Text.isWordPart c.char)))
    rw [show Token.wordKind _ = _ from hkind] at hmem
    exact absurd hmem (by decide)
  · rcases Lexeme.isNumeric_number c.position (c :: rest) with
      ⟨kind, -, text, after, htoken⟩ | ⟨text, reason, after, hfault⟩
    · obtain ⟨used, -, -, -, hliteral, -⟩ := (Lexeme.finds_number _ hstarts _ _ _).1 htoken
      rw [htoken] at hnumber
      cases hnumber
      obtain rfl : kind = .integer := hkind
      rw [String.toList_ofList]
      cases hliteral with
      | integer h => exact h
    · rw [hfault] at hnumber
      cases hnumber
  · rw [hkind] at hquoted
    exact absurd hquoted (by decide)
  · rw [hkind] at hsymbol
    cases hsymbol

/-- Exactly the literals of type `long` are not supported. -/
theorem unsupported_iff {text : String} {negative : Bool} :
    (∃ f, integerValue text negative = .error f ∧ f.code = .unsupportedLiteral) ↔
      IsLong text.toList := by
  have hletters : IsLong text.toList ↔
      text.toList.getLast? = some 'l' ∨ text.toList.getLast? = some 'L' := by simp [IsLong]
  rw [hletters]
  constructor
  · rintro ⟨f, hf, hcode⟩
    refine Classical.byContradiction fun hlong => ?_
    simp only [integerValue, if_neg hlong] at hf
    split at hf
    · split at hf
      · cases hf
      · cases hf
        cases hcode
    · cases hf
      cases hcode
  · intro hlong
    exact ⟨.longLiteral text, if_pos hlong, rfl⟩

theorem integerRange_iff {text : String} {radix m : Nat} {negative : Bool}
    (hlong : ¬ IsLong text.toList) (h : HasMagnitude text.toList radix m) :
    (∃ f, integerValue text negative = .error f ∧ f.code = .integerRange) ↔
      literalLimit radix negative < m := by
  rw [integerValue_of_magnitude hlong h]
  split
  · rename_i hle
    refine iff_of_false ?_ (Nat.not_lt.2 hle)
    rintro ⟨f, hf, -⟩
    cases hf
  · rename_i hlt
    exact iff_of_true ⟨_, rfl, rfl⟩ (Nat.not_le.1 hlt)

/-- The value of an integer token. A literal of type `long` has none; any other literal has a
magnitude, which is too large in its radix or else gives the one value of its residue class. -/
theorem integerValue_of_next {l l' : Lexer} {t : Token} (h : l.next = some (.ok t, l'))
    (hkind : t.kind = .integer) (negative : Bool) :
    ((∃ f, integerValue t.text negative = .error f ∧ f.code = .unsupportedLiteral) ↔
      IsLong t.text.toList) ∧
    (¬ IsLong t.text.toList → (∃ radix m, HasMagnitude t.text.toList radix m) ∧
      ∀ radix m limit, HasMagnitude t.text.toList radix m →
        limit = (if radix = 10 then (if negative then 2 ^ 31 else 2 ^ 31 - 1) else 2 ^ 32 - 1) →
        ((∃ f, integerValue t.text negative = .error f ∧ f.code = .integerRange) ↔ limit < m) ∧
        (m ≤ limit → ∃ v, integerValue t.text negative = .ok v ∧ ∀ w : Int32,
          w.toInt ≡ (if negative then -m else m) [ZMOD 2 ^ 32] ↔ w = v)) := by
  obtain ⟨c, rest, hscan⟩ := Lexer.exists_scan_of_next h
  refine ⟨unsupported_iff, fun hlong => ⟨?_, ?_⟩⟩
  · exact hasMagnitude_of_isInteger (isInteger_of_scan hscan hkind) hlong
  · rintro radix m _ hm rfl
    refine ⟨integerRange_iff hlong hm, fun hle => ⟨_, ?_, toInt_modEq_iff _⟩⟩
    rw [integerValue_of_magnitude hlong hm]
    exact if_pos hle

/-- All 32 bits, negated. -/
theorem integerValue_all_bits : ∃ v, integerValue "0xffff_ffff" true = .ok v ∧ ∀ w : Int32,
    w.toInt ≡ -4294967295 [ZMOD 2 ^ 32] ↔ w = v := by
  have hnext : (Lexer.next ⟨"0xffff_ffff".toList.map fun c => ⟨c, .start⟩, none⟩) =
      some (.ok ⟨.integer, "0xffff_ffff", .start⟩, ⟨[], none⟩) := by rfl
  have hvalues : "ffffffff".toList.map Text.digitValue? = (List.replicate 8 15).map some := by decide
  have hradix : SpellsRadix ("0xffff_ffff".toList.filter (· != '_')) 16 "ffffffff".toList :=
    .hexadecimal (by decide)
  have hmagnitude : HasMagnitude "0xffff_ffff".toList 16 4294967295 :=
    .mk hradix (by decide) hvalues (by decide)
  have hlong : ¬ IsLong "0xffff_ffff".toList := by
    unfold IsLong
    decide
  exact (((integerValue_of_next hnext rfl true).2 hlong).2 16 _ _ hmagnitude rfl).2 (by decide)

end Grammar

end Javelet
