import Mathlib.Data.Bool.AllAny
import Javelet.Proofs.Lexeme.Numbers

/-!
# Number literals are scanned as the grammar says

The grammar tells which texts are number literals, without a scanner. What a scanner finds is told by
an equivalence: the characters it uses up have a certain shape, and no word goes on behind them. Each
part of a number literal is optional or a run of digits, so there is one rule for each of these, and
the shape of a number follows the functions that scan it.
-/
namespace Javelet.Lexeme

/-! ## The grammar -/

/-- Digits of a radix, perhaps with `_` between them. -/
structure IsRun (radix : Nat) (cs : List Char) : Prop where
  digits : ∀ c ∈ cs, Text.isDigitOf radix c = true ∨ c = '_'
  first : ∃ c ∈ cs.head?, Text.isDigitOf radix c = true
  last : ∃ c ∈ cs.getLast?, Text.isDigitOf radix c = true

/-- One of the given characters, or nothing. -/
def IsOptional (choice : List Char) (cs : List Char) : Prop := cs = [] ∨ ∃ c ∈ choice, cs = [c]

/-- A decimal run that starts with a zero is octal if more follows, and then has no digit above 7. -/
def OctalFits (run : List Char) : Prop :=
  1 < run.length → run.head? = some '0' → '8' ∉ run ∧ '9' ∉ run

/-- Integer literals. -/
inductive IsInteger : List Char → Prop
  | hexadecimal {x : Char} {run suffix : List Char} : x ∈ ['x', 'X'] → IsRun 16 run →
      IsOptional ['l', 'L'] suffix → IsInteger ('0' :: x :: (run ++ suffix))
  | binary {b : Char} {run suffix : List Char} : b ∈ ['b', 'B'] → IsRun 2 run →
      IsOptional ['l', 'L'] suffix → IsInteger ('0' :: b :: (run ++ suffix))
  | decimal {run suffix : List Char} : IsRun 10 run → OctalFits run →
      IsOptional ['l', 'L'] suffix → IsInteger (run ++ suffix)

/-- A point with digits behind it. -/
inductive IsFraction : List Char → Prop
  | mk {run : List Char} : IsRun 10 run → IsFraction ('.' :: run)

/-- The letter of an exponent, perhaps with a sign, and digits. -/
inductive IsExponent : List Char → Prop
  | mk {e : Char} {sign run : List Char} : e ∈ ['e', 'E'] → IsOptional ['+', '-'] sign →
      IsRun 10 run → IsExponent (e :: (sign ++ run))

/-- What may stand behind the digits of a floating-point literal: an exponent and a suffix. -/
inductive IsScale : List Char → Prop
  | mk {exponent suffix : List Char} : exponent = [] ∨ IsExponent exponent →
      IsOptional ['f', 'F', 'd', 'D'] suffix → IsScale (exponent ++ suffix)

/-- Floating-point literals. Digits alone are none: there is a fraction, an exponent or a suffix. -/
inductive IsFloating : List Char → Prop
  | fraction {run fraction scale : List Char} : run = [] ∨ IsRun 10 run → IsFraction fraction →
      IsScale scale → IsFloating (run ++ (fraction ++ scale))
  | whole {run scale : List Char} : IsRun 10 run → IsScale scale → scale ≠ [] →
      IsFloating (run ++ scale)

/-- Number literals of both kinds. -/
inductive IsNumber : Kind → List Char → Prop
  | integer {cs : List Char} : IsInteger cs → IsNumber .integer cs
  | floating {cs : List Char} : IsFloating cs → IsNumber .floating cs

/-- The longest number literal at the front of a text. -/
structure LongestNumber (text t : List Char) : Prop where
  front : t <+: text
  number : ∃ kind, IsNumber kind t
  longest : ∀ t', t' <+: text → (∃ kind, IsNumber kind t') → t'.length ≤ t.length

/-! ## What a scanner finds -/

/-- No word goes on here. -/
def Ends (cs : List SourceChar) : Prop := ∀ c ∈ cs.head?, Text.isWordPart c.char = false

/-- What a scanner finds behind the text `before`: exactly the tokens whose characters, behind
`before`, have a certain shape, and which no word runs into. The shape may depend on what follows. -/
def Finds (p : Position) (scan : List SourceChar → Scan) (before : List Char)
    (Shape : Kind → List Char → List SourceChar → Prop) : Prop :=
  ∀ cs kind t rest, scan cs = .token kind t p rest ↔
    ∃ used, cs = used ++ rest ∧ t = before ++ textOf used ∧ Ends rest ∧
      Shape kind (textOf used) rest

theorem Scan.token_inj {kind kind' : Kind} {t t' : List Char} {p : Position}
    {rest rest' : List SourceChar} :
    Scan.token kind t p rest = .token kind' t' p rest' ↔ kind = kind' ∧ t = t' ∧ rest = rest' := by
  simp [Scan.token, String.ofList_inj, and_assoc]

theorem exists_append_of_textOf {cs : List SourceChar} {a b : List Char} (h : textOf cs = a ++ b) :
    ∃ xs ys, cs = xs ++ ys ∧ textOf xs = a ∧ textOf ys = b :=
  List.map_eq_append_iff.1 h

/-! ## Rules -/

section Rules

variable {p : Position} {before : List Char} {scan : List SourceChar → Scan}
  {S S' : Kind → List Char → List SourceChar → Prop}

theorem Finds.congr (h : Finds p scan before S)
    (hshape : ∀ kind t rest, Ends rest → (S kind t rest ↔ S' kind t rest)) :
    Finds p scan before S' := by
  intro cs kind t rest
  rw [h cs kind t rest]
  constructor
  · rintro ⟨used, hcs, ht, hends, hs⟩
    exact ⟨used, hcs, ht, hends, (hshape kind _ rest hends).1 hs⟩
  · rintro ⟨used, hcs, ht, hends, hs⟩
    exact ⟨used, hcs, ht, hends, (hshape kind _ rest hends).2 hs⟩

/-- A scanner that finds nothing. -/
theorem finds_fault {f : List SourceChar → Fault} {leave : List SourceChar → List SourceChar} :
    Finds p (fun cs => .fault (f cs) p (leave cs)) before fun _ _ _ => False := by
  intro cs kind t rest
  refine iff_of_false nofun ?_
  rintro ⟨-, -, -, -, h⟩
  exact h

/-- An optional character, taken if it is one of those in question. What is found without it does not
start with such a character. -/
theorem finds_optional (q : Char → Prop) [DecidablePred q] (scan : List SourceChar → Scan)
    (take : Char → List SourceChar → Scan) (skip : List SourceChar → Scan)
    {T : Char → Kind → List Char → List SourceChar → Prop}
    (hscan : ∀ c more, scan (c :: more) = if q c.char then take c.char more else skip (c :: more))
    (hnil : scan [] = skip [])
    (hskip : ∀ kind used rest, S kind (textOf used) rest → Ends rest →
      ∀ c ∈ (used ++ rest).head?, ¬ q c.char)
    (htakes : ∀ c, q c → Finds p (take c) (before ++ [c]) (T c)) (hskips : Finds p skip before S) :
    Finds p scan before fun kind t rest =>
      (∃ c more, q c ∧ t = c :: more ∧ T c kind more rest) ∨ S kind t rest := by
  have hpass : ∀ cs, (∀ c ∈ cs.head?, ¬ q c.char) → scan cs = skip cs := by
    intro cs hcs
    cases cs with
    | nil => exact hnil
    | cons c more => rw [hscan, if_neg (hcs c rfl)]
  intro cs kind t rest
  constructor
  · intro h
    by_cases hcs : ∀ c ∈ cs.head?, ¬ q c.char
    · rw [hpass cs hcs] at h
      obtain ⟨used, hused, ht, hends, hs⟩ := (hskips cs kind t rest).1 h
      exact ⟨used, hused, ht, hends, .inr hs⟩
    · simp only [Classical.not_forall, Classical.not_not] at hcs
      obtain ⟨c, hc, hq⟩ := hcs
      obtain ⟨more, rfl⟩ := List.head?_eq_some_iff.1 hc
      rw [hscan, if_pos hq] at h
      obtain ⟨used, rfl, rfl, hends, ht⟩ := (htakes _ hq more kind t rest).1 h
      exact ⟨c :: used, rfl, by simp, hends, .inl ⟨_, _, hq, rfl, ht⟩⟩
  · rintro ⟨used, rfl, rfl, hends, ⟨c, more, hq, htext, ht⟩ | hs⟩
    · obtain ⟨d, tail, rfl, rfl, rfl⟩ := exists_cons_of_textOf htext
      rw [List.cons_append, hscan, if_pos hq]
      exact (htakes _ hq _ kind _ rest).2 ⟨tail, rfl, by simp, hends, ht⟩
    · rw [hpass _ (hskip kind used rest hs hends)]
      exact (hskips _ kind _ rest).2 ⟨used, rfl, rfl, hends, hs⟩

/-- The longest run of certain characters. What is found behind it does not start with one of them. -/
theorem finds_run (q : Char → Bool) (bad : List Char → Prop) [DecidablePred bad]
    (scan : List SourceChar → Scan) (fault : List Char → Fault)
    (next : List Char → List SourceChar → Scan)
    {N : List Char → Kind → List Char → List SourceChar → Prop}
    (hscan : ∀ cs, scan cs =
      if bad (textOf (cs.takeWhile fun c => q c.char)) then
        .fault (fault (textOf (cs.takeWhile fun c => q c.char))) p
          (cs.dropWhile fun c => q c.char)
      else next (textOf (cs.takeWhile fun c => q c.char)) (cs.dropWhile fun c => q c.char))
    (hend : ∀ run kind used rest, ¬ bad run → N run kind (textOf used) rest → Ends rest →
      ∀ c ∈ (used ++ rest).head?, ¬ q c.char = true)
    (hnext : ∀ run, ¬ bad run → Finds p (next run) (before ++ run) (N run)) :
    Finds p scan before fun kind t rest =>
      ∃ run more, t = run ++ more ∧ (∀ c ∈ run, q c = true) ∧ ¬ bad run ∧ N run kind more rest := by
  intro cs kind t rest
  rw [hscan]
  constructor
  · intro h
    split at h
    · cases h
    · rename_i hgood
      obtain ⟨used, hcs, rfl, hends, hn⟩ := (hnext _ hgood _ kind t rest).1 h
      refine ⟨cs.takeWhile (fun c => q c.char) ++ used, ?_, by simp, hends, _, _, textOf_append _ _,
        ?_, hgood, hn⟩
      · rw [List.append_assoc, ← hcs, List.takeWhile_append_dropWhile]
      · intro c hc
        obtain ⟨d, hd, rfl⟩ := List.mem_map.1 hc
        exact List.all_eq_true.1 List.all_takeWhile d hd
  · rintro ⟨used, rfl, rfl, hends, run, more, htext, hin, hgood, hn⟩
    obtain ⟨used, tail, rfl, rfl, rfl⟩ := exists_append_of_textOf htext
    have hin : ∀ c ∈ used, q c.char = true := fun c hc => hin _ (List.mem_map_of_mem hc)
    have hout := hend _ kind tail rest hgood hn hends
    obtain ⟨htake, hdrop⟩ := span_append (q := fun c => q c.char) hin
      fun c hc => Bool.eq_false_iff.2 (hout c hc)
    rw [List.append_assoc, htake, hdrop, if_neg hgood]
    exact (hnext _ hgood _ kind _ rest).2 ⟨tail, rfl, by simp, hends, hn⟩

/-- Neither a lexeme nor what follows it starts with a certain part of words. -/
theorem head_apart {q : Char → Prop} (hq : ∀ c, q c → Text.isWordPart c = true)
    {used rest : List SourceChar} (hused : ∀ c ∈ (textOf used).head?, ¬ q c) (hends : Ends rest) :
    ∀ c ∈ (used ++ rest).head?, ¬ q c.char := by
  cases used with
  | nil =>
    intro c hc h
    have hpart := hq _ h
    rw [hends c hc] at hpart
    cases hpart
  | cons u used =>
    rintro c ⟨⟩
    exact hused _ rfl

end Rules

/-! ## Runs of digits -/

/-- Characters of a digit run. -/
def runChar (radix : Nat) (c : Char) : Bool := Text.isDigitOf radix c || c == '_'

theorem isRun_iff {radix : Nat} {run : List Char} :
    IsRun radix run ↔ (∀ c ∈ run, runChar radix c = true) ∧
      ¬ (run = [] ∨ wellSeparated run = false) := by
  have hdigit : ∀ c, runChar radix c = true → c ≠ '_' → Text.isDigitOf radix c = true := by
    intro c hc hne
    simpa [runChar, hne] using hc
  have hnot : Text.isDigitOf radix '_' = false := rfl
  constructor
  · rintro ⟨hdigits, ⟨first, hfirst, hf⟩, last, hlast, hl⟩
    refine ⟨fun c hc => by simpa [runChar] using hdigits c hc, ?_⟩
    have hapart : ∀ {c}, Text.isDigitOf radix c = true → c ≠ '_' := by
      rintro c hc rfl
      rw [hnot] at hc
      cases hc
    rw [Option.mem_def] at hfirst hlast
    rintro (rfl | hbad)
    · cases hfirst
    · simp [wellSeparated, hfirst, hlast, hapart hf, hapart hl] at hbad
  · rintro ⟨hin, hgood⟩
    rw [not_or, Bool.not_eq_false] at hgood
    obtain ⟨hne, hgood⟩ := hgood
    simp only [wellSeparated, Bool.and_eq_true, bne_iff_ne] at hgood
    have hhead := List.head?_eq_some_head hne
    have hlast := List.getLast?_eq_some_getLast hne
    rw [hhead, hlast] at hgood
    refine ⟨fun c hc => by simpa [runChar] using hin c hc, ⟨_, hhead, ?_⟩, ⟨_, hlast, ?_⟩⟩
    · exact hdigit _ (hin _ (List.head_mem hne)) fun h => hgood.1 (congrArg some h)
    · exact hdigit _ (hin _ (List.getLast_mem hne)) fun h => hgood.2 (congrArg some h)

theorem cases_of_isDigitOf {radix : Nat} {c : Char} (h : Text.isDigitOf radix c = true) :
    ('0' ≤ c ∧ c ≤ '9') ∨ ('a' ≤ c ∧ c ≤ 'z') ∨ ('A' ≤ c ∧ c ≤ 'Z') := by
  apply Classical.byContradiction
  intro hnot
  simp only [not_or] at hnot
  simp [Text.isDigitOf, Text.digitValue?, hnot] at h

theorem isDigit_of_isDigitOf {c : Char} (h : Text.isDigitOf 10 c = true) : c.isDigit = true := by
  simp only [Text.isDigitOf, Text.digitValue?] at h
  split at h
  · rename_i value hvalue
    split at hvalue
    · rename_i hrange
      simpa [Char.isDigit, Char.le_def] using hrange
    · -- letters have values from ten on
      split at hvalue
      · cases hvalue
        exact absurd (of_decide_eq_true h) (Nat.not_lt.2 (Nat.le_add_left ..))
      · split at hvalue
        · cases hvalue
          exact absurd (of_decide_eq_true h) (Nat.not_lt.2 (Nat.le_add_left ..))
        · cases hvalue
  · cases h

theorem isWordPart_of_isDigitOf {radix : Nat} {c : Char} (h : Text.isDigitOf radix c = true) :
    Text.isWordPart c = true := by
  have hlow : ∀ d : Char, d.toNat < 128 → c ≤ d → c.toNat < 128 := by
    intro d hd hle
    have hle : c.toNat ≤ d.toNat := hle
    omega
  simp only [Text.isWordPart, Text.isAlphabetic, Text.isNumeric, Bool.or_eq_true]
  refine .inl (.inl ?_)
  rcases cases_of_isDigitOf h with hc | hc | hc
  · rw [if_pos (hlow '9' (by decide) hc.2), if_pos (hlow '9' (by decide) hc.2)]
    exact .inr (by simpa [Char.isDigit, Char.le_def] using hc)
  · rw [if_pos (hlow 'z' (by decide) hc.2)]
    have hlower : c.isLower = true :=
      Bool.and_eq_true_iff.2 ⟨decide_eq_true hc.1, decide_eq_true hc.2⟩
    exact .inl (Bool.or_eq_true_iff.2 (.inr hlower))
  · rw [if_pos (hlow 'Z' (by decide) hc.2)]
    have hupper : c.isUpper = true := decide_eq_true hc
    exact .inl (Bool.or_eq_true_iff.2 (.inl hupper))

/-- Digits and separators are parts of words. -/
theorem isWordPart_of_runChar {radix : Nat} {c : Char} (h : runChar radix c = true) :
    Text.isWordPart c = true := by
  simp only [runChar, Bool.or_eq_true, beq_iff_eq] at h
  rcases h with h | rfl
  · exact isWordPart_of_isDigitOf h
  · decide

theorem IsRun.exists_cons {radix : Nat} {run : List Char} (h : IsRun radix run) :
    ∃ d ds, run = d :: ds ∧ Text.isDigitOf radix d = true := by
  obtain ⟨d, hd, hdigit⟩ := h.first
  obtain ⟨ds, rfl⟩ := List.head?_eq_some_iff.1 hd
  exact ⟨d, ds, rfl, hdigit⟩

theorem IsOptional.head {choice t : List Char} (h : IsOptional choice t) :
    ∀ c ∈ t.head?, c ∈ choice := by
  rcases h with rfl | ⟨c, hc, rfl⟩
  · exact nofun
  · rintro d ⟨⟩
    exact hc

/-! ## The parts of a number literal -/

section Parts

variable (p : Position) (floating : Bool) (whole text : List Char)

theorem finds_closeNumber (kind : Kind) :
    Finds p (closeNumber p kind text) text fun k t _ => k = kind ∧ t = [] := by
  intro cs k t rest
  have hclose : closeNumber p kind text cs = .token k t p rest ↔
      Ends cs ∧ Scan.token kind text p cs = .token k t p rest := by
    unfold closeNumber
    split
    · simp [Ends]
    · rename_i c more
      split
      · rename_i hpart
        simp [Ends, hpart, Scan.fault, Scan.token]
      · rename_i hpart
        simp [Ends, hpart]
  rw [hclose, Scan.token_inj]
  constructor
  · rintro ⟨hends, rfl, rfl, rfl⟩
    exact ⟨[], rfl, by simp, hends, rfl, rfl⟩
  · rintro ⟨used, rfl, rfl, hends, rfl, ht⟩
    obtain rfl := eq_nil_of_textOf ht
    exact ⟨hends, rfl, by simp, rfl⟩

theorem finds_closeInteger :
    Finds p (closeInteger p text) text fun k t _ => k = .integer ∧ IsOptional ['l', 'L'] t := by
  refine (finds_optional (fun c => c = 'l' ∨ c = 'L') (closeInteger p text)
    (fun c => closeNumber p .integer (text ++ [c])) (closeNumber p .integer text)
    (fun _ _ => rfl) rfl ?_ (fun c _ => finds_closeNumber p (text ++ [c]) .integer)
    (finds_closeNumber p text .integer)).congr ?_
  · rintro kind used rest ⟨-, ht⟩ hends
    have hparts : ∀ c, c = 'l' ∨ c = 'L' → Text.isWordPart c = true := by
      rintro c (rfl | rfl)
      · decide
      · decide
    exact head_apart hparts (by simp [ht]) hends
  · intro kind t rest hends
    constructor
    · rintro (⟨c, more, hc, rfl, rfl, rfl⟩ | ⟨rfl, rfl⟩)
      · exact ⟨rfl, .inr ⟨c, by simpa using hc, rfl⟩⟩
      · exact ⟨rfl, .inl rfl⟩
    · rintro ⟨rfl, rfl | ⟨c, hc, rfl⟩⟩
      · exact .inr ⟨rfl, rfl⟩
      · exact .inl ⟨c, [], by simpa using hc, rfl, rfl, rfl⟩

/-- What may stand behind digits in an integer literal and, if they have a fraction or an exponent,
in a floating-point literal; a suffix makes a floating-point literal, too. -/
def Suffixes (kind : Kind) (t : List Char) (_ : List SourceChar) : Prop :=
  (kind = .floating ∧ IsOptional ['f', 'F', 'd', 'D'] t ∧ (floating = true ∨ t ≠ [])) ∨
    (kind = .integer ∧ floating = false ∧ OctalFits whole ∧ IsOptional ['l', 'L'] t)

theorem finds_closeUnmarked :
    Finds p (closeUnmarked p floating whole text) text fun k t _ =>
      (k = .floating ∧ floating = true ∧ t = []) ∨
        (k = .integer ∧ floating = false ∧ OctalFits whole ∧ IsOptional ['l', 'L'] t) := by
  cases floating with
  | true => exact (finds_closeNumber p text .floating).congr (by simp)
  | false =>
    by_cases hoctal : 1 < whole.length ∧ whole.head? = some '0' ∧ ('8' ∈ whole ∨ '9' ∈ whole)
    · have hfits : ¬ OctalFits whole := by
        intro hfits
        obtain ⟨h8, h9⟩ := hfits hoctal.1 hoctal.2.1
        exact hoctal.2.2.elim h8 h9
      have hscan : closeUnmarked p false whole text = fun cs =>
          .fault (.badNumber (String.ofList text) .octalDigit) p cs := by
        funext cs
        simp [closeUnmarked, hoctal]
      rw [hscan]
      exact finds_fault.congr (by simp [hfits])
    · have hfits : OctalFits whole := by
        intro hlong hzero
        simpa [hlong, hzero] using hoctal
      have hscan : closeUnmarked p false whole text = closeInteger p text := by
        funext cs
        simp only [closeUnmarked, hoctal, Bool.false_eq_true, if_false]
      rw [hscan]
      exact (finds_closeInteger p text).congr (by simp [hfits])

theorem finds_numberSuffix :
    Finds p (numberSuffix p floating whole text) text (Suffixes floating whole) := by
  refine (finds_optional (fun c => c ∈ ['f', 'F', 'd', 'D']) (numberSuffix p floating whole text)
    (fun c => closeNumber p .floating (text ++ [c])) (closeUnmarked p floating whole text)
    (fun _ _ => rfl) rfl ?_ (fun c _ => finds_closeNumber p (text ++ [c]) .floating)
    (finds_closeUnmarked p floating whole text)).congr ?_
  · intro kind used rest hs hends
    refine head_apart (List.all_iff_forall_prop.1 (by decide)) ?_ hends
    rcases hs with ⟨-, -, ht⟩ | ⟨-, -, -, ht⟩
    · simp [ht]
    · have hapart : ∀ c ∈ ['l', 'L'], c ∉ ['f', 'F', 'd', 'D'] :=
   List.all_iff_forall_prop.1 (by decide)
      exact fun c hc => hapart c (ht.head c hc)
  · intro kind t rest hends
    constructor
    · rintro (⟨c, more, hc, rfl, rfl, rfl⟩ | ⟨rfl, hfloating, rfl⟩ | hinteger)
      · exact .inl ⟨rfl, .inr ⟨c, hc, rfl⟩, .inr (List.cons_ne_nil _ _)⟩
      · exact .inl ⟨rfl, .inl rfl, .inl hfloating⟩
      · exact .inr hinteger
    · rintro (⟨rfl, rfl | ⟨c, hc, rfl⟩, hne⟩ | hinteger)
      · exact .inr (.inl ⟨rfl, by simpa using hne, rfl⟩)
      · exact .inl ⟨c, [], hc, rfl, rfl, rfl⟩
      · exact .inr (.inr hinteger)

/-- Digits behind the letter of an exponent and its sign, and a suffix. -/
def Exponents (kind : Kind) (t : List Char) (rest : List SourceChar) : Prop :=
  ∃ run suffix, t = run ++ suffix ∧ IsRun 10 run ∧ Suffixes true whole kind suffix rest

theorem suffixes_head {kind : Kind} {t : List Char} {rest : List SourceChar}
    (h : Suffixes floating whole kind t rest) :
    ∀ c ∈ t.head?, c ∈ ['f', 'F', 'd', 'D', 'l', 'L'] := by
  have hfloating : ∀ c ∈ ['f', 'F', 'd', 'D'], c ∈ ['f', 'F', 'd', 'D', 'l', 'L'] :=
    List.all_iff_forall_prop.1 (by decide)
  have hlong : ∀ c ∈ ['l', 'L'], c ∈ ['f', 'F', 'd', 'D', 'l', 'L'] :=
    List.all_iff_forall_prop.1 (by decide)
  rcases h with ⟨-, ht, -⟩ | ⟨-, -, -, ht⟩
  · exact fun c hc => hfloating c (ht.head c hc)
  · exact fun c hc => hlong c (ht.head c hc)

theorem not_runChar : ∀ c ∈ ['f', 'F', 'd', 'D', 'l', 'L'], ¬ runChar 10 c = true :=
  List.all_iff_forall_prop.1 (by decide)

theorem finds_exponentDigits :
    Finds p (exponentDigits whole text p) text (Exponents whole) := by
  refine (finds_run (runChar 10) (fun run => run = [] ∨ wellSeparated run = false)
    (exponentDigits whole text p) (fun run => .badNumber (String.ofList (text ++ run)) .exponent)
    (fun run => numberSuffix p true whole (text ++ run)) (fun _ => rfl) ?_
    (fun run _ => finds_numberSuffix p true whole (text ++ run))).congr ?_
  · intro run kind used rest _ hs hends
    refine head_apart (fun c => isWordPart_of_runChar) ?_ hends
    exact fun c hc => not_runChar c (suffixes_head true whole hs c hc)
  · intro kind t rest _
    constructor
    · rintro ⟨run, more, rfl, hin, hgood, hs⟩
      exact ⟨run, more, rfl, isRun_iff.2 ⟨hin, hgood⟩, hs⟩
    · rintro ⟨run, more, rfl, hrun, hs⟩
      exact ⟨run, more, rfl, (isRun_iff.1 hrun).1, (isRun_iff.1 hrun).2, hs⟩

/-- What may stand behind the whole part and the fraction. -/
def Scales (kind : Kind) (t : List Char) (_ : List SourceChar) : Prop :=
  (kind = .floating ∧ IsScale t ∧ (floating = true ∨ t ≠ [])) ∨
    (kind = .integer ∧ floating = false ∧ OctalFits whole ∧ IsOptional ['l', 'L'] t)

theorem finds_signedExponent :
    Finds p (signedExponent whole text p) text fun kind t rest =>
      ∃ sign more, t = sign ++ more ∧ IsOptional ['+', '-'] sign ∧
        Exponents whole kind more rest := by
  refine (finds_optional (fun c => c = '+' ∨ c = '-') (signedExponent whole text p)
    (fun c => exponentDigits whole (text ++ [c]) p) (exponentDigits whole text p)
    ?_ ?_ ?_ (fun c _ => finds_exponentDigits p whole (text ++ [c]))
    (finds_exponentDigits p whole text)).congr ?_
  · intro c more
    simp only [signedExponent, exponentSign]
    split
    · rfl
    · rw [List.append_nil]
  · simp only [signedExponent, exponentSign, List.append_nil]
  · rintro kind used rest ⟨run, suffix, ht, hrun, -⟩ _
    obtain ⟨d, ds, rfl, hd⟩ := hrun.exists_cons
    obtain ⟨c, more, rfl, rfl, -⟩ := exists_cons_of_textOf ht
    rintro _ ⟨⟩ (h | h)
    · rw [h] at hd
      exact absurd hd (by decide)
    · rw [h] at hd
      exact absurd hd (by decide)
  · intro kind t rest _
    constructor
    · rintro (⟨c, more, hc, rfl, h⟩ | h)
      · exact ⟨[c], more, rfl, .inr ⟨c, by simpa using hc, rfl⟩, h⟩
      · exact ⟨[], t, rfl, .inl rfl, h⟩
    · rintro ⟨sign, more, rfl, rfl | ⟨c, hc, rfl⟩, h⟩
      · exact .inr h
      · exact .inl ⟨c, more, by simpa using hc, rfl, h⟩

theorem finds_numberExponent :
    Finds p (numberExponent p floating whole text) text (Scales floating whole) := by
  refine (finds_optional (fun c => c = 'e' ∨ c = 'E') (numberExponent p floating whole text)
    (fun c => signedExponent whole (text ++ [c]) p) (numberSuffix p floating whole text)
    (fun _ _ => rfl) rfl ?_
    (fun c _ => finds_signedExponent p whole (text ++ [c]))
    (finds_numberSuffix p floating whole text)).congr ?_
  · intro kind used rest hs hends
    have hparts : ∀ c, c = 'e' ∨ c = 'E' → Text.isWordPart c = true := by
      rintro c (rfl | rfl)
      · decide
      · decide
    have hapart : ∀ c ∈ ['f', 'F', 'd', 'D', 'l', 'L'], ¬ (c = 'e' ∨ c = 'E') :=
      List.all_iff_forall_prop.1 (by decide)
    exact head_apart hparts (fun c hc => hapart c (suffixes_head floating whole hs c hc)) hends
  · intro kind t rest _
    constructor
    · rintro (⟨c, more, hc, rfl, sign, more', rfl, hsign, run, suffix, rfl, hrun, hs⟩ | hs)
      · rcases hs with ⟨rfl, hsuffix, -⟩ | ⟨-, hfalse, -⟩
        · refine .inl ⟨rfl, ?_, .inr (List.cons_ne_nil _ _)⟩
          have hexponent : IsExponent (c :: (sign ++ run)) := .mk (by simpa using hc) hsign hrun
          simpa using IsScale.mk (.inr hexponent) hsuffix
        · cases hfalse
      · rcases hs with ⟨rfl, hsuffix, hne⟩ | hinteger
        · exact .inl ⟨rfl, .mk (.inl rfl) hsuffix, hne⟩
        · exact .inr hinteger
    · rintro (⟨rfl, ⟨hexponent, hsuffix⟩, hne⟩ | hinteger)
      · rcases hexponent with rfl | ⟨he, hsign, hrun⟩
        · exact .inr (.inl ⟨rfl, hsuffix, hne⟩)
        · refine .inl ⟨_, _, by simpa using he, rfl, _, _, List.append_assoc _ _ _, hsign, _, _, rfl,
            hrun, .inl ⟨rfl, hsuffix, .inl rfl⟩⟩
      · exact .inr (.inr hinteger)

theorem scales_head {kind : Kind} {t : List Char} {rest : List SourceChar}
    (h : Scales floating whole kind t rest) :
    ∀ c ∈ t.head?, c ∈ ['e', 'E', 'f', 'F', 'd', 'D', 'l', 'L'] := by
  have hfloating : ∀ c ∈ ['f', 'F', 'd', 'D'], c ∈ ['e', 'E', 'f', 'F', 'd', 'D', 'l', 'L'] :=
    List.all_iff_forall_prop.1 (by decide)
  have hlong : ∀ c ∈ ['l', 'L'], c ∈ ['e', 'E', 'f', 'F', 'd', 'D', 'l', 'L'] :=
    List.all_iff_forall_prop.1 (by decide)
  have hletter : ∀ c ∈ ['e', 'E'], c ∈ ['e', 'E', 'f', 'F', 'd', 'D', 'l', 'L'] :=
    List.all_iff_forall_prop.1 (by decide)
  rcases h with ⟨-, ⟨rfl | ⟨he, -, -⟩, hsuffix⟩, -⟩ | ⟨-, -, -, ht⟩
  · exact fun c hc => hfloating c (hsuffix.head c hc)
  · rintro c ⟨⟩
    exact hletter _ he
  · exact fun c hc => hlong c (ht.head c hc)

/-- A point with a digit behind it. -/
def PointFollows (cs : List SourceChar) : Prop :=
  ∃ c d more, cs = c :: d :: more ∧ c.char = '.' ∧ d.char.isDigit = true

theorem finds_fractionFrom {digit : Char} (hdigit : digit.isDigit = true) :
    Finds p (fractionFrom whole digit p) (whole ++ ['.', digit]) fun kind t _ =>
      kind = .floating ∧ ∃ run scale, t = run ++ scale ∧ IsRun 10 (digit :: run) ∧ IsScale scale := by
  have hnext : ∀ run, Finds p
      (numberExponent p true whole (whole ++ ['.', digit] ++ run)) (whole ++ ['.', digit] ++ run)
      (Scales true whole) := fun run => finds_numberExponent p true whole _
  refine (finds_run (runChar 10) (fun run => wellSeparated (digit :: run) = false)
    (fractionFrom whole digit p)
    (fun run => .badNumber (String.ofList (whole ++ ['.', digit] ++ run)) .shape) _
    ?_ ?_ (fun run _ => hnext run)).congr ?_
  · intro cs
    simp only [fractionFrom, List.append_assoc, List.cons_append, List.nil_append]
    rfl
  · intro run kind used rest _ hs hends
    have hapart : ∀ c ∈ ['e', 'E', 'f', 'F', 'd', 'D', 'l', 'L'], ¬ runChar 10 c = true :=
      List.all_iff_forall_prop.1 (by decide)
    exact head_apart (fun c => isWordPart_of_runChar)
      (fun c hc => hapart c (scales_head true whole hs c hc)) hends
  · have hfirst : runChar 10 digit = true :=
      inRun_ten_of_isDigit (c := ⟨digit, .start⟩) hdigit
    intro kind t rest _
    constructor
    · rintro ⟨run, more, rfl, hin, hgood, ⟨rfl, hscale, -⟩ | ⟨-, hfalse, -⟩⟩
      · have hrun : IsRun 10 (digit :: run) := by
          refine isRun_iff.2 ⟨List.forall_mem_cons.2 ⟨hfirst, hin⟩, ?_⟩
          rintro (hnil | hbad)
          · cases hnil
          · exact hgood hbad
        exact ⟨rfl, run, more, rfl, hrun, hscale⟩
      · cases hfalse
    · rintro ⟨rfl, run, scale, rfl, hrun, hscale⟩
      obtain ⟨hin, hgood⟩ := isRun_iff.1 hrun
      exact ⟨run, scale, rfl, (List.forall_mem_cons.1 hin).2, fun hbad => hgood (.inr hbad),
        .inl ⟨rfl, hscale, .inl rfl⟩⟩

/-- What may stand behind the whole part of a number. Without a fraction, no point with a digit
follows. -/
def Fractions (kind : Kind) (t : List Char) (rest : List SourceChar) : Prop :=
  (kind = .floating ∧ ∃ fraction scale, t = fraction ++ scale ∧ IsFraction fraction ∧ IsScale scale) ∨
    (Scales false whole kind t rest ∧ (t = [] → ¬ PointFollows rest))

theorem numberFraction_of_not {cs : List SourceChar} (h : ¬ PointFollows cs) :
    numberFraction p whole cs = numberExponent p false whole whole cs := by
  match cs with
  | [] => rfl
  | [c] => rfl
  | c :: d :: more =>
    have hnot : ¬ (c.char = '.' ∧ d.char.isDigit = true) :=
      fun hq => h ⟨c, d, more, rfl, hq.1, hq.2⟩
    simp only [numberFraction, hnot, if_false]

theorem exists_of_fraction {used : List SourceChar} {run more : List Char} (hrun : IsRun 10 run)
    (htext : textOf used = '.' :: (run ++ more)) :
    ∃ c d used' ds, used = c :: d :: used' ∧ c.char = '.' ∧ d.char.isDigit = true ∧
      run = d.char :: ds ∧ textOf used' = ds ++ more := by
  obtain ⟨d, ds, rfl, hd⟩ := hrun.exists_cons
  obtain ⟨c, tail, rfl, hc, htail⟩ := exists_cons_of_textOf htext
  obtain ⟨d, used', rfl, rfl, hmore⟩ := exists_cons_of_textOf htail
  exact ⟨c, d, used', ds, rfl, hc, isDigit_of_isDigitOf hd, rfl, hmore⟩

theorem finds_numberFraction : Finds p (numberFraction p whole) whole (Fractions whole) := by
  intro cs kind t rest
  by_cases hpoint : PointFollows cs
  · obtain ⟨c, d, more, rfl, hc, hd⟩ := hpoint
    rw [numberFraction_of_isDigit whole p hc hd, finds_fractionFrom p whole hd]
    constructor
    · rintro ⟨used, rfl, rfl, hends, rfl, run, scale, htext, hrun, hscale⟩
      refine ⟨c :: d :: used, rfl, by simp [hc], hends, .inl ⟨rfl, '.' :: d.char :: run, scale, ?_,
        .mk hrun, hscale⟩⟩
      simp [hc, htext]
    · rintro ⟨used, hcs, rfl, hends, ⟨rfl, _, scale, htext, ⟨hrun⟩, hscale⟩ | ⟨hs, hnot⟩⟩
      · obtain ⟨c, d, used, ds, rfl, -, -, rfl, hmore⟩ := exists_of_fraction hrun htext
        cases hcs
        exact ⟨used, rfl, by simp [hc], hends, rfl, ds, scale, hmore, hrun, hscale⟩
      · -- what is found without a fraction does not start with the point
        cases used with
        | nil => exact absurd ⟨c, d, more, hcs.symm, hc, hd⟩ (hnot rfl)
        | cons u used =>
          obtain ⟨rfl, -⟩ := List.cons.inj hcs
          have hhead := scales_head false whole hs c.char rfl
          rw [hc] at hhead
          exact absurd hhead (by decide)
  · rw [numberFraction_of_not p whole hpoint, finds_numberExponent p false whole whole]
    constructor
    · rintro ⟨used, rfl, rfl, hends, hs⟩
      exact ⟨used, rfl, rfl, hends, .inr ⟨hs, fun hnil => by
        rwa [eq_nil_of_textOf hnil] at hpoint⟩⟩
    · rintro ⟨used, rfl, rfl, hends, ⟨rfl, _, scale, htext, ⟨hrun⟩, hscale⟩ | ⟨hs, -⟩⟩
      · obtain ⟨c, d, used, ds, rfl, hc, hd, -⟩ := exists_of_fraction hrun htext
        exact absurd ⟨c, d, used ++ rest, rfl, hc, hd⟩ hpoint
      · exact ⟨used, rfl, rfl, hends, hs⟩

/-- What may follow the whole part of a number starts with one of these. -/
def joints : List Char := ['.', 'e', 'E', 'f', 'F', 'd', 'D', 'l', 'L']

theorem fractions_head {kind : Kind} {t : List Char} {rest : List SourceChar}
    (h : Fractions whole kind t rest) : ∀ c ∈ t.head?, c ∈ joints := by
  rcases h with ⟨-, _, scale, rfl, ⟨-⟩, -⟩ | ⟨hs, -⟩
  · rintro c ⟨⟩
    decide
  · exact fun c hc => List.mem_cons_of_mem _ (scales_head false whole hs c hc)

theorem not_runChar_of_mem_joints : ∀ c ∈ joints, ¬ runChar 10 c = true :=
  List.all_iff_forall_prop.1 (by decide)

theorem finds_plainNumber :
    Finds p (plainNumber p) [] fun kind t rest =>
      ∃ run more, t = run ++ more ∧ (run = [] ∨ IsRun 10 run) ∧ Fractions run kind more rest := by
  have hnext : ∀ run, Finds p (numberFraction p run) ([] ++ run) (Fractions run) :=
    fun run => finds_numberFraction p run
  refine (finds_run (runChar 10) (fun run => run ≠ [] ∧ wellSeparated run = false) (plainNumber p)
    (fun run => .badNumber (String.ofList run) .shape) (numberFraction p) (fun _ => rfl) ?_
    fun run _ => hnext run).congr ?_
  · intro run kind used rest _ hs hends
    exact head_apart (fun c => isWordPart_of_runChar)
      (fun c hc => not_runChar_of_mem_joints c (fractions_head run hs c hc)) hends
  · intro kind t rest _
    constructor
    · rintro ⟨run, more, rfl, hin, hgood, hs⟩
      refine ⟨run, more, rfl, ?_, hs⟩
      by_cases hnil : run = []
      · exact .inl hnil
      · exact .inr (isRun_iff.2 ⟨hin, fun hbad => hgood ⟨hnil, hbad.resolve_left hnil⟩⟩)
    · rintro ⟨run, more, rfl, rfl | hrun, hs⟩
      · exact ⟨[], more, rfl, nofun, fun hbad => hbad.1 rfl, hs⟩
      · obtain ⟨hin, hgood⟩ := isRun_iff.1 hrun
        exact ⟨run, more, rfl, hin, fun hbad => hgood (.inr hbad.2), hs⟩

/-- The digits behind a mark, and a suffix. -/
def IsMarked (radix : Nat) (t : List Char) : Prop :=
  ∃ run suffix, t = run ++ suffix ∧ IsRun radix run ∧ IsOptional ['l', 'L'] suffix

theorem finds_markedNumber {radix : Nat} (hlong : ∀ c ∈ ['l', 'L'], ¬ runChar radix c = true) :
    Finds p (markedNumber p radix text) text fun kind t _ =>
      kind = .integer ∧ IsMarked radix t := by
  refine (finds_run (runChar radix) (fun run => run = [] ∨ wellSeparated run = false)
    (markedNumber p radix text) (fun run => .badNumber (String.ofList (text ++ run)) .shape)
    (fun run => closeInteger p (text ++ run)) (fun _ => rfl) ?_
    fun run _ => finds_closeInteger p (text ++ run)).congr ?_
  · rintro run kind used rest _ ⟨-, hs⟩ hends
    exact head_apart (fun c => isWordPart_of_runChar) (fun c hc => hlong c (hs.head c hc)) hends
  · intro kind t rest _
    constructor
    · rintro ⟨run, suffix, rfl, hin, hgood, rfl, hsuffix⟩
      exact ⟨rfl, run, suffix, rfl, isRun_iff.2 ⟨hin, hgood⟩, hsuffix⟩
    · rintro ⟨rfl, run, suffix, rfl, hrun, hsuffix⟩
      obtain ⟨hin, hgood⟩ := isRun_iff.1 hrun
      exact ⟨run, suffix, rfl, hin, hgood, rfl, hsuffix⟩

end Parts

/-! ## Number literals -/

theorem markedRadix?_iff {c : Char} {radix : Nat} :
    markedRadix? c = some radix ↔
      (c ∈ ['x', 'X'] ∧ radix = 16) ∨ (c ∈ ['b', 'B'] ∧ radix = 2) := by
  constructor
  · intro h
    rcases markedRadix?_eq_some h with rfl | rfl | rfl | rfl
    · exact .inl ⟨by decide, (Option.some.inj h).symm⟩
    · exact .inl ⟨by decide, (Option.some.inj h).symm⟩
    · exact .inr ⟨by decide, (Option.some.inj h).symm⟩
    · exact .inr ⟨by decide, (Option.some.inj h).symm⟩
  · have hhex : ∀ c ∈ ['x', 'X'], markedRadix? c = some 16 :=
   List.all_iff_forall_prop.1 (by decide)
    have hbinary : ∀ c ∈ ['b', 'B'], markedRadix? c = some 2 :=
      List.all_iff_forall_prop.1 (by decide)
    rintro (⟨hc, rfl⟩ | ⟨hc, rfl⟩)
    · exact hhex c hc
    · exact hbinary c hc

/-- Digits first, or a fraction. -/
def IsPlain (kind : Kind) (t : List Char) : Prop :=
  ∃ run more, t = run ++ more ∧ (run = [] ∨ IsRun 10 run) ∧ Fractions run kind more [] ∧
    (run = [] → more.head? = some '.')

theorem isPlain_of_isFloating {t : List Char} (h : IsFloating t) : IsPlain .floating t := by
  cases h with
  | fraction hrun hfraction hscale =>
    refine ⟨_, _, rfl, hrun, .inl ⟨rfl, _, _, rfl, hfraction, hscale⟩, fun _ => ?_⟩
    obtain ⟨-⟩ := hfraction
    rfl
  | whole hrun hscale hne =>
    refine ⟨_, _, rfl, .inr hrun, .inr ⟨.inl ⟨rfl, hscale, .inr hne⟩, fun hnil => absurd hnil hne⟩, ?_⟩
    rintro rfl
    obtain ⟨_, _, hnil, -⟩ := hrun.exists_cons
    cases hnil

theorem isNumber_of_isPlain {kind : Kind} {t : List Char} (h : IsPlain kind t) : IsNumber kind t := by
  obtain ⟨run, more, rfl, hrun, hs, hpoint⟩ := h
  rcases hs with ⟨rfl, fraction, scale, rfl, hfraction, hscale⟩ | ⟨hs, -⟩
  · exact .floating (.fraction hrun hfraction hscale)
  · have hrun : IsRun 10 run := by
      refine hrun.resolve_left fun hnil => ?_
      exact absurd (scales_head false run hs '.' (hpoint hnil)) (by decide)
    rcases hs with ⟨rfl, hscale, hne⟩ | ⟨rfl, -, hoctal, hsuffix⟩
    · exact .floating (.whole hrun hscale (hne.resolve_left Bool.false_ne_true))
    · exact .integer (.decimal hrun hoctal hsuffix)

/-- Number literals have a mark, or else start with digits or a fraction. -/
theorem isNumber_iff {kind : Kind} {t : List Char} :
    IsNumber kind t ↔
      (∃ x radix more, t = '0' :: x :: more ∧ markedRadix? x = some radix ∧ kind = .integer ∧
        IsMarked radix more) ∨ IsPlain kind t := by
  constructor
  · rintro (hinteger | hfloating)
    · cases hinteger with
      | hexadecimal hx hrun hsuffix =>
        exact .inl ⟨_, _, _, rfl, markedRadix?_iff.2 (.inl ⟨hx, rfl⟩), rfl, _, _, rfl, hrun, hsuffix⟩
      | binary hb hrun hsuffix =>
        exact .inl ⟨_, _, _, rfl, markedRadix?_iff.2 (.inr ⟨hb, rfl⟩), rfl, _, _, rfl, hrun, hsuffix⟩
      | decimal hrun hoctal hsuffix =>
        refine .inr ⟨_, _, rfl, .inr hrun, .inr ⟨.inr ⟨rfl, rfl, hoctal, hsuffix⟩, ?_⟩, ?_⟩
        · rintro - ⟨_, _, _, h, -⟩
          cases h
        · rintro rfl
          obtain ⟨_, _, hnil, -⟩ := hrun.exists_cons
          cases hnil
    · exact .inr (isPlain_of_isFloating hfloating)
  · rintro (⟨x, radix, more, rfl, hradix, rfl, run, suffix, rfl, hrun, hsuffix⟩ | hplain)
    · rcases markedRadix?_iff.1 hradix with ⟨hx, rfl⟩ | ⟨hb, rfl⟩
      · exact .integer (.hexadecimal hx hrun hsuffix)
      · exact .integer (.binary hb hrun hsuffix)
    · exact isNumber_of_isPlain hplain

/-- A literal with a mark. -/
def Marked (radix : Nat) (cs : List SourceChar) : Prop :=
  ∃ c d more, cs = c :: d :: more ∧ c.char = '0' ∧ markedRadix? d.char = some radix

theorem number_of_marked {p : Position} {radix : Nat} {c d : SourceChar} (hc : c.char = '0')
    (hd : markedRadix? d.char = some radix) (more : List SourceChar) :
    number p (c :: d :: more) = markedNumber p radix ['0', d.char] more := by
  simp [number, hc, hd]

theorem number_of_not_marked {p : Position} {cs : List SourceChar} (h : ∀ radix, ¬ Marked radix cs) :
    number p cs = plainNumber p cs := by
  match cs with
  | [] => rfl
  | [c] => rfl
  | c :: d :: more =>
    cases hradix : markedRadix? d.char with
    | none => simp [number, hradix]
    | some radix =>
      have hzero : c.char ≠ '0' := fun hc => h radix ⟨c, d, more, rfl, hc, hradix⟩
      simp [number, hradix, hzero]

theorem of_markedRadix? {d : Char} {radix : Nat} (h : markedRadix? d = some radix) :
    (∀ c ∈ ['l', 'L'], ¬ runChar radix c = true) ∧ ¬ runChar 10 d = true ∧ d ∉ joints ∧
      Text.isWordPart d = true := by
  have hletters : ∀ d ∈ ['x', 'X', 'b', 'B'],
      ¬ runChar 10 d = true ∧ d ∉ joints ∧ Text.isWordPart d = true :=
    List.all_iff_forall_prop.1 (by decide)
  rcases markedRadix?_iff.1 h with ⟨hd, rfl⟩ | ⟨hd, rfl⟩
  · exact ⟨List.all_iff_forall_prop.1 (by decide), hletters d (List.mem_append_left ['b', 'B'] hd)⟩
  · exact ⟨List.all_iff_forall_prop.1 (by decide), hletters d (List.mem_append_right ['x', 'X'] hd)⟩

/-- A literal without a mark has none behind its first digit. -/
theorem IsPlain.second {kind : Kind} {c d : Char} {more : List Char}
    (h : IsPlain kind (c :: d :: more)) (hc : c.isDigit = true) : runChar 10 d = true ∨ d ∈ joints := by
  obtain ⟨run, tail, heq, hrun, hs, hpoint⟩ := h
  match run with
  | [] =>
    have hhead := hpoint rfl
    rw [List.nil_append] at heq
    rw [← heq] at hhead
    cases hhead
    exact absurd hc (by decide)
  | [_] =>
    cases heq
    exact .inr (fractions_head _ hs _ rfl)
  | _ :: _ :: _ =>
    cases heq
    rcases hrun with hnil | hrun
    · cases hnil
    · exact .inl ((isRun_iff.1 hrun).1 _ (by simp))

/-- A number starts with a digit, or with a point and a digit. -/
theorem IsNumber.front {kind : Kind} {t : List Char} (h : IsNumber kind t) :
    (∃ c more, t = c :: more ∧ c.isDigit = true) ∨
      ∃ d more, t = '.' :: d :: more ∧ d.isDigit = true := by
  have hrun : ∀ {run more}, IsRun 10 run → ∃ c tail, run ++ more = c :: tail ∧ c.isDigit = true := by
    intro run more hrun
    obtain ⟨d, ds, rfl, hd⟩ := hrun.exists_cons
    exact ⟨d, ds ++ more, rfl, isDigit_of_isDigitOf hd⟩
  rcases isNumber_iff.1 h with ⟨x, radix, more, rfl, -⟩ | ⟨run, more, rfl, rfl | h, hs, hpoint⟩
  · exact .inl ⟨'0', _, rfl, by decide⟩
  · rcases hs with ⟨-, _, scale, rfl, ⟨hdigits⟩, -⟩ | ⟨hs, -⟩
    · obtain ⟨d, ds, rfl, hd⟩ := hdigits.exists_cons
      exact .inr ⟨d, _, rfl, isDigit_of_isDigitOf hd⟩
    · exact absurd (scales_head false [] hs '.' (hpoint rfl)) (by decide)
  · exact .inl (hrun h)

theorem IsNumber.startsNumber {kind : Kind} {used : List SourceChar}
    (h : IsNumber kind (textOf used)) (rest : List SourceChar) :
    Lexeme.startsNumber (used ++ rest) = true := by
  rcases h.front with ⟨c, more, htext, hc⟩ | ⟨d, more, htext, hd⟩
  · obtain ⟨c, tail, rfl, rfl, -⟩ := exists_cons_of_textOf htext
    simp [Lexeme.startsNumber, hc]
  · obtain ⟨c, tail, rfl, hc, htail⟩ := exists_cons_of_textOf htext
    obtain ⟨d, tail, rfl, rfl, -⟩ := exists_cons_of_textOf htail
    simp [Lexeme.startsNumber, hc, hd]

theorem fractions_nil {whole : List Char} {kind : Kind} {t : List Char} {rest : List SourceChar}
    (h : Fractions whole kind t rest) : Fractions whole kind t [] := by
  rcases h with h | ⟨hs, -⟩
  · exact .inl h
  · refine .inr ⟨hs, ?_⟩
    rintro - ⟨_, _, _, h, -⟩
    cases h

/-- A literal of digits only is read to a point with a digit behind it. -/
def Closed (t : List Char) (rest : List SourceChar) : Prop :=
  (∀ c ∈ t, runChar 10 c = true) → ¬ PointFollows rest

/-- What is found without digits in front is a fraction. -/
theorem head_of_fractions {used rest : List SourceChar} {kind : Kind}
    (hstarts : startsNumber (used ++ rest) = true) (hends : Ends rest)
    (hs : Fractions [] kind (textOf used) rest) : (textOf used).head? = some '.' := by
  rcases startsNumber_cases hstarts with ⟨c, more, hcs, hc⟩ | ⟨c, d, more, hcs, hc, hd⟩
  · -- a digit is neither a joint nor apart from words
    have hrun : runChar 10 c.char = true := inRun_ten_of_isDigit hc
    have hout := head_apart (fun c => isWordPart_of_runChar)
      (fun c hc => not_runChar_of_mem_joints c (fractions_head [] hs c hc)) hends
    rw [hcs] at hout
    exact absurd hrun (hout c rfl)
  · cases used with
    | nil =>
      rcases hs with ⟨-, _, scale, hnil, ⟨-⟩, -⟩ | ⟨-, hnot⟩
      · cases hnil
      · exact absurd ⟨c, d, more, hcs, hc, hd⟩ (hnot rfl)
    | cons u used =>
      obtain ⟨rfl, -⟩ := List.cons.inj hcs
      exact congrArg some hc

theorem eq_nil_of_fractions {run more : List Char} {kind : Kind} {rest : List SourceChar}
    (hs : Fractions run kind more rest) (hall : ∀ c ∈ more, runChar 10 c = true) : more = [] := by
  cases more with
  | nil => rfl
  | cons c more =>
    exact absurd (hall c (List.mem_cons_self ..))
      (not_runChar_of_mem_joints c (fractions_head run hs c rfl))

theorem closed_of_fractions {run more : List Char} {kind : Kind} {rest : List SourceChar}
    (hs : Fractions run kind more rest) : Closed (run ++ more) rest := by
  intro hall
  obtain rfl := eq_nil_of_fractions hs fun c hc => hall c (List.mem_append_right run hc)
  rcases hs with ⟨-, _, scale, hnil, ⟨-⟩, -⟩ | ⟨-, hnot⟩
  · cases hnil
  · exact hnot rfl

/-- Number literals that no word runs into, and no fraction if there are only digits. -/
def Literals (kind : Kind) (t : List Char) (rest : List SourceChar) : Prop :=
  IsNumber kind t ∧ Closed t rest

theorem finds_marked {p : Position} {radix : Nat} {cs : List SourceChar} (h : Marked radix cs)
    (kind : Kind) (t : List Char) (rest : List SourceChar) :
    number p cs = .token kind t p rest ↔
      ∃ used, cs = used ++ rest ∧ t = textOf used ∧ Ends rest ∧ Literals kind t rest := by
  obtain ⟨c, d, more, rfl, hc, hd⟩ := h
  obtain ⟨hlong, hrun, hjoint, hpart⟩ := of_markedRadix? hd
  rw [number_of_marked hc hd, finds_markedNumber p ['0', d.char] hlong]
  constructor
  · rintro ⟨used, rfl, rfl, hends, rfl, hs⟩
    refine ⟨c :: d :: used, rfl, by simp [hc], hends, ?_, fun hall => ?_⟩
    · exact isNumber_iff.2 (.inl ⟨d.char, radix, _, rfl, hd, rfl, hs⟩)
    · exact absurd (hall d.char (by simp)) hrun
  · rintro ⟨used, hcs, rfl, hends, hnumber, -⟩
    match used with
    | [] =>
      rcases hnumber.front with ⟨_, _, hnil, -⟩ | ⟨_, _, hnil, -⟩
      · cases hnil
      · cases hnil
    | [_] =>
      cases hcs
      rw [hends d rfl] at hpart
      cases hpart
    | _ :: _ :: used =>
      cases hcs
      rcases isNumber_iff.1 hnumber with ⟨x, radix', more, htext, hx, rfl, hs⟩ | hplain
      · simp only [textOf_cons, List.cons.injEq] at htext
        obtain ⟨-, rfl, rfl⟩ := htext
        obtain rfl := Option.some.inj (hd.symm.trans hx)
        exact ⟨used, rfl, by simp [hc], hends, rfl, hs⟩
      · have hzero : c.char.isDigit = true := by rw [hc]; decide
        exact absurd (hplain.second hzero) (not_or.2 ⟨hrun, hjoint⟩)

theorem finds_not_marked {p : Position} {cs : List SourceChar} (h : startsNumber cs = true)
    (hmarked : ∀ radix, ¬ Marked radix cs) (kind : Kind) (t : List Char)
    (rest : List SourceChar) :
    number p cs = .token kind t p rest ↔
      ∃ used, cs = used ++ rest ∧ t = textOf used ∧ Ends rest ∧ Literals kind t rest := by
  rw [number_of_not_marked hmarked, finds_plainNumber p]
  constructor
  · rintro ⟨used, rfl, rfl, hends, run, more, htext, hrun, hs⟩
    rw [List.nil_append]
    refine ⟨used, rfl, rfl, hends, isNumber_iff.2 (.inr ?_), ?_⟩
    · refine ⟨run, more, htext, hrun, fractions_nil hs, ?_⟩
      rintro rfl
      rw [List.nil_append] at htext
      rw [← htext] at hs ⊢
      exact head_of_fractions h hends hs
    · rw [htext]
      exact closed_of_fractions hs
  · rintro ⟨used, rfl, rfl, hends, hnumber, hclosed⟩
    rcases isNumber_iff.1 hnumber with ⟨x, radix, more, htext, hx, -⟩ | hplain
    · obtain ⟨c, tail, rfl, hc, htail⟩ := exists_cons_of_textOf htext
      obtain ⟨d, tail, rfl, rfl, -⟩ := exists_cons_of_textOf htail
      exact absurd ⟨c, d, _, rfl, hc, hx⟩ (hmarked radix)
    · obtain ⟨run, more, htext, hrun, hs | ⟨hs, -⟩, -⟩ := hplain
      · exact ⟨used, rfl, rfl, hends, run, more, htext, hrun, .inl hs⟩
      · refine ⟨used, rfl, rfl, hends, run, more, htext, hrun, .inr ⟨hs, ?_⟩⟩
        rintro rfl
        refine hclosed fun c hc => ?_
        rw [htext, List.append_nil] at hc
        rcases hrun with rfl | hrun
        · cases hc
        · exact (isRun_iff.1 hrun).1 c hc

/-- The scanner finds exactly the literals. -/
theorem finds_number (p : Position) {cs : List SourceChar} (h : startsNumber cs = true)
    (kind : Kind) (t : List Char) (rest : List SourceChar) :
    number p cs = .token kind t p rest ↔
      ∃ used, cs = used ++ rest ∧ t = textOf used ∧ Ends rest ∧ Literals kind t rest := by
  by_cases hmarked : ∃ radix, Marked radix cs
  · obtain ⟨radix, hmarked⟩ := hmarked
    exact finds_marked hmarked kind t rest
  · exact finds_not_marked h (not_exists.1 hmarked) kind t rest

end Javelet.Lexeme
