import Javelet.Lexeme.Scan

/-!
# Number literals

Integers are decimal, octal (a leading `0`), hexadecimal (`0x`) or binary (`0b`) and
may end in `L`; floating-point numbers have a fraction, an exponent or a suffix. The
digits of a run may be separated by `_`. The token keeps the literal as it is written.
-/
namespace Javelet.Lexeme

/-- Whether a character belongs to a digit run of the radix. -/
def inRun (radix : Nat) (c : SourceChar) : Bool := Text.isDigitOf radix c.char || c.char == '_'

/-- Whether no separator stands at the edge of a run. -/
def wellSeparated (run : List Char) : Bool := run.head? != some '_' && run.getLast? != some '_'

/-- A number that has been read up to `rest` must not run into a word. -/
def closeNumber (p : Position) (kind : Kind) (text : List Char) (rest : List SourceChar) : Scan :=
  match rest with
  | [] => .token kind text p rest
  | c :: _ =>
    if Text.isWordPart c.char then
      .fault (.badNumber (String.ofList (text ++ [c.char])) .glued) p rest
    else .token kind text p rest

/-- An integer may have a suffix before it is closed. -/
def closeInteger (p : Position) (text : List Char) (rest : List SourceChar) : Scan :=
  match rest with
  | c :: more =>
    if c.char = 'l' ∨ c.char = 'L' then closeNumber p .integer (text ++ [c.char]) more
    else closeNumber p .integer text rest
  | [] => closeNumber p .integer text rest

/-- The digits behind `0x` or `0b`; `text` is that mark. -/
def markedNumber (p : Position) (radix : Nat) (text : List Char) (cs : List SourceChar) : Scan :=
  let run := textOf (cs.takeWhile (inRun radix))
  let rest := cs.dropWhile (inRun radix)
  if run = [] ∨ wellSeparated run = false then
    .fault (.badNumber (String.ofList (text ++ run)) .shape) p rest
  else closeInteger p (text ++ run) rest

/-- Close a number without a floating-point suffix. It has a fraction or an exponent if
`floating` is set; `whole` is its integer part. -/
def closeUnmarked (p : Position) (floating : Bool) (whole text : List Char)
    (rest : List SourceChar) : Scan :=
  if floating then closeNumber p .floating text rest
  else if 1 < whole.length ∧ whole.head? = some '0' ∧ ('8' ∈ whole ∨ '9' ∈ whole) then
    .fault (.badNumber (String.ofList text) .octalDigit) p rest
  else closeInteger p text rest

/-- The optional suffix of a floating-point number, then the end. -/
def numberSuffix (p : Position) (floating : Bool) (whole text : List Char)
    (rest : List SourceChar) : Scan :=
  match rest with
  | c :: more =>
    if c.char ∈ ['f', 'F', 'd', 'D'] then closeNumber p .floating (text ++ [c.char]) more
    else closeUnmarked p floating whole text rest
  | [] => closeUnmarked p floating whole text rest

/-- The optional sign of an exponent and what follows. -/
def exponentSign (cs : List SourceChar) : List Char × List SourceChar :=
  match cs with
  | c :: more => if c.char = '+' ∨ c.char = '-' then ([c.char], more) else ([], cs)
  | [] => ([], [])

/-- The optional exponent, then the suffix. -/
def numberExponent (p : Position) (floating : Bool) (whole text : List Char)
    (rest : List SourceChar) : Scan :=
  match rest with
  | c :: more =>
    if c.char = 'e' ∨ c.char = 'E' then
      let (sign, digits) := exponentSign more
      let run := textOf (digits.takeWhile (inRun 10))
      let after := digits.dropWhile (inRun 10)
      let text := text ++ [c.char] ++ sign ++ run
      if run = [] ∨ wellSeparated run = false then
        .fault (.badNumber (String.ofList text) .exponent) p after
      else numberSuffix p true whole text after
    else numberSuffix p floating whole text rest
  | [] => numberSuffix p floating whole text rest

/-- The optional fraction, then the exponent. A point belongs to the number only if a
digit follows it. -/
def numberFraction (p : Position) (whole : List Char) (rest : List SourceChar) : Scan :=
  match rest with
  | c :: d :: more =>
    if c.char = '.' ∧ d.char.isDigit = true then
      let run := textOf ((d :: more).takeWhile (inRun 10))
      let after := (d :: more).dropWhile (inRun 10)
      let text := whole ++ ['.'] ++ run
      if wellSeparated run = false then
        .fault (.badNumber (String.ofList text) .shape) p after
      else numberExponent p true whole text after
    else numberExponent p false whole whole rest
  | _ => numberExponent p false whole whole rest

/-- A number that starts with its integer part, which is empty before a point. -/
def plainNumber (p : Position) (cs : List SourceChar) : Scan :=
  let run := textOf (cs.takeWhile (inRun 10))
  let rest := cs.dropWhile (inRun 10)
  if run ≠ [] ∧ wellSeparated run = false then
    .fault (.badNumber (String.ofList run) .shape) p rest
  else numberFraction p run rest

/-- The radix that is marked by the second character of a literal. -/
def markedRadix? (c : Char) : Option Nat :=
  if c = 'x' ∨ c = 'X' then some 16
  else if c = 'b' ∨ c = 'B' then some 2
  else none

/-- Scan a number literal at position `p`. -/
def number (p : Position) (cs : List SourceChar) : Scan :=
  match cs with
  | c :: d :: more =>
    match markedRadix? d.char with
    | some radix =>
      if c.char = '0' then markedNumber p radix [c.char, d.char] more else plainNumber p cs
    | none => plainNumber p cs
  | _ => plainNumber p cs

/-- Whether a number starts here. -/
def startsNumber (cs : List SourceChar) : Bool :=
  match cs with
  | [] => false
  | c :: rest =>
    c.char.isDigit || (c.char == '.' && (rest.head?.map fun d => d.char.isDigit).getD false)

/-! ## Progress -/

theorem closeNumber_rest (p : Position) (kind : Kind) (text : List Char)
    (rest : List SourceChar) : (closeNumber p kind text rest).rest = rest := by
  unfold closeNumber
  split
  · rfl
  · split <;> rfl

theorem closeInteger_suffix (p : Position) (text : List Char) (rest : List SourceChar) :
    (closeInteger p text rest).rest <:+ rest := by
  unfold closeInteger
  split
  · split <;> simp [closeNumber_rest]
  · simp [closeNumber_rest]

theorem markedNumber_suffix (p : Position) (radix : Nat) (text : List Char)
    (cs : List SourceChar) : (markedNumber p radix text cs).rest <:+ cs := by
  have drop : cs.dropWhile (inRun radix) <:+ cs := List.dropWhile_suffix _
  simp only [markedNumber]
  split
  · exact drop
  · exact (closeInteger_suffix ..).trans drop

theorem closeUnmarked_suffix (p : Position) (floating : Bool) (whole text : List Char)
    (rest : List SourceChar) : (closeUnmarked p floating whole text rest).rest <:+ rest := by
  unfold closeUnmarked
  split
  · simp [closeNumber_rest]
  · split
    · exact List.suffix_rfl
    · exact closeInteger_suffix ..

theorem numberSuffix_suffix (p : Position) (floating : Bool) (whole text : List Char)
    (rest : List SourceChar) : (numberSuffix p floating whole text rest).rest <:+ rest := by
  unfold numberSuffix
  split
  · split
    · simp [closeNumber_rest]
    · exact closeUnmarked_suffix ..
  · exact closeUnmarked_suffix ..

theorem exponentSign_suffix (cs : List SourceChar) : (exponentSign cs).2 <:+ cs := by
  unfold exponentSign
  split
  · split <;> simp
  · simp

theorem numberExponent_suffix (p : Position) (floating : Bool) (whole text : List Char)
    (rest : List SourceChar) : (numberExponent p floating whole text rest).rest <:+ rest := by
  unfold numberExponent
  split
  · rename_i c more
    have drop : (exponentSign more).2.dropWhile (inRun 10) <:+ c :: more :=
      ((List.dropWhile_suffix _).trans (exponentSign_suffix more)).trans (List.suffix_cons ..)
    split
    · simp only
      split
      · exact drop
      · exact (numberSuffix_suffix ..).trans drop
    · exact numberSuffix_suffix ..
  · exact numberSuffix_suffix ..

/-- The digits behind a point. -/
theorem fraction_suffix (p : Position) (whole : List Char) {c d : SourceChar}
    {more : List SourceChar} (h : c.char = '.' ∧ d.char.isDigit = true) :
    (numberFraction p whole (c :: d :: more)).rest <:+ d :: more := by
  have drop : (d :: more).dropWhile (inRun 10) <:+ d :: more := List.dropWhile_suffix _
  simp only [numberFraction, if_pos h]
  split
  · exact drop
  · exact (numberExponent_suffix ..).trans drop

theorem numberFraction_suffix (p : Position) (whole : List Char) (rest : List SourceChar) :
    (numberFraction p whole rest).rest <:+ rest := by
  match rest with
  | c :: d :: more =>
    by_cases h : c.char = '.' ∧ d.char.isDigit = true
    · exact (fraction_suffix p whole h).trans (List.suffix_cons ..)
    · simp only [numberFraction, if_neg h]
      exact numberExponent_suffix ..
  | [] => exact numberExponent_suffix ..
  | [c] => exact numberExponent_suffix ..

theorem plainNumber_suffix (p : Position) (cs : List SourceChar) :
    (plainNumber p cs).rest <:+ cs.dropWhile (inRun 10) := by
  simp only [plainNumber]
  split
  · exact List.suffix_rfl
  · exact numberFraction_suffix ..

theorem number_suffix (p : Position) (cs : List SourceChar) : (number p cs).rest <:+ cs := by
  have plain : (plainNumber p cs).rest <:+ cs :=
    (plainNumber_suffix p cs).trans (List.dropWhile_suffix _)
  unfold number
  split
  · split
    · split
      · exact (markedNumber_suffix ..).trans ((List.suffix_cons ..).trans (List.suffix_cons ..))
      · exact plain
    · exact plain
  · exact plain

theorem inRun_ten_of_isDigit {c : SourceChar} (h : c.char.isDigit = true) : inRun 10 c = true := by
  have range : '0' ≤ c.char ∧ c.char ≤ '9' := by
    simpa [Char.isDigit, Char.le_def] using h
  have low : 48 ≤ c.char.toNat := range.1
  have high : c.char.toNat ≤ 57 := range.2
  have value : Text.isDigitOf 10 c.char = true := by
    unfold Text.isDigitOf Text.digitValue?
    rw [if_pos range]
    simp only [decide_eq_true_eq]
    show c.char.toNat - 48 < 10
    omega
  simp [inRun, value]

theorem plainNumber_shorter (p : Position) {cs : List SourceChar} (h : startsNumber cs = true) :
    (plainNumber p cs).rest.length < cs.length := by
  match cs with
  | [] => simp [startsNumber] at h
  | c :: rest =>
    by_cases digit : c.char.isDigit = true
    · have plain := plainNumber_suffix p (c :: rest)
      rw [List.dropWhile_cons_of_pos (inRun_ten_of_isDigit digit)] at plain
      exact Nat.lt_succ_of_le (plain.trans (List.dropWhile_suffix _)).length_le
    · match rest with
      | [] => simp [startsNumber, digit] at h
      | d :: more =>
        simp only [startsNumber, digit, Bool.false_or, List.head?_cons, Option.map_some,
          Option.getD_some, Bool.and_eq_true, beq_iff_eq] at h
        have point : inRun 10 c = false := by
          simp only [inRun, h.1]
          decide
        have plain : plainNumber p (c :: d :: more) = numberFraction p [] (c :: d :: more) := by
          simp [plainNumber, point, textOf]
        rw [plain]
        exact Nat.lt_succ_of_le (fraction_suffix p [] h).length_le

/-- A number uses up at least one character. -/
theorem number_shorter (p : Position) {cs : List SourceChar} (h : startsNumber cs = true) :
    (number p cs).rest.length < cs.length := by
  unfold number
  split
  · split
    · split
      · exact Nat.lt_of_le_of_lt (markedNumber_suffix ..).length_le
          (Nat.lt_trans (Nat.lt_succ_self _) (Nat.lt_succ_self _))
      · exact plainNumber_shorter p h
    · exact plainNumber_shorter p h
  · exact plainNumber_shorter p h

end Javelet.Lexeme
