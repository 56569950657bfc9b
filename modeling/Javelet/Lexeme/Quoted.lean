import Javelet.Lexeme.Scan

/-!
# String and character literals

Between quotes a backslash starts an escape: a letter for a control character, a quote
or a backslash for itself, or an octal number of at most three digits.
-/
namespace Javelet.Lexeme

/-- The character that a single letter or sign stands for behind a backslash. -/
def namedEscape? (c : Char) : Option Char :=
  match c with
  | 'b' => some '\x08'
  | 't' => some '\t'
  | 'n' => some '\n'
  | 'f' => some '\x0c'
  | 'r' => some '\r'
  | '"' => some '"'
  | '\'' => some '\''
  | '\\' => some '\\'
  | _ => none

/-- The digits of an octal escape: at most three, two if the first one is above 3, so
that the value stays below 256. -/
def octalDigits (first : Char) (cs : List SourceChar) : List Char :=
  textOf ((cs.take (if first ≤ '3' then 3 else 2)).takeWhile fun c => Text.isDigitOf 8 c.char)

/-- Read the escape behind a backslash: the character it stands for, or the character
that cannot be escaped, and what is left. -/
def escape (cs : List SourceChar) : Except (Option Char) Char × List SourceChar :=
  match cs with
  | [] => (.error none, [])
  | c :: rest =>
    match namedEscape? c.char with
    | some decoded => (.ok decoded, rest)
    | none =>
      if Text.isDigitOf 8 c.char then
        let digits := octalDigits c.char cs
        (.ok (Char.ofNat (Text.digitsValue 8 digits)), cs.drop digits.length)
      else (.error (some c.char), cs)

theorem escape_suffix (cs : List SourceChar) : (escape cs).2 <:+ cs := by
  unfold escape
  split
  · exact List.suffix_rfl
  · split
    · exact List.suffix_cons ..
    · split
      · exact List.drop_suffix ..
      · exact List.suffix_rfl

/-- The rest of a string literal whose opening quote stands at `opened`; `done` holds
its characters so far, latest first. -/
def stringFrom (opened : Position) (done : List Char) (cs : List SourceChar) : Scan :=
  match cs with
  | [] => .fault .openString opened []
  | c :: rest =>
    if c.char = '\n' then .fault .openString opened (c :: rest)
    else if c.char = '"' then .token .string done.reverse opened rest
    else if c.char = '\\' then
      match _ : escape rest with
      | (.ok decoded, more) => stringFrom opened (decoded :: done) more
      | (.error escaped, more) => .fault (.badEscape escaped) c.position more
    else stringFrom opened (c.char :: done) rest
termination_by cs.length
decreasing_by
  · have suffix := escape_suffix rest
    rw [‹escape rest = _›] at suffix
    exact Nat.lt_succ_of_le suffix.length_le
  · simp

/-- The closing quote of a character literal. -/
def closeCharacter (opened : Position) (value : Char) (cs : List SourceChar) : Scan :=
  match cs with
  | c :: rest =>
    if c.char = '\'' then .token .character [value] opened rest
    else .fault (.openCharacter true) opened cs
  | [] => .fault (.openCharacter true) opened []

/-- The rest of a character literal whose opening quote stands at `opened`. -/
def characterFrom (opened : Position) (cs : List SourceChar) : Scan :=
  match cs with
  | [] => .fault (.openCharacter false) opened []
  | c :: rest =>
    if c.char = '\n' then .fault (.openCharacter false) opened cs
    else if c.char = '\'' then .fault .emptyCharacter opened cs
    else if c.char = '\\' then
      match escape rest with
      | (.ok decoded, more) => closeCharacter opened decoded more
      | (.error escaped, more) => .fault (.badEscape escaped) c.position more
    else closeCharacter opened c.char rest

/-! ## Progress -/

theorem stringFrom_suffix (opened : Position) (done : List Char) (cs : List SourceChar) :
    (stringFrom opened done cs).rest <:+ cs := by
  fun_induction stringFrom opened done cs with
  | case1 => exact List.suffix_rfl
  | case2 => exact List.suffix_rfl
  | case3 => exact List.suffix_cons ..
  | case4 done c rest _ _ _ decoded more found ih =>
    have suffix := escape_suffix rest
    rw [found] at suffix
    exact (ih.trans suffix).trans (List.suffix_cons ..)
  | case5 done c rest _ _ _ escaped more found =>
    have suffix := escape_suffix rest
    rw [found] at suffix
    exact suffix.trans (List.suffix_cons ..)
  | case6 done c rest _ _ _ ih => exact ih.trans (List.suffix_cons ..)

theorem closeCharacter_suffix (opened : Position) (value : Char) (cs : List SourceChar) :
    (closeCharacter opened value cs).rest <:+ cs := by
  unfold closeCharacter
  split
  · split
    · exact List.suffix_cons ..
    · exact List.suffix_rfl
  · exact List.suffix_rfl

theorem characterFrom_suffix (opened : Position) (cs : List SourceChar) :
    (characterFrom opened cs).rest <:+ cs := by
  unfold characterFrom
  split
  · exact List.suffix_rfl
  · rename_i c rest
    have suffix := escape_suffix rest
    split
    · exact List.suffix_rfl
    · split
      · exact List.suffix_rfl
      · split
        · split
          · rename_i found
            rw [found] at suffix
            exact ((closeCharacter_suffix ..).trans suffix).trans (List.suffix_cons ..)
          · rename_i found
            rw [found] at suffix
            exact suffix.trans (List.suffix_cons ..)
        · exact (closeCharacter_suffix ..).trans (List.suffix_cons ..)

end Javelet.Lexeme
