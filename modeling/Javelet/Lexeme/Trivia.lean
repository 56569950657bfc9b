import Javelet.Source

/-!
# Blanks and comments

Between two lexemes there may be blanks, line comments and block comments. The skipper
is a machine of three states that reads one or two characters at a time.
-/
namespace Javelet.Lexeme

/-- Where the skipper stands. -/
inductive Trivia where
  /-- Between lexemes. -/
  | between
  /-- Inside a line comment. -/
  | line
  /-- Inside the block comment that was opened at the given position. -/
  | block (opened : Position)

/-- Characters that only separate. -/
def isBlank (c : Char) : Bool :=
  c == ' ' || c == '\t' || c == '\n' || c == '\r' || c == '\x0c'

/-- What is left behind blanks and comments. A block comment that is never closed is a
fault that uses up the whole text. -/
def skipTrivia : Trivia → List SourceChar → Except (Located Fault) (List SourceChar)
  | .between, [] => .ok []
  | .between, [c] => if isBlank c.char then .ok [] else .ok [c]
  | .between, c :: d :: rest =>
    if isBlank c.char then skipTrivia .between (d :: rest)
    else if c.char = '/' ∧ d.char = '/' then skipTrivia .line rest
    else if c.char = '/' ∧ d.char = '*' then skipTrivia (.block c.position) rest
    else .ok (c :: d :: rest)
  | .line, [] => .ok []
  | .line, c :: rest => if c.char = '\n' then skipTrivia .between rest else skipTrivia .line rest
  | .block opened, [] => .error ⟨.openComment, opened⟩
  | .block opened, [_] => .error ⟨.openComment, opened⟩
  | .block opened, c :: d :: rest =>
    if c.char = '*' ∧ d.char = '/' then skipTrivia .between rest
    else skipTrivia (.block opened) (d :: rest)

/-- Skipping only removes characters. -/
theorem skipTrivia_suffix {state : Trivia} {cs rest : List SourceChar}
    (h : skipTrivia state cs = .ok rest) : rest <:+ cs := by
  have two : ∀ (c d : SourceChar) (cs : List SourceChar), cs <:+ c :: d :: cs :=
    fun c d cs => (List.suffix_cons d cs).trans (List.suffix_cons c _)
  fun_induction skipTrivia state cs with
  | case1 => cases h; exact List.suffix_rfl
  | case2 => cases h; exact List.nil_suffix
  | case3 => cases h; exact List.suffix_rfl
  | case4 c d cs _ ih => exact (ih h).trans (List.suffix_cons ..)
  | case5 c d cs _ _ ih => exact (ih h).trans (two ..)
  | case6 c d cs _ _ _ ih => exact (ih h).trans (two ..)
  | case7 => cases h; exact List.suffix_rfl
  | case8 => cases h; exact List.suffix_rfl
  | case9 c cs _ ih => exact (ih h).trans (List.suffix_cons ..)
  | case10 c cs _ ih => exact (ih h).trans (List.suffix_cons ..)
  | case11 => cases h
  | case12 => cases h
  | case13 opened c d cs _ ih => exact (ih h).trans (two ..)
  | case14 opened c d cs _ ih => exact (ih h).trans (List.suffix_cons ..)

end Javelet.Lexeme
