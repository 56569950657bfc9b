import Javelet.Text.Digit

/-!
# Visible characters

How a message shows a character that may have no picture of its own: printable
ASCII stands for itself, quotes and the backslash get a backslash in front, and
every other character is written by its code point.
-/
namespace Javelet.Text

/-- The visible form of a character. -/
def visible (c : Char) : List Char :=
  if c = '\t' then ['\\', 't']
  else if c = '\r' then ['\\', 'r']
  else if c = '\n' then ['\\', 'n']
  else if c = '\'' ∨ c = '"' ∨ c = '\\' then ['\\', c]
  else if ' ' ≤ c ∧ c ≤ '~' then [c]
  else ['\\', 'u', '\x7b'] ++ hexDigits c.toNat ++ ['\x7d']

/-- The visible form of a text, character by character. -/
def visibleText (s : String) : String := String.ofList (s.toList.flatMap visible)

end Javelet.Text
