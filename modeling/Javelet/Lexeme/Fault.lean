import Javelet.Diagnostic
import Javelet.Text.Visible

/-!
# Lexical faults

Everything that can be wrong with the characters of a source text.
-/
namespace Javelet.Lexeme

/-- Why a number literal is refused. -/
inductive NumberFault where
  /-- Digits are missing, or a separator stands at the edge of a digit run. -/
  | shape
  /-- The exponent has no proper digits. -/
  | exponent
  /-- An octal literal holds an 8 or a 9. -/
  | octalDigit
  /-- A word follows without a gap. -/
  | glued
  deriving DecidableEq, Repr

/-- A lexical fault. -/
inductive Fault where
  | strayCharacter (c : Char)
  | badUnicodeEscape
  | loneCarriageReturn
  | openComment
  | openString
  /-- A character literal without its closing quote; `overlong` when it already holds
  a character. -/
  | openCharacter (overlong : Bool)
  | emptyCharacter
  /-- A backslash before something that it does not escape. -/
  | badEscape (escaped : Option Char)
  | badNumber (text : String) (reason : NumberFault)
  deriving DecidableEq, Repr

namespace Fault

def code : Fault → Code
  | strayCharacter _ => .strayCharacter
  | badUnicodeEscape => .badUnicodeEscape
  | loneCarriageReturn => .badLineEnd
  | openComment => .openComment
  | openString => .openString
  | openCharacter _ => .openCharacter
  | emptyCharacter => .emptyCharacter
  | badEscape _ => .badEscape
  | badNumber _ _ => .badNumber

def message : Fault → String
  | strayCharacter c => "Unexpected character '" ++ String.ofList (Text.visible c) ++ "'"
  | badUnicodeEscape => "Invalid unicode escape"
  | loneCarriageReturn => "Carriage return must be followed by a line feed"
  | openComment => "Unterminated block comment"
  | openString => "Unterminated string literal"
  | openCharacter _ => "Unterminated character literal"
  | emptyCharacter => "Empty character literal"
  | badEscape escaped => "Invalid escape sequence '\\" ++ String.ofList escaped.toList ++ "'"
  | badNumber text _ => "Invalid number literal '" ++ text ++ "'"

def hint : Fault → Option String
  | badUnicodeEscape => some "A unicode escape needs exactly 4 hexadecimal digits, e.g. \\u0041"
  | loneCarriageReturn => some "Use LF or CRLF line endings"
  | openComment => some "Close the comment with '*/'"
  | openString => some "Close the string with '\"' on the same line"
  | openCharacter true => some "A character literal holds exactly one character"
  | badEscape _ =>
    some "Valid escapes are \\b \\t \\n \\f \\r \\\" \\' \\\\ and octal escapes"
  | badNumber _ .exponent => some "An exponent needs at least one digit"
  | badNumber _ .octalDigit => some "Octal literals may only contain the digits 0 to 7"
  | badNumber _ .glued => some "Separate the number from the following name"
  | _ => none

instance : Explained Fault := ⟨code, message, hint⟩

end Fault

end Javelet.Lexeme
