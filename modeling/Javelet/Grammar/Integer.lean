import Javelet.Grammar.Fault
import Javelet.Text.Digit

/-!
# The value of an integer literal

A literal is decimal, or hexadecimal, binary or octal by its first characters; `_` only
separates. A decimal literal must fit into a signed 32-bit integer, 2147483648 only when
it is negated. The other radices may use all 32 bits.
-/
namespace Javelet.Grammar

/-- Radix and digits of a literal without separators. -/
def radixAndDigits (cs : List Char) : Nat × List Char :=
  match cs with
  | '0' :: second :: rest =>
    if second = 'x' ∨ second = 'X' then (16, rest)
    else if second = 'b' ∨ second = 'B' then (2, rest)
    else (8, second :: rest)
  | _ => (10, cs)

/-- The value of digits that may follow one plus sign. -/
def signedDigits? (radix : Nat) (cs : List Char) : Option Nat :=
  match cs with
  | '+' :: rest => Text.readDigits? radix rest
  | _ => Text.readDigits? radix cs

/-- The greatest magnitude a literal may have: 2^31 - 1, or 2^31 behind a minus sign, in
decimal digits, and 2^32 - 1 in the other radices. -/
def literalLimit (radix : Nat) (negative : Bool) : Nat :=
  if radix = 10 then (if negative then 2147483648 else 2147483647) else 4294967295

/-- The value of a literal, negated if `negative` is set, modulo 2^32. -/
def integerValue (text : String) (negative : Bool) : Except Fault Int32 :=
  let cs := text.toList
  if cs.getLast? = some 'l' ∨ cs.getLast? = some 'L' then .error (.longLiteral text)
  else
    let (radix, digits) := radixAndDigits (cs.filter (· != '_'))
    match signedDigits? radix digits with
    | some value =>
      if value ≤ literalLimit radix negative then
        .ok (Int32.ofInt (if negative then -value else value))
      else .error (.integerRange text)
    | none => .error (.integerRange text)

end Javelet.Grammar
