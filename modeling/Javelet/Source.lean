import Javelet.Lexeme.Fault
import Javelet.Text.Digit

/-!
# Decoded sources

Before tokens are cut, a raw text is decoded: a unicode escape becomes the character
it names, CRLF becomes a line feed, and every character keeps the position of the
first raw character it came from. A backslash starts an escape only if an even number
of raw backslashes stands right before it. Decoding stops at the first fault.
-/
namespace Javelet

/-- A decoded character and where its raw text starts. -/
structure SourceChar where
  char : Char
  position : Position
  deriving DecidableEq, Repr

namespace Source

/-- The character named by a unicode escape, given the text behind its backslash: one
or more `u`, then four hexadecimal digits of a scalar value. Also the width of the
whole escape, backslash included, and the text behind it. -/
def unicodeEscape? (cs : List Char) : Option (Char × Nat × List Char) :=
  match cs.dropWhile (· == 'u') with
  | a :: b :: c :: d :: rest =>
    match Text.readDigits? 16 [a, b, c, d] with
    | some value =>
      if value.isValidChar then
        some (Char.ofNat value, (cs.takeWhile (· == 'u')).length + 5, rest)
      else none
    | none => none
  | _ => none

/-- What stands at the front of a raw text. -/
inductive Front where
  /-- Nothing is left. -/
  | finish
  /-- A character, the position behind its raw text, whether an odd run of raw
  backslashes ends with it, and what follows. -/
  | char (c : Char) (after : Position) (odd : Bool) (rest : List Char)
  /-- The front cannot be decoded. -/
  | fault (f : Lexeme.Fault)

/-- Read the front of a raw text at position `p`. `odd` says that an odd number of raw
backslashes stands right before it. -/
def front (p : Position) (odd : Bool) : List Char → Front
  | [] => .finish
  | c :: rest =>
    if c = '\\' then
      if odd = false ∧ rest.head? = some 'u' then
        match unicodeEscape? rest with
        | some (decoded, width, rest) => .char decoded (p.right width) false rest
        | none => .fault .badUnicodeEscape
      else .char c (p.right 1) (!odd) rest
    else if c = '\r' then
      if rest.head? = some '\n' then .char '\n' p.nextLine false rest.tail
      else .fault .loneCarriageReturn
    else if c = '\n' then .char c p.nextLine false rest
    else if c = '\t' then .char c (p.right tabWidth) false rest
    else .char c (p.right 1) false rest

theorem unicodeEscape?_shorter {cs rest : List Char} {c : Char} {width : Nat}
    (h : unicodeEscape? cs = some (c, width, rest)) : rest.length < cs.length := by
  have drop := (List.dropWhile_suffix (l := cs) (· == 'u')).length_le
  unfold unicodeEscape? at h
  split at h
  · rename_i found
    rw [found] at drop
    split at h
    · split at h
      · simp only [Option.some.injEq, Prod.mk.injEq] at h
        simp only [List.length_cons, h.2.2] at drop
        omega
      · simp at h
    · simp at h
  · simp at h

/-- Reading a front always uses up raw text. -/
theorem front_shorter {p after : Position} {odd odd' : Bool} {cs rest : List Char} {c : Char}
    (h : front p odd cs = .char c after odd' rest) : rest.length < cs.length := by
  unfold front at h
  split at h
  · simp at h
  · split at h
    · split at h
      · split at h
        · rename_i found
          have shorter := unicodeEscape?_shorter found
          simp only [Front.char.injEq] at h
          simp only [← h.2.2.2, List.length_cons]
          omega
        · simp at h
      · simp only [Front.char.injEq] at h
        simp [← h.2.2.2]
    · split at h
      · split at h
        · simp only [Front.char.injEq] at h
          simp only [← h.2.2.2, List.length_tail, List.length_cons]
          omega
        · simp at h
      · split at h <;> first
          | (simp only [Front.char.injEq] at h; simp [← h.2.2.2])
          | (split at h <;> (simp only [Front.char.injEq] at h; simp [← h.2.2.2]))

/-- The outcome of decoding a raw text. -/
structure Decoded where
  /-- The characters before the first fault, or all of them. -/
  chars : List SourceChar
  /-- The position behind the last of them. -/
  finish : Position
  /-- The fault that ended the decoding. -/
  fault : Option (Located Lexeme.Fault)

/-- Decode from position `p` on; `done` holds the characters so far, latest first. -/
def decodeFrom (done : List SourceChar) (p : Position) (odd : Bool) (cs : List Char) : Decoded :=
  match _ : front p odd cs with
  | .finish => ⟨done.reverse, p, none⟩
  | .fault f => ⟨done.reverse, p, some ⟨f, p⟩⟩
  | .char c after odd rest => decodeFrom (⟨c, p⟩ :: done) after odd rest
termination_by cs.length
decreasing_by exact front_shorter ‹_›

/-- Decode a whole text. -/
def decode (source : String) : Decoded := decodeFrom [] .start false source.toList

/-- Decoding a text that is given by its characters, as a literal is by `rfl`. Unlike the characters
of a string, they need not be read from its bytes when this is evaluated. -/
theorem decode_ofList {s : String} {cs : List Char} (h : s = String.ofList cs) :
    decode s = decodeFrom [] .start false cs := by
  rw [h, decode, String.toList_ofList]

theorem append_ofList {s t : String} {cs ds : List Char} (h : s = String.ofList cs)
    (h' : t = String.ofList ds) : s ++ t = String.ofList (cs ++ ds) := by
  rw [h, h', String.ofList_append]

end Source

end Javelet
