import Javelet.Lexeme.Number
import Javelet.Lexeme.Quoted
import Javelet.Lexeme.Trivia

/-!
# Token streams

A lexer is what is left of a decoded text, with the fault that ended the decoding. It
hands out one result after the other and goes on behind a fault. The fault of the
decoding comes last: when nothing else is left, or in place of a scanner's fault that
left nothing, since that one was only caused by the missing text.
-/
namespace Javelet

/-- Scan the lexeme at the front of a text without leading blanks and comments. -/
def Lexeme.scan (c : SourceChar) (rest : List SourceChar) : Lexeme.Scan :=
  if Text.isWordStart c.char then word c rest
  else if startsNumber (c :: rest) then number c.position (c :: rest)
  else if c.char = '"' then stringFrom c.position [] rest
  else if c.char = '\'' then characterFrom c.position rest
  else
    match symbolAt? (c :: rest) with
    | some s => ⟨.ok (Token.ofSymbol s c.position), (c :: rest).drop s.spelling.length⟩
    | none => .fault (.strayCharacter c.char) c.position rest

/-- Scanning only removes characters. -/
theorem Lexeme.scan_suffix (c : SourceChar) (rest : List SourceChar) :
    (Lexeme.scan c rest).rest <:+ c :: rest := by
  have behind : ∀ {cs : List SourceChar}, cs <:+ rest → cs <:+ c :: rest :=
    fun suffix => suffix.trans (List.suffix_cons ..)
  unfold Lexeme.scan
  split
  · exact behind (List.dropWhile_suffix _)
  · split
    · exact number_suffix ..
    · split
      · exact behind (stringFrom_suffix ..)
      · split
        · exact behind (characterFrom_suffix ..)
        · split
          · exact List.drop_suffix ..
          · exact List.suffix_cons ..

/-- Every lexeme uses up at least one character, faulty or not. -/
theorem Lexeme.scan_shorter (c : SourceChar) (rest : List SourceChar) :
    (Lexeme.scan c rest).rest.length < (c :: rest).length := by
  unfold Lexeme.scan
  split
  · exact Nat.lt_succ_of_le (List.dropWhile_suffix _).length_le
  · split
    · rename_i starts
      exact number_shorter c.position starts
    · split
      · exact Nat.lt_succ_of_le (stringFrom_suffix ..).length_le
      · split
        · exact Nat.lt_succ_of_le (characterFrom_suffix ..).length_le
        · split
          · rename_i s _
            have pos := spelling_length_pos s
            simp only [List.length_drop, List.length_cons, String.length_toList] at pos ⊢
            omega
          · simp [Scan.fault]

/-- What a lexer has still to read. -/
structure Lexer where
  rest : List SourceChar
  pending : Option (Located Lexeme.Fault)

namespace Lexer

/-- The lexer of a source text. -/
def ofSource (source : String) : Lexer :=
  let decoded := Source.decode source
  ⟨decoded.chars, decoded.fault⟩

/-- How much is left: the characters, and the pending fault. -/
def size (l : Lexer) : Nat := l.rest.length + l.pending.toList.length

/-- The next token or fault, and the lexer behind it; nothing at the end. -/
def next (l : Lexer) : Option (Except (Located Lexeme.Fault) Token × Lexer) :=
  match Lexeme.skipTrivia .between l.rest with
  | .error fault => some (.error (l.pending.getD fault), ⟨[], none⟩)
  | .ok [] => l.pending.map fun fault => (.error fault, ⟨[], none⟩)
  | .ok (c :: rest) =>
    let scan := Lexeme.scan c rest
    match scan.found with
    | .ok token => some (.ok token, ⟨scan.rest, l.pending⟩)
    | .error fault =>
      if scan.rest.isEmpty then some (.error (l.pending.getD fault), ⟨[], none⟩)
      else some (.error fault, ⟨scan.rest, l.pending⟩)

/-- An open comment is only found where there is text. -/
theorem rest_pos_of_skipTrivia_error {cs : List SourceChar} {fault : Located Lexeme.Fault}
    (h : Lexeme.skipTrivia .between cs = .error fault) : 0 < cs.length := by
  cases cs with
  | nil => simp [Lexeme.skipTrivia] at h
  | cons c rest => simp

/-- Each step makes the lexer smaller. -/
theorem next_smaller {l l' : Lexer} {found : Except (Located Lexeme.Fault) Token}
    (h : l.next = some (found, l')) : l'.size < l.size := by
  unfold next at h
  split at h
  · rename_i skipped
    have pos := rest_pos_of_skipTrivia_error skipped
    simp only [Option.some.injEq, Prod.mk.injEq] at h
    simp only [← h.2, size, List.length_nil, Option.toList_none]
    omega
  · obtain ⟨fault, found, same⟩ := Option.map_eq_some_iff.1 h
    simp only [Prod.mk.injEq] at same
    simp [← same.2, size, found]
  · rename_i c rest skipped
    have short := (Lexeme.skipTrivia_suffix skipped).length_le
    have used := Lexeme.scan_shorter c rest
    simp only [size]
    simp only at h
    split at h
    · simp only [Option.some.injEq, Prod.mk.injEq] at h
      simp only [← h.2]
      omega
    · split at h
      · simp only [Option.some.injEq, Prod.mk.injEq] at h
        simp only [← h.2, List.length_nil, Option.toList_none]
        omega
      · simp only [Option.some.injEq, Prod.mk.injEq] at h
        simp only [← h.2]
        omega

/-- All results of a lexer; `done` holds the earlier ones, latest first. -/
def resultsFrom (done : List (Except (Located Lexeme.Fault) Token)) (l : Lexer) :
    List (Except (Located Lexeme.Fault) Token) :=
  match _ : l.next with
  | none => done.reverse
  | some (found, l') => resultsFrom (found :: done) l'
termination_by l.size
decreasing_by exact next_smaller ‹_›

/-- All results of a lexer, up to the end. -/
def results (l : Lexer) : List (Except (Located Lexeme.Fault) Token) := l.resultsFrom []

/-- The tokens of a lexer, unless there is a fault; `done` holds the earlier ones,
latest first. -/
def tokensFrom (done : List Token) (l : Lexer) : Except (Located Lexeme.Fault) (List Token) :=
  match _ : l.next with
  | none => .ok done.reverse
  | some (.ok token, l') => tokensFrom (token :: done) l'
  | some (.error fault, _) => .error fault
termination_by l.size
decreasing_by exact next_smaller ‹_›

end Lexer

/-- The tokens of a source text, or its first lexical fault. -/
def tokenize (source : String) : Except (Located Lexeme.Fault) (List Token) :=
  (Lexer.ofSource source).tokensFrom []

/-- The tokens of a text that is given by its characters. -/
theorem tokenize_ofList {s : String} {cs : List Char} (h : s = String.ofList cs) :
    tokenize s = Lexer.tokensFrom []
      ⟨(Source.decodeFrom [] .start false cs).chars,
        (Source.decodeFrom [] .start false cs).fault⟩ := by
  rw [tokenize, Lexer.ofSource, Source.decode_ofList h]

end Javelet
