import Javelet.Source
import Javelet.Token
import Javelet.Text.Word

/-!
# Scanning one lexeme

The outcome of a scanner is a token or a fault, together with the characters that are
left. A scanner that finds a fault has still used up the characters it looked at, so
that scanning can go on behind them.
-/
namespace Javelet.Lexeme

/-- What a scanner found, and what it left. -/
structure Scan where
  found : Except (Located Fault) Token
  rest : List SourceChar

/-- The text of a run of decoded characters. -/
def textOf (cs : List SourceChar) : List Char := cs.map SourceChar.char

def Scan.token (kind : Kind) (text : List Char) (p : Position) (rest : List SourceChar) : Scan :=
  ⟨.ok ⟨kind, String.ofList text, p⟩, rest⟩

def Scan.fault (f : Fault) (p : Position) (rest : List SourceChar) : Scan :=
  ⟨.error ⟨f, p⟩, rest⟩

/-- A word is the longest run of word characters. -/
def word (start : SourceChar) (cs : List SourceChar) : Scan :=
  let part := fun (c : SourceChar) => Text.isWordPart c.char
  ⟨.ok (Token.ofWord (String.ofList (start.char :: textOf (cs.takeWhile part))) start.position),
   cs.dropWhile part⟩

/-- Whether a text starts with the given spelling. -/
def startsWith : List Char → List SourceChar → Bool
  | [], _ => true
  | _ :: _, [] => false
  | c :: spelling, d :: rest => c == d.char && startsWith spelling rest

/-- All symbols with their characters, longer ones before shorter ones. -/
def spellings : List (List Char × Symbol) :=
  Symbol.longestFirst.map fun s => (s.spelling.toList, s)

/-- The longest symbol at the front of a text. -/
def symbolAt? (cs : List SourceChar) : Option Symbol :=
  (spellings.find? fun entry => startsWith entry.1 cs).map Prod.snd

theorem spelling_length_pos (s : Symbol) : 0 < s.spelling.toList.length := by
  cases s <;> decide

end Javelet.Lexeme
