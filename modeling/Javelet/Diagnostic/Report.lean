import Javelet.Diagnostic

/-!
# Reports

A diagnostic is shown with the source line it points at: a header, the place, the
line with tabs widened to blanks, a caret below the column, and the hint. The lines of a
source are cut at its line feeds.
-/
namespace Javelet

namespace Text

/-- The pieces of a text between line feeds; `done` holds the finished pieces and
`open_` the characters of the current one, both latest first. -/
def splitLinesFrom (done : List (List Char)) (open_ : List Char) : List Char → List (List Char)
  | [] => (open_.reverse :: done).reverse
  | c :: rest =>
    if c = '\n' then splitLinesFrom (open_.reverse :: done) [] rest
    else splitLinesFrom done (c :: open_) rest

/-- The pieces of a text between line feeds. There is always one more than line feeds. -/
def splitLines (cs : List Char) : List (List Char) := splitLinesFrom [] [] cs

/-- The number of lines of a text. A last line feed ends a line and starts none. -/
def lineCount (s : String) : Nat :=
  let cs := s.toList
  cs.count '\n' + (if cs.getLast?.all (· == '\n') then 0 else 1)

end Text

/-- A place together with the text of its line. -/
structure Excerpt where
  line : Nat
  column : Nat
  content : String
  deriving DecidableEq, Repr

/-- The line as it is shown: without carriage returns at its end, tabs as blanks. -/
def Excerpt.shown (line : List Char) : List Char :=
  (line.reverse.dropWhile (· == '\r')).reverse.flatMap fun c =>
    if c = '\t' then List.replicate tabWidth ' ' else [c]

/-- The excerpt a position points at; beyond the last line it is empty. -/
def Excerpt.ofPosition (source : String) (p : Position) : Excerpt :=
  let line := (Text.splitLines source.toList)[p.line - 1]?.getD []
  ⟨p.line, p.column, String.ofList (shown line)⟩

/-- A row of blanks. -/
def blanks (n : Nat) : String := String.ofList (List.replicate n ' ')

namespace Diagnostic

/-- The name shown for a text that comes from no file. -/
def unnamedFile : String := "<input>"

/-- The lines of a report. Columns are shown counted from 1. -/
def reportLines (d : Diagnostic) (source : String) (file : Option String) : List String :=
  let e := Excerpt.ofPosition source d.position
  let number := e.line.repr
  let margin := blanks number.length
  ["error[" ++ d.code.text ++ "]: " ++ d.message,
   "  --> " ++ file.getD unnamedFile ++ ":" ++ number ++ ":" ++ (e.column + 1).repr,
   margin ++ " |",
   number ++ " | " ++ e.content,
   margin ++ " | " ++ blanks e.column ++ "^"] ++
  (d.hint.map fun hint => margin ++ " = hint: " ++ hint).toList

/-- The report as one text, each line ended by a line feed. -/
def report (d : Diagnostic) (source : String) (file : Option String) : String :=
  String.join ((d.reportLines source file).map (· ++ "\n"))

end Diagnostic

end Javelet
