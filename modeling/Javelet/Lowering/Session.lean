import Javelet.Lowering.Declaration

/-!
# Sessions

A session lowers pieces of a program one after the other into one listing. What is lowered
lands in the listing at hand, until a header closes it and moves it to the output. A class
that is lowered continues the listing at hand with its first method, and the session stays in
the scope of the class.
-/
namespace Javelet.Lowering

open Assembly

/-- An instruction in a session: a known one, or any text with its effect on the stack. -/
inductive Written where
  | known (instruction : Instruction)
  | verbatim (text : String) (pops pushes : Nat)

/-- The part of a text behind its last tab. -/
def afterLastTab (text : String) : String :=
  String.ofList (text.toList.reverse.takeWhile (· != '\t')).reverse

/-- The instructions that leave a method, as texts. -/
def returnTexts : List String := ["return", "ireturn", "areturn"]

instance : Writable Written where
  text
    | .known i => i.text
    | .verbatim text _ _ => text
  pops
    | .known i => i.pops
    | .verbatim _ pops _ => pops
  pushes
    | .known i => i.pushes
    | .verbatim _ _ pushes => pushes
  isReturn
    | .known i => i.isReturn
    | .verbatim text _ _ => returnTexts.contains (afterLastTab text)
  plainReturn := .known .returnVoid

/-- The state of a session. -/
structure Session where
  env : Env
  nextLabel : Label
  listing : Listing Written
  output : Array String

namespace Session

/-- A session at the outermost place of a program. -/
def start (table : Types.Table) (arena : Arena) : Session :=
  ⟨.outermost table arena, 0, .empty, #[]⟩

/-- Add an instruction by its text. -/
def emit (s : Session) (text : String) (pops pushes : Nat) : Session :=
  { s with listing := s.listing.write (.verbatim text pops pushes) }

/-- Add code. -/
def add (s : Session) (code : Segment) : Session :=
  { s with listing := s.listing.addAll (code.map (Item.map .known)) }

/-- Draw a label. -/
def freshLabel (s : Session) : Session × Label :=
  ({ s with nextLabel := s.nextLabel + 1 }, s.nextLabel)

/-- Lower a piece and add its code. -/
def lower {α : Type} (s : Session) (piece : Env → Lower (Segment × α)) :
    Except (Located Fault) (Session × α) := do
  let ((code, a), next) ← (piece s.env).run s.nextLabel
  return (({ s with nextLabel := next }).add code, a)

/-- Enter a loop or a switch. -/
def enter (s : Session) (targets : Targets) : Session := { s with env := s.env.inside targets }

/-- Leave the innermost loop or switch. -/
def leave (s : Session) : Session :=
  { s with env := { s.env with targets := s.env.targets.tail } }

/-- Add lines to the output. -/
def write (s : Session) (lines : List String) : Session := { s with output := s.output ++ lines }

/-- Close the listing at hand with a header. -/
def finish (s : Session) (header : String) (locals : Nat) : Session :=
  { s.write (s.listing.methodLines header locals) with listing := .empty }

/-- Add a method of a class, which continues the listing at hand. -/
def addMethod (s : Session) (m : MethodCode) : Session :=
  { s.write (m.linesAfter .known s.listing) with listing := .empty }

/-- Lower the declaration of a type. -/
def declaration (s : Session) : TypeDecl → Except (Located Fault) Session
  | .class_ decl => do
    let (c, next) ← (class_ s.env decl).run s.nextLabel
    let s := { s with nextLabel := next, env := classEnv s.env decl }
    return (c.methods.foldl addMethod (s.write c.opening)).write closing
  | .interface decl => return s.write (interface decl).lines

/-- The text of all closed listings. -/
def text (s : Session) : String := textOfLines s.output.toList

end Session

end Javelet.Lowering
