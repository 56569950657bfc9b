import Javelet.Diagnostic
import Javelet.Token

/-!
# Syntax faults

Most syntax faults say what was expected and what was found; at the end of the text
they get a code of their own. The others name a construct that is recognized but not
allowed.
-/
namespace Javelet.Grammar

/-- What is wrong with the declaration of the entry point. -/
inductive MainFault where
  | notPublic | notVoid | notMain | parameters
  deriving DecidableEq, Repr

/-- A syntax fault. -/
inductive Fault where
  /-- Something was expected, and `found` stands there, or nothing. -/
  | expected (code : Code) (what : String) (hint : Option String) (found : Option Token)
  | longLiteral (text : String)
  | integerRange (text : String)
  | floatingLiteral (text : String)
  | missingLength
  | badTarget
  | duplicateDefault
  | strayBreak
  | strayContinue
  | badMain (reason : MainFault)
  | duplicateMain (className : String)
  deriving DecidableEq, Repr

namespace Fault

def code : Fault → Code
  | expected code _ _ (some _) => code
  | expected _ _ _ none => .unexpectedEnd
  | longLiteral _ => .unsupportedLiteral
  | integerRange _ => .integerRange
  | floatingLiteral _ => .unsupportedLiteral
  | missingLength => .unexpectedToken
  | badTarget => .badTarget
  | duplicateDefault => .unexpectedToken
  | strayBreak => .strayBreak
  | strayContinue => .strayContinue
  | badMain _ => .badMain
  | duplicateMain _ => .duplicateMain

def message : Fault → String
  | expected _ what _ (some found) => what ++ ", found " ++ found.description
  | expected _ what _ none => what ++ ", found end of file"
  | longLiteral text => "Long literal '" ++ text ++ "' is not supported"
  | integerRange text => "Integer literal '" ++ text ++ "' is out of range"
  | floatingLiteral text => "Floating-point literal '" ++ text ++ "' is not supported"
  | missingLength => "Array creation needs a length, e.g. new int[10]"
  | badTarget => "Invalid assignment target"
  | duplicateDefault => "Duplicate 'default' label"
  | strayBreak => "'break' outside of a loop or switch"
  | strayContinue => "'continue' outside of a loop"
  | badMain .notPublic => "The main method must be public"
  | badMain .notVoid => "The main method must return void"
  | badMain .notMain => "Only 'main' may be declared static"
  | badMain .parameters => "The main method must take a single String[] parameter"
  | duplicateMain className => "Class '" ++ className ++ "' declares more than one main method"

def hint : Fault → Option String
  | expected _ _ hint _ => hint
  | floatingLiteral _ => some "Only int, char, boolean and String values are supported"
  | missingLength => some "Write new Type[length]"
  | badTarget => some "Only variables, fields and array elements can be assigned"
  | badMain _ =>
    some "The entry point must be declared as 'public static void main(String[] args)'"
  | _ => none

instance : Explained Fault := ⟨code, message, hint⟩

end Fault

end Javelet.Grammar
