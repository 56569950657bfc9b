import Javelet.Position

/-!
# Diagnostics

What the compiler says about a faulty program. Every stage describes its faults
by a type of causes of its own; `Explained` gives each cause its code, its wording
and its hint, and `Located.diagnostic` turns a cause at a place into the record
that is shown to the user.
-/
namespace Javelet

/-- The catalogue of faults. -/
inductive Code where
  | strayCharacter | badUnicodeEscape | badLineEnd | openComment
  | openString | openCharacter | badEscape | emptyCharacter | badNumber
  | unexpectedToken | unexpectedEnd | expectedExpression | expectedStatement | expectedName
  | expectedType | badTarget | badMain | duplicateMain | integerRange | unsupportedLiteral
  | badCaseLabel | strayBreak | strayContinue
  | undefinedType | duplicateType | extendsNonClass | implementsNonInterface | cyclicInheritance
  | missingInterfaceMethod | duplicateProperty | duplicateMethod | methodNamedLikeProperty
  | duplicateParameter | duplicateVariable | undefinedVariable | undefinedMethod
  | thisInStaticContext | tooManyLocals
  | unresolvedSymbol | unsupportedOperation
  deriving DecidableEq, Repr

namespace Code

/-- The number of a code. Lexical codes lie below 100, syntactic ones from 100,
semantic ones from 200 and those of code generation from 300. -/
def number : Code → Nat
  | strayCharacter => 1
  | badUnicodeEscape => 2
  | badLineEnd => 3
  | openComment => 4
  | openString => 10
  | openCharacter => 11
  | badEscape => 12
  | emptyCharacter => 13
  | badNumber => 20
  | unexpectedToken => 100
  | unexpectedEnd => 101
  | expectedExpression => 103
  | expectedStatement => 104
  | expectedName => 105
  | expectedType => 106
  | badTarget => 109
  | badMain => 110
  | duplicateMain => 111
  | integerRange => 120
  | unsupportedLiteral => 121
  | badCaseLabel => 122
  | strayBreak => 144
  | strayContinue => 145
  | undefinedType => 200
  | duplicateType => 201
  | extendsNonClass => 202
  | implementsNonInterface => 203
  | cyclicInheritance => 204
  | missingInterfaceMethod => 205
  | duplicateProperty => 210
  | duplicateMethod => 211
  | methodNamedLikeProperty => 212
  | duplicateParameter => 220
  | duplicateVariable => 221
  | undefinedVariable => 222
  | undefinedMethod => 223
  | thisInStaticContext => 224
  | tooManyLocals => 225
  | unresolvedSymbol => 300
  | unsupportedOperation => 301

/-- A code is written `E` and three digits. -/
def text (c : Code) : String :=
  let digits := c.number.repr
  "E" ++ String.ofList (List.replicate (3 - digits.length) '0') ++ digits

/-- Lexical and syntactic faults end the compilation where they stand. -/
def isFatal (c : Code) : Bool := c.number < 200

end Code

/-- A fault as it is shown: its code, its wording, its place and perhaps a hint. -/
structure Diagnostic where
  code : Code
  message : String
  position : Position
  hint : Option String
  deriving DecidableEq, Repr

/-- The one-line form of a diagnostic. -/
def Diagnostic.text (d : Diagnostic) : String := "[" ++ d.code.text ++ "] " ++ d.message

/-- A type of causes, each with a code, a wording and perhaps a hint. -/
class Explained (F : Type) where
  code : F → Code
  message : F → String
  hint : F → Option String

/-- A cause and the place where it was found. -/
structure Located (F : Type) where
  fault : F
  position : Position
  deriving DecidableEq, Repr

/-- What is shown for a located cause. -/
def Located.diagnostic {F : Type} [Explained F] (l : Located F) : Diagnostic :=
  ⟨Explained.code l.fault, Explained.message l.fault, l.position, Explained.hint l.fault⟩

end Javelet
