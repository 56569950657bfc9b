import Javelet.Syntax.Ty

/-!
# Descriptors

How the virtual machine names types. `void` is `V`, `int` is `I`, `boolean` is `Z`, `char` is
`C`, a class is its name between `L` and `;`, and an array type has `[` in front. The text
type is a class of the standard library.
-/
namespace Javelet.Assembly

/-- The root of all classes. -/
def objectClass : String := "java/lang/Object"

/-- The class of texts. -/
def stringClass : String := "java/lang/String"

/-- The class of the print stream. -/
def printStreamClass : String := "java/io/PrintStream"

/-- The name of a class inside instructions. -/
def internalName (name : String) : String := if name = "String" then stringClass else name

/-- The descriptor of a class. -/
def classDescriptor (internal : String) : String := "L" ++ internal ++ ";"

/-- The descriptor of the plain type of a name. -/
def plainDescriptor (name : String) : String :=
  if name = "void" then "V"
  else if name = "int" then "I"
  else if name = "boolean" then "Z"
  else if name = "char" then "C"
  else classDescriptor (internalName name)

/-- The descriptor of a type. -/
def descriptor (ty : Ty) : String :=
  if ty.isArray then "[" ++ plainDescriptor ty.name else plainDescriptor ty.name

/-- The descriptor of a method: its parameters in parentheses, then its result. -/
def methodDescriptor (params : List Ty) (returns : Ty) : String :=
  "(" ++ String.join (params.map descriptor) ++ ")" ++ descriptor returns

/-- The descriptor of the parameter of the print methods that takes a value of the type. -/
def printDescriptor (ty : Ty) : String :=
  if ty.isInteger then descriptor ty
  else if ty = .string then classDescriptor stringClass
  else classDescriptor objectClass

/-- What a stack cell or a slot holds. -/
inductive Cell where
  | int | reference
  deriving DecidableEq, Repr

def Cell.ofTy (ty : Ty) : Cell := if ty.isInteger then .int else .reference

/-- The letter of instructions that work on such a cell. -/
def Cell.letter : Cell → String
  | int => "i"
  | reference => "a"

/-- What an array holds. -/
inductive Element where
  | int | char | boolean | reference
  deriving DecidableEq, Repr

namespace Element

/-- How values of a type are held in an array. -/
def ofTy (ty : Ty) : Element :=
  if ty = .int then int
  else if ty = .char then char
  else if ty = .boolean then boolean
  else reference

/-- The letter of instructions that work on such an array. -/
def letter : Element → String
  | int => "i"
  | char => "c"
  | boolean => "b"
  | reference => "a"

/-- The name of the element type where it is primitive. -/
def primitive? : Element → Option String
  | int => some "int"
  | char => some "char"
  | boolean => some "boolean"
  | reference => none

end Element

end Javelet.Assembly
