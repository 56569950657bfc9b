/-!
# Types as they are written

A type is a name, perhaps with `[]` behind it. There are no arrays of arrays.
-/
namespace Javelet

/-- A type: a name, or the array type over a name. -/
structure Ty where
  name : String
  isArray : Bool
  deriving DecidableEq, Repr

namespace Ty

/-- The plain type of a name. -/
def plain (name : String) : Ty := ⟨name, false⟩

def void : Ty := plain "void"
def int : Ty := plain "int"
def char : Ty := plain "char"
def boolean : Ty := plain "boolean"
def string : Ty := plain "String"
def null : Ty := plain "null"

/-- A type as it is written. -/
def text (t : Ty) : String := if t.isArray then t.name ++ "[]" else t.name

def isVoid (t : Ty) : Bool := t.name == "void" && !t.isArray

def isNull (t : Ty) : Bool := t.name == "null" && !t.isArray

/-- Whether values of the type are held as 32-bit integers. -/
def isInteger (t : Ty) : Bool :=
  !t.isArray && (t.name == "int" || t.name == "char" || t.name == "boolean")

/-- Whether values of the type are references. -/
def isReference (t : Ty) : Bool := !t.isInteger && !t.isVoid

/-- The type of the elements of an array. -/
def element (t : Ty) : Ty := plain t.name

/-- The type of arrays with elements of this name. -/
def arrayOf (t : Ty) : Ty := ⟨t.name, true⟩

end Ty

/-- The key that tells overloads apart: a name and parameter types. -/
def signatureText (name : String) (params : List Ty) : String :=
  name ++ "(" ++ ", ".intercalate (params.map Ty.text) ++ ")"

/-- Who may use a member. Without a modifier a member is public. -/
inductive Access where
  | public_ | protected_ | private_
  deriving DecidableEq, Repr

namespace Access

def text : Access → String
  | public_ => "public"
  | protected_ => "protected"
  | private_ => "private"

/-- The access a keyword stands for. -/
def ofKeyword? (word : String) : Option Access :=
  if word = "public" then some public_
  else if word = "protected" then some protected_
  else if word = "private" then some private_
  else none

end Access

/-- What a method declaration declares. -/
inductive MethodKind where
  | method | constructor | main
  deriving DecidableEq, Repr

end Javelet
