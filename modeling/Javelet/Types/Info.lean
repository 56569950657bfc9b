import Javelet.Dictionary
import Javelet.Syntax.Ty

/-!
# What is known of a type

A type has a category, perhaps a superclass and an interface, and its own properties
and methods. Methods are kept under their signatures, so that overloads do not clash.
-/
namespace Javelet.Types

inductive Category where
  | primitive | class_ | interface
  deriving DecidableEq, Repr

/-- A property of a class. -/
structure PropertyInfo where
  access : Access
  name : String
  type : Ty
  deriving DecidableEq, Repr

/-- A method, a constructor or the entry point of a type. -/
structure MethodInfo where
  name : String
  kind : MethodKind
  access : Access
  returns : Ty
  params : List Ty
  deriving DecidableEq, Repr

namespace MethodInfo

/-- The overload key. -/
def signature (m : MethodInfo) : String := signatureText m.name m.params

def isStatic (m : MethodInfo) : Bool := m.kind == .main

def isConstructor (m : MethodInfo) : Bool := m.kind == .constructor

end MethodInfo

/-- A declared or built-in type. -/
structure TypeInfo where
  name : String
  category : Category
  superclass : Option String
  interface : Option String
  properties : Dictionary PropertyInfo
  methods : Dictionary MethodInfo

namespace TypeInfo

/-- A type without supertypes and members. -/
def bare (name : String) (category : Category) : TypeInfo :=
  ⟨name, category, none, none, .empty, .empty⟩

def isClass (t : TypeInfo) : Bool := t.category == .class_

def isInterface (t : TypeInfo) : Bool := t.category == .interface

def constructors (t : TypeInfo) : List MethodInfo := t.methods.values.filter (·.isConstructor)

def hasConstructor (t : TypeInfo) : Bool := t.methods.values.any (·.isConstructor)

/-- Whether an instance method of this name is declared here. -/
def declaresMethod (t : TypeInfo) (name : String) : Bool :=
  t.methods.values.any fun m => m.name == name && m.kind == .method

def putProperty (t : TypeInfo) (p : PropertyInfo) : TypeInfo :=
  { t with properties := t.properties.insert p.name p }

def putMethod (t : TypeInfo) (m : MethodInfo) : TypeInfo :=
  { t with methods := t.methods.insert m.signature m }

end TypeInfo

/-- The names of the types that need no declaration. -/
def builtins : List String := ["int", "char", "boolean", "String", "null"]

end Javelet.Types
