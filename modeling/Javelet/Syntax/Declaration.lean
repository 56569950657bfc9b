import Javelet.Syntax.Statement

/-!
# Declarations

A program is a list of classes and interfaces.
-/
namespace Javelet

/-- A parameter; it stands where its type stands. -/
structure Parameter where
  position : Position
  type : Ty
  name : String

/-- The header of a method, of a constructor or of the entry point. -/
structure Signature where
  id : NodeId
  kind : MethodKind
  access : Access
  returns : Ty
  name : String
  params : List Parameter
  position : Position

namespace Signature

def paramTypes (s : Signature) : List Ty := s.params.map Parameter.type

/-- The overload key of a header. -/
def text (s : Signature) : String := signatureText s.name s.paramTypes

/-- Only the entry point runs without a receiver. -/
def isStatic (s : Signature) : Bool := s.kind == .main

end Signature

/-- A method with its body. -/
structure Method where
  signature : Signature
  body : Block

/-- A field of a class. -/
structure Property where
  access : Access
  variable_ : Variable

structure ClassDecl where
  id : NodeId
  name : String
  superclass : Option String
  interface : Option String
  properties : List Property
  constructors : List Method
  methods : List Method
  main : Option Method
  position : Position

structure InterfaceDecl where
  id : NodeId
  name : String
  methods : List Signature
  position : Position

/-- A declaration of a type. -/
inductive TypeDecl where
  | class_ (decl : ClassDecl)
  | interface (decl : InterfaceDecl)

namespace TypeDecl

def name : TypeDecl → String
  | class_ d => d.name
  | interface d => d.name

def position : TypeDecl → Position
  | class_ d => d.position
  | interface d => d.position

def class? : TypeDecl → Option ClassDecl
  | class_ d => some d
  | interface _ => none

def interface? : TypeDecl → Option InterfaceDecl
  | class_ _ => none
  | interface d => some d

end TypeDecl

/-- A compilation unit. -/
structure Program where
  declarations : List TypeDecl

/-- The declared classes in source order. -/
def Program.classes (p : Program) : List ClassDecl := p.declarations.filterMap TypeDecl.class?

end Javelet
