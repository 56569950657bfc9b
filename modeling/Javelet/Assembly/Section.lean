import Javelet.Assembly.Listing

/-!
# Sections

The text of a program has a section for each type. A class lists its fields and its methods
with their code, an interface the headers of its methods.
-/
namespace Javelet.Assembly

/-- The major and minor number of the class file format. -/
def classVersion : Nat × Nat := (49, 0)

structure Field where
  access : Access
  name : String
  type : Ty
  deriving DecidableEq, Repr

def Field.line (f : Field) : String :=
  ".field " ++ f.access.text ++ " " ++ f.name ++ " " ++ descriptor f.type

/-- The header of a method with code. -/
structure Header where
  access : Access
  isStatic : Bool
  name : String
  params : List Ty
  returns : Ty
  deriving DecidableEq, Repr

def Header.line (h : Header) : String :=
  ".method " ++ h.access.text ++ (if h.isStatic then " static " else " ") ++ h.name ++ " : " ++
    methodDescriptor h.params h.returns

/-- A method with its code and the number of slots it needs. -/
structure MethodCode where
  header : Header
  locals : Nat
  code : Segment
  deriving DecidableEq

/-- The lines of a method that continues a listing. -/
def MethodCode.linesAfter {α : Type} [Writable α] (write : Instruction → α) (start : Listing α)
    (m : MethodCode) : List String :=
  (start.addAll (m.code.map (Item.map write))).methodLines m.header.line m.locals

def MethodCode.lines (m : MethodCode) : List String := m.linesAfter id .empty

/-- A method header of an interface. -/
structure AbstractMethod where
  name : String
  params : List Ty
  returns : Ty
  deriving DecidableEq, Repr

def AbstractMethod.lines (m : AbstractMethod) : List String :=
  [".method public abstract " ++ m.name ++ " : " ++ methodDescriptor m.params m.returns,
    ".end method"]

structure ClassSection where
  name : String
  superclass : String
  interface : Option String
  fields : List Field
  methods : List MethodCode
  deriving DecidableEq

structure InterfaceSection where
  name : String
  methods : List AbstractMethod
  deriving DecidableEq

/-- The first lines of a section. -/
def opening (kind name superclass : String) : List String :=
  [".version " ++ classVersion.1.repr ++ " " ++ classVersion.2.repr,
    ".class " ++ kind ++ " " ++ name, ".super " ++ superclass]

/-- The lines of a class before its methods. -/
def ClassSection.opening (c : ClassSection) : List String :=
  Assembly.opening "public" c.name c.superclass ++
    c.interface.toList.map (".implements " ++ ·) ++ c.fields.map Field.line

/-- The last line of a section. -/
def closing : List String := [".end class"]

def ClassSection.lines (c : ClassSection) : List String :=
  c.opening ++ c.methods.flatMap MethodCode.lines ++ closing

def InterfaceSection.lines (i : InterfaceSection) : List String :=
  opening "interface abstract" i.name objectClass ++ i.methods.flatMap AbstractMethod.lines ++
    closing

/-- The text of one type. -/
inductive Section where
  | class_ (c : ClassSection)
  | interface (i : InterfaceSection)
  deriving DecidableEq

def Section.lines : Section → List String
  | class_ c => c.lines
  | interface i => i.lines

/-- Lines as a text; the last one is ended too. -/
def textOfLines (lines : List String) : String := "\n".intercalate lines ++ "\n"

/-- The text of a program: its sections, with an empty line between them. -/
def programText (sections : List Section) : String :=
  textOfLines ([""].intercalate (sections.map Section.lines))

end Javelet.Assembly
