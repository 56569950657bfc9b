import Javelet.Diagnostic
import Javelet.Syntax.Declaration
import Javelet.Types.Table

/-!
# Collecting types

The table of a program is built in rounds: all names first, so that the order of the
declarations does not matter; then supertypes and cycles; then the members of interfaces
and of classes. Every fault is reported and the table is always finished.
-/
namespace Javelet.Types

/-- A fault in the declared types. -/
inductive Fault where
  | table (fault : TableFault)
  | notAnInterface (name : String)
  | notAClass (name : String)
  | cyclic (className : String)
  | duplicateProperty (name className : String)
  | methodNamedLikeProperty (name className : String)
  | duplicateMethod (signature owner : String)
  | missingMethod (className signature interface : String)
  deriving DecidableEq, Repr

namespace Fault

def code : Fault → Code
  | table (.undefined _) => .undefinedType
  | table (.alreadyDeclared _) => .duplicateType
  | notAnInterface _ => .implementsNonInterface
  | notAClass _ => .extendsNonClass
  | cyclic _ => .cyclicInheritance
  | duplicateProperty _ _ => .duplicateProperty
  | methodNamedLikeProperty _ _ => .methodNamedLikeProperty
  | duplicateMethod _ _ => .duplicateMethod
  | missingMethod _ _ _ => .missingInterfaceMethod

def message : Fault → String
  | table fault => fault.message
  | notAnInterface name => "'" ++ name ++ "' is not an interface and cannot be implemented"
  | notAClass name => "'" ++ name ++ "' is not a class and cannot be extended"
  | cyclic className => "Cyclic inheritance involving class '" ++ className ++ "'"
  | duplicateProperty name className =>
    "Property '" ++ name ++ "' is already declared in class '" ++ className ++ "'"
  | methodNamedLikeProperty name className =>
    "Method '" ++ name ++ "' has the same name as a property of class '" ++ className ++ "'"
  | duplicateMethod signature owner =>
    "Method '" ++ signature ++ "' is already declared in '" ++ owner ++ "'"
  | missingMethod className signature interface =>
    "Class '" ++ className ++ "' must implement '" ++ signature ++ "' from interface '" ++
      interface ++ "'"

def hint : Fault → Option String
  | missingMethod _ _ _ => some "Interface methods are not inherited from superclasses"
  | _ => none

instance : Explained Fault := ⟨code, message, hint⟩

end Fault

/-- The table so far and the faults so far. -/
structure Collected where
  table : Table
  faults : Array (Located Fault)

namespace Collected

def report (c : Collected) (fault : Fault) (p : Position) : Collected :=
  { c with faults := c.faults.push ⟨fault, p⟩ }

def modify (c : Collected) (name : String) (change : TypeInfo → TypeInfo) : Collected :=
  { c with table := c.table.modify name change }

/-- Register the name of a declaration; also whether it was free. -/
def register (c : Collected) (decl : TypeDecl) : Collected × Bool :=
  let category := match decl with
    | .class_ _ => Category.class_
    | .interface _ => Category.interface
  match c.table.declare (.bare decl.name category) with
  | .ok table => ({ c with table := table }, true)
  | .error fault => (c.report (.table fault) decl.position, false)

/-- Register all names; also the declarations whose names were free. -/
def registerAll (c : Collected) : List TypeDecl → Collected × List TypeDecl
  | [] => (c, [])
  | decl :: rest =>
    let (c, free) := c.register decl
    let (c, kept) := c.registerAll rest
    (c, if free then decl :: kept else kept)

/-- Check a supertype: its name if it has the wanted category. -/
def supertype (c : Collected) (category : Category) (p : Position) (name : Option String) :
    Collected × Option String :=
  match name with
  | none => (c, none)
  | some name =>
    match c.table.lookup name with
    | .error fault => (c.report (.table fault) p, none)
    | .ok info =>
      if info.category = category then (c, some name)
      else
        let fault := if category = .interface then Fault.notAnInterface name else .notAClass name
        (c.report fault p, none)

/-- Record the supertypes of a class. -/
def linkSupertypes (c : Collected) (decl : ClassDecl) : Collected :=
  let (c, superclass) := c.supertype .class_ decl.position decl.superclass
  let (c, interface) := c.supertype .interface decl.position decl.interface
  c.modify decl.name fun info => { info with superclass := superclass, interface := interface }

/-- Report the classes that lie on a cycle and cut the cycles there. -/
def cutCycles (c : Collected) (classes : List ClassDecl) : Collected :=
  let cyclic := classes.filter fun decl => c.table.extendsItself decl.name
  let c := cyclic.foldl (fun c decl => c.report (.cyclic decl.name) decl.position) c
  cyclic.foldl (fun c decl => c.modify decl.name fun info => { info with superclass := none }) c

/-- Check the types of parameters; those that are known. -/
def paramTypes (c : Collected) : List Parameter → Collected × List Ty
  | [] => (c, [])
  | param :: rest =>
    match c.table.resolve param.type with
    | .ok ty =>
      let (c, types) := c.paramTypes rest
      (c, ty :: types)
    | .error fault => (c.report (.table fault) param.position).paramTypes rest

/-- Check the types of a method header; the method if all of them are known. -/
def methodInfo (c : Collected) (header : Signature) : Collected × Option MethodInfo :=
  let (c, returns) := match c.table.resolveReturn header.returns with
    | .ok ty => (c, some ty)
    | .error fault => (c.report (.table fault) header.position, none)
  let (c, params) := c.paramTypes header.params
  (c, if params.length = header.params.length then
      returns.map fun ty => ⟨header.name, header.kind, header.access, ty, params⟩
    else none)

/-- Add a method to a type, unless its signature is in use there. -/
def addMethod (c : Collected) (owner : String) (m : MethodInfo) (p : Position) : Collected :=
  match c.table.find? owner with
  | none => c
  | some info =>
    if info.methods.contains m.signature then c.report (.duplicateMethod m.signature owner) p
    else c.modify owner (·.putMethod m)

/-- Add the method of a header to a type. -/
def collectMethod (owner : String) (c : Collected) (header : Signature) : Collected :=
  match c.methodInfo header with
  | (c, some m) => c.addMethod owner m header.position
  | (c, none) => c

/-- Add the methods of an interface. -/
def collectInterface (c : Collected) (decl : InterfaceDecl) : Collected :=
  decl.methods.foldl (collectMethod decl.name) c

/-- Add a property to a class, unless its name is in use there. -/
def collectProperty (className : String) (c : Collected) (property : Property) : Collected :=
  let v := property.variable_
  match c.table.resolve v.type with
  | .error fault => c.report (.table fault) v.position
  | .ok ty =>
    match c.table.find? className with
    | none => c
    | some info =>
      if info.properties.contains v.name then
        c.report (.duplicateProperty v.name className) v.position
      else c.modify className (·.putProperty ⟨property.access, v.name, ty⟩)

/-- Add a method to a class, unless it has the name of a property. -/
def collectNamedMethod (className : String) (c : Collected) (header : Signature) : Collected :=
  if (c.table.find? className).any fun info => info.properties.contains header.name then
    c.report (.methodNamedLikeProperty header.name className) header.position
  else collectMethod className c header

/-- The constructor of a class that declares none. -/
def defaultConstructor (className : String) : MethodInfo :=
  ⟨className, .constructor, .public_, .void, []⟩

/-- Add the members of a class. -/
def collectClass (c : Collected) (decl : ClassDecl) : Collected :=
  let c := decl.properties.foldl (collectProperty decl.name) c
  let c := (decl.constructors.map Method.signature).foldl (collectMethod decl.name) c
  let c := ((decl.methods ++ decl.main.toList).map Method.signature).foldl
    (collectNamedMethod decl.name) c
  c.modify decl.name fun info =>
    if info.hasConstructor then info else info.putMethod (defaultConstructor decl.name)

/-- Report every method of the interface of a class that the class itself does not
declare. -/
def checkInterface (c : Collected) (decl : ClassDecl) : Collected :=
  match c.table.find? decl.name with
  | none => c
  | some info =>
    match info.interface.bind c.table.find? with
    | none => c
    | some interface =>
      (interface.methods.keys.filter fun key => !info.methods.contains key).foldl (fun c key =>
        c.report (.missingMethod decl.name key interface.name) decl.position) c

end Collected

/-- The table of a program and all faults in its declared types. -/
def collect (program : Program) : Collected :=
  let (c, kept) := Collected.registerAll ⟨.initial, #[]⟩ program.declarations
  let classes := kept.filterMap TypeDecl.class?
  let c := classes.foldl Collected.linkSupertypes c
  let c := c.cutCycles classes
  let c := (kept.filterMap TypeDecl.interface?).foldl Collected.collectInterface c
  classes.foldl (fun c decl => (c.collectClass decl).checkInterface decl) c

end Javelet.Types
