import Javelet.Assembly.Section
import Javelet.Lowering.Statement
import Javelet.Syntax.Declaration

/-!
# Lowering of declarations

A class becomes a section with one field per property and one method per constructor, method
and entry point. Every constructor first calls the constructor of the superclass and then
stores the initial values of all properties. A class without constructors gets a public one
without parameters.
-/
namespace Javelet.Lowering

open Assembly

/-- Store the initial value of a property into the receiver. -/
def initializer (env : Env) (p : Property) : Lower Segment := do
  let v := p.variable_
  let value ← match v.value with
    | some e => Typed.code <$> expr env e
    | none => pure (ops [.pushDefault v.type])
  return .op .loadThis :: value ++ ops [.putField env.className v.name v.type]

/-- What every constructor does before its body. -/
def prologue (env : Env) (superclass : String) (properties : List Property) : Lower Segment := do
  let values ← properties.mapM (initializer env)
  return ops [.loadThis, .invokeConstructor superclass []] ++ values.flatten

/-- Lower a method body behind other code. -/
def methodCode (env : Env) (header : Header) (before : Segment) (m : Method) :
    Lower MethodCode := do
  let node := m.signature.id
  let body ← block (env.enter node) m.body
  return ⟨header, (env.arena.localsOf node).getD 1, before ++ body⟩

/-- Lower a method or the entry point. -/
def method (env : Env) (m : Method) : Lower MethodCode :=
  let s := m.signature
  let header : Header := match s.kind with
    | .main => ⟨.public_, true, "main", [.arrayOf .string], .void⟩
    | _ => ⟨s.access, false, s.name, s.paramTypes, s.returns⟩
  methodCode env header [] m

/-- Lower a constructor. -/
def constructor (env : Env) (superclass : String) (properties : List Property) (m : Method) :
    Lower MethodCode := do
  let s := m.signature
  let before ← prologue env superclass properties
  methodCode env ⟨s.access, false, "<init>", s.paramTypes, .void⟩ before m

/-- The constructor of a class that declares none. -/
def defaultConstructor (env : Env) (superclass : String) (properties : List Property) :
    Lower MethodCode := do
  let before ← prologue env superclass properties
  return ⟨⟨.public_, false, "<init>", [], .void⟩, 1, before⟩

/-- The surroundings of the members of a class. -/
def classEnv (env : Env) (decl : ClassDecl) : Env :=
  { env.enter decl.id with className := decl.name }

/-- Lower a class. -/
def class_ (env : Env) (decl : ClassDecl) : Lower ClassSection := do
  let info ← match env.table.lookup decl.name with
    | .ok info => pure info
    | .error fault => refuse (.undefinedType fault) decl.position
  let env := classEnv env decl
  let superclass := info.superclass.getD objectClass
  let constructors ← decl.constructors.mapM (constructor env superclass decl.properties)
  let methods ← (decl.methods ++ decl.main.toList).mapM (method env)
  let default_ ← if decl.constructors.isEmpty then
      List.singleton <$> defaultConstructor env superclass decl.properties
    else pure []
  return { name := decl.name, superclass := superclass, interface := info.interface,
           fields := decl.properties.map fun p => ⟨p.access, p.variable_.name, p.variable_.type⟩,
           methods := constructors ++ methods ++ default_ }

/-- The section of an interface. -/
def interface (decl : InterfaceDecl) : InterfaceSection :=
  ⟨decl.name, decl.methods.map fun s => ⟨s.name, s.paramTypes, s.returns⟩⟩

/-- Lower the declaration of a type. -/
def typeDecl (env : Env) : TypeDecl → Lower Section
  | .class_ decl => Section.class_ <$> class_ env decl
  | .interface decl => pure (.interface (interface decl))

/-- The surroundings outside of all declarations. -/
def Env.outermost (table : Types.Table) (arena : Arena) : Env :=
  ⟨table, arena, "", Arena.root, []⟩

/-- The sections of a program. -/
def program (table : Types.Table) (arena : Arena) (p : Program) :
    Except (Located Fault) (List Section) :=
  (p.declarations.mapM (typeDecl (.outermost table arena))).run' 0

end Javelet.Lowering
