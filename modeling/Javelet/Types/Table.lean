import Javelet.Types.Info

/-!
# The table of types

Lookups of members climb the superclasses, nearest first, and stop where the climb would
come to a type a second time. A call is resolved by its exact signature if there is a
method with it, and else by the first visible method that takes the arguments.
-/
namespace Javelet.Types

/-- The known types. -/
structure Table where
  types : List TypeInfo

/-- Why the table refuses a request. -/
inductive TableFault where
  | undefined (name : String)
  | alreadyDeclared (name : String)
  deriving DecidableEq, Repr

def TableFault.message : TableFault → String
  | undefined name => "Undefined type '" ++ name ++ "'"
  | alreadyDeclared name => "Type '" ++ name ++ "' is already declared"

/-- The first type of a name in a list. -/
def findType (types : List TypeInfo) (name : String) : Option TypeInfo :=
  types.find? fun t => t.name == name

/-- The types of a list with other names. -/
def dropType (types : List TypeInfo) (name : String) : List TypeInfo :=
  types.filter fun t => t.name != name

theorem length_dropType_lt {types : List TypeInfo} {name : String} {t : TypeInfo}
    (h : findType types name = some t) : (dropType types name).length < types.length := by
  have found := List.find?_some h
  have member := List.mem_of_find?_eq_some h
  apply Nat.lt_of_le_of_ne (List.length_filter_le ..)
  intro same
  have all := List.length_filter_eq_length_iff.1 same t member
  simp_all

/-- Climb the superclasses from the type of a name, as long as they are in `unvisited`. -/
def climb (unvisited : List TypeInfo) (name : String) : List TypeInfo :=
  match _ : findType unvisited name with
  | none => []
  | some t =>
    match t.superclass with
    | none => [t]
    | some parent => t :: climb (dropType unvisited name) parent
termination_by unvisited.length
decreasing_by exact length_dropType_lt ‹_›

namespace Table

/-- The table of the built-in types. -/
def initial : Table := ⟨builtins.map fun name => .bare name .primitive⟩

def find? (t : Table) (name : String) : Option TypeInfo := findType t.types name

def contains (t : Table) (name : String) : Bool := (t.find? name).isSome

def lookup (t : Table) (name : String) : Except TableFault TypeInfo :=
  match t.find? name with
  | some info => .ok info
  | none => .error (.undefined name)

/-- Add a type under a name that is not in use. -/
def declare (t : Table) (info : TypeInfo) : Except TableFault Table :=
  if t.contains info.name then .error (.alreadyDeclared info.name)
  else .ok ⟨info :: t.types⟩

/-- Change what is known of a type. -/
def modify (t : Table) (name : String) (change : TypeInfo → TypeInfo) : Table :=
  ⟨t.types.map fun info => if info.name = name then change info else info⟩

/-- The type of a value as it is written: neither `void` nor `null`, and known. -/
def resolve (t : Table) (ty : Ty) : Except TableFault Ty :=
  if ty.isVoid || ty.name == "null" then .error (.undefined ty.text)
  else if t.contains ty.name then .ok ty
  else .error (.undefined ty.name)

/-- The type of a result, which may be `void`. -/
def resolveReturn (t : Table) (ty : Ty) : Except TableFault Ty :=
  if ty.isVoid then .ok .void else t.resolve ty

/-- A type followed by its superclasses, nearest first. -/
def ancestors (t : Table) (name : String) : List TypeInfo := climb t.types name

/-- Whether climbing from a name comes to a type that is not in `unvisited`, though it is
in the table. -/
def revisits (t : Table) (unvisited : List TypeInfo) (name : String) : Bool :=
  match _ : findType unvisited name with
  | none => t.contains name
  | some info =>
    match info.superclass with
    | none => false
    | some parent => t.revisits (dropType unvisited name) parent
termination_by unvisited.length
decreasing_by exact length_dropType_lt ‹_›

/-- Whether climbing from a name comes to some type twice. -/
def hasCycle (t : Table) (name : String) : Bool := t.revisits t.types name

/-- Whether climbing from a type leads back to it. -/
def extendsItself (t : Table) (name : String) : Bool :=
  match (t.find? name).bind TypeInfo.superclass with
  | some parent => (t.ancestors parent).any fun info => info.name == name
  | none => false

/-- The property of a name on a class or its nearest superclass that has one, with its
owner. -/
def findProperty (t : Table) (className name : String) : Option (TypeInfo × PropertyInfo) :=
  (t.ancestors className).findSome? fun owner =>
    (owner.properties.find? name).map fun p => (owner, p)

/-- Add the methods of a name on `owner` that are not overridden by those in `found`. -/
def addMethods (name : String) (found : List (TypeInfo × MethodInfo)) (owner : TypeInfo) :
    List (TypeInfo × MethodInfo) :=
  owner.methods.values.foldl (fun found m =>
    if m.name = name ∧ m.isConstructor = false ∧
        found.all (fun f => f.2.signature != m.signature) = true then found ++ [(owner, m)]
    else found) found

/-- The methods of a name that are visible on a type, nearest override first. -/
def methodsNamed (t : Table) (type name : String) : List (TypeInfo × MethodInfo) :=
  (t.ancestors type).foldl (addMethods name) []

/-- Whether a type is another one, extends it, or implements it somewhere on the way up. -/
def isSubtype (t : Table) (sub sup : String) : Bool :=
  (t.ancestors sub).any fun info => info.name == sup || info.interface == some sup

/-- Whether a value of one type may be stored where another one is declared. -/
def isAssignable (t : Table) (source target : Ty) : Bool :=
  if source = target then true
  else if source.isNull then target.isReference
  else if source.isArray || target.isArray then false
  else if source.name == "char" && target.name == "int" then true
  else if source.isInteger || target.isInteger then false
  else t.isSubtype source.name target.name

/-- Whether arguments may be passed for parameters. -/
def accepts (t : Table) (params args : List Ty) : Bool :=
  params.length == args.length && (params.zip args).all fun (p, a) => t.isAssignable a p

/-- The method that a call means, with its owner. -/
def resolveMethod (t : Table) (type name : String) (args : List Ty) :
    Option (TypeInfo × MethodInfo) :=
  let candidates := t.methodsNamed type name
  (candidates.find? fun c => c.2.signature == signatureText name args).or
    (candidates.find? fun c => t.accepts c.2.params args)

/-- The constructor that a creation means. -/
def resolveConstructor (t : Table) (className : String) (args : List Ty) : Option MethodInfo :=
  (t.find? className).bind fun info =>
    (info.constructors.find? fun m => m.signature == signatureText className args).or
      (info.constructors.find? fun m => t.accepts m.params args)

end Table

end Javelet.Types
