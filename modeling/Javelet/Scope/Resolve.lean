import Javelet.Scope.Usage
import Javelet.Syntax.Declaration

/-!
# Resolving names

The walk over a program opens a scope for each type, method, block, case body and for loop
with a declaration, gives slots to parameters, local variables and switches, and checks
every use of a name against the scopes as they are filled at that point. Every fault is
reported and the arena is always finished.
-/
namespace Javelet.Scope

/-- The scopes so far, the faults so far and the next free slot of the current method. -/
structure Resolved where
  arena : Arena
  faults : Array (Located Fault)
  nextSlot : Nat

/-- What is declared in a slot by name. -/
inductive LocalKind where
  | parameter | variable
  deriving DecidableEq, Repr

/-- The fault of declaring a name twice in one scope. -/
def LocalKind.clash : LocalKind → String → Fault
  | .parameter => .parameterDeclared
  | .variable => .variableDeclared

namespace Resolved

def report (r : Resolved) (faults : List (Located Fault)) : Resolved :=
  { r with faults := r.faults ++ faults }

/-- Check an expression. -/
def expr (ctx : Context) (r : Resolved) (e : Expr) : Resolved :=
  r.report (exprFaults ctx r.arena e)

/-- Open a scope and attach it to its node. -/
def enter (r : Resolved) (parent : ScopeId) (name : String) (kind : Kind) (node : NodeId) :
    Resolved × ScopeId :=
  let id := r.arena.size
  ({ r with arena := (r.arena.push name kind parent).attach node id }, id)

/-- Hand out the next slot. -/
def allocate (r : Resolved) (p : Position) : Resolved × Option Nat :=
  if r.nextSlot < slotLimit then ({ r with nextSlot := r.nextSlot + 1 }, some r.nextSlot)
  else (r.report [⟨.tooManyLocals, p⟩], none)

/-- Declare a parameter or a local variable in a scope. -/
def declare (r : Resolved) (scope : ScopeId) (kind : LocalKind) (name : String) (ty : Ty)
    (p : Position) : Resolved :=
  if (r.arena.lookupLocal scope name).isSome then r.report [⟨kind.clash name, p⟩]
  else
    match r.allocate p with
    | (r, none) => r
    | (r, some slot) => { r with arena := r.arena.put scope name ⟨.variable ty, some slot⟩ }

/-- Declare parameters from left to right. -/
def params (scope : ScopeId) (r : Resolved) (ps : List Parameter) : Resolved :=
  ps.foldl (fun r param => r.declare scope .parameter param.name param.type param.position) r

/-- Declare a local variable. Its initial value does not see it, and a variable of an unknown
type is declared all the same. -/
def variable_ (ctx : Context) (r : Resolved) (v : Variable) : Resolved :=
  let r := match v.value with
    | some value => r.expr ctx value
    | none => r
  (r.report (faultAt (ctx.typeFault v.type) v.position)).declare
    ctx.scope .variable v.name v.type v.position

/-- Open the scope of a for loop, if it declares a variable. A body in braces shares it. -/
def enterLoop (ctx : Context) (r : Resolved) (node : NodeId) (init : Option ForInit)
    (body : Statement) : Resolved × Context :=
  match init with
  | some (.declaration _) =>
    let (r, scope) := r.enter ctx.scope "for" .loop node
    let r := match body with
      | .block b => { r with arena := r.arena.attach b.id scope }
      | _ => r
    (r, { ctx with scope := scope })
  | _ => (r, ctx)

/-- Resolve the first part of a for loop. -/
def loopInit (ctx : Context) (r : Resolved) : Option ForInit → Resolved
  | some (.declaration v) => r.variable_ ctx v
  | some (.assignment a) => r.report (assignmentFaults ctx r.arena a)
  | none => r

/-- Resolve the condition and the update of a for loop. -/
def loopControl (ctx : Context) (r : Resolved) (condition : Option Expr)
    (update : Option Action) : Resolved :=
  let r := match condition with
    | some e => r.expr ctx e
    | none => r
  match update with
  | some action => r.report (actionFaults ctx r.arena action)
  | none => r

/-- Resolve the selector of a switch and reserve its hidden slot. -/
def selector (ctx : Context) (r : Resolved) (node : NodeId) (e : Expr) : Resolved :=
  match (r.expr ctx e).allocate e.position with
  | (r, none) => r
  | (r, some slot) => { r with arena := r.arena.reserve node slot }

mutual

def statement (ctx : Context) (r : Resolved) : Statement → Resolved
  | .block body => block ctx .block r body
  | .conditional _ condition body otherwise =>
    optionalStatement ctx (statement ctx (r.expr ctx condition) body) otherwise
  | .whileLoop _ condition body => statement ctx (r.expr ctx condition) body
  | .forLoop _ id init condition update body =>
    let (r, inner) := r.enterLoop ctx id init body
    statement inner ((r.loopInit inner init).loopControl inner condition update) body
  | .switch _ id e cases default_ =>
    optionalBlock ctx (caseBodies ctx (r.selector ctx id e) cases) default_
  | .jump _ jump => r.report (jumpFaults ctx r.arena jump)
  | .action action => r.report (actionFaults ctx r.arena action)
  | .declaration v => r.variable_ ctx v

def optionalStatement (ctx : Context) (r : Resolved) : Option Statement → Resolved
  | none => r
  | some s => statement ctx r s

def statements (ctx : Context) (r : Resolved) : List Statement → Resolved
  | [] => r
  | s :: rest => statements ctx (statement ctx r s) rest

/-- Resolve a block in the scope attached to it, or in a scope of its own. -/
def block (ctx : Context) (kind : Kind) (r : Resolved) : Block → Resolved
  | .mk id _ body =>
    match r.arena.scopeOf id with
    | some scope => statements { ctx with scope := scope } r body
    | none =>
      let (r, scope) := r.enter ctx.scope "block" kind id
      statements { ctx with scope := scope } r body

def optionalBlock (ctx : Context) (r : Resolved) : Option Block → Resolved
  | none => r
  | some b => block ctx .case r b

def caseBodies (ctx : Context) (r : Resolved) : List Case → Resolved
  | [] => r
  | .mk _ _ _ body :: rest => caseBodies ctx (block ctx .case r body) rest

end

/-- Resolve a method. Its body shares a scope with the parameters; slot 0 holds the receiver
where there is one. -/
def method (ctx : Context) (r : Resolved) (m : Method) : Resolved :=
  let header := m.signature
  let (r, scope) := r.enter ctx.scope header.text .method header.id
  let ctx := { ctx with isStatic := header.isStatic, scope := scope }
  let r := { r with
    arena := r.arena.attach m.body.id scope
    nextSlot := if header.isStatic then 0 else 1 }
  let r := statements ctx (params scope r header.params) m.body.statements
  { r with arena := r.arena.setLocals header.id r.nextSlot }

/-- Enter the members of a class into its scope. -/
def members (info : Types.TypeInfo) (scope : ScopeId) (arena : Arena) : Arena :=
  let arena := info.properties.values.foldl (fun arena p =>
    arena.insertNew scope p.name ⟨.variable p.type, none⟩) arena
  info.methods.values.foldl (fun arena m =>
    arena.insertNew scope m.signature ⟨.method m.returns, none⟩) arena

/-- Resolve a class: the initial values of its properties, then its constructors, its
methods and the entry point. -/
def class_ (table : Types.Table) (r : Resolved) (decl : ClassDecl) : Resolved :=
  let (r, scope) := r.enter Arena.root decl.name .class_ decl.id
  let r := match table.find? decl.name with
    | some info => { r with arena := members info scope r.arena }
    | none => r
  let ctx : Context := ⟨table, decl.name, false, scope⟩
  let r := (decl.properties.filterMap fun p => p.variable_.value).foldl (expr ctx) r
  (decl.constructors ++ decl.methods ++ decl.main.toList).foldl (method ctx) r

/-- Resolve a method header of an interface. -/
def abstractMethod (scope : ScopeId) (r : Resolved) (header : Signature) : Resolved :=
  let (r, scope) := r.enter scope header.text .method header.id
  let r := params scope { r with nextSlot := 1 } header.params
  { r with arena := r.arena.setLocals header.id r.nextSlot }

def interface (r : Resolved) (decl : InterfaceDecl) : Resolved :=
  let (r, scope) := r.enter Arena.root decl.name .interface decl.id
  decl.methods.foldl (abstractMethod scope) r

def declaration (table : Types.Table) (r : Resolved) : TypeDecl → Resolved
  | .class_ decl => r.class_ table decl
  | .interface decl => r.interface decl

end Resolved

/-- The arena that holds the names of all declared types. -/
def typeNames (program : Program) : Arena :=
  program.declarations.foldl (fun arena decl =>
    arena.insertNew Arena.root decl.name ⟨.type, none⟩) .initial

/-- The scopes of a program and all faults in its use of names. -/
def resolve (program : Program) (table : Types.Table) : Resolved :=
  program.declarations.foldl (Resolved.declaration table) ⟨typeNames program, #[], 0⟩

end Javelet.Scope
