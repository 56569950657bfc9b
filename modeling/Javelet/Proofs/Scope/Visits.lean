import Javelet.Proofs.Scope.Declarations
import Javelet.Proofs.Syntax.Places

/-!
# The visits of the walk

The walk over a method comes to each place with a scope from which names are looked up, and with
the scopes as they are filled at that point. The lists below follow the walk, statement by
statement, and keep what it has at hand at each place.
-/
namespace Javelet.Scope

/-- A place, the surroundings in which the walk comes to it, and its state there. -/
structure Visit where
  place : Place
  ctx : Context
  state : Resolved

namespace Resolved

/-- Visits in the same surroundings. -/
def seen (ctx : Context) (r : Resolved) (places : List Place) : List Visit :=
  places.map fun place => ⟨place, ctx, r⟩

/-- The state and the surroundings inside of a block, whose scope may be there already. -/
def opened (ctx : Context) (kind : Kind) (r : Resolved) (b : Block) : Resolved × Context :=
  match r.arena.scopeOf b.id with
  | some scope => (r, { ctx with scope := scope })
  | none => ((r.enter ctx.scope "block" kind b.id).1, { ctx with scope := r.arena.size })

theorem block_eq (ctx : Context) (kind : Kind) (r : Resolved) (b : Block) :
    block ctx kind r b =
      statements (r.opened ctx kind b).2 (r.opened ctx kind b).1 b.statements := by
  obtain ⟨id, p, body⟩ := b
  rw [block, opened]
  show (match r.arena.scopeOf id with | some scope => _ | none => _) = _
  cases hscope : r.arena.scopeOf id with
  | some scope => simp only [Block.id, hscope, Block.statements]
  | none => simp only [Block.id, hscope, Block.statements, enter]

/-- The first part of a for loop is walked as a statement. -/
theorem loopInit_eq (ctx : Context) (r : Resolved) (i : ForInit) :
    r.loopInit ctx (some i) = statement ctx r i.asStatement := by
  cases i with
  | declaration v => rw [ForInit.asStatement, statement, loopInit]
  | assignment a =>
    rw [ForInit.asStatement, statement, loopInit]
    rfl

/-- The update of a for loop is walked as a statement, behind the condition. -/
theorem loopControl_eq (ctx : Context) (r : Resolved) (e : Option Expr) (a : Action) :
    r.loopControl ctx e (some a) = statement ctx (r.loopControl ctx e none) (.action a) := by
  rw [statement]
  rfl

mutual

/-- The visits of the walk over a statement. -/
def visits (ctx : Context) (r : Resolved) : Statement → List Visit
  | .block b => r.seen ctx (Statement.block b).own ++ blockVisits ctx .block r b
  | .conditional p e body otherwise =>
    r.seen ctx (Statement.conditional p e body otherwise).own ++
      (visits ctx (r.expr ctx e) body ++
        otherwiseVisits ctx (statement ctx (r.expr ctx e) body) otherwise)
  | .whileLoop p e body =>
    r.seen ctx (Statement.whileLoop p e body).own ++ visits ctx (r.expr ctx e) body
  | .forLoop p id init e update body =>
    let inner := (r.enterLoop ctx id init body).2
    let atInit := (r.enterLoop ctx id init body).1
    let atCondition := atInit.loopInit inner init
    let atUpdate := atCondition.loopControl inner e none
    r.seen ctx (Statement.forLoop p id init e update body).own ++
      (atInit.seen inner (initPlaces init) ++ (atCondition.seen inner (conditionPlaces e) ++
        (atUpdate.seen inner (updatePlaces update) ++
          visits inner (atCondition.loopControl inner e update) body)))
  | .switch p id e cases default_ =>
    r.seen ctx (Statement.switch p id e cases default_).own ++
      (caseVisits ctx (r.selector ctx id e) cases ++
        defaultVisits ctx (caseBodies ctx (r.selector ctx id e) cases) default_)
  | .jump p j => r.seen ctx (Statement.jump p j).own
  | .action a => r.seen ctx (Statement.action a).own
  | .declaration v => r.seen ctx (Statement.declaration v).own

def otherwiseVisits (ctx : Context) (r : Resolved) : Option Statement → List Visit
  | none => []
  | some s => visits ctx r s

def statementVisits (ctx : Context) (r : Resolved) : List Statement → List Visit
  | [] => []
  | s :: rest => visits ctx r s ++ statementVisits ctx (statement ctx r s) rest

def blockVisits (ctx : Context) (kind : Kind) (r : Resolved) : Block → List Visit
  | .mk id p body =>
    statementVisits (r.opened ctx kind (.mk id p body)).2 (r.opened ctx kind (.mk id p body)).1 body

def caseVisits (ctx : Context) (r : Resolved) : List Case → List Visit
  | [] => []
  | .mk _ _ _ body :: rest =>
    blockVisits ctx .case r body ++ caseVisits ctx (block ctx .case r body) rest

def defaultVisits (ctx : Context) (r : Resolved) : Option Block → List Visit
  | none => []
  | some b => blockVisits ctx .case r b

end

/-! ## Declarations -/

/-- What is seen along a list that is walked from the left. -/
def along {α β : Type} (f : Resolved → α → Resolved) (see : Resolved → α → List β) :
    Resolved → List α → List β
  | _, [] => []
  | r, x :: xs => see r x ++ along f see (f r x) xs

/-- The state behind the initial values of a class. -/
def behindValues (table : Types.Table) (r : Resolved) (d : ClassDecl) : Resolved :=
  d.values.foldl (expr (classContext table r d)) (atClass table r d)

/-- The state behind the body of a method. -/
def behindBody (ctx : Context) (r : Resolved) (m : Method) : Resolved :=
  statements (bodyContext ctx r m) (atBody ctx r m) m.body.statements

/-- The tour over the initial values of a class. -/
def valueTour (table : Types.Table) (r : Resolved) (d : ClassDecl) : Tour Visit :=
  let ctx := classContext table r d
  ⟨d.id, along (expr ctx) (fun r e => r.seen ctx e.places) (atClass table r d) d.values ++
    [⟨.boundary d, ctx, behindValues table r d⟩]⟩

/-- The tour over the body of a method. -/
def methodTour (ctx : Context) (d : ClassDecl) (r : Resolved) (m : Method) : Tour Visit :=
  ⟨m.signature.id, statementVisits (bodyContext ctx r m) (atBody ctx r m) m.body.statements ++
    [⟨.boundary d, ctx, method ctx r m⟩]⟩

def classTours (table : Types.Table) (r : Resolved) (d : ClassDecl) : List (Tour Visit) :=
  let ctx := classContext table r d
  valueTour table r d ::
    along (method ctx) (fun r m => [methodTour ctx d r m]) (behindValues table r d) d.members

def declarationTours (table : Types.Table) (r : Resolved) : TypeDecl → List (Tour Visit)
  | .class_ d => classTours table r d
  | .interface _ => []

end Resolved

/-- The tours of the walk over a program. -/
def tours (program : Program) (table : Types.Table) : List (Tour Visit) :=
  Resolved.along (Resolved.declaration table) (Resolved.declarationTours table)
    ⟨typeNames program, #[], 0⟩ program.declarations

end Javelet.Scope
