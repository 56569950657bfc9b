import Javelet.Lowering.Declaration
import Javelet.Proofs.Syntax.Places

/-!
# The visits of the lowering

Lowering comes to each place of a method in surroundings that tell the scope from which names are
looked up. It enters a scope where a node has one attached, and leaves it behind the node. The
lists below follow the lowering of statements; the targets of jumps in the surroundings do not
matter for names and are left out of them.
-/
namespace Javelet.Lowering

/-- A place and the surroundings in which the lowering comes to it. -/
structure Visit where
  place : Place
  env : Env

namespace Env

/-- Visits in the same surroundings. -/
def seen (env : Env) (places : List Place) : List Visit := places.map fun place => ⟨place, env⟩

mutual

/-- The visits of the lowering of a statement. -/
def visits (env : Env) : Statement → List Visit
  | .block b => env.seen (Statement.block b).own ++ blockVisits env b
  | .conditional p e body otherwise =>
    env.seen (Statement.conditional p e body otherwise).own ++
      (visits env body ++ otherwiseVisits env otherwise)
  | .whileLoop p e body => env.seen (Statement.whileLoop p e body).own ++ visits env body
  | .forLoop p id init e update body =>
    env.seen (Statement.forLoop p id init e update body).own ++
      ((env.enter id).seen (initPlaces init) ++ ((env.enter id).seen (conditionPlaces e) ++
        ((env.enter id).seen (updatePlaces update) ++ visits (env.enter id) body)))
  | .switch p id e cases default_ =>
    env.seen (Statement.switch p id e cases default_).own ++
      (caseVisits env cases ++ defaultVisits env default_)
  | .jump p j => env.seen (Statement.jump p j).own
  | .action a => env.seen (Statement.action a).own
  | .declaration v => env.seen (Statement.declaration v).own

def otherwiseVisits (env : Env) : Option Statement → List Visit
  | none => []
  | some s => visits env s

def statementVisits (env : Env) : List Statement → List Visit
  | [] => []
  | s :: rest => visits env s ++ statementVisits env rest

def blockVisits (env : Env) : Block → List Visit
  | .mk id _ body => statementVisits (env.enter id) body

def caseVisits (env : Env) : List Case → List Visit
  | [] => []
  | .mk _ _ _ body :: rest => blockVisits env body ++ caseVisits env rest

def defaultVisits (env : Env) : Option Block → List Visit
  | none => []
  | some b => blockVisits env b

end

theorem map_place_seen (env : Env) (places : List Place) :
    (env.seen places).map Visit.place = places := by
  rw [seen, List.map_map]
  exact List.map_id _

mutual

/-- The lowering comes to all places of a statement, to each of them once. -/
theorem map_place_visits (env : Env) (s : Statement) :
    (env.visits s).map Visit.place = s.places := by
  match s with
  | .block b =>
    rw [visits, Statement.places, List.map_append, map_place_seen, map_place_blockVisits]
  | .conditional p e body otherwise =>
    rw [visits, Statement.places, List.map_append, List.map_append, map_place_seen,
      map_place_visits, map_place_otherwiseVisits]
  | .whileLoop p e body =>
    rw [visits, Statement.places, List.map_append, map_place_seen, map_place_visits]
  | .forLoop p id init e update body =>
    simp only [visits, Statement.places, List.map_append, map_place_seen]
    rw [map_place_visits]
  | .switch p id e cases default_ =>
    rw [visits, Statement.places, List.map_append, List.map_append, map_place_seen,
      map_place_caseVisits, map_place_defaultVisits]
  | .jump p j => rw [visits, Statement.places, map_place_seen]
  | .action a => rw [visits, Statement.places, map_place_seen]
  | .declaration v => rw [visits, Statement.places, map_place_seen]

theorem map_place_otherwiseVisits (env : Env) (s : Option Statement) :
    (env.otherwiseVisits s).map Visit.place = otherwisePlaces s := by
  match s with
  | none => rw [otherwiseVisits, otherwisePlaces, List.map_nil]
  | some s => rw [otherwiseVisits, otherwisePlaces, map_place_visits]

theorem map_place_statementVisits (env : Env) (ss : List Statement) :
    (env.statementVisits ss).map Visit.place = statementPlaces ss := by
  match ss with
  | [] => rw [statementVisits, statementPlaces, List.map_nil]
  | s :: rest =>
    rw [statementVisits, statementPlaces, List.map_append, map_place_visits,
      map_place_statementVisits]

theorem map_place_blockVisits (env : Env) (b : Block) :
    (env.blockVisits b).map Visit.place = b.places := by
  match b with
  | .mk id p body => rw [blockVisits, Block.places, map_place_statementVisits]

theorem map_place_caseVisits (env : Env) (cases : List Case) :
    (env.caseVisits cases).map Visit.place = casePlaces cases := by
  match cases with
  | [] => rw [caseVisits, casePlaces, List.map_nil]
  | .mk _ _ _ body :: rest =>
    rw [caseVisits, casePlaces, List.map_append, map_place_blockVisits, map_place_caseVisits]

theorem map_place_defaultVisits (env : Env) (b : Option Block) :
    (env.defaultVisits b).map Visit.place = defaultPlaces b := by
  match b with
  | none => rw [defaultVisits, defaultPlaces, List.map_nil]
  | some b => rw [defaultVisits, defaultPlaces, map_place_blockVisits]

end

/-! ## Declarations -/

/-- The tour over the initial values of a class, from the surroundings of its members. -/
def valueTour (env : Env) (d : ClassDecl) : Tour Visit :=
  ⟨d.id, env.seen (d.values.flatMap Expr.places ++ [.boundary d])⟩

/-- The tour over the body of a method. -/
def methodTour (env : Env) (d : ClassDecl) (m : Method) : Tour Visit :=
  ⟨m.signature.id, (env.enter m.signature.id).blockVisits m.body ++ [⟨.boundary d, env⟩]⟩

/-- The tours to each of the methods that a class is lowered to. The initial values are lowered anew
for each constructor, and for the one of a class that declares none. -/
def blockTours (env : Env) (d : ClassDecl) : List (List (Tour Visit)) :=
  let env := classEnv env d
  d.constructors.map (fun m => [env.valueTour d, env.methodTour d m]) ++
    (d.methods ++ d.main.toList).map (fun m => [env.methodTour d m]) ++
    if d.constructors.isEmpty then [[env.valueTour d]] else []

def classTours (env : Env) (d : ClassDecl) : List (Tour Visit) := (env.blockTours d).flatten

def declarationTours (env : Env) : TypeDecl → List (Tour Visit)
  | .class_ d => env.classTours d
  | .interface _ => []

end Env

/-- The tours of the lowering of a program. -/
def tours (table : Types.Table) (arena : Arena) (p : Program) : List (Tour Visit) :=
  p.declarations.flatMap (Env.outermost table arena).declarationTours

end Javelet.Lowering
