import Javelet.Proofs.Syntax.Induction
import Javelet.Syntax.Declaration

/-!
# The places of a program

A pass over a program visits statements, expressions and the targets of assignments. The places of
a statement are listed in reading order, each part behind the whole. What stands in a statement
itself, such as its condition, is separate from the statements inside of it, since these may be
visited in other surroundings. The first part and the update of a for loop count as statements.
-/
namespace Javelet

/-- What a pass visits. -/
inductive Place where
  | statement (s : Statement)
  | target (c : Chain)
  | expr (e : Expr)
  /-- The place behind a member of a class. -/
  | boundary (d : ClassDecl)

mutual

/-- The expressions in an expression, with itself. -/
def Expr.parts : Expr → List Expr
  | .literal p value => [.literal p value]
  | .binary op left right => .binary op left right :: (left.parts ++ right.parts)
  | .access c => .access c :: c.parts
  | .newObject p className args => .newObject p className args :: exprParts args
  | .newArray p element length => .newArray p element length :: length.parts

def exprParts : List Expr → List Expr
  | [] => []
  | e :: rest => e.parts ++ exprParts rest

/-- The expressions in an access chain. -/
def Chain.parts : Chain → List Expr
  | .mk head links => head.parts ++ linkParts links

def Head.parts : Head → List Expr
  | .this _ => []
  | .name _ _ => []
  | .call _ _ args => exprParts args

def Link.parts : Link → List Expr
  | .field _ _ => []
  | .call _ _ args => exprParts args
  | .index _ e => e.parts

def linkParts : List Link → List Expr
  | [] => []
  | l :: rest => l.parts ++ linkParts rest

end

attribute [local simp] Expr.parts exprParts Chain.parts Head.parts Link.parts linkParts

theorem exprParts_eq (es : List Expr) : exprParts es = es.flatMap Expr.parts := by
  induction es with
  | nil => simp
  | cons e es ih => simp [ih]

theorem Head.parts_eq (h : Head) : h.parts = h.operands.flatMap Expr.parts := by
  cases h with
  | this p => simp [Head.operands]
  | name p name => simp [Head.operands]
  | call p name args => simp [Head.operands, exprParts_eq]

theorem Link.parts_eq (l : Link) : l.parts = l.operands.flatMap Expr.parts := by
  cases l with
  | field p name => simp [Link.operands]
  | call p name args => simp [Link.operands, exprParts_eq]
  | index p e => simp [Link.operands]

theorem linkParts_eq (ls : List Link) :
    linkParts ls = (ls.flatMap Link.operands).flatMap Expr.parts := by
  induction ls with
  | nil => rw [linkParts, List.flatMap_nil, List.flatMap_nil]
  | cons l ls ih => rw [linkParts, List.flatMap_cons, List.flatMap_append, ih, Link.parts_eq]

/-- The expressions right below an access chain. -/
def Chain.operands (c : Chain) : List Expr := c.head.operands ++ c.links.flatMap Link.operands

theorem Chain.parts_eq (c : Chain) : c.parts = c.operands.flatMap Expr.parts := by
  obtain ⟨head, links⟩ := c
  rw [Chain.parts, Head.parts_eq, linkParts_eq, ← List.flatMap_append]
  rfl

def Expr.places (e : Expr) : List Place := e.parts.map .expr

theorem places_parts (es : List Expr) :
    (es.flatMap Expr.parts).map Place.expr = es.flatMap Expr.places :=
  List.map_flatMap

@[simp] theorem Expr.places_literal (p : Position) (value : Literal) :
    (literal p value).places = [.expr (literal p value)] := by
  rw [places, parts]
  rfl

@[simp] theorem Expr.places_binary (op : BinaryOp) (left right : Expr) :
    (binary op left right).places =
      .expr (binary op left right) :: (left.places ++ right.places) := by
  rw [places, parts, List.map_cons, List.map_append]
  rfl

@[simp] theorem Expr.places_access (c : Chain) :
    (access c).places = .expr (access c) :: c.operands.flatMap Expr.places := by
  rw [places, parts, List.map_cons, Chain.parts_eq, places_parts]

@[simp] theorem Expr.places_newObject (p : Position) (className : String) (args : List Expr) :
    (newObject p className args).places =
      .expr (newObject p className args) :: args.flatMap Expr.places := by
  rw [places, parts, List.map_cons, exprParts_eq, places_parts]

@[simp] theorem Expr.places_newArray (p : Position) (element : String) (length : Expr) :
    (newArray p element length).places = .expr (newArray p element length) :: length.places := by
  rw [places, parts, List.map_cons]
  rfl

/-- The places of an action without itself. -/
def Action.places : Action → List Place
  | assignment a => .target a.target :: (a.target.operands ++ [a.value]).flatMap Expr.places
  | call c => (Expr.access c).places

/-- The name at the head of the chain that stands at a place. -/
def Place.name? : Place → Option String
  | expr (.access (.mk (.name _ name) _)) => some name
  | target (.mk (.name _ name) _) => some name
  | _ => none

theorem Place.name?_eq_some {place : Place} {name : String} (h : place.name? = some name) :
    (∃ p ls, place = expr (.access (.mk (.name p name) ls))) ∨
      ∃ p ls, place = target (.mk (.name p name) ls) := by
  unfold name? at h
  split at h
  · cases h
    exact .inl ⟨_, _, rfl⟩
  · cases h
    exact .inr ⟨_, _, rfl⟩
  · cases h

/-- A place where a local variable is declared. -/
def Place.isDeclaration : Place → Bool
  | statement (.declaration _) => true
  | _ => false

def Place.isSwitch : Place → Bool
  | statement (.switch _ _ _ _ _) => true
  | _ => false

/-- Local variables and switches are given slots. -/
def Place.takesSlot (place : Place) : Bool := place.isDeclaration || place.isSwitch

theorem Expr.takesSlot_places (e : Expr) : ∀ place ∈ e.places, place.takesSlot = false := by
  intro place hplace
  obtain ⟨part, -, rfl⟩ := List.mem_map.1 hplace
  rfl

theorem takesSlot_flatMap_places (es : List Expr) :
    ∀ place ∈ es.flatMap Expr.places, place.takesSlot = false := by
  intro place hplace
  obtain ⟨e, -, hplace⟩ := List.mem_flatMap.1 hplace
  exact e.takesSlot_places place hplace

theorem Action.takesSlot_places (a : Action) : ∀ place ∈ a.places, place.takesSlot = false := by
  cases a with
  | assignment a => exact List.forall_mem_cons.2 ⟨rfl, takesSlot_flatMap_places _⟩
  | call c => exact Expr.takesSlot_places _

/-- The places that belong to no statement inside of a statement: the statement and the
expressions that stand in it. The parts of a for loop are not among them. -/
def Statement.own (s : Statement) : List Place :=
  .statement s :: match s with
    | block _ => []
    | conditional _ e _ _ => e.places
    | whileLoop _ e _ => e.places
    | forLoop _ _ _ _ _ _ => []
    | switch _ _ e _ _ => e.places
    | jump _ (.return_ (some e)) => e.places
    | jump _ _ => []
    | action a => a.places
    | declaration v => v.value.toList.flatMap Expr.places

/-- The places of the first part of a for loop. -/
def initPlaces (init : Option ForInit) : List Place :=
  init.toList.flatMap fun i => i.asStatement.own

def conditionPlaces (condition : Option Expr) : List Place :=
  condition.toList.flatMap Expr.places

def updatePlaces (update : Option Action) : List Place :=
  update.toList.flatMap fun a => (Statement.action a).own

mutual

/-- All places of a statement. -/
def Statement.places : Statement → List Place
  | .block b => (Statement.block b).own ++ b.places
  | .conditional p e body otherwise =>
    (Statement.conditional p e body otherwise).own ++ (body.places ++ otherwisePlaces otherwise)
  | .whileLoop p e body => (Statement.whileLoop p e body).own ++ body.places
  | .forLoop p id init e update body =>
    (Statement.forLoop p id init e update body).own ++
      (initPlaces init ++ (conditionPlaces e ++ (updatePlaces update ++ body.places)))
  | .switch p id e cases default_ =>
    (Statement.switch p id e cases default_).own ++ (casePlaces cases ++ defaultPlaces default_)
  | .jump p j => (Statement.jump p j).own
  | .action a => (Statement.action a).own
  | .declaration v => (Statement.declaration v).own

def otherwisePlaces : Option Statement → List Place
  | none => []
  | some s => s.places

def statementPlaces : List Statement → List Place
  | [] => []
  | s :: rest => s.places ++ statementPlaces rest

/-- The places in a block. -/
def Block.places : Block → List Place
  | .mk _ _ body => statementPlaces body

def casePlaces : List Case → List Place
  | [] => []
  | .mk _ _ _ body :: rest => body.places ++ casePlaces rest

def defaultPlaces : Option Block → List Place
  | none => []
  | some b => b.places

end

/-- The initial values of the properties of a class. -/
def ClassDecl.values (d : ClassDecl) : List Expr :=
  d.properties.filterMap fun p => p.variable_.value

/-- The constructors and the methods of a class. -/
def ClassDecl.members (d : ClassDecl) : List Method := d.constructors ++ d.methods ++ d.main.toList

/-- What a pass visits on behalf of a node: the initial values on behalf of a class, and the body
on behalf of a method. -/
structure Tour (α : Type) where
  node : NodeId
  visits : List α

/-- The tours of a pass over a class, told by the places. -/
def ClassDecl.tours (d : ClassDecl) : List (Tour Place) :=
  ⟨d.id, d.values.flatMap Expr.places ++ [.boundary d]⟩ ::
    d.members.map fun m => ⟨m.signature.id, m.body.places ++ [.boundary d]⟩

end Javelet
