import Javelet.Diagnostic
import Javelet.Proofs.Syntax.Induction
import Javelet.Syntax.Declaration

/-!
# Trees with other marks

The nodes of a tree are marked with positions, and some of them with numbers. `Marks` gives each
mark another one; what a tree says stays the same. Without marks, two trees are the same exactly if
they say the same.
-/
namespace Javelet

/-- New positions and new numbers for the nodes of a tree. -/
structure Marks where
  position : Position → Position
  node : NodeId → NodeId

namespace Marks

/-- All marks are the same ones. -/
def none : Marks := ⟨fun _ => .start, fun _ => 0⟩

@[simp] theorem position_none (p : Position) : none.position p = .start := rfl

@[simp] theorem node_none (id : NodeId) : none.node id = 0 := rfl

/-- New positions alone; the numbers stay. -/
def moved (position : Position → Position) : Marks := ⟨position, id⟩

@[simp] theorem position_moved (position : Position → Position) (p : Position) :
    (moved position).position p = position p := rfl

@[simp] theorem node_moved (position : Position → Position) (id : NodeId) :
    (moved position).node id = id := rfl

/-- All positions are the same one; the numbers stay. -/
def unplaced : Marks := moved fun _ => .start

end Marks

variable (m : Marks)

/-! ## Expressions -/

mutual

@[simp] def Expr.marked : Expr → Expr
  | .literal p value => .literal (m.position p) value
  | .binary op left right => .binary op left.marked right.marked
  | .access chain => .access chain.marked
  | .newObject p className args => .newObject (m.position p) className (markedExprs args)
  | .newArray p element length => .newArray (m.position p) element length.marked

@[simp] def markedExprs : List Expr → List Expr
  | [] => []
  | e :: rest => e.marked :: markedExprs rest

@[simp] def Chain.marked : Chain → Chain
  | .mk head links => .mk head.marked (markedLinks links)

@[simp] def Head.marked : Head → Head
  | .this p => .this (m.position p)
  | .name p name => .name (m.position p) name
  | .call p name args => .call (m.position p) name (markedExprs args)

@[simp] def Link.marked : Link → Link
  | .field p name => .field (m.position p) name
  | .call p name args => .call (m.position p) name (markedExprs args)
  | .index p index => .index (m.position p) index.marked

@[simp] def markedLinks : List Link → List Link
  | [] => []
  | l :: rest => l.marked :: markedLinks rest

end

@[simp] theorem markedExprs_eq (es : List Expr) : markedExprs m es = es.map (Expr.marked m) := by
  induction es with
  | nil => rw [markedExprs, List.map_nil]
  | cons e rest ih => rw [markedExprs, ih, List.map_cons]

@[simp] theorem markedLinks_eq (ls : List Link) : markedLinks m ls = ls.map (Link.marked m) := by
  induction ls with
  | nil => rw [markedLinks, List.map_nil]
  | cons l rest ih => rw [markedLinks, ih, List.map_cons]

@[simp] theorem Head.position_marked (h : Head) : (h.marked m).position = m.position h.position := by
  cases h <;> rw [Head.marked] <;> rfl

@[simp] theorem Link.position_marked (l : Link) : (l.marked m).position = m.position l.position := by
  cases l <;> rw [Link.marked] <;> rfl

@[simp] theorem Chain.position_marked (c : Chain) :
    (c.marked m).position = m.position c.position := by
  obtain ⟨head, links⟩ := c
  rw [Chain.marked]
  exact head.position_marked m

@[simp] theorem Expr.position_marked (e : Expr) : (e.marked m).position = m.position e.position := by
  induction e using Expr.induction with
  | literal p value => rfl
  | binary op left right ihl _ => exact ihl
  | access head links _ _ => exact (Chain.mk head links).position_marked m
  | newObject p className args _ => rfl
  | newArray p element length _ => rfl

@[simp] theorem Chain.isAssignable_marked (c : Chain) :
    (c.marked m).isAssignable = c.isAssignable := by
  obtain ⟨head, links⟩ := c
  simp only [Chain.marked, markedLinks_eq, Chain.isAssignable, Chain.links, Chain.head,
    List.getLast?_map]
  cases links.getLast? with
  | none => cases head <;> simp
  | some l => cases l <;> simp

@[simp] theorem Chain.isCall_marked (c : Chain) : (c.marked m).isCall = c.isCall := by
  obtain ⟨head, links⟩ := c
  simp only [Chain.marked, markedLinks_eq, Chain.isCall, Chain.links, Chain.head,
    List.getLast?_map]
  cases links.getLast? with
  | none => cases head <;> simp
  | some l => cases l <;> simp

/-! ## Statements -/

@[simp] def Assignment.marked (a : Assignment) : Assignment :=
  ⟨a.op, a.target.marked m, a.value.marked m⟩

@[simp] def Variable.marked (v : Variable) : Variable :=
  ⟨m.position v.position, v.type, v.name, v.value.map (Expr.marked m)⟩

@[simp] def ForInit.marked : ForInit → ForInit
  | declaration v => .declaration (v.marked m)
  | assignment a => .assignment (a.marked m)

@[simp] def Action.marked : Action → Action
  | assignment a => .assignment (a.marked m)
  | call chain => .call (chain.marked m)

@[simp] def Jump.marked : Jump → Jump
  | return_ value => .return_ (value.map (Expr.marked m))
  | break_ => .break_
  | continue_ => .continue_

mutual

@[simp] def Statement.marked : Statement → Statement
  | .block body => .block body.marked
  | .conditional p condition body otherwise =>
    .conditional (m.position p) (condition.marked m) body.marked (markedOtherwise otherwise)
  | .whileLoop p condition body =>
    .whileLoop (m.position p) (condition.marked m) body.marked
  | .forLoop p id init condition update body =>
    .forLoop (m.position p) (m.node id) (init.map (ForInit.marked m))
      (condition.map (Expr.marked m)) (update.map (Action.marked m)) body.marked
  | .switch p id selector cases default_ =>
    .switch (m.position p) (m.node id) (selector.marked m) (markedCases cases)
      (markedDefault default_)
  | .jump p jump => .jump (m.position p) (jump.marked m)
  | .action action => .action (action.marked m)
  | .declaration v => .declaration (v.marked m)

@[simp] def markedOtherwise : Option Statement → Option Statement
  | none => none
  | some s => some s.marked

@[simp] def Block.marked : Block → Block
  | .mk id p statements => .mk (m.node id) (m.position p) (markedStatements statements)

@[simp] def Case.marked : Case → Case
  | .mk p labelPosition label body =>
    .mk (m.position p) (m.position labelPosition) label body.marked

@[simp] def markedCases : List Case → List Case
  | [] => []
  | c :: rest => c.marked :: markedCases rest

@[simp] def markedDefault : Option Block → Option Block
  | none => none
  | some b => some b.marked

@[simp] def markedStatements : List Statement → List Statement
  | [] => []
  | s :: rest => s.marked :: markedStatements rest

end

@[simp] theorem markedOtherwise_eq (s : Option Statement) :
    markedOtherwise m s = s.map (Statement.marked m) := by
  cases s with
  | none => rw [markedOtherwise, Option.map_none]
  | some s => rw [markedOtherwise, Option.map_some]

@[simp] theorem markedDefault_eq (b : Option Block) :
    markedDefault m b = b.map (Block.marked m) := by
  cases b with
  | none => rw [markedDefault, Option.map_none]
  | some b => rw [markedDefault, Option.map_some]

@[simp] theorem markedStatements_eq (ss : List Statement) :
    markedStatements m ss = ss.map (Statement.marked m) := by
  induction ss with
  | nil => rw [markedStatements, List.map_nil]
  | cons s rest ih => rw [markedStatements, ih, List.map_cons]

@[simp] theorem markedCases_eq (cs : List Case) : markedCases m cs = cs.map (Case.marked m) := by
  induction cs with
  | nil => rw [markedCases, List.map_nil]
  | cons c rest ih => rw [markedCases, ih, List.map_cons]

@[simp] theorem Block.statements_marked (b : Block) :
    (b.marked m).statements = b.statements.map (Statement.marked m) := by
  obtain ⟨id, p, body⟩ := b
  rw [Block.marked, Block.statements, markedStatements_eq, Block.statements]

/-! ## Declarations -/

@[simp] def Parameter.marked (p : Parameter) : Parameter := ⟨m.position p.position, p.type, p.name⟩

@[simp] def Signature.marked (s : Signature) : Signature :=
  { s with
    id := m.node s.id
    params := s.params.map (Parameter.marked m)
    position := m.position s.position }

@[simp] theorem Signature.paramTypes_marked (s : Signature) :
    (s.marked m).paramTypes = s.paramTypes := by
  rw [paramTypes, paramTypes, marked, List.map_map]
  rfl

@[simp] theorem Signature.text_marked (s : Signature) : (s.marked m).text = s.text := by
  rw [text, text, paramTypes_marked]
  rfl

@[simp] def Method.marked (d : Method) : Method := ⟨d.signature.marked m, d.body.marked m⟩

@[simp] def Property.marked (p : Property) : Property := ⟨p.access, p.variable_.marked m⟩

@[simp] def ClassDecl.marked (d : ClassDecl) : ClassDecl :=
  { d with
    id := m.node d.id
    properties := d.properties.map (Property.marked m)
    constructors := d.constructors.map (Method.marked m)
    methods := d.methods.map (Method.marked m)
    main := d.main.map (Method.marked m)
    position := m.position d.position }

@[simp] def InterfaceDecl.marked (d : InterfaceDecl) : InterfaceDecl :=
  { d with
    id := m.node d.id
    methods := d.methods.map (Signature.marked m)
    position := m.position d.position }

@[simp] def TypeDecl.marked : TypeDecl → TypeDecl
  | class_ d => .class_ (d.marked m)
  | interface d => .interface (d.marked m)

@[simp] def Program.marked (p : Program) : Program := ⟨p.declarations.map (TypeDecl.marked m)⟩

/-! ## Faults -/

/-- A cause at a new position. -/
@[simp] def Located.marked {F : Type} (l : Located F) : Located F := ⟨l.fault, m.position l.position⟩

end Javelet
