import Javelet.Proofs.Scope.Visits
import Javelet.Proofs.Syntax.Marks

/-!
# Scopes and positions

The scopes and the slots of a program do not depend on the positions in its tree, and neither do the
faults in the use of names: they stand where the new positions are.
-/
namespace Javelet.Scope

variable (m : Marks) (ctx : Context) (arena : Arena)

/-! ## The use of names -/

theorem faultAt_marked (fault : Option Fault) (p : Position) :
    faultAt fault (m.position p) = (faultAt fault p).map (Located.marked m) := by
  cases fault <;> rfl

section Expressions

variable {m ctx arena}

theorem exprsFaults_marked {es : List Expr} (ih : ∀ e ∈ es,
    exprFaults ctx arena (e.marked m) = (exprFaults ctx arena e).map (Located.marked m)) :
    exprsFaults ctx arena (es.map (Expr.marked m)) =
      (exprsFaults ctx arena es).map (Located.marked m) := by
  induction es with
  | nil => rfl
  | cons e es ihes =>
    rw [List.forall_mem_cons] at ih
    rw [List.map_cons, exprsFaults, exprsFaults, ih.1, ihes ih.2, List.map_append]

theorem headFaults_marked {head : Head} (ih : ∀ e ∈ head.operands,
    exprFaults ctx arena (e.marked m) = (exprFaults ctx arena e).map (Located.marked m)) :
    headFaults ctx arena (head.marked m) =
      (headFaults ctx arena head).map (Located.marked m) := by
  cases head with
  | this p => exact faultAt_marked m _ _
  | name p name => exact faultAt_marked m _ _
  | call p name args =>
    have hargs : exprsFaults ctx arena (args.map (Expr.marked m)) =
        (exprsFaults ctx arena args).map (Located.marked m) := exprsFaults_marked ih
    rw [Head.marked, headFaults, headFaults, markedExprs_eq, hargs, List.map_append, faultAt_marked]
    rfl

theorem linksFaults_marked {links : List Link} (ih : ∀ l ∈ links, ∀ e ∈ Link.operands l,
    exprFaults ctx arena (e.marked m) = (exprFaults ctx arena e).map (Located.marked m)) :
    linksFaults ctx arena (links.map (Link.marked m)) =
      (linksFaults ctx arena links).map (Located.marked m) := by
  induction links with
  | nil => rfl
  | cons link links ihlinks =>
    rw [List.forall_mem_cons] at ih
    have hlink : linkFaults ctx arena (link.marked m) =
        (linkFaults ctx arena link).map (Located.marked m) := by
      cases link with
      | field p name => rfl
      | call p name args =>
        have hargs : exprsFaults ctx arena (args.map (Expr.marked m)) =
            (exprsFaults ctx arena args).map (Located.marked m) := exprsFaults_marked ih.1
        rw [Link.marked, linkFaults, linkFaults, markedExprs_eq, hargs]
      | index p index => exact ih.1 index (List.mem_singleton.2 rfl)
    rw [List.map_cons, linksFaults, linksFaults, hlink, ihlinks ih.2, List.map_append]

end Expressions

theorem exprFaults_marked (e : Expr) :
    exprFaults ctx arena (e.marked m) = (exprFaults ctx arena e).map (Located.marked m) := by
  induction e using Expr.induction with
  | literal p value => rfl
  | binary op left right ihl ihr =>
    rw [Expr.marked, exprFaults, exprFaults, ihl, ihr, List.map_append]
  | access head links ihh ihl =>
    rw [Expr.marked, Chain.marked, exprFaults, exprFaults, chainFaults, chainFaults,
      headFaults_marked ihh, markedLinks_eq, linksFaults_marked ihl, List.map_append]
  | newObject p className args ih =>
    rw [Expr.marked, exprFaults, exprFaults, markedExprs_eq, exprsFaults_marked ih, faultAt_marked,
      List.map_append]
  | newArray p element length ih =>
    rw [Expr.marked, exprFaults, exprFaults, ih, faultAt_marked, List.map_append]

theorem chainFaults_marked (c : Chain) :
    chainFaults ctx arena (c.marked m) = (chainFaults ctx arena c).map (Located.marked m) := by
  have hc := exprFaults_marked m ctx arena (.access c)
  rwa [Expr.marked, exprFaults, exprFaults] at hc

theorem assignmentFaults_marked (a : Assignment) : assignmentFaults ctx arena (a.marked m) =
    (assignmentFaults ctx arena a).map (Located.marked m) := by
  rw [assignmentFaults, assignmentFaults, Assignment.marked, chainFaults_marked, exprFaults_marked,
    List.map_append]

theorem actionFaults_marked (a : Action) :
    actionFaults ctx arena (a.marked m) = (actionFaults ctx arena a).map (Located.marked m) := by
  cases a with
  | assignment a => exact assignmentFaults_marked m ctx arena a
  | call c => exact chainFaults_marked m ctx arena c

theorem jumpFaults_marked (j : Jump) :
    jumpFaults ctx arena (j.marked m) = (jumpFaults ctx arena j).map (Located.marked m) := by
  cases j with
  | return_ value =>
    cases value with
    | none => rfl
    | some e => exact exprFaults_marked m ctx arena e
  | break_ => rfl
  | continue_ => rfl

/-! ## Steps of the walk -/

namespace Resolved

/-- The scopes so far, and the faults so far at new positions. -/
def marked (r : Resolved) : Resolved := { r with faults := r.faults.map (Located.marked m) }

@[simp] theorem arena_marked (r : Resolved) : (r.marked m).arena = r.arena := rfl

@[simp] theorem nextSlot_marked (r : Resolved) : (r.marked m).nextSlot = r.nextSlot := rfl

theorem report_marked (r : Resolved) (faults : List (Located Fault)) :
    (r.marked m).report (faults.map (Located.marked m)) = (r.report faults).marked m := by
  have hfaults : (r.faults.map (Located.marked m)) ++ (faults.map (Located.marked m)) =
      (r.faults ++ faults).map (Located.marked m) := Array.toList_inj.1 (by simp)
  simp only [marked, report, hfaults]

theorem ite_marked {p : Prop} [Decidable p] {x y x' y' : Resolved} (hx : x' = x.marked m)
    (hy : y' = y.marked m) : (if p then x' else y') = (if p then x else y).marked m := by
  rw [hx, hy, apply_ite (marked m)]

theorem expr_marked (r : Resolved) (e : Expr) :
    (r.marked m).expr ctx (e.marked m) = (r.expr ctx e).marked m := by
  rw [expr, expr, arena_marked, exprFaults_marked, report_marked]

theorem enter_marked (r : Resolved) (parent : ScopeId) (name : String) (kind : Kind)
    (node : NodeId) : (r.marked m).enter parent name kind node =
      ((r.enter parent name kind node).1.marked m, (r.enter parent name kind node).2) := rfl

theorem allocate_marked (r : Resolved) (p : Position) : (r.marked m).allocate (m.position p) =
    ((r.allocate p).1.marked m, (r.allocate p).2) := by
  unfold allocate
  rw [nextSlot_marked]
  split
  · rfl
  · exact congrArg (·, none) (report_marked m r [⟨.tooManyLocals, p⟩])

theorem declare_marked (r : Resolved) (scope : ScopeId) (kind : LocalKind) (name : String)
    (ty : Ty) (p : Position) : (r.marked m).declare scope kind name ty (m.position p) =
      (r.declare scope kind name ty p).marked m := by
  refine ite_marked m (report_marked m r [⟨kind.clash name, p⟩]) ?_
  rw [allocate_marked]
  cases r.allocate p with
  | mk r slot => cases slot <;> rfl

theorem params_marked (scope : ScopeId) (r : Resolved) (ps : List Parameter) :
    params scope (r.marked m) (ps.map (Parameter.marked m)) = (params scope r ps).marked m := by
  rw [params, params, List.foldl_map]
  exact List.foldl_hom (marked m) fun r param => declare_marked m r scope _ _ _ _

theorem variable_marked (r : Resolved) (v : Variable) :
    (r.marked m).variable_ ctx (v.marked m) = (r.variable_ ctx v).marked m := by
  obtain ⟨p, ty, name, value⟩ := v
  cases value <;>
    simp only [variable_, Variable.marked, Option.map_none, Option.map_some, expr_marked,
      faultAt_marked, report_marked, declare_marked]

end Resolved

/-! ## Statements -/

namespace Resolved

-- Scopes are attached to the numbers of nodes, so from here on the positions alone are new.

variable {position : Position → Position}

theorem enterLoop_moved (r : Resolved) (node : NodeId) (init : Option ForInit) (body : Statement) :
    (r.marked (.moved position)).enterLoop ctx node (init.map (ForInit.marked (.moved position)))
        (body.marked (.moved position)) =
      ((r.enterLoop ctx node init body).1.marked (.moved position),
        (r.enterLoop ctx node init body).2) := by
  cases init with
  | none => rfl
  | some init =>
    cases init with
    | assignment a => rfl
    | declaration v =>
      cases body with
      | block b => cases b; rfl
      | _ => rfl

theorem loopInit_marked (r : Resolved) (init : Option ForInit) :
    (r.marked m).loopInit ctx (init.map (ForInit.marked m)) = (r.loopInit ctx init).marked m := by
  cases init with
  | none => rfl
  | some init =>
    cases init with
    | declaration v => exact variable_marked m ctx r v
    | assignment a =>
      simp only [Option.map_some, ForInit.marked, loopInit, arena_marked, assignmentFaults_marked,
        report_marked]

theorem loopControl_marked (r : Resolved) (condition : Option Expr) (update : Option Action) :
    (r.marked m).loopControl ctx (condition.map (Expr.marked m)) (update.map (Action.marked m)) =
      (r.loopControl ctx condition update).marked m := by
  cases condition <;> cases update <;>
    simp only [loopControl, Option.map_none, Option.map_some, expr_marked, arena_marked,
      actionFaults_marked, report_marked]

theorem selector_marked (r : Resolved) (node : NodeId) (e : Expr) :
    (r.marked m).selector ctx node (e.marked m) = (r.selector ctx node e).marked m := by
  unfold selector
  rw [expr_marked, Expr.position_marked, allocate_marked]
  cases (r.expr ctx e).allocate e.position with
  | mk r slot => cases slot <;> rfl

theorem opened_moved (r : Resolved) (kind : Kind) (b : Block) :
    (r.marked (.moved position)).opened ctx kind (b.marked (.moved position)) =
      ((r.opened ctx kind b).1.marked (.moved position), (r.opened ctx kind b).2) := by
  obtain ⟨id, p, body⟩ := b
  simp only [opened, Block.marked, Block.id, Marks.node_moved, arena_marked, enter_marked]
  cases r.arena.scopeOf id <;> rfl

/-- Walking through a statement at other positions. -/
def Moves (position : Position → Position) (s : Statement) : Prop :=
  ∀ ctx r, statement ctx (r.marked (.moved position)) (s.marked (.moved position)) =
    (statement ctx r s).marked (.moved position)

theorem statements_moved {ss : List Statement} (ih : ∀ s ∈ ss, Moves position s) (ctx : Context)
    (r : Resolved) : statements ctx (r.marked (.moved position))
        (ss.map (Statement.marked (.moved position))) =
      (statements ctx r ss).marked (.moved position) := by
  induction ss generalizing r with
  | nil => rfl
  | cons s ss ihss =>
    rw [List.forall_mem_cons] at ih
    rw [List.map_cons, statements, statements, ih.1, ihss ih.2]

theorem block_moved {b : Block} (ih : ∀ s ∈ b.statements, Moves position s) (ctx : Context)
    (kind : Kind) (r : Resolved) :
    block ctx kind (r.marked (.moved position)) (b.marked (.moved position)) =
      (block ctx kind r b).marked (.moved position) := by
  rw [block_eq, block_eq, opened_moved, Block.statements_marked]
  exact statements_moved ih _ _

theorem caseBodies_moved {cases : List Case}
    (ih : ∀ c ∈ cases, ∀ s ∈ c.body.statements, Moves position s) (ctx : Context) (r : Resolved) :
    caseBodies ctx (r.marked (.moved position)) (cases.map (Case.marked (.moved position))) =
      (caseBodies ctx r cases).marked (.moved position) := by
  induction cases generalizing r with
  | nil => rfl
  | cons c cases ihc =>
    obtain ⟨p, q, label, b⟩ := c
    rw [List.forall_mem_cons] at ih
    have hbody : ∀ s ∈ b.statements, Moves position s := ih.1
    rw [List.map_cons, Case.marked, caseBodies, caseBodies, block_moved hbody, ihc ih.2]

theorem statement_moved (s : Statement) : Moves position s := by
  induction s using Statement.induction with
  | block b ih =>
    intro ctx r
    exact block_moved ih ctx .block r
  | conditional p e body otherwise ihbody ihother =>
    intro ctx r
    rw [Statement.marked, statement, statement, expr_marked, ihbody, markedOtherwise_eq]
    cases otherwise with
    | none => rfl
    | some s => exact ihother s rfl ctx _
  | whileLoop p e body ih =>
    intro ctx r
    rw [Statement.marked, statement, statement, expr_marked, ih]
  | forLoop p id init e update body ih =>
    intro ctx r
    rw [Statement.marked, Marks.node_moved, statement, statement, enterLoop_moved]
    dsimp only
    rw [loopInit_marked, loopControl_marked, ih]
  | switch p id e cases default_ ihcases ihdefault =>
    intro ctx r
    rw [Statement.marked, Marks.node_moved, statement, statement, selector_marked, markedCases_eq,
      caseBodies_moved ihcases, markedDefault_eq]
    cases default_ with
    | none => rfl
    | some b => exact block_moved (ihdefault b rfl) ctx .case _
  | jump p j =>
    intro ctx r
    rw [Statement.marked, statement, statement, arena_marked, jumpFaults_marked, report_marked]
  | action a =>
    intro ctx r
    rw [Statement.marked, statement, statement, arena_marked, actionFaults_marked, report_marked]
  | declaration v =>
    intro ctx r
    exact variable_marked _ ctx r v

/-! ## Declarations -/

theorem atBody_moved (r : Resolved) (d : Method) :
    atBody ctx (r.marked (.moved position)) (d.marked (.moved position)) =
      (atBody ctx r d).marked (.moved position) := by
  have hid : (d.body.marked (.moved position)).id = d.body.id := by cases d.body; rfl
  simp only [atBody, Method.marked, Signature.text_marked, hid]
  let opened := (r.enter ctx.scope d.signature.text .method d.signature.id).1
  exact params_marked (.moved position) r.arena.size { opened with
    arena := opened.arena.attach d.body.id r.arena.size
    nextSlot := if d.signature.isStatic then 0 else 1 } d.signature.params

theorem method_moved (r : Resolved) (d : Method) :
    method ctx (r.marked (.moved position)) (d.marked (.moved position)) =
      (method ctx r d).marked (.moved position) := by
  have hbody : (d.marked (.moved position)).body.statements =
      d.body.statements.map (Statement.marked (.moved position)) := Block.statements_marked ..
  have hctx : bodyContext ctx (r.marked (.moved position)) (d.marked (.moved position)) =
      bodyContext ctx r d := rfl
  rw [method_eq, method_eq, hbody, hctx, atBody_moved,
    statements_moved fun s _ => statement_moved s]
  rfl

/-- Steps that go along with new positions make a run that does. -/
theorem foldl_marked {α : Type} {f : Resolved → α → Resolved} {mark : α → α}
    (h : ∀ r a, f (r.marked m) (mark a) = (f r a).marked m) (l : List α) (r : Resolved) :
    (l.map mark).foldl f (r.marked m) = (l.foldl f r).marked m := by
  rw [List.foldl_map]
  exact List.foldl_hom (marked m) h

theorem class_moved (table : Types.Table) (r : Resolved) (decl : ClassDecl) :
    (r.marked (.moved position)).class_ table (decl.marked (.moved position)) =
      (r.class_ table decl).marked (.moved position) := by
  have hmembers : (decl.marked (.moved position)).constructors ++
        (decl.marked (.moved position)).methods ++ (decl.marked (.moved position)).main.toList =
      (decl.constructors ++ decl.methods ++ decl.main.toList).map
        (Method.marked (.moved position)) := by
    simp only [ClassDecl.marked, List.map_append, Option.toList_map]
  have hvalues : ((decl.marked (.moved position)).properties.filterMap fun p => p.variable_.value) =
      (decl.properties.filterMap fun p => p.variable_.value).map
        (Expr.marked (.moved position)) := by
    rw [ClassDecl.marked, List.filterMap_map, List.map_filterMap]
    rfl
  have hclass : atClass table (r.marked (.moved position)) (decl.marked (.moved position)) =
      (atClass table r decl).marked (.moved position) := by
    simp only [atClass, ClassDecl.marked]
    cases table.find? decl.name <;> rfl
  have hctx : classContext table (r.marked (.moved position)) (decl.marked (.moved position)) =
      classContext table r decl := rfl
  rw [class_eq, class_eq, hmembers, hvalues, hclass, hctx, foldl_marked _ (expr_marked _ _),
    foldl_marked _ (method_moved _)]

theorem abstractMethod_moved (scope : ScopeId) (r : Resolved) (header : Signature) :
    abstractMethod scope (r.marked (.moved position)) (header.marked (.moved position)) =
      (abstractMethod scope r header).marked (.moved position) := by
  have hparams := params_marked (.moved position) r.arena.size
    { (r.enter scope header.text .method header.id).1 with nextSlot := 1 } header.params
  simp only [abstractMethod, Signature.text_marked]
  exact congrArg (fun r : Resolved =>
    { r with arena := r.arena.setLocals header.id r.nextSlot }) hparams

theorem interface_moved (r : Resolved) (decl : InterfaceDecl) :
    interface (r.marked (.moved position)) (decl.marked (.moved position)) =
      (interface r decl).marked (.moved position) :=
  foldl_marked (.moved position) (abstractMethod_moved r.arena.size) decl.methods
    (r.enter Arena.root decl.name .interface decl.id).1

theorem declaration_moved (table : Types.Table) (r : Resolved) (decl : TypeDecl) :
    (r.marked (.moved position)).declaration table (decl.marked (.moved position)) =
      (r.declaration table decl).marked (.moved position) := by
  cases decl with
  | class_ decl => exact class_moved table r decl
  | interface decl => exact interface_moved r decl

end Resolved

/-- The scopes of a program are the same wherever its nodes stand. -/
theorem resolve_moved (position : Position → Position) (p : Program) (table : Types.Table) :
    resolve (p.marked (.moved position)) table =
      (resolve p table).marked (.moved position) := by
  have hnames : typeNames (p.marked (.moved position)) = typeNames p := by
    rw [typeNames, typeNames, Program.marked, List.foldl_map]
    congr 1
    funext arena decl
    cases decl <;> rfl
  have hstart : Resolved.marked (.moved position) ⟨typeNames p, #[], 0⟩ = ⟨typeNames p, #[], 0⟩ :=
    congrArg (Resolved.mk _ · _) Array.map_empty
  have hall := Resolved.foldl_marked (.moved position) (Resolved.declaration_moved table) p.declarations
    ⟨typeNames p, #[], 0⟩
  rw [hstart] at hall
  rw [resolve, hnames]
  exact hall

end Javelet.Scope
