import Javelet.Proofs.Scope.Placed
import Javelet.Proofs.Scope.Visits
import Javelet.Proofs.Types.Lookups

/-!
# Walks in step

The same statement may be walked in two arenas of which one stands in the other, behind scopes that
were there before. Both walks then come to the same faults, hand out the same slots, and open their
scopes at corresponding places; and what stood before is left alone.
-/
namespace Javelet.Scope

/-! ## Faults -/

/-- Two places from which every use of a name is judged alike. -/
structure Agree (ctx : Context) (a : Arena) (ctx' : Context) (a' : Arena) : Prop where
  table : ctx.table.Same ctx'.table
  className : ctx'.className = ctx.className
  isStatic : ctx'.isStatic = ctx.isStatic
  lookup : ∀ name, a'.lookup ctx'.scope name = a.lookup ctx.scope name

namespace Agree

variable {ctx ctx' : Context} {a a' : Arena} (h : Agree ctx a ctx' a')

include h

theorem instanceFault (use : InstanceUse) : ctx'.instanceFault use = ctx.instanceFault use := by
  rw [Context.instanceFault, Context.instanceFault, h.isStatic]

theorem headFault (head : Head) : ctx'.headFault a' head = ctx.headFault a head := by
  cases head with
  | this p => exact h.instanceFault _
  | name p name =>
    simp only [Context.headFault, Context.nameFault, h.lookup, h.table.findProperty, h.className,
      h.instanceFault]
  | call p name args =>
    simp only [Context.headFault, h.table.methodsNamed, h.className, h.instanceFault]

theorem classFault (className : String) : ctx'.classFault className = ctx.classFault className := by
  rw [Context.classFault, Context.classFault, h.table className]

theorem typeFault (ty : Ty) : ctx'.typeFault ty = ctx.typeFault ty := by
  rw [Context.typeFault, Context.typeFault, h.table.resolve]

omit h in
theorem exprsFaults {es : List Expr} (ih : ∀ e ∈ es, exprFaults ctx' a' e = exprFaults ctx a e) :
    exprsFaults ctx' a' es = Scope.exprsFaults ctx a es := by
  induction es with
  | nil => rfl
  | cons e es ihes =>
    rw [List.forall_mem_cons] at ih
    rw [Scope.exprsFaults, Scope.exprsFaults, ih.1, ihes ih.2]

theorem headFaults {head : Head}
    (ih : ∀ e ∈ head.operands, exprFaults ctx' a' e = exprFaults ctx a e) :
    headFaults ctx' a' head = Scope.headFaults ctx a head := by
  cases head with
  | this p => rw [Scope.headFaults, Scope.headFaults, h.headFault]
  | name p name => rw [Scope.headFaults, Scope.headFaults, h.headFault]
  | call p name args => 
    have hargs : Scope.exprsFaults ctx' a' args = Scope.exprsFaults ctx a args := exprsFaults ih
    rw [Scope.headFaults, Scope.headFaults, h.headFault, hargs]

omit h in
theorem linksFaults {links : List Link}
    (ih : ∀ l ∈ links, ∀ e ∈ Link.operands l, exprFaults ctx' a' e = exprFaults ctx a e) :
    linksFaults ctx' a' links = Scope.linksFaults ctx a links := by
  induction links with
  | nil => rfl
  | cons link links ihlinks =>
    rw [List.forall_mem_cons] at ih
    rw [Scope.linksFaults, Scope.linksFaults, ihlinks ih.2]
    cases link with
    | field p name => rfl
    | call p name args =>
      have hargs : Scope.exprsFaults ctx' a' args = Scope.exprsFaults ctx a args :=
        exprsFaults ih.1
      rw [linkFaults, linkFaults, hargs]
    | index p index => rw [linkFaults, linkFaults, ih.1 index (List.mem_singleton.2 rfl)]

theorem exprFaults (e : Expr) : exprFaults ctx' a' e = Scope.exprFaults ctx a e := by
  induction e using Expr.induction with
  | literal p value => rfl
  | binary op left right ihl ihr => rw [Scope.exprFaults, Scope.exprFaults, ihl, ihr]
  | access head links ihh ihl =>
    rw [Scope.exprFaults, Scope.exprFaults, chainFaults, chainFaults, h.headFaults ihh,
      linksFaults ihl]
  | newObject p className args ih =>
    rw [Scope.exprFaults, Scope.exprFaults, h.classFault, exprsFaults ih]
  | newArray p element length ih => rw [Scope.exprFaults, Scope.exprFaults, h.typeFault, ih]

theorem chainFaults (c : Chain) : chainFaults ctx' a' c = Scope.chainFaults ctx a c := by
  have hc := h.exprFaults (.access c)
  rwa [Scope.exprFaults, Scope.exprFaults] at hc

theorem assignmentFaults (x : Assignment) :
    assignmentFaults ctx' a' x = Scope.assignmentFaults ctx a x := by
  rw [Scope.assignmentFaults, Scope.assignmentFaults, h.chainFaults, h.exprFaults]

theorem actionFaults (x : Action) : actionFaults ctx' a' x = Scope.actionFaults ctx a x := by
  cases x with
  | assignment x => exact h.assignmentFaults x
  | call c => exact h.chainFaults c

theorem jumpFaults (j : Jump) : jumpFaults ctx' a' j = Scope.jumpFaults ctx a j := by
  cases j with
  | return_ value =>
    cases value with
    | none => rfl
    | some e => exact h.exprFaults e
  | break_ => rfl
  | continue_ => rfl

end Agree

/-! ## Both walks -/

/-- The surroundings of a place in a walk alone, and of the same place behind other scopes. -/
structure Beside (first : ScopeId) (ctx ctx' : Context) : Prop where
  table : ctx.table.Same ctx'.table
  className : ctx'.className = ctx.className
  isStatic : ctx'.isStatic = ctx.isStatic
  scope : ctx'.scope = placed first ctx.scope
  inner : 0 < ctx.scope

theorem Beside.inside {first : ScopeId} {ctx ctx' : Context} (h : Beside first ctx ctx')
    {scope : ScopeId} (hscope : 0 < scope) :
    Beside first { ctx with scope := scope } { ctx' with scope := placed first scope } :=
  ⟨h.table, h.className, h.isStatic, rfl, hscope⟩

/-- The walk from `base` on has come to the same as the walk alone, behind all that is in `base`. -/
structure Alongside (base : Resolved) (nodes : List NodeId) (r r' : Resolved) : Prop where
  arena : Arena.Alongside nodes base.arena r.arena r'.arena
  faults : r'.faults.toList = base.faults.toList ++ r.faults.toList

/-- Both walks are inside of a method and have handed out the same slots. -/
structure InStep (base : Resolved) (nodes : List NodeId) (r r' : Resolved) : Prop extends
    Alongside base nodes r r' where
  nextSlot : r'.nextSlot = r.nextSlot

variable {base r r' : Resolved} {nodes : List NodeId} {ctx ctx' : Context}

theorem Resolved.size_enter (r : Resolved) (parent : ScopeId) (name : String) (kind : Kind)
    (node : NodeId) : (r.enter parent name kind node).1.arena.size = r.arena.size + 1 :=
  Arena.size_push ..

namespace Alongside

theorem agree (h : Alongside base nodes r r') (hc : Beside base.arena.size ctx ctx') :
    Agree ctx r.arena ctx' r'.arena := by
  refine ⟨hc.table, hc.className, hc.isStatic, ?_⟩
  intro name
  rw [hc.scope]
  exact h.arena.placed.lookup ctx.scope name

theorem report (h : Alongside base nodes r r') (new : List (Located Fault)) :
    Alongside base nodes (r.report new) (r'.report new) := by
  refine ⟨h.arena, ?_⟩
  show (r'.faults ++ new).toList = _ ++ (r.faults ++ new).toList
  rw [Array.toList_appendList, Array.toList_appendList, h.faults, List.append_assoc]

theorem expr (h : Alongside base nodes r r') (hc : Beside base.arena.size ctx ctx') (e : Expr) :
    Alongside base nodes (r.expr ctx e) (r'.expr ctx' e) := by
  rw [Resolved.expr, Resolved.expr, (h.agree hc).exprFaults]
  exact h.report _

/-- New scopes stand at corresponding places. -/
theorem size (h : Alongside base nodes r r') :
    r'.arena.size = placed base.arena.size r.arena.size :=
  h.arena.placed.size

theorem enter (h : Alongside base nodes r r') (parent : ScopeId) (name : String) (kind : Kind)
    {node : NodeId} (hnode : node ∈ nodes) :
    Alongside base nodes (r.enter parent name kind node).1
      (r'.enter (placed base.arena.size parent) name kind node).1 := by
  refine ⟨?_, h.faults⟩
  have hopened := (h.arena.push name kind parent).attach hnode h.arena.placed.size_pos
    (r.size_enter parent name kind node ▸ Nat.lt_succ_self _)
  rw [← h.size] at hopened
  exact hopened

theorem attach (h : Alongside base nodes r r') {node : NodeId} (hnode : node ∈ nodes)
    {id : ScopeId} (hid : 0 < id) (hlt : id < r.arena.size) :
    Alongside base nodes { r with arena := r.arena.attach node id }
      { r' with arena := r'.arena.attach node (placed base.arena.size id) } :=
  ⟨h.arena.attach hnode hid hlt, h.faults⟩

/-- Slots are handed out anew in each method. -/
theorem restart (h : Alongside base nodes r r') (slot : Nat) :
    InStep base nodes { r with nextSlot := slot } { r' with nextSlot := slot } :=
  ⟨⟨h.arena, h.faults⟩, rfl⟩

end Alongside

namespace InStep

/-- The slots of a method are counted at its end. -/
theorem setLocals (h : InStep base nodes r r') {node : NodeId} (hnode : node ∈ nodes) :
    Alongside base nodes { r with arena := r.arena.setLocals node r.nextSlot }
      { r' with arena := r'.arena.setLocals node r'.nextSlot } := by
  rw [h.nextSlot]
  exact ⟨h.arena.setLocals hnode _, h.faults⟩

theorem report (h : InStep base nodes r r') (new : List (Located Fault)) :
    InStep base nodes (r.report new) (r'.report new) :=
  ⟨h.toAlongside.report new, h.nextSlot⟩

theorem expr (h : InStep base nodes r r') (hc : Beside base.arena.size ctx ctx') (e : Expr) :
    InStep base nodes (r.expr ctx e) (r'.expr ctx' e) :=
  ⟨h.toAlongside.expr hc e, h.nextSlot⟩

theorem enter (h : InStep base nodes r r') (parent : ScopeId) (name : String) (kind : Kind)
    {node : NodeId} (hnode : node ∈ nodes) :
    InStep base nodes (r.enter parent name kind node).1
      (r'.enter (placed base.arena.size parent) name kind node).1 :=
  ⟨h.toAlongside.enter parent name kind hnode, h.nextSlot⟩

/-- The next slot is handed out in both walks or in neither. -/
theorem allocate (h : InStep base nodes r r') (p : Position) :
    (r'.allocate p).2 = (r.allocate p).2 ∧
      InStep base nodes (r.allocate p).1 (r'.allocate p).1 := by
  unfold Resolved.allocate
  rw [h.nextSlot]
  split
  · exact ⟨rfl, ⟨h.arena, h.faults⟩, rfl⟩
  · exact ⟨rfl, h.report _⟩

theorem declare (h : InStep base nodes r r') {scope : ScopeId} (hscope : 0 < scope)
    (kind : LocalKind) (name : String) (ty : Ty) (p : Position) :
    InStep base nodes (r.declare scope kind name ty p)
      (r'.declare (placed base.arena.size scope) kind name ty p) := by
  unfold Resolved.declare
  rw [h.arena.placed.lookupLocal]
  split
  · exact h.report _
  · obtain ⟨hslot, hstep⟩ := h.allocate p
    rcases hr : r.allocate p with ⟨s, slot⟩
    rcases hr' : r'.allocate p with ⟨s', slot'⟩
    rw [hr, hr'] at hslot hstep
    cases hslot
    cases slot with
    | none => exact hstep
    | some slot => exact ⟨⟨hstep.arena.put hscope .., hstep.faults⟩, hstep.nextSlot⟩

theorem selector (h : InStep base nodes r r') (hc : Beside base.arena.size ctx ctx')
    {node : NodeId} (hnode : node ∈ nodes) (e : Expr) :
    InStep base nodes (r.selector ctx node e) (r'.selector ctx' node e) := by
  unfold Resolved.selector
  obtain ⟨hslot, hstep⟩ := (h.expr hc e).allocate e.position
  rcases hr : (r.expr ctx e).allocate e.position with ⟨s, slot⟩
  rcases hr' : (r'.expr ctx' e).allocate e.position with ⟨s', slot'⟩
  rw [hr, hr'] at hslot hstep
  cases hslot
  cases slot with
  | none => exact hstep
  | some slot => exact ⟨⟨hstep.arena.reserve hnode slot, hstep.faults⟩, hstep.nextSlot⟩

theorem params (h : InStep base nodes r r') {scope : ScopeId} (hscope : 0 < scope)
    (ps : List Parameter) : InStep base nodes (Resolved.params scope r ps)
      (Resolved.params (placed base.arena.size scope) r' ps) :=
  List.foldl_rel h fun _ _ _ _ hr => hr.declare hscope ..

theorem variable_ (h : InStep base nodes r r') (hc : Beside base.arena.size ctx ctx')
    (v : Variable) : InStep base nodes (r.variable_ ctx v) (r'.variable_ ctx' v) := by
  unfold Resolved.variable_
  have hagree := h.agree hc
  rw [hagree.typeFault, hc.scope]
  refine InStep.declare (InStep.report ?_ _) hc.inner ..
  cases v.value with
  | none => exact h
  | some value => exact h.expr hc value

theorem loopInit (h : InStep base nodes r r') (hc : Beside base.arena.size ctx ctx')
    (init : Option ForInit) : InStep base nodes (r.loopInit ctx init) (r'.loopInit ctx' init) := by
  match init with
  | none => exact h
  | some (.declaration v) => exact h.variable_ hc v
  | some (.assignment a) =>
    rw [Resolved.loopInit, Resolved.loopInit, (h.agree hc).assignmentFaults]
    exact h.report _

theorem loopControl (h : InStep base nodes r r') (hc : Beside base.arena.size ctx ctx')
    (e : Option Expr) (update : Option Action) :
    InStep base nodes (r.loopControl ctx e update) (r'.loopControl ctx' e update) := by
  have hcondition : InStep base nodes (r.loopControl ctx e none) (r'.loopControl ctx' e none) := by
    cases e with
    | none => exact h
    | some e => exact h.expr hc e
  cases update with
  | none => exact hcondition
  | some action =>
    show InStep base nodes
      ((r.loopControl ctx e none).report (actionFaults ctx (r.loopControl ctx e none).arena action))
      ((r'.loopControl ctx' e none).report
        (actionFaults ctx' (r'.loopControl ctx' e none).arena action))
    rw [(hcondition.agree hc).actionFaults]
    exact hcondition.report _

/-- Both walks find the scope of a block, or both open one. -/
theorem opened (h : InStep base nodes r r') (hc : Beside base.arena.size ctx ctx') (kind : Kind)
    {b : Block} (hb : b.id ∈ nodes) :
    InStep base nodes (r.opened ctx kind b).1 (r'.opened ctx' kind b).1 ∧
      Beside base.arena.size (r.opened ctx kind b).2 (r'.opened ctx' kind b).2 := by
  unfold Resolved.opened
  rw [h.arena.known.scopeOf b.id hb]
  cases hscope : r.arena.scopeOf b.id with
  | some scope => exact ⟨h, hc.inside (h.arena.known.inner b.id hb scope hscope).1⟩
  | none =>
    dsimp only [Option.map_none]
    rw [hc.scope, h.size]
    exact ⟨h.enter _ _ _ hb, hc.inside h.arena.placed.size_pos⟩

theorem enterLoop (h : InStep base nodes r r') (hc : Beside base.arena.size ctx ctx') {id : NodeId}
    {init : Option ForInit} {body : Statement} (hnodes : ∀ n ∈ id :: body.nodes, n ∈ nodes) :
    InStep base nodes (r.enterLoop ctx id init body).1 (r'.enterLoop ctx' id init body).1 ∧
      Beside base.arena.size (r.enterLoop ctx id init body).2
        (r'.enterLoop ctx' id init body).2 := by
  match init with
  | none => exact ⟨h, hc⟩
  | some (.assignment a) => exact ⟨h, hc⟩
  | some (.declaration v) =>
    have hid : id ∈ nodes := hnodes id (List.mem_cons_self ..)
    have hopened := h.enter ctx.scope "for" .loop hid
    rw [← hc.scope] at hopened
    have hinside := hc.inside h.arena.placed.size_pos
    rw [← h.size] at hinside
    refine ⟨?_, hinside⟩
    cases body with
    | block b =>
      have hb : b.id ∈ nodes := hnodes _ (List.mem_cons_of_mem _ (Block.id_mem_nodes b))
      have hattached := hopened.toAlongside.attach hb h.arena.placed.size_pos
        (r.size_enter .. ▸ Nat.lt_succ_self _)
      rw [← h.size] at hattached
      exact ⟨hattached, hopened.nextSlot⟩
    | _ => exact hopened

end InStep

/-! ## Statements -/

/-- What is shown of every statement. -/
def StaysInStep (s : Statement) : Prop :=
  ∀ {base nodes ctx ctx' r r'}, Beside base.arena.size ctx ctx' → (∀ n ∈ s.nodes, n ∈ nodes) →
    InStep base nodes r r' →
      InStep base nodes (Resolved.statement ctx r s) (Resolved.statement ctx' r' s)

namespace InStep

theorem statements {ss : List Statement} (ih : ∀ s ∈ ss, StaysInStep s)
    (hc : Beside base.arena.size ctx ctx') (hn : ∀ n ∈ statementNodes ss, n ∈ nodes)
    (h : InStep base nodes r r') :
    InStep base nodes (Resolved.statements ctx r ss) (Resolved.statements ctx' r' ss) := by
  induction ss generalizing r r' with
  | nil =>
    rw [Resolved.statements, Resolved.statements]
    exact h
  | cons s ss ihss =>
    rw [List.forall_mem_cons] at ih
    rw [statementNodes, List.forall_mem_append] at hn
    rw [Resolved.statements, Resolved.statements]
    exact ihss ih.2 hn.2 (ih.1 hc hn.1 h)

theorem block {b : Block} (kind : Kind) (ih : ∀ s ∈ b.statements, StaysInStep s)
    (hc : Beside base.arena.size ctx ctx') (hn : ∀ n ∈ b.nodes, n ∈ nodes)
    (h : InStep base nodes r r') :
    InStep base nodes (Resolved.block ctx kind r b) (Resolved.block ctx' kind r' b) := by
  rw [Block.nodes_eq, List.forall_mem_cons] at hn
  obtain ⟨hopened, hinside⟩ := h.opened hc kind hn.1
  rw [Resolved.block_eq, Resolved.block_eq]
  exact statements ih hinside hn.2 hopened

theorem caseBodies {cases : List Case} (ih : ∀ c ∈ cases, ∀ s ∈ c.body.statements, StaysInStep s)
    (hc : Beside base.arena.size ctx ctx') (hn : ∀ n ∈ caseNodes cases, n ∈ nodes)
    (h : InStep base nodes r r') :
    InStep base nodes (Resolved.caseBodies ctx r cases) (Resolved.caseBodies ctx' r' cases) := by
  induction cases generalizing r r' with
  | nil =>
    rw [Resolved.caseBodies, Resolved.caseBodies]
    exact h
  | cons c cases ihc =>
    obtain ⟨p, q, label, b⟩ := c
    rw [List.forall_mem_cons] at ih
    rw [caseNodes, List.forall_mem_append] at hn
    rw [Resolved.caseBodies, Resolved.caseBodies]
    exact ihc ih.2 hn.2 (h.block .case ih.1 hc hn.1)

end InStep

theorem staysInStep (s : Statement) : StaysInStep s := by
  induction s using Statement.induction with
  | block b ih =>
    intro base nodes ctx ctx' r r' hc hn h
    rw [Statement.nodes] at hn
    rw [Resolved.statement, Resolved.statement]
    exact h.block .block ih hc hn
  | conditional p e body otherwise ihbody ihother =>
    intro base nodes ctx ctx' r r' hc hn h
    rw [Statement.nodes, List.forall_mem_append] at hn
    rw [Resolved.statement, Resolved.statement]
    have hbody := ihbody hc hn.1 (h.expr hc e)
    cases otherwise with
    | none =>
      rw [Resolved.optionalStatement, Resolved.optionalStatement]
      exact hbody
    | some s =>
      rw [Resolved.optionalStatement, Resolved.optionalStatement]
      exact ihother s rfl hc hn.2 hbody
  | whileLoop p e body ih =>
    intro base nodes ctx ctx' r r' hc hn h
    rw [Statement.nodes] at hn
    rw [Resolved.statement, Resolved.statement]
    exact ih hc hn (h.expr hc e)
  | forLoop p id init e update body ih =>
    intro base nodes ctx ctx' r r' hc hn h
    rw [Statement.nodes] at hn
    obtain ⟨hopened, hinside⟩ := h.enterLoop hc hn
    rw [Resolved.statement, Resolved.statement]
    exact ih hinside (List.forall_mem_cons.1 hn).2
      ((hopened.loopInit hinside init).loopControl hinside e update)
  | switch p id e cases default_ ihc ihd =>
    intro base nodes ctx ctx' r r' hc hn h
    rw [Statement.nodes, List.forall_mem_cons, List.forall_mem_append] at hn
    rw [Resolved.statement, Resolved.statement]
    have hcases := (h.selector hc hn.1 e).caseBodies ihc hc hn.2.1
    cases default_ with
    | none =>
      rw [Resolved.optionalBlock, Resolved.optionalBlock]
      exact hcases
    | some b =>
      rw [Resolved.optionalBlock, Resolved.optionalBlock]
      exact hcases.block .case (ihd b rfl) hc hn.2.2
  | jump p j =>
    intro base nodes ctx ctx' r r' hc hn h
    rw [Resolved.statement, Resolved.statement, (h.agree hc).jumpFaults]
    exact h.report _
  | action a =>
    intro base nodes ctx ctx' r r' hc hn h
    rw [Resolved.statement, Resolved.statement, (h.agree hc).actionFaults]
    exact h.report _
  | declaration v =>
    intro base nodes ctx ctx' r r' hc hn h
    rw [Resolved.statement, Resolved.statement]
    exact h.variable_ hc v

end Javelet.Scope
