import Javelet.Proofs.Scope.Growth
import Javelet.Proofs.Syntax.Nodes
import Javelet.Proofs.Syntax.Names

/-!
# The walk that opens scopes

A statement is walked in one scope. It declares variables there and in the scopes that it opens,
and it attaches scopes to its own nodes only. A block has no scope before it is walked, unless it
is the body of a for loop, which has attached its own scope to it.
-/
namespace Javelet

/-- The node of a block. -/
def Statement.blockId? : Statement → Option NodeId
  | block b => some b.id
  | _ => none

namespace Scope

/-- No node of a statement has a scope, apart from a block that shares the scope around it. -/
def Unopened (r : Resolved) (scope : ScopeId) (s : Statement) : Prop :=
  ∀ node ∈ s.nodes, ∀ id, r.arena.scopeOf node = some id → id = scope ∧ s.blockId? = some node

/-- None of the nodes has a scope. -/
def Closed (r : Resolved) (nodes : List NodeId) : Prop :=
  ∀ node ∈ nodes, r.arena.scopeOf node = none

section Closed

variable {r r' : Resolved} {scope : ScopeId} {nodes nodes' : List NodeId}

theorem Closed.left (h : Closed r (nodes ++ nodes')) : Closed r nodes :=
  fun node hn => h node (List.mem_append_left _ hn)

theorem Closed.right (h : Closed r (nodes ++ nodes')) : Closed r nodes' :=
  fun node hn => h node (List.mem_append_right _ hn)

theorem Closed.unopened {s : Statement} (h : Closed r s.nodes) : Unopened r scope s := by
  intro node hn id hid
  rw [h node hn] at hid
  cases hid

theorem Unopened.closed {s : Statement} (h : Unopened r scope s) (hs : s.blockId? = none) :
    Closed r s.nodes := by
  intro node hn
  cases hid : r.arena.scopeOf node with
  | none => rfl
  | some id => cases hs.symm.trans (h node hn id hid).2

/-- A walk over other nodes leaves them closed. -/
theorem Closed.walked {walked : List NodeId} (h : Closed r nodes) (hw : Walked scope walked r r')
    (hd : ∀ node ∈ nodes, node ∉ walked) : Closed r' nodes := by
  intro node hn
  rw [(hw.attached node (hd node hn)).scopeOf]
  exact h node hn

/-- Behind the nodes that are walked first. -/
theorem Closed.behind (h : Closed r (nodes ++ nodes')) (hn : (nodes ++ nodes').Nodup)
    (hw : Walked scope nodes r r') : Closed r' nodes' := by
  refine h.right.walked hw ?_
  intro node hmem hmem'
  exact (List.nodup_append.1 hn).2.2 node hmem' node hmem rfl

theorem closed_enter {node : NodeId} (parent : ScopeId) (name : String) (kind : Kind)
    (h : Closed r nodes) (hn : node ∉ nodes) :
    Closed (r.enter parent name kind node).1 nodes := by
  intro other hother
  have hne : other ≠ node := fun heq => hn (heq ▸ hother)
  exact (Arena.scopeOf_attach_of_ne _ hne _).trans (h other hother)

end Closed

namespace Resolved

variable {ctx : Context} {r : Resolved}

theorem walked_params {scope : ScopeId} {ps : List Parameter} (h : ∀ p ∈ ps, p.type.IsValue) :
    Walked scope [] r (params scope r ps) := by
  refine List.foldlRecOn (motive := fun r' => Walked scope [] r r') _ _ (.refl r) ?_
  intro r' hr p hp
  exact hr.followedBy (walked_declare (h p hp) _ _)

theorem walked_variable {v : Variable} (h : v.WellNamed) :
    Walked ctx.scope [] r (r.variable_ ctx v) := by
  unfold variable_
  refine (Walked.followedBy ?_ (walked_report _ _)).followedBy (walked_declare h.type _ _)
  split
  · exact walked_expr ctx r _
  · exact .refl r

theorem walked_loopInit {init : Option ForInit} (h : ∀ i ∈ init, i.WellNamed) :
    Walked ctx.scope [] r (r.loopInit ctx init) := by
  match init with
  | some (.declaration v) => exact walked_variable (h _ rfl)
  | some (.assignment a) => exact walked_report r _
  | none => exact .refl r

theorem walked_loopControl (e : Option Expr) (update : Option Action) :
    Walked ctx.scope [] r (r.loopControl ctx e update) := by
  have hupdate : ∀ r : Resolved, Walked ctx.scope [] r (r.loopControl ctx none update) := by
    intro r
    cases update with
    | none => exact .refl r
    | some action => exact walked_report r _
  cases e with
  | none => exact hupdate r
  | some e => exact (walked_expr ctx r e).followedBy (hupdate _)

/-! ## Statements -/

/-- What is shown of every statement. -/
def Walks (s : Statement) : Prop :=
  ∀ {ctx r}, s.WellNamed → s.nodes.Nodup → Unopened r ctx.scope s →
    Walked ctx.scope s.nodes r (statement ctx r s)

theorem walked_statements {ss : List Statement} (ih : ∀ s ∈ ss, Walks s)
    (hw : ∀ s ∈ ss, s.WellNamed) (hn : (statementNodes ss).Nodup)
    (hc : Closed r (statementNodes ss)) :
    Walked ctx.scope (statementNodes ss) r (statements ctx r ss) := by
  induction ss generalizing r with
  | nil =>
    rw [statements]
    exact .refl r
  | cons s ss ihss =>
    rw [statementNodes] at hn hc ⊢
    rw [statements]
    have hs : Walked ctx.scope s.nodes r (statement ctx r s) :=
      ih s (List.mem_cons_self ..) (hw s (List.mem_cons_self ..)) (List.nodup_append.1 hn).1
        hc.left.unopened
    exact hs.trans (ihss (fun s hs => ih s (List.mem_cons_of_mem _ hs))
      (fun s hs => hw s (List.mem_cons_of_mem _ hs)) (List.nodup_append.1 hn).2.1
      (hc.behind hn hs))

theorem walked_block {b : Block} {kind : Kind} (ih : ∀ s ∈ b.statements, Walks s)
    (hw : b.WellNamed) (hn : b.nodes.Nodup)
    (hc : ∀ node ∈ b.nodes, ∀ id, r.arena.scopeOf node = some id → id = ctx.scope ∧ node = b.id) :
    Walked ctx.scope b.nodes r (block ctx kind r b) := by
  obtain ⟨id, p, ss⟩ := b
  rw [Block.nodes] at hn hc ⊢
  rw [List.nodup_cons] at hn
  have hclosed : Closed r (statementNodes ss) := by
    intro node hnode
    cases hid : r.arena.scopeOf node with
    | none => rfl
    | some scope =>
      have heq : node = id := (hc node (List.mem_cons_of_mem _ hnode) scope hid).2
      exact (hn.1 (heq ▸ hnode)).elim
  rw [block]
  split
  · rename_i scope hscope
    obtain ⟨rfl, -⟩ := hc id (List.mem_cons_self ..) scope hscope
    exact (walked_statements ih hw hn.2 hclosed).mono fun n => List.mem_cons_of_mem _
  · apply walked_enter
    exact @walked_statements { ctx with scope := r.arena.size } _ ss ih hw hn.2
      (closed_enter _ _ _ hclosed hn.1)

theorem walked_closedBlock {b : Block} {kind : Kind} (ih : ∀ s ∈ b.statements, Walks s)
    (hw : b.WellNamed) (hn : b.nodes.Nodup) (hc : Closed r b.nodes) :
    Walked ctx.scope b.nodes r (block ctx kind r b) := by
  apply walked_block ih hw hn
  intro node hnode id hid
  rw [hc node hnode] at hid
  cases hid

theorem walked_caseBodies {cases : List Case} (ih : ∀ c ∈ cases, ∀ s ∈ c.body.statements, Walks s)
    (hw : ∀ c ∈ cases, c.body.WellNamed) (hn : (caseNodes cases).Nodup)
    (hc : Closed r (caseNodes cases)) :
    Walked ctx.scope (caseNodes cases) r (caseBodies ctx r cases) := by
  induction cases generalizing r with
  | nil =>
    rw [caseBodies]
    exact .refl r
  | cons c cases ihc =>
    obtain ⟨p, q, l, b⟩ := c
    rw [caseNodes] at hn hc ⊢
    rw [caseBodies]
    have hb : Walked ctx.scope b.nodes r (block ctx .case r b) :=
      walked_closedBlock (ih (.mk p q l b) (List.mem_cons_self ..))
        (hw (.mk p q l b) (List.mem_cons_self ..)) (List.nodup_append.1 hn).1 hc.left
    exact hb.trans (ihc (fun c hm => ih c (List.mem_cons_of_mem _ hm))
      (fun c hm => hw c (List.mem_cons_of_mem _ hm)) (List.nodup_append.1 hn).2.1
      (hc.behind hn hb))

theorem walked_optionalBlock {b : Option Block} (ih : ∀ b' ∈ b, ∀ s ∈ b'.statements, Walks s)
    (hw : ∀ b' ∈ b, b'.WellNamed) (hn : (defaultNodes b).Nodup) (hc : Closed r (defaultNodes b)) :
    Walked ctx.scope (defaultNodes b) r (optionalBlock ctx r b) := by
  cases b with
  | none =>
    rw [optionalBlock]
    exact .refl r
  | some b =>
    rw [defaultNodes] at hn hc ⊢
    rw [optionalBlock]
    exact walked_closedBlock (ih b rfl) (hw b rfl) hn hc

theorem walked_optionalStatement {s : Option Statement} (ih : ∀ s' ∈ s, Walks s')
    (hw : ∀ s' ∈ s, s'.WellNamed) (hn : (otherwiseNodes s).Nodup)
    (hc : Closed r (otherwiseNodes s)) :
    Walked ctx.scope (otherwiseNodes s) r (optionalStatement ctx r s) := by
  cases s with
  | none =>
    rw [optionalStatement]
    exact .refl r
  | some s =>
    rw [otherwiseNodes] at hn hc ⊢
    rw [optionalStatement]
    exact ih s rfl (hw s rfl) hn hc.unopened

/-- A scope that is attached to a node, and what is walked behind that. -/
theorem walked_attach {r' : Resolved} {scope id : ScopeId} {node : NodeId} {nodes : List NodeId}
    (h : Walked scope nodes { r with arena := r.arena.attach node id } r') :
    Walked scope (node :: nodes) r r' := by
  refine ⟨⟨⟨h.size, h.parent, h.kept, h.added⟩, h.nextSlot, h.slots, h.values, h.faults⟩,
    h.outside, ?_⟩
  intro other hother
  rw [List.mem_cons, not_or] at hother
  exact (Arena.sameAt_attach hother.1 _ _).trans (h.attached other hother.2)

/-- The parts of a for loop are walked in the scope that the loop opens, if it does. -/
theorem walked_enterLoop {r' : Resolved} {id : NodeId} {init : Option ForInit} {body : Statement}
    (h : Walked (r.enterLoop ctx id init body).2.scope body.nodes
      (r.enterLoop ctx id init body).1 r') : Walked ctx.scope (id :: body.nodes) r r' := by
  match init with
  | none => exact h.mono fun n => List.mem_cons_of_mem _
  | some (.assignment a) => exact h.mono fun n => List.mem_cons_of_mem _
  | some (.declaration v) =>
    cases body with
    | block b =>
      have hattached : Walked r.arena.size (b.id :: b.nodes)
          (r.enter ctx.scope "for" .loop id).1 r' := walked_attach h
      refine walked_enter (hattached.mono ?_)
      exact List.forall_mem_cons.2 ⟨Block.id_mem_nodes b, fun n hn => hn⟩
    | _ => exact walked_enter h

/-- The body of a for loop has no scope yet, or it is a block that shares the scope of the loop. -/
theorem unopened_enterLoop {id : NodeId} {init : Option ForInit} {body : Statement}
    (hc : Closed r (id :: body.nodes)) (hn : (id :: body.nodes).Nodup) :
    Unopened (r.enterLoop ctx id init body).1 (r.enterLoop ctx id init body).2.scope body := by
  have hbody : Closed r body.nodes := fun node hnode => hc node (List.mem_cons_of_mem _ hnode)
  match init with
  | none => exact hbody.unopened
  | some (.assignment a) => exact hbody.unopened
  | some (.declaration v) =>
    have hentered := closed_enter ctx.scope "for" .loop hbody (List.nodup_cons.1 hn).1
    cases body with
    | block b =>
      intro node hnode scope hscope
      by_cases heq : node = b.id
      · subst heq
        have hself := Arena.scopeOf_attach_self (r.enter ctx.scope "for" .loop id).1.arena b.id
          r.arena.size
        exact ⟨Option.some.inj (hscope.symm.trans hself), rfl⟩
      · have hother := Arena.scopeOf_attach_of_ne (r.enter ctx.scope "for" .loop id).1.arena heq
          r.arena.size
        cases (hscope.symm.trans hother).trans (hentered node hnode)
    | _ => exact hentered.unopened

theorem walks (s : Statement) : Walks s := by
  induction s using Statement.induction with
  | block b ih =>
    intro ctx r hw hn hu
    cases hw with
    | block hw =>
    rw [statement]
    rw [Statement.nodes] at hn ⊢
    apply walked_block ih hw hn
    intro node hnode id hid
    obtain ⟨hscope, hblock⟩ := hu node (by rw [Statement.nodes]; exact hnode) id hid
    exact ⟨hscope, (Option.some.inj hblock).symm⟩
  | conditional p e body otherwise ihbody ihother =>
    intro ctx r hw hn hu
    cases hw with
    | conditional he hbody hother =>
    have hc := hu.closed rfl
    rw [statement]
    rw [Statement.nodes] at hn hc ⊢
    have hr : Walked ctx.scope [] r (r.expr ctx e) := walked_expr ctx r e
    have hc' : Closed (r.expr ctx e) (body.nodes ++ otherwiseNodes otherwise) :=
      hc.walked hr fun _ _ => List.not_mem_nil
    have hb : Walked ctx.scope body.nodes (r.expr ctx e) (statement ctx (r.expr ctx e) body) :=
      ihbody hbody (List.nodup_append.1 hn).1 hc'.left.unopened
    exact hr.trans (hb.trans (walked_optionalStatement ihother hother (List.nodup_append.1 hn).2.1
      (hc'.behind hn hb)))
  | whileLoop p e body ih =>
    intro ctx r hw hn hu
    cases hw with
    | whileLoop he hbody =>
    have hc := hu.closed rfl
    rw [statement]
    rw [Statement.nodes] at hn hc ⊢
    have hr : Walked ctx.scope [] r (r.expr ctx e) := walked_expr ctx r e
    have hc' : Closed (r.expr ctx e) body.nodes := hc.walked hr fun _ _ => List.not_mem_nil
    exact hr.trans (ih hbody hn hc'.unopened)
  | forLoop p id init e update body ih =>
    intro ctx r hw hn hu
    cases hw with
    | forLoop hinit he hupdate hbody =>
    have hc := hu.closed rfl
    rw [Statement.nodes] at hn hc ⊢
    rw [statement]
    apply walked_enterLoop
    have hinit' := @walked_loopInit (r.enterLoop ctx id init body).2
      (r.enterLoop ctx id init body).1 init hinit
    have hparts := hinit'.followedBy (walked_loopControl e update)
    refine hparts.trans (ih hbody (List.nodup_cons.1 hn).2 ?_)
    intro node hnode scope hscope
    rw [(hparts.attached node List.not_mem_nil).scopeOf] at hscope
    exact unopened_enterLoop hc hn node hnode scope hscope
  | switch p id e cases default_ ihc ihd =>
    intro ctx r hw hn hu
    cases hw with
    | switch he hcases hdefault =>
    have hc := hu.closed rfl
    rw [statement]
    rw [Statement.nodes] at hn hc ⊢
    rw [List.nodup_cons] at hn
    have hr : Walked ctx.scope [id] r (r.selector ctx id e) := walked_selector ctx r id e
    have hc' : Closed (r.selector ctx id e) (caseNodes cases ++ defaultNodes default_) := by
      refine Closed.walked (fun node hnode => hc node (List.mem_cons_of_mem _ hnode)) hr ?_
      intro node hnode hid
      exact hn.1 (List.mem_singleton.1 hid ▸ hnode)
    have hb : Walked ctx.scope (caseNodes cases) (r.selector ctx id e)
        (caseBodies ctx (r.selector ctx id e) cases) :=
      walked_caseBodies ihc hcases (List.nodup_append.1 hn.2).1 hc'.left
    have hd := @walked_optionalBlock ctx _ default_ ihd hdefault (List.nodup_append.1 hn.2).2.1
      (hc'.behind hn.2 hb)
    exact hr.trans (hb.trans hd)
  | jump p j =>
    intro ctx r hw hn hu
    rw [statement]
    exact (walked_report r _).mono (List.nil_subset _)
  | action a =>
    intro ctx r hw hn hu
    rw [statement]
    exact (walked_report r _).mono (List.nil_subset _)
  | declaration v =>
    intro ctx r hw hn hu
    cases hw with
    | declaration hv =>
    rw [statement]
    exact (walked_variable hv).mono (List.nil_subset _)

end Resolved

end Scope

end Javelet
