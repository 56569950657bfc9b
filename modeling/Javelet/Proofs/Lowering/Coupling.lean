import Javelet.Proofs.Lowering.Visits
import Javelet.Proofs.Scope.Finished
import Javelet.Proofs.Types.Names
import Mathlib.Data.List.Forall2

/-!
# Both passes come to a place in the same scope

The walk over a method opens scopes and attaches them to nodes; the lowering enters what is
attached. They agree at each place because nothing is attached to a node but while the node is
walked: a block that shares the scope around it is given that scope before it is walked, and a
loop that opens no scope has none attached. The induction is on the statement. It carries that the
two passes stand in the same scope, and that what the walk attaches to the nodes of the statement
is what the lowering will find.
-/
namespace Javelet.Lowering

open Scope

/-- The walk and the lowering stand in the same surroundings. -/
structure Aligned (a : Arena) (ctx : Context) (r : Resolved) (env : Env) : Prop where
  arena : env.arena = a
  table : env.table = ctx.table
  wellNamed : ctx.table.WellNamed
  className : env.className = ctx.className
  scope : env.scope = ctx.scope
  visible : Visible ctx.Known r ctx.scope

/-- The two passes come to the same place in the same surroundings, and what the walk does there is
found in the finished scopes. -/
structure Meets (a : Arena) (last : Resolved) (v : Scope.Visit) (g : Visit) : Prop where
  place : g.place = v.place
  aligned : Aligned a v.ctx v.state g.env
  filled : Filled v.state last
  settled : Settled a v

variable {a : Arena} {last r r' : Resolved} {ctx : Context} {env : Env}

theorem Aligned.later (h : Aligned a ctx r env) (hf : Filled r r') : Aligned a ctx r' env :=
  ⟨h.arena, h.table, h.wellNamed, h.className, h.scope, h.visible.filled hf⟩

/-- Loops and switches around do not matter. -/
theorem Aligned.inside (h : Aligned a ctx r env) (t : Targets) : Aligned a ctx r (env.inside t) :=
  ⟨h.arena, h.table, h.wellNamed, h.className, h.scope, h.visible⟩

/-- Where the node has a scope, both passes stand in it. -/
theorem Aligned.enter {node : NodeId} {scope : ScopeId} (h : Aligned a ctx r env)
    (hscope : a.scopeOf node = some scope) (hv : Visible ctx.Known r' scope) :
    Aligned a { ctx with scope := scope } r' (env.enter node) := by
  refine ⟨h.arena, h.table, h.wellNamed, h.className, ?_, hv⟩
  rw [Env.enter, h.arena, hscope]
  rfl

/-- Where the node has none, both passes stay. -/
theorem Aligned.enter_none {node : NodeId} (h : Aligned a ctx r env)
    (hscope : a.scopeOf node = none) : Aligned a ctx r (env.enter node) := by
  refine ⟨h.arena, h.table, h.wellNamed, h.className, ?_, h.visible⟩
  rw [Env.enter, h.arena, hscope]
  exact h.scope

theorem meets_seen {places : List Place} (h : Aligned a ctx r env) (hf : Filled r last)
    (hs : ∀ place ∈ places, Settled a ⟨place, ctx, r⟩) :
    List.Forall₂ (Meets a last) (r.seen ctx places) (env.seen places) := by
  rw [Resolved.seen, Env.seen, List.forall₂_map_left_iff, List.forall₂_map_right_iff,
    List.forall₂_same]
  exact fun place hplace => ⟨rfl, h, hf, hs place hplace⟩

/-! ## Local variables -/

theorem local?_eq (env : Env) (name : String) :
    env.local? name = (env.arena.lookup env.scope name).bind fun entry =>
      entry.slot.bind fun slot => entry.type?.map fun ty => ⟨slot, ty⟩ := by
  rw [Env.local?]
  cases env.arena.lookup env.scope name with
  | none => rfl
  | some entry =>
    obtain ⟨meaning, slot⟩ := entry
    cases slot with
    | none => rfl
    | some slot => cases meaning <;> rfl

theorem lookup_of_local? {name : String} {l : Local} (h : env.local? name = some l) :
    env.arena.lookup env.scope name = some ⟨.variable l.type, some l.slot⟩ := by
  rw [local?_eq] at h
  obtain ⟨⟨meaning, s⟩, hfound, h⟩ := Option.bind_eq_some_iff.1 h
  obtain ⟨slot, hslot, h⟩ := Option.bind_eq_some_iff.1 h
  obtain ⟨ty, hty, rfl⟩ := Option.map_eq_some_iff.1 h
  cases hslot
  match meaning, hty with
  | .variable _, rfl => exact hfound

/-- The finished scopes give what the scopes behind the method gave. -/
theorem lookup_of_final (hl : Final last a) (hf : Filled r last) {scope : ScopeId}
    (hlt : scope < r.arena.size) (name : String) :
    a.lookup scope name = last.arena.lookup scope name :=
  Arena.lookup_congr hl.parent (fun id hid => hl.same id hid name) (Nat.lt_of_lt_of_le hlt hf.size)

/-- A variable that is found at a visit has a slot that is handed out in the method. -/
theorem local?_slot_lt {v : Scope.Visit} {g : Visit} (hl : Final last a) (hm : Meets a last v g)
    {name : String} {l : Local} (h : g.env.local? name = some l) : l.slot < last.nextSlot := by
  have hfound := lookup_of_local? h
  rw [hm.aligned.arena, hm.aligned.scope, lookup_of_final hl hm.filled hm.aligned.visible.lt] at hfound
  rcases (hm.aligned.visible.filled hm.filled).lookup hfound with ⟨ty, s, heq, hlt⟩ | ⟨hnone, -⟩
  · cases heq
    exact hlt
  · cases hnone

/-! ## Coming to a statement -/

/-- Both passes are about to come to a statement in the same surroundings, and what the walk leaves
of the nodes of the statement stays. -/
structure Joint (a : Arena) (last : Resolved) (ctx : Context) (r : Resolved) (env : Env)
    (s : Statement) : Prop where
  wellNamed : s.WellNamed
  nodup : s.nodes.Nodup
  unopened : Unopened r ctx.scope s
  aligned : Aligned a ctx r env
  persists : Persists a last s.nodes (Resolved.statement ctx r s)

/-- The same before statements in order. -/
structure JointList (a : Arena) (last : Resolved) (ctx : Context) (r : Resolved) (env : Env)
    (ss : List Statement) : Prop where
  wellNamed : ∀ s ∈ ss, s.WellNamed
  nodup : (statementNodes ss).Nodup
  closed : Closed r (statementNodes ss)
  aligned : Aligned a ctx r env
  persists : Persists a last (statementNodes ss) (Resolved.statements ctx r ss)

/-- The same before a block, which may share the scope around it. -/
structure JointBlock (a : Arena) (last : Resolved) (ctx : Context) (kind : Scope.Kind)
    (r : Resolved) (env : Env) (b : Block) : Prop where
  wellNamed : b.WellNamed
  nodup : b.nodes.Nodup
  attached : ∀ node ∈ b.nodes, ∀ id, r.arena.scopeOf node = some id →
    id = ctx.scope ∧ node = b.id
  aligned : Aligned a ctx r env
  persists : Persists a last b.nodes (Resolved.block ctx kind r b)

/-- The same before the bodies of cases. -/
structure JointCases (a : Arena) (last : Resolved) (ctx : Context) (r : Resolved) (env : Env)
    (cases : List Case) : Prop where
  wellNamed : ∀ c ∈ cases, c.body.WellNamed
  nodup : (caseNodes cases).Nodup
  closed : Closed r (caseNodes cases)
  aligned : Aligned a ctx r env
  persists : Persists a last (caseNodes cases) (Resolved.caseBodies ctx r cases)

section Joint

variable {s : Statement} {ss : List Statement} {b : Block} {kind : Scope.Kind} {c : Case}
  {cases : List Case} {p : Position} {id : NodeId} {e : Expr}

theorem Joint.walked (h : Joint a last ctx r env s) :
    Walked ctx.scope s.nodes r (Resolved.statement ctx r s) :=
  Resolved.walks s h.wellNamed h.nodup h.unopened

theorem Joint.filled (h : Joint a last ctx r env s) : Filled r last :=
  h.walked.toFilled.trans h.persists.filled

theorem Joint.inside (h : Joint a last ctx r env s) (t : Targets) :
    Joint a last ctx r (env.inside t) s :=
  ⟨h.wellNamed, h.nodup, h.unopened, h.aligned.inside t, h.persists⟩

theorem JointBlock.inside (h : JointBlock a last ctx kind r env b) (t : Targets) :
    JointBlock a last ctx kind r (env.inside t) b :=
  ⟨h.wellNamed, h.nodup, h.attached, h.aligned.inside t, h.persists⟩

theorem JointCases.inside (h : JointCases a last ctx r env cases) (t : Targets) :
    JointCases a last ctx r (env.inside t) cases :=
  ⟨h.wellNamed, h.nodup, h.closed, h.aligned.inside t, h.persists⟩

theorem JointList.head (h : JointList a last ctx r env (s :: ss)) :
    Joint a last ctx r env s ∧ Closed r s.nodes := by
  have hn := h.nodup
  have hc := h.closed
  have hp := h.persists
  rw [statementNodes] at hn hc hp
  rw [Resolved.statements] at hp
  have hw := List.forall_mem_cons.1 h.wellNamed
  have hs : Walked ctx.scope s.nodes r (Resolved.statement ctx r s) :=
    Resolved.walks s hw.1 (List.nodup_append.1 hn).1 hc.left.unopened
  have hss : Walked ctx.scope (statementNodes ss) (Resolved.statement ctx r s)
      (Resolved.statements ctx (Resolved.statement ctx r s) ss) :=
    Resolved.walked_statements (fun s _ => Resolved.walks s) hw.2 (List.nodup_append.1 hn).2.1
      (hc.behind hn hs)
  exact ⟨⟨hw.1, (List.nodup_append.1 hn).1, hc.left.unopened, h.aligned, hp.front hss hn⟩, hc.left⟩

theorem JointList.tail (h : JointList a last ctx r env (s :: ss)) :
    JointList a last ctx (Resolved.statement ctx r s) env ss := by
  have hs := h.head.1.walked
  have hn := h.nodup
  have hc := h.closed
  have hp := h.persists
  rw [statementNodes] at hn hc hp
  rw [Resolved.statements] at hp
  exact ⟨(List.forall_mem_cons.1 h.wellNamed).2, (List.nodup_append.1 hn).2.1, hc.behind hn hs,
    h.aligned.later hs.toFilled, hp.right⟩

theorem JointBlock.opened (h : JointBlock a last ctx kind r env b) :
    Opened ctx b (r.opened ctx kind b) :=
  opened_block kind h.nodup h.aligned.visible h.attached

/-- Inside of a block both passes stand in its scope. -/
theorem JointBlock.statements (h : JointBlock a last ctx kind r env b) :
    JointList a last (r.opened ctx kind b).2 (r.opened ctx kind b).1 (env.enter b.id)
      b.statements := by
  have ho := h.opened
  have hn := h.nodup
  have hp := h.persists
  rw [Block.nodes_eq] at hn hp
  rw [Resolved.block_eq] at hp
  rw [List.nodup_cons] at hn
  generalize r.opened ctx kind b = o at ho hp ⊢
  have hss : Walked o.2.scope (statementNodes b.statements) o.1
      (Resolved.statements o.2 o.1 b.statements) :=
    Resolved.walked_statements (fun s _ => Resolved.walks s) h.wellNamed hn.2 ho.closed
  -- the scope that is attached now is the one that the lowering finds
  have hscope : a.scopeOf b.id = some o.2.scope :=
    (hp.same b.id (List.mem_cons_self ..)).scopeOf.trans
      ((hss.attached b.id hn.1).scopeOf.trans ho.scope)
  have hinner : Aligned a o.2 o.1 (env.enter b.id) := by
    rw [ho.context]
    exact h.aligned.enter hscope ho.visible
  exact ⟨h.wellNamed, hn.2, ho.closed, hinner, hp.sub fun _ => List.mem_cons_of_mem _⟩

/-- Before a block that has no scope yet. -/
theorem jointBlock_of_closed (hw : b.WellNamed) (hn : b.nodes.Nodup) (hc : Closed r b.nodes)
    (ha : Aligned a ctx r env) (hp : Persists a last b.nodes (Resolved.block ctx kind r b)) :
    JointBlock a last ctx kind r env b := by
  refine ⟨hw, hn, ?_, ha, hp⟩
  intro node hnode id hid
  rw [hc node hnode] at hid
  cases hid

theorem JointCases.head (h : JointCases a last ctx r env (c :: cases)) :
    JointBlock a last ctx .case r env c.body ∧ Closed r c.body.nodes := by
  obtain ⟨p, q, l, b⟩ := c
  have hn := h.nodup
  have hc := h.closed
  have hp := h.persists
  rw [caseNodes] at hn hc hp
  rw [Resolved.caseBodies] at hp
  have hw := List.forall_mem_cons.1 h.wellNamed
  have hb : Walked ctx.scope b.nodes r (Resolved.block ctx .case r b) :=
    Resolved.walked_closedBlock (fun s _ => Resolved.walks s) hw.1 (List.nodup_append.1 hn).1 hc.left
  have hcs : Walked ctx.scope (caseNodes cases) (Resolved.block ctx .case r b)
      (Resolved.caseBodies ctx (Resolved.block ctx .case r b) cases) :=
    Resolved.walked_caseBodies (fun _ _ s _ => Resolved.walks s) hw.2 (List.nodup_append.1 hn).2.1
      (hc.behind hn hb)
  exact ⟨jointBlock_of_closed hw.1 (List.nodup_append.1 hn).1 hc.left h.aligned (hp.front hcs hn),
    hc.left⟩

theorem JointBlock.walked (h : JointBlock a last ctx kind r env b) :
    Walked ctx.scope b.nodes r (Resolved.block ctx kind r b) :=
  Resolved.walked_block (fun s _ => Resolved.walks s) h.wellNamed h.nodup h.attached

theorem JointCases.tail (h : JointCases a last ctx r env (c :: cases)) :
    JointCases a last ctx (Resolved.block ctx .case r c.body) env cases := by
  have hb := h.head.1.walked
  obtain ⟨p, q, l, b⟩ := c
  have hn := h.nodup
  have hc := h.closed
  have hp := h.persists
  rw [caseNodes] at hn hc hp
  rw [Resolved.caseBodies] at hp
  exact ⟨(List.forall_mem_cons.1 h.wellNamed).2, (List.nodup_append.1 hn).2.1, hc.behind hn hb,
    h.aligned.later hb.toFilled, hp.right⟩

theorem Joint.block (h : Joint a last ctx r env (.block b)) :
    JointBlock a last ctx .block r env b := by
  have hn := h.nodup
  have hp := h.persists
  rw [Statement.nodes] at hn hp
  rw [Resolved.statement] at hp
  have hw : b.WellNamed := by
    cases h.wellNamed with
    | block hw => exact hw
  refine ⟨hw, hn, ?_, h.aligned, hp⟩
  intro node hnode id hid
  obtain ⟨hscope, hblock⟩ := h.unopened node (by rw [Statement.nodes]; exact hnode) id hid
  exact ⟨hscope, (Option.some.inj hblock).symm⟩

/-- Both branches of a conditional are in its surroundings. -/
theorem Joint.conditional {body : Statement} {otherwise : Option Statement}
    (h : Joint a last ctx r env (.conditional p e body otherwise)) :
    (Joint a last ctx (r.expr ctx e) env body ∧ Closed (r.expr ctx e) body.nodes) ∧
      ∀ s ∈ otherwise, Joint a last ctx (Resolved.statement ctx (r.expr ctx e) body) env s ∧
        Closed (Resolved.statement ctx (r.expr ctx e) body) s.nodes := by
  obtain ⟨hw, hn, hu, ha, hp⟩ := h
  cases hw with
  | conditional he hbody hother =>
  have hc := hu.closed rfl
  rw [Statement.nodes] at hn hc hp
  rw [Resolved.statement] at hp
  have hr : Walked ctx.scope [] r (r.expr ctx e) := Resolved.walked_expr ctx r e
  have hc' : Closed (r.expr ctx e) (body.nodes ++ otherwiseNodes otherwise) :=
    hc.walked hr fun _ _ => List.not_mem_nil
  have hb : Walked ctx.scope body.nodes (r.expr ctx e) _ :=
    Resolved.walks body hbody (List.nodup_append.1 hn).1 hc'.left.unopened
  have ho : Walked ctx.scope (otherwiseNodes otherwise)
      (Resolved.statement ctx (r.expr ctx e) body)
      (Resolved.optionalStatement ctx (Resolved.statement ctx (r.expr ctx e) body) otherwise) :=
    Resolved.walked_optionalStatement (fun s _ => Resolved.walks s) hother
      (List.nodup_append.1 hn).2.1 (hc'.behind hn hb)
  refine ⟨⟨⟨hbody, (List.nodup_append.1 hn).1, hc'.left.unopened, ha.later hr.toFilled,
    hp.front ho hn⟩, hc'.left⟩, ?_⟩
  rintro s rfl
  have hc'' := hc'.behind hn hb
  rw [otherwiseNodes] at hn hc'' hp
  rw [Resolved.optionalStatement] at hp
  exact ⟨⟨hother s rfl, (List.nodup_append.1 hn).2.1, hc''.unopened,
    ha.later (hr.trans hb).toFilled, hp.right⟩, hc''⟩

theorem Joint.whileLoop {body : Statement} (h : Joint a last ctx r env (.whileLoop p e body)) :
    Joint a last ctx (r.expr ctx e) env body ∧ Closed (r.expr ctx e) body.nodes := by
  obtain ⟨hw, hn, hu, ha, hp⟩ := h
  cases hw with
  | whileLoop he hbody =>
  have hc := hu.closed rfl
  rw [Statement.nodes] at hn hc hp
  rw [Resolved.statement] at hp
  have hr : Walked ctx.scope [] r (r.expr ctx e) := Resolved.walked_expr ctx r e
  have hc' : Closed (r.expr ctx e) body.nodes := hc.walked hr fun _ _ => List.not_mem_nil
  exact ⟨⟨hbody, hn, hc'.unopened, ha.later hr.toFilled, hp⟩, hc'⟩

/-- Both passes stand at the first part of a for loop, in the scope that the loop opens if it does.
The walk comes to the condition and the update next, and to the body last. -/
structure JointLoop (a : Arena) (last : Resolved) (inner : Context) (atInit : Resolved) (env : Env)
    (init : Option ForInit) (e : Option Expr) (update : Option Action) (body : Statement) :
    Prop where
  aligned : Aligned a inner atInit env
  walkedInit : Walked inner.scope [] atInit (atInit.loopInit inner init)
  walkedCondition : Walked inner.scope [] (atInit.loopInit inner init)
    ((atInit.loopInit inner init).loopControl inner e none)
  walkedUpdate : Walked inner.scope [] ((atInit.loopInit inner init).loopControl inner e none)
    ((atInit.loopInit inner init).loopControl inner e update)
  body : Joint a last inner ((atInit.loopInit inner init).loopControl inner e update) env body

theorem Joint.forLoop {init : Option ForInit} {e : Option Expr} {update : Option Action}
    {body : Statement} (h : Joint a last ctx r env (.forLoop p id init e update body)) :
    JointLoop a last (r.enterLoop ctx id init body).2 (r.enterLoop ctx id init body).1
      (env.enter id) init e update body := by
  obtain ⟨hw, hn, hu, ha, hp⟩ := h
  cases hw with
  | forLoop hinit _ _ hbody =>
  have hc := hu.closed rfl
  rw [Statement.nodes] at hn hc hp
  rw [Resolved.statement] at hp
  have hunopened := @Resolved.unopened_enterLoop ctx r id init body hc hn
  obtain ⟨hvisible, hscope⟩ := @opened_loop r ctx id init body hn hc ha.visible
  simp only at hp
  -- the states in front of the parts of the loop, each of them filled up to the next
  generalize r.enterLoop ctx id init body = o at hp hunopened hvisible hscope ⊢
  obtain ⟨atInit, inner⟩ := o
  have h1 : Walked inner.scope [] atInit (atInit.loopInit inner init) :=
    Resolved.walked_loopInit hinit
  have h2 : Walked inner.scope [] (atInit.loopInit inner init)
      ((atInit.loopInit inner init).loopControl inner e none) :=
    Resolved.walked_loopControl e none
  have h3 : Walked inner.scope [] ((atInit.loopInit inner init).loopControl inner e none)
      ((atInit.loopInit inner init).loopControl inner e update) := by
    cases update with
    | none => exact .refl _
    | some act => exact Resolved.walked_report _ _
  have hwalked := (h1.followedBy h2).followedBy h3
  have hunopened' : Unopened ((atInit.loopInit inner init).loopControl inner e update)
      inner.scope body := by
    intro node hnode scope hs
    rw [(hwalked.attached node List.not_mem_nil).scopeOf] at hs
    exact hunopened node hnode scope hs
  have h4 := Resolved.walks body hbody (List.nodup_cons.1 hn).2 hunopened'
  have hfound : a.scopeOf id = atInit.arena.scopeOf id :=
    (hp.same id (List.mem_cons_self ..)).scopeOf.trans
      ((hwalked.trans h4).attached id (List.nodup_cons.1 hn).1).scopeOf
  have hinner : Aligned a inner atInit (env.enter id) := by
    rcases hscope with ⟨scope, hs, rfl⟩ | ⟨hnone, rfl⟩
    · exact ha.enter (hfound.trans hs) hvisible
    · have hstay := ha.enter_none (hfound.trans hnone)
      exact ⟨hstay.arena, hstay.table, hstay.wellNamed, hstay.className, hstay.scope, hvisible⟩
  exact ⟨hinner, h1, h2, h3, hbody, (List.nodup_cons.1 hn).2, hunopened',
    hinner.later hwalked.toFilled, hp.sub fun _ => List.mem_cons_of_mem _⟩

/-- The bodies of a switch are in the scope around it, behind its selector. -/
theorem Joint.switch {default_ : Option Block}
    (h : Joint a last ctx r env (.switch p id e cases default_)) :
    Persists a last [id] (r.selector ctx id e) ∧
      JointCases a last ctx (r.selector ctx id e) env cases ∧
      ∀ b ∈ default_,
        JointBlock a last ctx .case (Resolved.caseBodies ctx (r.selector ctx id e) cases) env b ∧
          Closed (Resolved.caseBodies ctx (r.selector ctx id e) cases) b.nodes := by
  obtain ⟨hw, hn, hu, ha, hp⟩ := h
  cases hw with
  | switch he hcases hdefault =>
  have hc := hu.closed rfl
  rw [Statement.nodes] at hn hc hp
  rw [Resolved.statement] at hp
  rw [List.nodup_cons] at hn
  have hr : Walked ctx.scope [id] r (r.selector ctx id e) := Resolved.walked_selector ctx r id e
  have hc' : Closed (r.selector ctx id e) (caseNodes cases ++ defaultNodes default_) := by
    refine Closed.walked (fun node hnode => hc node (List.mem_cons_of_mem _ hnode)) hr ?_
    intro node hnode hid
    exact hn.1 (List.mem_singleton.1 hid ▸ hnode)
  have hb : Walked ctx.scope (caseNodes cases) (r.selector ctx id e)
      (Resolved.caseBodies ctx (r.selector ctx id e) cases) :=
    Resolved.walked_caseBodies (fun _ _ s _ => Resolved.walks s) hcases
      (List.nodup_append.1 hn.2).1 hc'.left
  have hd : Walked ctx.scope (defaultNodes default_)
      (Resolved.caseBodies ctx (r.selector ctx id e) cases)
      (Resolved.optionalBlock ctx (Resolved.caseBodies ctx (r.selector ctx id e) cases) default_) :=
    Resolved.walked_optionalBlock (fun _ _ s _ => Resolved.walks s) hdefault
      (List.nodup_append.1 hn.2).2.1 (hc'.behind hn.2 hb)
  have hp' : Persists a last (caseNodes cases ++ defaultNodes default_) _ :=
    hp.sub fun _ => List.mem_cons_of_mem _
  have hafter := ha.later hr.toFilled
  refine ⟨?_, ⟨hcases, (List.nodup_append.1 hn.2).1, hc'.left, hafter, hp'.front hd hn.2⟩, ?_⟩
  · refine (hp.sub ?_).before (hb.trans hd) ?_
    · exact List.forall_mem_singleton.2 (List.mem_cons_self ..)
    · exact List.forall_mem_singleton.2 hn.1
  · rintro b rfl
    have hc'' := hc'.behind hn.2 hb
    have hn' := hn.2
    rw [defaultNodes] at hn' hc'' hp'
    rw [Resolved.optionalBlock] at hp'
    exact ⟨jointBlock_of_closed (hdefault b rfl) (List.nodup_append.1 hn').2.1 hc''
      (hafter.later hb.toFilled) hp'.right, hc''⟩

end Joint

/-! ## Statements -/

/-- What is shown of every statement. -/
def Couples (a : Arena) (last : Resolved) (s : Statement) : Prop :=
  ∀ {ctx r env}, Joint a last ctx r env s →
    List.Forall₂ (Meets a last) (r.visits ctx s) (env.visits s)

theorem statements_couple {ss : List Statement} (ih : ∀ s ∈ ss, Couples a last s)
    (h : JointList a last ctx r env ss) :
    List.Forall₂ (Meets a last) (r.statementVisits ctx ss) (env.statementVisits ss) := by
  induction ss generalizing r with
  | nil =>
    rw [Resolved.statementVisits, Env.statementVisits]
    exact .nil
  | cons s ss ihss =>
    rw [Resolved.statementVisits, Env.statementVisits]
    rw [List.forall_mem_cons] at ih
    exact List.rel_append (ih.1 h.head.1) (ihss ih.2 h.tail)

theorem block_couples {b : Block} {kind : Scope.Kind} (ih : ∀ s ∈ b.statements, Couples a last s)
    (h : JointBlock a last ctx kind r env b) :
    List.Forall₂ (Meets a last) (r.blockVisits ctx kind b) (env.blockVisits b) := by
  have hss := h.statements
  obtain ⟨id, p, ss⟩ := b
  rw [Resolved.blockVisits, Env.blockVisits]
  exact statements_couple ih hss

theorem caseBodies_couple {cases : List Case}
    (ih : ∀ c ∈ cases, ∀ s ∈ c.body.statements, Couples a last s)
    (h : JointCases a last ctx r env cases) :
    List.Forall₂ (Meets a last) (r.caseVisits ctx cases) (env.caseVisits cases) := by
  induction cases generalizing r with
  | nil =>
    rw [Resolved.caseVisits, Env.caseVisits]
    exact .nil
  | cons c cases ihc =>
    have hhead := h.head.1
    have htail := h.tail
    obtain ⟨p, q, l, b⟩ := c
    rw [Resolved.caseVisits, Env.caseVisits]
    rw [List.forall_mem_cons] at ih
    exact List.rel_append (block_couples ih.1 hhead) (ihc ih.2 htail)

/-- The parts of a for loop are visited in the scope that the loop opens, if it does. -/
theorem forLoop_couples {p : Position} {id : NodeId} {init : Option ForInit} {e : Option Expr}
    {update : Option Action} {body : Statement} (hl : Final last a) (ih : Couples a last body) :
    Couples a last (.forLoop p id init e update body) := by
  intro ctx r env h
  have hloop := h.forLoop
  rw [Resolved.visits, Env.visits]
  generalize r.enterLoop ctx id init body = o at hloop ⊢
  have hf3 := hloop.body.filled
  have hf2 := hloop.walkedUpdate.toFilled.trans hf3
  have hf1 := hloop.walkedCondition.toFilled.trans hf2
  have hinner1 := hloop.aligned.later hloop.walkedInit.toFilled
  have hinner2 := hinner1.later hloop.walkedCondition.toFilled
  refine List.rel_append (meets_seen h.aligned h.filled ?_) ?_
  · exact List.forall_mem_singleton.2 trivial
  · refine List.rel_append
      (meets_seen hloop.aligned (hloop.walkedInit.toFilled.trans hf1) ?_) ?_
    · exact settled_init hloop.aligned.visible.lt hf1 hl
    · refine List.rel_append (meets_seen hinner1 hf1 (settled_condition hf2 hl)) ?_
      exact List.rel_append (meets_seen hinner2 hf2 (settled_update hf3 hl)) (ih hloop.body)

/-- The bodies of a switch are visited in the scope around it. -/
theorem switch_couples {p : Position} {id : NodeId} {e : Expr} {cases : List Case}
    {default_ : Option Block} (hl : Final last a)
    (ihc : ∀ c ∈ cases, ∀ s ∈ c.body.statements, Couples a last s)
    (ihd : ∀ b ∈ default_, ∀ s ∈ b.statements, Couples a last s) :
    Couples a last (.switch p id e cases default_) := by
  intro ctx r env h
  obtain ⟨hselector, hcases, hdefault⟩ := h.switch
  rw [Resolved.visits, Env.visits]
  refine List.rel_append (meets_seen h.aligned h.filled (settled_selector hselector hl)) ?_
  refine List.rel_append (caseBodies_couple ihc hcases) ?_
  cases default_ with
  | none =>
    rw [Resolved.defaultVisits, Env.defaultVisits]
    exact .nil
  | some b =>
    rw [Resolved.defaultVisits, Env.defaultVisits]
    exact block_couples (ihd b rfl) (hdefault b rfl).1

theorem conditional_couples {p : Position} {e : Expr} {body : Statement}
    {otherwise : Option Statement} (hl : Final last a) (ihbody : Couples a last body)
    (ihother : ∀ s ∈ otherwise, Couples a last s) :
    Couples a last (.conditional p e body otherwise) := by
  intro ctx r env h
  obtain ⟨⟨hbody, -⟩, hother⟩ := h.conditional
  rw [Resolved.visits, Env.visits]
  have hsettled := @settled_expr a r ctx e (hbody.filled.faults hl.faults)
  refine List.rel_append (meets_seen h.aligned h.filled ?_) (List.rel_append (ihbody hbody) ?_)
  · exact List.forall_mem_cons.2 ⟨trivial, hsettled⟩
  · cases otherwise with
    | none =>
      rw [Resolved.otherwiseVisits, Env.otherwiseVisits]
      exact .nil
    | some s =>
      rw [Resolved.otherwiseVisits, Env.otherwiseVisits]
      exact ihother s rfl (hother s rfl).1

theorem whileLoop_couples {p : Position} {e : Expr} {body : Statement} (hl : Final last a)
    (ih : Couples a last body) : Couples a last (.whileLoop p e body) := by
  intro ctx r env h
  have hbody := h.whileLoop.1
  rw [Resolved.visits, Env.visits]
  have hsettled := @settled_expr a r ctx e (hbody.filled.faults hl.faults)
  refine List.rel_append (meets_seen h.aligned h.filled ?_) (ih hbody)
  exact List.forall_mem_cons.2 ⟨trivial, hsettled⟩

/-- Both passes come to each place of a statement in the same scope. -/
theorem couples (hl : Final last a) (s : Statement) : Couples a last s := by
  induction s using Statement.induction with
  | block b ih =>
    intro ctx r env h
    rw [Resolved.visits, Env.visits]
    refine List.rel_append (meets_seen h.aligned h.filled ?_) (block_couples ih h.block)
    exact List.forall_mem_singleton.2 trivial
  | conditional p e body otherwise ihbody ihother => exact conditional_couples hl ihbody ihother
  | whileLoop p e body ih => exact whileLoop_couples hl ih
  | forLoop p id init e update body ih => exact forLoop_couples hl ih
  | switch p id e cases default_ ihc ihd => exact switch_couples hl ihc ihd
  | jump p j =>
    intro ctx r env h
    have hp := h.persists
    rw [Resolved.visits, Env.visits]
    rw [Resolved.statement] at hp
    exact meets_seen h.aligned h.filled (settled_jump (hp.faults hl))
  | action act =>
    intro ctx r env h
    have hp := h.persists
    rw [Resolved.visits, Env.visits]
    rw [Resolved.statement] at hp
    exact meets_seen h.aligned h.filled
      (List.forall_mem_cons.2 ⟨trivial, settled_action (hp.faults hl)⟩)
  | declaration v =>
    intro ctx r env h
    have hp := h.persists
    rw [Resolved.visits, Env.visits]
    rw [Resolved.statement] at hp
    exact meets_seen h.aligned h.filled (settled_declaration h.aligned.visible.lt hp.filled hl)

end Javelet.Lowering
