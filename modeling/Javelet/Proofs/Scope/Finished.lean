import Javelet.Proofs.Scope.Chain
import Javelet.Proofs.Scope.Faultless
import Javelet.Proofs.Scope.Visits

/-!
# What is left of a visit in the finished scopes

The rest of the walk over a method adds to the scopes, and what comes behind the method leaves
them as they are. So what the walk does at a place is found in the finished scopes: a variable that
is declared there in its slot, and the hidden slot of a switch.
-/
namespace Javelet.Scope

/-- The state behind a method without faults, and the finished scopes. -/
structure Final (last : Resolved) (a : Arena) : Prop where
  faults : last.faults = #[]
  size : last.arena.size ≤ a.size
  parent : ∀ id < last.arena.size, a.parentOf id = last.arena.parentOf id
  same : ∀ id < last.arena.size, ∀ name, a.lookupLocal id name = last.arena.lookupLocal id name

theorem Grown.final {nodes : List NodeId} {r final : Resolved} (h : Grown nodes r final)
    (hf : final.faults = #[]) : Final r final.arena :=
  ⟨h.faults hf, h.size, h.parent, h.same⟩

/-- The walk goes on from a state to the end of the method, and what is known of the nodes is
final. -/
structure Persists (a : Arena) (last : Resolved) (nodes : List NodeId) (r : Resolved) : Prop where
  filled : Filled r last
  same : ∀ node ∈ nodes, r.arena.SameAt node a

/-- What the walk does at a place stays: no fault is found there, a slot that is handed out there is
found in the finished scopes, and behind a member the walk is in the scope of its class. -/
def Settled (a : Arena) (v : Visit) : Prop :=
  match v.place with
  | .expr e => exprFaults v.ctx v.state.arena e = []
  | .target c => chainFaults v.ctx v.state.arena c = []
  | .statement (.declaration x) =>
    a.lookupLocal v.ctx.scope x.name = some ⟨.variable x.type, some v.state.nextSlot⟩
  | .statement (.switch _ id _ _ _) => a.reservedSlot id = some v.state.nextSlot
  | .boundary d => a.scopeOf d.id = some v.ctx.scope
  | _ => True

variable {a : Arena} {last r r' : Resolved} {ctx : Context} {nodes nodes' : List NodeId}

namespace Persists

theorem faults (h : Persists a last nodes r) (hl : Final last a) : r.faults = #[] :=
  h.filled.faults hl.faults

theorem sub (h : Persists a last nodes r) (hs : ∀ node ∈ nodes', node ∈ nodes) :
    Persists a last nodes' r :=
  ⟨h.filled, fun node hn => h.same node (hs node hn)⟩

theorem left (h : Persists a last (nodes ++ nodes') r) : Persists a last nodes r :=
  h.sub fun _ => List.mem_append_left _

theorem right (h : Persists a last (nodes ++ nodes') r) : Persists a last nodes' r :=
  h.sub fun _ => List.mem_append_right _

/-- Before a walk over other nodes. -/
theorem before {scope : ScopeId} {walked : List NodeId} (h : Persists a last nodes r')
    (hw : Walked scope walked r r') (hd : ∀ node ∈ nodes, node ∉ walked) :
    Persists a last nodes r :=
  ⟨hw.toFilled.trans h.filled,
    fun node hn => (hw.attached node (hd node hn)).trans (h.same node hn)⟩

/-- Before a walk over the nodes that come last. -/
theorem front {scope : ScopeId} (h : Persists a last (nodes ++ nodes') r')
    (hw : Walked scope nodes' r r') (hn : (nodes ++ nodes').Nodup) : Persists a last nodes r := by
  refine h.left.before hw ?_
  intro node hmem hmem'
  exact (List.nodup_append.1 hn).2.2 node hmem node hmem' rfl

end Persists

/-! ## Opened scopes -/

/-- The entries without slots that a class can see: the names of types and its own members. -/
def Context.Known (ctx : Context) (name : String) (e : Entry) : Prop :=
  e.meaning = .type ∨ ∃ info, ctx.table.find? ctx.className = some info ∧ MemberOf info name e

/-- Inside of a block its scope is attached, and the nodes in it are closed. A block may have a
scope before, if it is the one around it. -/
structure Opened (ctx : Context) (b : Block) (o : Resolved × Context) : Prop where
  closed : Closed o.1 (statementNodes b.statements)
  scope : o.1.arena.scopeOf b.id = some o.2.scope
  visible : Visible ctx.Known o.1 o.2.scope
  context : o.2 = { ctx with scope := o.2.scope }

/-- Inside of a block the nodes are closed, if the block alone can have a scope. -/
theorem closed_opened {b : Block} (kind : Kind) (hn : b.nodes.Nodup)
    (hc : ∀ node ∈ b.nodes, ∀ id, r.arena.scopeOf node = some id → id = ctx.scope ∧ node = b.id) :
    Closed (r.opened ctx kind b).1 (statementNodes b.statements) := by
  rw [Block.nodes_eq] at hn hc
  rw [List.nodup_cons] at hn
  have hclosed : Closed r (statementNodes b.statements) := by
    intro node hnode
    cases hid : r.arena.scopeOf node with
    | none => rfl
    | some scope =>
      have heq : node = b.id := (hc node (List.mem_cons_of_mem _ hnode) scope hid).2
      exact (hn.1 (heq ▸ hnode)).elim
  unfold Resolved.opened
  split
  · exact hclosed
  · exact closed_enter _ _ _ hclosed hn.1

theorem opened_block {b : Block} (kind : Kind) (hn : b.nodes.Nodup)
    (hv : Visible ctx.Known r ctx.scope)
    (hc : ∀ node ∈ b.nodes, ∀ id, r.arena.scopeOf node = some id → id = ctx.scope ∧ node = b.id) :
    Opened ctx b (r.opened ctx kind b) := by
  have hclosed := closed_opened kind hn hc
  unfold Resolved.opened at hclosed ⊢
  split at hclosed
  · rename_i scope hscope
    obtain ⟨rfl, -⟩ := hc b.id (Block.id_mem_nodes b) scope hscope
    exact ⟨hclosed, hscope, hv, rfl⟩
  · exact ⟨hclosed, Arena.scopeOf_attach_self .., hv.enter .., rfl⟩

/-- A for loop opens a scope and attaches it to its node, or it does neither. -/
theorem opened_loop {id : NodeId} {init : Option ForInit} {body : Statement}
    (hn : (id :: body.nodes).Nodup) (hc : Closed r (id :: body.nodes))
    (hv : Visible ctx.Known r ctx.scope) :
    Visible ctx.Known (r.enterLoop ctx id init body).1
        (r.enterLoop ctx id init body).2.scope ∧
      ((∃ scope, (r.enterLoop ctx id init body).1.arena.scopeOf id = some scope ∧
          (r.enterLoop ctx id init body).2 = { ctx with scope := scope }) ∨
        ((r.enterLoop ctx id init body).1.arena.scopeOf id = none ∧
          (r.enterLoop ctx id init body).2 = ctx)) := by
  have hid : r.arena.scopeOf id = none := hc id (List.mem_cons_self ..)
  match init with
  | none => exact ⟨hv, .inr ⟨hid, rfl⟩⟩
  | some (.assignment a) => exact ⟨hv, .inr ⟨hid, rfl⟩⟩
  | some (.declaration v) =>
    have hentered := hv.enter "for" .loop id
    have hself := Arena.scopeOf_attach_self (r.arena.push "for" .loop ctx.scope) id r.arena.size
    cases body with
    | block b =>
      refine ⟨hentered.attach b.id r.arena.size, .inl ⟨r.arena.size, ?_, rfl⟩⟩
      have hne : id ≠ b.id := by
        rintro rfl
        refine (List.nodup_cons.1 hn).1 ?_
        rw [Statement.nodes]
        exact Block.id_mem_nodes b
      exact (Arena.scopeOf_attach_of_ne _ hne _).trans hself
    | _ => exact ⟨hentered, .inl ⟨r.arena.size, hself, rfl⟩⟩

/-! ## Places without faults -/

theorem settled_expr {e : Expr} (h : (r.expr ctx e).faults = #[]) :
    ∀ place ∈ e.places, Settled a ⟨place, ctx, r⟩ := by
  intro place hplace
  obtain ⟨part, hpart, rfl⟩ := List.mem_map.1 hplace
  exact faultless e (Resolved.faultless_report h) part hpart

theorem settled_action {act : Action} (h : (r.report (actionFaults ctx r.arena act)).faults = #[]) :
    ∀ place ∈ act.places, Settled a ⟨place, ctx, r⟩ := by
  have hfaults := Resolved.faultless_report h
  cases act with
  | call c =>
    intro place hplace
    obtain ⟨part, hpart, rfl⟩ := List.mem_map.1 hplace
    refine faultless (.access c) ?_ part hpart
    rw [exprFaults]
    exact hfaults
  | assignment x =>
    rw [actionFaults, assignmentFaults, List.append_eq_nil_iff] at hfaults
    refine List.forall_mem_cons.2 ⟨hfaults.1, ?_⟩
    intro place hplace
    obtain ⟨e, he, hplace⟩ := List.mem_flatMap.1 hplace
    obtain ⟨part, hpart, rfl⟩ := List.mem_map.1 hplace
    refine faultless e ?_ part hpart
    rcases List.mem_append.1 he with he | he
    · exact faultless_target hfaults.1 e he
    · rw [List.mem_singleton.1 he]
      exact hfaults.2

theorem settled_jump {p : Position} {j : Jump}
    (h : (r.report (jumpFaults ctx r.arena j)).faults = #[]) :
    ∀ place ∈ (Statement.jump p j).own, Settled a ⟨place, ctx, r⟩ := by
  have hfaults := Resolved.faultless_report h
  refine List.forall_mem_cons.2 ⟨trivial, ?_⟩
  match j, hfaults with
  | .return_ (some e), hfaults =>
    intro place hplace
    obtain ⟨part, hpart, rfl⟩ := List.mem_map.1 hplace
    exact faultless e hfaults part hpart
  | .return_ none, _ => exact fun _ hplace => absurd hplace List.not_mem_nil
  | .break_, _ => exact fun _ hplace => absurd hplace List.not_mem_nil
  | .continue_, _ => exact fun _ hplace => absurd hplace List.not_mem_nil

/-! ## Slots -/

/-- A declaration and its initial value. -/
theorem settled_declaration {v : Variable} (hscope : ctx.scope < r.arena.size)
    (hf : Filled (r.variable_ ctx v) last) (hl : Final last a) :
    ∀ place ∈ (Statement.declaration v).own, Settled a ⟨place, ctx, r⟩ := by
  obtain ⟨-, -, -, harena, hvalue⟩ := Resolved.faultless_variable (hf.faults hl.faults)
  refine List.forall_mem_cons.2 ⟨?_, ?_⟩
  · have hlocal : (r.variable_ ctx v).arena.lookupLocal ctx.scope v.name =
        some ⟨.variable v.type, some r.nextSlot⟩ := by
      rw [harena]
      exact Arena.lookupLocal_put hscope _ _
    have hsize : r.arena.size ≤ last.arena.size := by
      have hle := hf.size
      rw [harena, Arena.size_put] at hle
      exact hle
    exact (hl.same _ (Nat.lt_of_lt_of_le hscope hsize) _).trans (hf.kept _ _ _ hlocal)
  · intro place hplace
    obtain ⟨e, he, hplace⟩ := List.mem_flatMap.1 hplace
    exact settled_expr (hvalue e (Option.mem_toList.1 he)) place hplace

/-- The first part of a for loop. -/
theorem settled_init {init : Option ForInit} (hscope : ctx.scope < r.arena.size)
    (hf : Filled (r.loopInit ctx init) last) (hl : Final last a) :
    ∀ place ∈ initPlaces init, Settled a ⟨place, ctx, r⟩ := by
  match init with
  | none => exact fun _ hplace => absurd hplace List.not_mem_nil
  | some (.declaration v) =>
    rw [initPlaces, Option.toList_some, List.flatMap_singleton]
    exact settled_declaration hscope hf hl
  | some (.assignment x) =>
    rw [initPlaces, Option.toList_some, List.flatMap_singleton]
    have hfaults : (r.report (actionFaults ctx r.arena (.assignment x))).faults = #[] :=
      hf.faults hl.faults
    exact List.forall_mem_cons.2 ⟨trivial, settled_action hfaults⟩

theorem settled_condition {e : Option Expr} (hf : Filled (r.loopControl ctx e none) last)
    (hl : Final last a) : ∀ place ∈ conditionPlaces e, Settled a ⟨place, ctx, r⟩ := by
  cases e with
  | none => exact fun _ hplace => absurd hplace List.not_mem_nil
  | some e =>
    rw [conditionPlaces, Option.toList_some, List.flatMap_singleton]
    exact settled_expr (hf.faults hl.faults)

theorem settled_update {e : Option Expr} {update : Option Action}
    (hf : Filled (r.loopControl ctx e update) last) (hl : Final last a) :
    ∀ place ∈ updatePlaces update, Settled a ⟨place, ctx, r.loopControl ctx e none⟩ := by
  cases update with
  | none => exact fun _ hplace => absurd hplace List.not_mem_nil
  | some act =>
    rw [updatePlaces, Option.toList_some, List.flatMap_singleton]
    exact List.forall_mem_cons.2 ⟨trivial, settled_action (hf.faults hl.faults)⟩

theorem settled_selector {p : Position} {id : NodeId} {e : Expr} {cases : List Case}
    {default_ : Option Block} (h : Persists a last [id] (r.selector ctx id e)) (hl : Final last a) :
    ∀ place ∈ (Statement.switch p id e cases default_).own, Settled a ⟨place, ctx, r⟩ := by
  have hfaults := h.faults hl
  obtain ⟨-, hselector⟩ := Resolved.faultless_selector hfaults
  refine List.forall_mem_cons.2 ⟨?_, ?_⟩
  · have hsame := (h.same id (List.mem_singleton.2 rfl)).reservedSlot
    rw [hselector] at hsame
    exact hsame.trans (Arena.reservedSlot_reserve_self ..)
  · refine settled_expr ?_
    rw [hselector] at hfaults
    exact hfaults

/-! ## Methods -/

/-- No variable can be seen from a scope. -/
def Bare (known : String → Entry → Prop) (r : Resolved) (scope : ScopeId) : Prop :=
  Visible known { r with nextSlot := 0 } scope

variable {scope : ScopeId} {known : String → Entry → Prop}

theorem Bare.visible (h : Bare known r scope) : Visible known r scope := h.raise (Nat.zero_le _)

theorem Bare.grown (h : Bare known r scope) (hg : Grown nodes r r') : Bare known r' scope := by
  refine ⟨Nat.lt_of_lt_of_le h.lt hg.size, ?_⟩
  intro outer haround name e he
  have haround' : r.arena.Around scope outer := haround.congr hg.parent h.lt
  rw [hg.same outer (Nat.lt_of_le_of_lt haround'.le h.lt)] at he
  exact h.entries outer haround' name e he

variable {m : Method}

/-- In front of the body of a method its parameters can be seen. -/
theorem visible_atBody (h : Bare known r ctx.scope) (hw : m.signature.WellNamed) :
    Visible known (Resolved.atBody ctx r m) r.arena.size := by
  have hopened := (h.enter m.signature.text .method m.signature.id).attach m.body.id r.arena.size
  have hstart := hopened.raise (n := if m.signature.isStatic then 0 else 1) (Nat.zero_le _)
  exact hstart.filled (Resolved.walked_params hw.params).toFilled

theorem final_behindBody {final : Resolved} (h : Grown nodes (Resolved.method ctx r m) final)
    (hf : final.faults = #[]) : Final (Resolved.behindBody ctx r m) final.arena :=
  ⟨h.faults hf, h.size, h.parent, h.same⟩

/-- The nodes of a method are not walked again. -/
theorem persists_behindBody {final : Resolved} (h : Grown nodes (Resolved.method ctx r m) final)
    (hd : ∀ node ∈ m.nodes, node ∉ nodes) (hn : m.nodes.Nodup) :
    Persists final.arena (Resolved.behindBody ctx r m) m.body.nodes
      (Resolved.behindBody ctx r m) := by
  rw [Method.nodes, List.nodup_cons] at hn
  refine ⟨.refl _, ?_⟩
  intro node hnode
  have hne : node ≠ m.signature.id := fun heq => hn.1 (heq ▸ hnode)
  have hkept := h.attached node (hd node (List.mem_cons_of_mem _ hnode))
  exact (Arena.sameAt_setLocals hne _ _).trans hkept

/-- The scope of a method stays attached to its body. -/
theorem scopeOf_body {final : Resolved} (h : Grown nodes (Resolved.method ctx r m) final)
    (hd : ∀ node ∈ m.nodes, node ∉ nodes) (hw : m.WellNamed) (hn : m.nodes.Nodup)
    (hc : Closed r m.nodes) : final.arena.scopeOf m.body.id = some r.arena.size := by
  have hlast := (persists_behindBody h hd hn).same m.body.id (Block.id_mem_nodes _)
  have hbody : m.body.id ∉ statementNodes m.body.statements := by
    rw [Method.nodes, Block.nodes_eq, List.nodup_cons, List.nodup_cons] at hn
    exact hn.2.1
  have hwalked := (@Resolved.walked_body ctx r m hw hn hc).attached m.body.id hbody
  have hparams : Walked r.arena.size [] _ (Resolved.atBody ctx r m) :=
    Resolved.walked_params hw.signature.params
  have hopened := (hparams.attached m.body.id List.not_mem_nil).scopeOf
  exact (hlast.scopeOf.trans hwalked.scopeOf).trans
    (hopened.trans (Arena.scopeOf_attach_self ..))

/-! ## Classes -/

/-- In front of the initial values of a class its members can be seen, and no variable. -/
theorem bare_atClass {table : Types.Table} {d : ClassDecl}
    (h : Bare (fun _ e => e.meaning = .type) r Arena.root) :
    Bare (Resolved.classContext table r d).Known (Resolved.atClass table r d) r.arena.size := by
  have hopened : Visible (Resolved.classContext table r d).Known _ r.arena.size :=
    (h.enter d.name .class_ d.id).mono fun _ _ => .inl
  have henters := Resolved.enters_atClass table r d
  refine ⟨Nat.lt_of_lt_of_eq hopened.lt henters.size.symm, ?_⟩
  intro outer haround name e he
  have haround' := haround.congr (fun id _ => henters.parent id) hopened.lt
  by_cases hself : outer = r.arena.size
  · subst hself
    rcases henters.entries name e he with hold | ⟨info, hinfo, hmember⟩
    · exact hopened.entries _ haround' name e hold
    · exact .inr ⟨hmember.slot, .inr ⟨info, hinfo, hmember⟩⟩
  · rw [henters.outside outer name hself] at he
    exact hopened.entries outer haround' name e he

theorem grown_behindValues (table : Types.Table) (r : Resolved) (d : ClassDecl) :
    Grown [d.id] r (Resolved.behindValues table r d) :=
  (Resolved.grown_atClass table r d).trans (Resolved.walked_initialValues ..).grown

/-- In front of the methods of a class nothing is known of their nodes. -/
theorem closed_behindValues {table : Types.Table} {d : ClassDecl} (hn : d.nodes.Nodup)
    (hc : Closed r d.nodes) :
    Closed (Resolved.behindValues table r d) (d.members.flatMap Method.nodes) := by
  rw [ClassDecl.nodes] at hn hc
  intro node hnode
  have hother : node ∉ [d.id] :=
    fun hmem => (List.nodup_cons.1 hn).1 (List.mem_singleton.1 hmem ▸ hnode)
  rw [((grown_behindValues table r d).attached node hother).scopeOf]
  exact hc node (List.mem_cons_of_mem _ hnode)

theorem scopeOf_behindValues (table : Types.Table) (r : Resolved) (d : ClassDecl) :
    (Resolved.behindValues table r d).arena.scopeOf d.id = some r.arena.size := by
  have hvalues : Walked r.arena.size [] (Resolved.atClass table r d)
      (Resolved.behindValues table r d) := Resolved.walked_initialValues ..
  rw [(hvalues.attached d.id nofun).scopeOf,
    ((Resolved.enters_atClass table r d).attached d.id).scopeOf]
  exact Arena.scopeOf_attach_self ..

/-- In front of the first declaration only the names of types can be seen. -/
theorem bare_typeNames (program : Program) :
    Bare (fun _ e => e.meaning = .type) ⟨typeNames program, #[], 0⟩ Arena.root := by
  have henters := enters_typeNames program
  refine ⟨Nat.lt_of_lt_of_eq (Nat.lt_succ_self 0) henters.size.symm, ?_⟩
  intro outer haround name e he
  obtain rfl := Nat.le_zero.1 haround.le
  rcases henters.entries name e he with hold | rfl
  · cases (lookupLocal_initial Arena.root name).symm.trans hold
  · exact .inr ⟨rfl, rfl⟩

end Javelet.Scope
