import Javelet.Proofs.Scope.Finished

/-!
# What the walk carries along

A property of the surroundings and the state is carried along if it is kept by what is added to the
scopes, and if it holds inside of a scope that is opened. It holds at every visit of a walk then, if
it holds where the walk begins. This does not need a walk without faults. The visits stand at the
places of the statement, each of them once.
-/
namespace Javelet.Scope

variable {P : Context → Resolved → Prop} {ctx : Context} {r : Resolved}

/-! ## Places -/

section Places

theorem map_place_seen (ctx : Context) (r : Resolved) (places : List Place) :
    (r.seen ctx places).map Visit.place = places := by
  rw [Resolved.seen, List.map_map]
  exact List.map_id _

/-- The visits of a statement stand at its places. -/
def AtPlaces (s : Statement) : Prop :=
  ∀ ctx r, (Resolved.visits ctx r s).map Visit.place = s.places

theorem map_place_statementVisits {ss : List Statement} (ih : ∀ s ∈ ss, AtPlaces s) (ctx : Context)
    (r : Resolved) : (r.statementVisits ctx ss).map Visit.place = statementPlaces ss := by
  induction ss generalizing r with
  | nil => rw [Resolved.statementVisits, statementPlaces, List.map_nil]
  | cons s ss ihss =>
    rw [List.forall_mem_cons] at ih
    rw [Resolved.statementVisits, statementPlaces, List.map_append, ih.1, ihss ih.2]

theorem map_place_blockVisits {b : Block} (ih : ∀ s ∈ b.statements, AtPlaces s) (ctx : Context)
    (kind : Kind) (r : Resolved) : (r.blockVisits ctx kind b).map Visit.place = b.places := by
  obtain ⟨id, p, ss⟩ := b
  rw [Resolved.blockVisits, Block.places]
  exact map_place_statementVisits ih _ _

theorem map_place_caseVisits {cases : List Case}
    (ih : ∀ c ∈ cases, ∀ s ∈ c.body.statements, AtPlaces s) (ctx : Context) (r : Resolved) :
    (r.caseVisits ctx cases).map Visit.place = casePlaces cases := by
  induction cases generalizing r with
  | nil => rw [Resolved.caseVisits, casePlaces, List.map_nil]
  | cons c cases ihc =>
    obtain ⟨p, q, l, b⟩ := c
    rw [List.forall_mem_cons] at ih
    have hbody : (r.blockVisits ctx .case b).map Visit.place = b.places :=
      map_place_blockVisits ih.1 ctx .case r
    rw [Resolved.caseVisits, casePlaces, List.map_append, hbody, ihc ih.2]

theorem atPlaces (s : Statement) : AtPlaces s := by
  induction s using Statement.induction with
  | block b ih =>
    intro ctx r
    rw [Resolved.visits, Statement.places, List.map_append, map_place_seen,
      map_place_blockVisits ih]
  | conditional p e body otherwise ihbody ihother =>
    intro ctx r
    rw [Resolved.visits, Statement.places, List.map_append, List.map_append, map_place_seen,
      ihbody]
    cases otherwise with
    | none => rw [Resolved.otherwiseVisits, otherwisePlaces, List.map_nil]
    | some s => rw [Resolved.otherwiseVisits, otherwisePlaces, ihother s rfl]
  | whileLoop p e body ih =>
    intro ctx r
    rw [Resolved.visits, Statement.places, List.map_append, map_place_seen, ih]
  | forLoop p id init e update body ih =>
    intro ctx r
    simp only [Resolved.visits, Statement.places, List.map_append, map_place_seen]
    rw [ih]
  | switch p id e cases default_ ihc ihd =>
    intro ctx r
    rw [Resolved.visits, Statement.places, List.map_append, List.map_append, map_place_seen,
      map_place_caseVisits ihc]
    cases default_ with
    | none => rw [Resolved.defaultVisits, defaultPlaces, List.map_nil]
    | some b => rw [Resolved.defaultVisits, defaultPlaces, map_place_blockVisits (ihd b rfl)]
  | jump p j =>
    intro ctx r
    rw [Resolved.visits, Statement.places, map_place_seen]
  | action a =>
    intro ctx r
    rw [Resolved.visits, Statement.places, map_place_seen]
  | declaration v =>
    intro ctx r
    rw [Resolved.visits, Statement.places, map_place_seen]

theorem map_place_values (ctx : Context) (r : Resolved) (es : List Expr) :
    (Resolved.along (Resolved.expr ctx) (fun r e => r.seen ctx e.places) r es).map Visit.place =
      es.flatMap Expr.places := by
  induction es generalizing r with
  | nil => rfl
  | cons e es ih => rw [Resolved.along, List.map_append, map_place_seen, ih, List.flatMap_cons]

theorem map_place_methodTour (ctx : Context) (d : ClassDecl) (r : Resolved) (m : Method) :
    (Resolved.methodTour ctx d r m).visits.map Visit.place = m.body.places ++ [.boundary d] := by
  have hbody : m.body.places = statementPlaces m.body.statements := by
    cases m.body
    rw [Block.places]
    rfl
  rw [Resolved.methodTour, List.map_append, hbody,
    map_place_statementVisits fun s _ => atPlaces s]
  rfl

end Places

/-! ## Carried properties -/

/-- What is kept by a walk that adds to the scopes, and inside of a scope that is opened. -/
structure Carried (P : Context → Resolved → Prop) : Prop where
  filled : ∀ {ctx r r'}, P ctx r → Filled r r' → P ctx r'
  enter : ∀ {ctx r}, P ctx r → ∀ name kind node,
    P { ctx with scope := r.arena.size } (r.enter ctx.scope name kind node).1
  attach : ∀ {ctx r}, P ctx r → ∀ node id, P ctx { r with arena := r.arena.attach node id }

/-- What is shown of every statement. -/
def Carries (P : Context → Resolved → Prop) (s : Statement) : Prop :=
  ∀ {ctx r}, s.WellNamed → s.nodes.Nodup → Unopened r ctx.scope s → P ctx r →
    ∀ v ∈ r.visits ctx s, P v.ctx v.state

namespace Carried

theorem seen (h : P ctx r) (places : List Place) : ∀ v ∈ r.seen ctx places, P v.ctx v.state := by
  intro v hv
  obtain ⟨place, -, rfl⟩ := List.mem_map.1 hv
  exact h

theorem statements (hP : Carried P) {ss : List Statement} (ih : ∀ s ∈ ss, Carries P s)
    (hw : ∀ s ∈ ss, s.WellNamed) (hn : (statementNodes ss).Nodup)
    (hc : Closed r (statementNodes ss)) (h : P ctx r) :
    ∀ v ∈ r.statementVisits ctx ss, P v.ctx v.state := by
  induction ss generalizing r with
  | nil =>
    rw [Resolved.statementVisits]
    exact List.forall_mem_nil _
  | cons s ss ihss =>
    rw [statementNodes] at hn hc
    rw [List.forall_mem_cons] at ih hw
    rw [Resolved.statementVisits]
    have hwalked : Walked ctx.scope s.nodes r (Resolved.statement ctx r s) :=
      Resolved.walks s hw.1 (List.nodup_append.1 hn).1 hc.left.unopened
    refine List.forall_mem_append.2 ⟨?_, ?_⟩
    · exact ih.1 hw.1 (List.nodup_append.1 hn).1 hc.left.unopened h
    · exact ihss ih.2 hw.2 (List.nodup_append.1 hn).2.1 (hc.behind hn hwalked)
        (hP.filled h hwalked.toFilled)

/-- A block has the scope around it already, or it opens one. -/
theorem block (hP : Carried P) {b : Block} (kind : Kind) (ih : ∀ s ∈ b.statements, Carries P s)
    (hw : b.WellNamed) (hn : b.nodes.Nodup)
    (hc : ∀ node ∈ b.nodes, ∀ id, r.arena.scopeOf node = some id → id = ctx.scope ∧ node = b.id)
    (h : P ctx r) : ∀ v ∈ r.blockVisits ctx kind b, P v.ctx v.state := by
  have hclosed : Closed (r.opened ctx kind b).1 (statementNodes b.statements) :=
    closed_opened kind hn hc
  have hopened : P (r.opened ctx kind b).2 (r.opened ctx kind b).1 := by
    unfold Resolved.opened
    split
    · rename_i scope hscope
      obtain ⟨rfl, -⟩ := hc b.id (Block.id_mem_nodes b) scope hscope
      exact h
    · exact hP.enter h _ _ _
  rw [Block.nodes_eq, List.nodup_cons] at hn
  obtain ⟨id, p, ss⟩ := b
  rw [Resolved.blockVisits]
  exact hP.statements ih hw hn.2 hclosed hopened

theorem closedBlock (hP : Carried P) {b : Block} (kind : Kind)
    (ih : ∀ s ∈ b.statements, Carries P s) (hw : b.WellNamed) (hn : b.nodes.Nodup)
    (hc : Closed r b.nodes) (h : P ctx r) : ∀ v ∈ r.blockVisits ctx kind b, P v.ctx v.state := by
  refine hP.block kind ih hw hn ?_ h
  intro node hnode id hid
  rw [hc node hnode] at hid
  cases hid

theorem caseBodies (hP : Carried P) {cases : List Case}
    (ih : ∀ c ∈ cases, ∀ s ∈ c.body.statements, Carries P s)
    (hw : ∀ c ∈ cases, c.body.WellNamed) (hn : (caseNodes cases).Nodup)
    (hc : Closed r (caseNodes cases)) (h : P ctx r) :
    ∀ v ∈ r.caseVisits ctx cases, P v.ctx v.state := by
  induction cases generalizing r with
  | nil =>
    rw [Resolved.caseVisits]
    exact List.forall_mem_nil _
  | cons c cases ihc =>
    obtain ⟨p, q, l, b⟩ := c
    rw [caseNodes] at hn hc
    rw [List.forall_mem_cons] at ih hw
    rw [Resolved.caseVisits]
    have hwalked : Walked ctx.scope b.nodes r (Resolved.block ctx .case r b) :=
      Resolved.walked_closedBlock (fun s _ => Resolved.walks s) hw.1 (List.nodup_append.1 hn).1
        hc.left
    refine List.forall_mem_append.2 ⟨?_, ?_⟩
    · exact hP.closedBlock .case ih.1 hw.1 (List.nodup_append.1 hn).1 hc.left h
    · exact ihc ih.2 hw.2 (List.nodup_append.1 hn).2.1 (hc.behind hn hwalked)
        (hP.filled h hwalked.toFilled)

/-- A for loop with a declaration opens a scope, and shares it with a body in braces. -/
theorem enterLoop (hP : Carried P) (h : P ctx r) (id : NodeId) (init : Option ForInit)
    (body : Statement) : P (r.enterLoop ctx id init body).2 (r.enterLoop ctx id init body).1 := by
  cases init with
  | none => exact h
  | some i =>
    cases i with
    | assignment a => exact h
    | declaration v =>
      have hentered := hP.enter h "for" .loop id
      cases body with
      | block b => exact hP.attach hentered b.id r.arena.size
      | _ => exact hentered

theorem carries (hP : Carried P) (s : Statement) : Carries P s := by
  induction s using Statement.induction with
  | block b ih =>
    intro ctx r hw hn hu h
    cases hw with
    | block hw =>
    rw [Statement.nodes] at hn
    rw [Resolved.visits]
    refine List.forall_mem_append.2 ⟨seen h _, hP.block .block ih hw hn ?_ h⟩
    intro node hnode id hid
    obtain ⟨hscope, hblock⟩ := hu node (by rw [Statement.nodes]; exact hnode) id hid
    exact ⟨hscope, (Option.some.inj hblock).symm⟩
  | conditional p e body otherwise ihbody ihother =>
    intro ctx r hw hn hu h
    cases hw with
    | conditional he hbody hother =>
    have hc := hu.closed rfl
    rw [Statement.nodes] at hn hc
    rw [Resolved.visits]
    have hcondition : Walked ctx.scope [] r (r.expr ctx e) := Resolved.walked_expr ctx r e
    have hc' : Closed (r.expr ctx e) (body.nodes ++ otherwiseNodes otherwise) :=
      hc.walked hcondition fun _ _ => List.not_mem_nil
    have hwalked : Walked ctx.scope body.nodes (r.expr ctx e)
        (Resolved.statement ctx (r.expr ctx e) body) :=
      Resolved.walks body hbody (List.nodup_append.1 hn).1 hc'.left.unopened
    have hr := hP.filled h hcondition.toFilled
    refine List.forall_mem_append.2 ⟨seen h _, List.forall_mem_append.2 ⟨?_, ?_⟩⟩
    · exact ihbody hbody (List.nodup_append.1 hn).1 hc'.left.unopened hr
    · cases otherwise with
      | none =>
        rw [Resolved.otherwiseVisits]
        exact List.forall_mem_nil _
      | some s =>
        rw [Resolved.otherwiseVisits]
        exact ihother s rfl (hother s rfl) (List.nodup_append.1 hn).2.1
          (hc'.behind hn hwalked).unopened (hP.filled hr hwalked.toFilled)
  | whileLoop p e body ih =>
    intro ctx r hw hn hu h
    cases hw with
    | whileLoop he hbody =>
    have hc := hu.closed rfl
    rw [Statement.nodes] at hn hc
    rw [Resolved.visits]
    have hcondition : Walked ctx.scope [] r (r.expr ctx e) := Resolved.walked_expr ctx r e
    have hc' : Closed (r.expr ctx e) body.nodes := hc.walked hcondition fun _ _ => List.not_mem_nil
    exact List.forall_mem_append.2
      ⟨seen h _, ih hbody hn hc'.unopened (hP.filled h hcondition.toFilled)⟩
  | forLoop p id init e update body ih =>
    intro ctx r hw hn hu h
    cases hw with
    | forLoop hinit he hupdate hbody =>
    have hc := hu.closed rfl
    rw [Statement.nodes] at hn hc
    rw [Resolved.visits]
    have hstart := hP.enterLoop h id init body
    have hfirst := @Resolved.walked_loopInit (r.enterLoop ctx id init body).2
      (r.enterLoop ctx id init body).1 init hinit
    have hcondition := hP.filled hstart hfirst.toFilled
    have hlater : ∀ update, Walked (r.enterLoop ctx id init body).2.scope [] _ _ :=
      fun update => hfirst.followedBy (Resolved.walked_loopControl e update)
    refine List.forall_mem_append.2 ⟨seen h _, List.forall_mem_append.2 ⟨seen hstart _,
      List.forall_mem_append.2 ⟨seen hcondition _, List.forall_mem_append.2 ⟨?_, ?_⟩⟩⟩⟩
    · exact seen (hP.filled hstart (hlater none).toFilled) _
    · refine ih hbody (List.nodup_cons.1 hn).2 ?_ (hP.filled hstart (hlater update).toFilled)
      intro node hnode scope hscope
      rw [((hlater update).attached node List.not_mem_nil).scopeOf] at hscope
      exact Resolved.unopened_enterLoop hc hn node hnode scope hscope
  | switch p id e cases default_ ihc ihd =>
    intro ctx r hw hn hu h
    cases hw with
    | switch he hcases hdefault =>
    have hc := hu.closed rfl
    rw [Statement.nodes] at hn hc
    rw [Resolved.visits]
    rw [List.nodup_cons] at hn
    have hselector : Walked ctx.scope [id] r (r.selector ctx id e) :=
      Resolved.walked_selector ctx r id e
    have hc' : Closed (r.selector ctx id e) (caseNodes cases ++ defaultNodes default_) := by
      refine Closed.walked (fun node hnode => hc node (List.mem_cons_of_mem _ hnode)) hselector ?_
      intro node hnode hid
      exact hn.1 (List.mem_singleton.1 hid ▸ hnode)
    have hwalked : Walked ctx.scope (caseNodes cases) (r.selector ctx id e)
        (Resolved.caseBodies ctx (r.selector ctx id e) cases) :=
      Resolved.walked_caseBodies (fun c _ s _ => Resolved.walks s) hcases
        (List.nodup_append.1 hn.2).1 hc'.left
    have hr := hP.filled h hselector.toFilled
    refine List.forall_mem_append.2 ⟨seen h _, List.forall_mem_append.2 ⟨?_, ?_⟩⟩
    · exact hP.caseBodies ihc hcases (List.nodup_append.1 hn.2).1 hc'.left hr
    · cases default_ with
      | none =>
        rw [Resolved.defaultVisits]
        exact List.forall_mem_nil _
      | some b =>
        rw [Resolved.defaultVisits]
        exact hP.closedBlock .case (ihd b rfl) (hdefault b rfl) (List.nodup_append.1 hn.2).2.1
          (hc'.behind hn.2 hwalked) (hP.filled hr hwalked.toFilled)
  | jump p j =>
    intro ctx r _ _ _ h
    rw [Resolved.visits]
    exact seen h _
  | action a =>
    intro ctx r _ _ _ h
    rw [Resolved.visits]
    exact seen h _
  | declaration v =>
    intro ctx r _ _ _ h
    rw [Resolved.visits]
    exact seen h _

/-! ## Methods -/

/-- What holds in front of a method is carried to every place of its body. -/
theorem body (hP : Carried P) {m : Method} (hw : m.WellNamed) (hn : m.nodes.Nodup)
    (hc : Closed r m.nodes)
    (h : P { ctx with isStatic := m.signature.isStatic } { r with
      nextSlot := if m.signature.isStatic then 0 else 1 }) :
    ∀ v ∈ (Resolved.atBody ctx r m).statementVisits (Resolved.bodyContext ctx r m)
      m.body.statements, P v.ctx v.state := by
  have hopened := hP.attach (hP.enter h m.signature.text .method m.signature.id) m.body.id
    r.arena.size
  have hwalked : Walked r.arena.size [] _ (Resolved.atBody ctx r m) :=
    Resolved.walked_params hw.signature.params
  have hparams : P (Resolved.bodyContext ctx r m) (Resolved.atBody ctx r m) :=
    hP.filled hopened hwalked.toFilled
  have hbody : (statementNodes m.body.statements).Nodup := by
    rw [Method.nodes, Block.nodes_eq, List.nodup_cons, List.nodup_cons] at hn
    exact hn.2.2
  exact hP.statements (fun s _ => hP.carries s) hw.body hbody
    (Resolved.closed_atBody hw.signature hn hc) hparams

/-- What holds where the initial values of a class begin is carried to every place in them. -/
theorem values (hP : Carried P) {es : List Expr} (h : P ctx r) :
    ∀ v ∈ Resolved.along (Resolved.expr ctx) (fun r e => r.seen ctx e.places) r es,
      P v.ctx v.state := by
  induction es generalizing r with
  | nil => exact List.forall_mem_nil _
  | cons e es ih =>
    rw [Resolved.along]
    have hwalked : Walked ctx.scope [] r (r.expr ctx e) := Resolved.walked_expr ctx r e
    exact List.forall_mem_append.2 ⟨seen h _, ih (hP.filled h hwalked.toFilled)⟩

end Carried

end Javelet.Scope
