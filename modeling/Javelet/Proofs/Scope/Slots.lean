import Javelet.Proofs.Scope.Faultless
import Javelet.Proofs.Scope.Visits

/-!
# The slots that a walk hands out

Where the walk finds no fault, it hands out one slot at each declaration and at each switch, in the
order of its visits and without a gap. Whatever is new in the scopes behind it was declared at one
of its visits.
-/
namespace Javelet.Scope

/-- The slot that the walk hands out at a visit. -/
def Visit.slot? (v : Visit) : Option Nat :=
  if v.place.takesSlot then some v.state.nextSlot else none

/-- The entry that is put into a scope at a visit. -/
def Visit.Declares (v : Visit) (id : ScopeId) (name : String) (e : Entry) : Prop :=
  ∃ x, v.place = .statement (.declaration x) ∧ x.name = name ∧ v.ctx.scope = id ∧
    e = ⟨.variable x.type, some v.state.nextSlot⟩

/-- Every entry is an older one or is declared at one of the visits. -/
def Declared (visits : List Visit) (r r' : Resolved) : Prop :=
  ∀ id name e, r'.arena.lookupLocal id name = some e →
    r.arena.lookupLocal id name = some e ∨ ∃ v ∈ visits, v.Declares id name e

/-- A walk without faults from one state to another. -/
structure Handed (r : Resolved) (visits : List Visit) (r' : Resolved) : Prop where
  faults : r.faults = #[]
  nextSlot : r.nextSlot ≤ r'.nextSlot
  limit : r.nextSlot ≤ slotLimit → r'.nextSlot ≤ slotLimit
  slots : visits.filterMap Visit.slot? = List.range' r.nextSlot (r'.nextSlot - r.nextSlot)
  declared : Declared visits r r'
  later : ∀ v ∈ visits, Declared visits v.state r'

variable {r r' r'' : Resolved} {visits more : List Visit} {ctx : Context}

theorem Declared.mono (h : Declared visits r r') (hs : ∀ v ∈ visits, v ∈ more) :
    Declared more r r' := by
  intro id name e he
  rcases h id name e he with hold | ⟨v, hv, hd⟩
  · exact .inl hold
  · exact .inr ⟨v, hs v hv, hd⟩

theorem Declared.trans (h : Declared visits r r') (h' : Declared more r' r'') :
    Declared (visits ++ more) r r'' := by
  intro id name e he
  rcases h' id name e he with hold | ⟨v, hv, hd⟩
  · exact h.mono (fun _ => List.mem_append_left _) id name e hold
  · exact .inr ⟨v, List.mem_append_right _ hv, hd⟩

theorem Handed.trans (h : Handed r visits r') (h' : Handed r' more r'') :
    Handed r (visits ++ more) r'' := by
  refine ⟨h.faults, Nat.le_trans h.nextSlot h'.nextSlot, fun hl => h'.limit (h.limit hl), ?_,
    h.declared.trans h'.declared, ?_⟩
  · have hle := h.nextSlot
    have hle' := h'.nextSlot
    have hstart : r'.nextSlot = r.nextSlot + 1 * (r'.nextSlot - r.nextSlot) := by omega
    have hcount : r''.nextSlot - r.nextSlot =
        (r'.nextSlot - r.nextSlot) + (r''.nextSlot - r'.nextSlot) := by omega
    rw [List.filterMap_append, h.slots, h'.slots, hcount, ← List.range'_append, ← hstart]
  · intro v hv
    rcases List.mem_append.1 hv with hv | hv
    · exact (h.later v hv).trans h'.declared
    · exact (h'.later v hv).mono fun _ => List.mem_append_right _

/-! ## Steps -/

theorem slots_seen {places : List Place} (h : ∀ place ∈ places, place.takesSlot = false) :
    (r.seen ctx places).filterMap Visit.slot? = [] := by
  rw [List.filterMap_eq_nil_iff]
  intro v hv
  obtain ⟨place, hplace, rfl⟩ := List.mem_map.1 hv
  simp [Visit.slot?, h place hplace]

/-- Places at which nothing is handed out or declared. -/
theorem handed_still {places : List Place} (hf : r.faults = #[]) (hn : r'.nextSlot = r.nextSlot)
    (he : ∀ id name, r'.arena.lookupLocal id name = r.arena.lookupLocal id name)
    (hp : ∀ place ∈ places, place.takesSlot = false) : Handed r (r.seen ctx places) r' := by
  have hdeclared : Declared (r.seen ctx places) r r' :=
    fun id name e hentry => .inl ((he id name).symm.trans hentry)
  refine ⟨hf, Nat.le_of_eq hn.symm, fun hl => hn ▸ hl, ?_, hdeclared, ?_⟩
  · rw [slots_seen hp, hn, Nat.sub_self]
    rfl
  · intro v hv
    obtain ⟨place, -, rfl⟩ := List.mem_map.1 hv
    exact hdeclared

theorem Handed.refl (hf : r.faults = #[]) : Handed r [] r :=
  ⟨hf, Nat.le_refl _, id, by simp, fun _ _ _ => .inl, fun _ hv => absurd hv List.not_mem_nil⟩

/-- A place at which one slot is handed out. -/
theorem handed_next {place : Place} {places : List Place} (hf : r.faults = #[])
    (hl : r.nextSlot < slotLimit) (hn : r'.nextSlot = r.nextSlot + 1)
    (hplace : place.takesSlot = true) (hp : ∀ place ∈ places, place.takesSlot = false)
    (hd : Declared (r.seen ctx (place :: places)) r r') :
    Handed r (r.seen ctx (place :: places)) r' := by
  refine ⟨hf, by omega, fun _ => by omega, ?_, hd, ?_⟩
  · have hrest := @slots_seen r ctx places hp
    rw [Resolved.seen] at hrest
    rw [Resolved.seen, List.map_cons, List.filterMap_cons, hrest, hn, Nat.add_sub_cancel_left]
    simp [Visit.slot?, hplace]
  · intro v hv
    obtain ⟨place, -, rfl⟩ := List.mem_map.1 hv
    exact hd

/-- A check of an expression. -/
theorem handed_expr {e : Expr} {places : List Place} (h : (r.expr ctx e).faults = #[])
    (hp : ∀ place ∈ places, place.takesSlot = false) :
    Handed r (r.seen ctx places) (r.expr ctx e) :=
  handed_still (Resolved.faults_of_report h) rfl (fun _ _ => rfl) hp

theorem handed_action {act : Action} (h : (Resolved.statement ctx r (.action act)).faults = #[]) :
    Handed r (r.seen ctx (Statement.action act).own) (Resolved.statement ctx r (.action act)) := by
  rw [Resolved.statement] at h ⊢
  exact handed_still (Resolved.faults_of_report h) rfl (fun _ _ => rfl)
    (List.forall_mem_cons.2 ⟨rfl, act.takesSlot_places⟩)

theorem handed_declaration {x : Variable}
    (h : (Resolved.statement ctx r (.declaration x)).faults = #[]) :
    Handed r (r.seen ctx (Statement.declaration x).own)
      (Resolved.statement ctx r (.declaration x)) := by
  rw [Resolved.statement] at h ⊢
  obtain ⟨hf, hl, hn, harena, -⟩ := Resolved.faultless_variable h
  refine handed_next hf hl hn rfl (takesSlot_flatMap_places _) ?_
  intro id name e he
  rw [harena] at he
  by_cases hself : id = ctx.scope ∧ name = x.name
  · obtain ⟨rfl, rfl⟩ := hself
    obtain rfl := Arena.lookupLocal_put_self he
    exact .inr ⟨_, List.mem_cons_self .., x, rfl, rfl, rfl, rfl⟩
  · rw [Arena.lookupLocal_put_of_ne (Decidable.not_and_iff_not_or_not.1 hself)] at he
    exact .inl he

/-! ## Statements -/

/-- What is shown of every statement. -/
def Hands (s : Statement) : Prop :=
  ∀ {ctx r}, (Resolved.statement ctx r s).faults = #[] →
    Handed r (r.visits ctx s) (Resolved.statement ctx r s)

theorem statements_handed {ss : List Statement} (ih : ∀ s ∈ ss, Hands s)
    (h : (Resolved.statements ctx r ss).faults = #[]) :
    Handed r (r.statementVisits ctx ss) (Resolved.statements ctx r ss) := by
  induction ss generalizing r with
  | nil =>
    rw [Resolved.statements] at h ⊢
    rw [Resolved.statementVisits]
    exact .refl h
  | cons s ss ihss =>
    rw [Resolved.statements] at h ⊢
    rw [Resolved.statementVisits]
    rw [List.forall_mem_cons] at ih
    have hrest := ihss ih.2 h
    exact (ih.1 hrest.faults).trans hrest

theorem block_handed {b : Block} {kind : Kind} (ih : ∀ s ∈ b.statements, Hands s)
    (h : (Resolved.block ctx kind r b).faults = #[]) :
    Handed r (r.blockVisits ctx kind b) (Resolved.block ctx kind r b) := by
  rw [Resolved.block_eq] at h ⊢
  have hrest := statements_handed ih h
  have hopened : Handed r [] (r.opened ctx kind b).1 := by
    have hfaults := hrest.faults
    unfold Resolved.opened at hfaults ⊢
    split at hfaults
    · exact .refl hfaults
    · exact @handed_still r _ ctx [] hfaults rfl (Arena.lookupLocal_push _ _ _ _)
        fun _ hplace => absurd hplace List.not_mem_nil
  obtain ⟨id, p, ss⟩ := b
  rw [Resolved.blockVisits]
  exact hopened.trans hrest

theorem caseBodies_handed {cases : List Case}
    (ih : ∀ c ∈ cases, ∀ s ∈ c.body.statements, Hands s)
    (h : (Resolved.caseBodies ctx r cases).faults = #[]) :
    Handed r (r.caseVisits ctx cases) (Resolved.caseBodies ctx r cases) := by
  induction cases generalizing r with
  | nil =>
    rw [Resolved.caseBodies] at h ⊢
    rw [Resolved.caseVisits]
    exact .refl h
  | cons c cases ihc =>
    obtain ⟨p, q, l, b⟩ := c
    rw [Resolved.caseBodies] at h ⊢
    rw [Resolved.caseVisits]
    rw [List.forall_mem_cons] at ih
    have hrest := ihc ih.2 h
    exact (block_handed ih.1 hrest.faults).trans hrest

theorem defaultBody_handed {b : Option Block} (ih : ∀ b' ∈ b, ∀ s ∈ b'.statements, Hands s)
    (h : (Resolved.optionalBlock ctx r b).faults = #[]) :
    Handed r (r.defaultVisits ctx b) (Resolved.optionalBlock ctx r b) := by
  cases b with
  | none =>
    rw [Resolved.optionalBlock] at h ⊢
    rw [Resolved.defaultVisits]
    exact .refl h
  | some b =>
    rw [Resolved.optionalBlock] at h ⊢
    rw [Resolved.defaultVisits]
    exact block_handed (ih b rfl) h

theorem otherwise_handed {s : Option Statement} (ih : ∀ s' ∈ s, Hands s')
    (h : (Resolved.optionalStatement ctx r s).faults = #[]) :
    Handed r (r.otherwiseVisits ctx s) (Resolved.optionalStatement ctx r s) := by
  cases s with
  | none =>
    rw [Resolved.optionalStatement] at h ⊢
    rw [Resolved.otherwiseVisits]
    exact .refl h
  | some s =>
    rw [Resolved.optionalStatement] at h ⊢
    rw [Resolved.otherwiseVisits]
    exact ih s rfl h

/-- The first part of a for loop. -/
theorem loopInit_handed {init : Option ForInit} (h : (r.loopInit ctx init).faults = #[]) :
    Handed r (r.seen ctx (initPlaces init)) (r.loopInit ctx init) := by
  match init with
  | none => exact .refl h
  | some (.declaration x) =>
    rw [Resolved.loopInit_eq] at h ⊢
    rw [initPlaces, Option.toList_some, List.flatMap_singleton]
    exact handed_declaration h
  | some (.assignment x) =>
    rw [Resolved.loopInit_eq] at h ⊢
    rw [initPlaces, Option.toList_some, List.flatMap_singleton]
    exact handed_action h

theorem loopUpdate_handed {e : Option Expr} {update : Option Action}
    (h : (r.loopControl ctx e update).faults = #[]) :
    Handed (r.loopControl ctx e none) ((r.loopControl ctx e none).seen ctx (updatePlaces update))
      (r.loopControl ctx e update) := by
  cases update with
  | none => exact .refl h
  | some act =>
    rw [Resolved.loopControl_eq] at h ⊢
    rw [updatePlaces, Option.toList_some, List.flatMap_singleton]
    exact handed_action h

theorem loopCondition_handed {e : Option Expr} (h : (r.loopControl ctx e none).faults = #[]) :
    Handed r (r.seen ctx (conditionPlaces e)) (r.loopControl ctx e none) := by
  cases e with
  | none => exact .refl h
  | some e => exact handed_expr h (takesSlot_flatMap_places _)

theorem enterLoop_handed {id : NodeId} {init : Option ForInit} {body : Statement}
    {places : List Place} (h : (r.enterLoop ctx id init body).1.faults = #[])
    (hp : ∀ place ∈ places, place.takesSlot = false) :
    Handed r (r.seen ctx places) (r.enterLoop ctx id init body).1 := by
  match init with
  | none => exact handed_still h rfl (fun _ _ => rfl) hp
  | some (.assignment x) => exact handed_still h rfl (fun _ _ => rfl) hp
  | some (.declaration x) =>
    cases body with
    | _ => exact handed_still h rfl (Arena.lookupLocal_push _ _ _ _) hp

theorem forLoop_handed {p : Position} {id : NodeId} {init : Option ForInit} {e : Option Expr}
    {update : Option Action} {body : Statement} (ih : Hands body) :
    Hands (.forLoop p id init e update body) := by
  intro ctx r h
  rw [Resolved.statement] at h ⊢
  rw [Resolved.visits]
  simp only at h ⊢
  have hbody := ih h
  have hupdate := loopUpdate_handed hbody.faults
  have hcondition := loopCondition_handed hupdate.faults
  have hinit := loopInit_handed hcondition.faults
  refine (enterLoop_handed hinit.faults ?_).trans
    (hinit.trans (hcondition.trans (hupdate.trans hbody)))
  exact List.forall_mem_singleton.2 rfl

theorem switch_handed {p : Position} {id : NodeId} {e : Expr} {cases : List Case}
    {default_ : Option Block} (ihc : ∀ c ∈ cases, ∀ s ∈ c.body.statements, Hands s)
    (ihd : ∀ b ∈ default_, ∀ s ∈ b.statements, Hands s) :
    Hands (.switch p id e cases default_) := by
  intro ctx r h
  rw [Resolved.statement] at h ⊢
  rw [Resolved.visits]
  have hdefault := defaultBody_handed ihd h
  have hcases := caseBodies_handed ihc hdefault.faults
  obtain ⟨hl, hselector⟩ := Resolved.faultless_selector hcases.faults
  have hfaults := hcases.faults
  rw [hselector] at hfaults
  refine Handed.trans ?_ (hcases.trans hdefault)
  refine handed_next (Resolved.faults_of_report hfaults) hl (by rw [hselector]) rfl
    e.takesSlot_places ?_
  rw [hselector]
  exact fun id name entry hentry => .inl hentry

/-- A statement that is walked without a fault hands out its slots in order. -/
theorem hands (s : Statement) : Hands s := by
  induction s using Statement.induction with
  | block b ih =>
    intro ctx r h
    rw [Resolved.statement] at h ⊢
    rw [Resolved.visits]
    have hbody := block_handed ih h
    refine Handed.trans ?_ hbody
    exact handed_still hbody.faults rfl (fun _ _ => rfl) (List.forall_mem_singleton.2 rfl)
  | conditional p e body otherwise ihbody ihother =>
    intro ctx r h
    rw [Resolved.statement] at h ⊢
    rw [Resolved.visits]
    have hother := otherwise_handed ihother h
    have hbody := ihbody hother.faults
    refine (handed_expr hbody.faults ?_).trans (hbody.trans hother)
    exact List.forall_mem_cons.2 ⟨rfl, e.takesSlot_places⟩
  | whileLoop p e body ih =>
    intro ctx r h
    rw [Resolved.statement] at h ⊢
    rw [Resolved.visits]
    have hbody := ih h
    exact (handed_expr hbody.faults (List.forall_mem_cons.2 ⟨rfl, e.takesSlot_places⟩)).trans hbody
  | forLoop p id init e update body ih => exact forLoop_handed ih
  | switch p id e cases default_ ihc ihd => exact switch_handed ihc ihd
  | jump p j =>
    intro ctx r h
    rw [Resolved.statement] at h ⊢
    rw [Resolved.visits]
    refine handed_still (Resolved.faults_of_report h) rfl (fun _ _ => rfl) ?_
    refine List.forall_mem_cons.2 ⟨rfl, ?_⟩
    cases j with
    | break_ => exact List.forall_mem_nil _
    | continue_ => exact List.forall_mem_nil _
    | return_ value =>
      cases value with
      | none => exact List.forall_mem_nil _
      | some e => exact e.takesSlot_places
  | action act =>
    intro ctx r h
    rw [Resolved.visits]
    exact handed_action h
  | declaration x =>
    intro ctx r h
    rw [Resolved.visits]
    exact handed_declaration h

/-! ## Parameters -/

/-- Parameters that are declared without a fault take the next slots from left to right. -/
theorem faultless_params {scope : ScopeId} {ps : List Parameter} (hscope : scope < r.arena.size)
    (hps : ∀ p ∈ ps, p.type.IsValue) (h : (Resolved.params scope r ps).faults = #[]) :
    r.faults = #[] ∧ (Resolved.params scope r ps).nextSlot = r.nextSlot + ps.length ∧
      (r.nextSlot ≤ slotLimit → (Resolved.params scope r ps).nextSlot ≤ slotLimit) ∧
      ∀ i p, ps[i]? = some p → (Resolved.params scope r ps).arena.lookupLocal scope p.name =
        some ⟨.variable p.type, some (r.nextSlot + i)⟩ := by
  induction ps generalizing r with
  | nil => exact ⟨h, rfl, id, nofun⟩
  | cons p ps ih =>
    rw [List.forall_mem_cons] at hps
    have hrest : Walked scope [] (r.declare scope .parameter p.name p.type p.position)
        (Resolved.params scope r (p :: ps)) := Resolved.walked_params hps.2
    obtain ⟨hslot, hdeclare⟩ := Resolved.faultless_declare (hrest.faults h)
    have hsize : scope < (r.declare scope .parameter p.name p.type p.position).arena.size := by
      rw [hdeclare]
      exact Nat.lt_of_lt_of_eq hscope (Arena.size_put ..).symm
    obtain ⟨hfaults, hnext, hlimit, hslots⟩ := ih hsize hps.2 h
    have hstep : (r.declare scope .parameter p.name p.type p.position).nextSlot =
        r.nextSlot + 1 := by rw [hdeclare]
    rw [hstep] at hnext hlimit
    refine ⟨?_, ?_, fun _ => hlimit hslot, ?_⟩
    · rw [hdeclare] at hfaults
      exact hfaults
    · rw [List.length_cons, ← Nat.add_assoc, Nat.add_right_comm]
      exact hnext
    · intro i q hq
      cases i with
      | zero =>
        cases hq
        refine hrest.kept _ _ _ ?_
        rw [hdeclare]
        exact Arena.lookupLocal_put hscope _ _
      | succ i =>
        have hfound := hslots i q hq
        rw [hstep] at hfound
        rw [← Nat.add_assoc, Nat.add_right_comm]
        exact hfound

/-! ## Tours -/

theorem methodTour_handed {d : ClassDecl} {m : Method}
    (h : (Resolved.behindBody ctx r m).faults = #[]) :
    Handed (Resolved.atBody ctx r m) (Resolved.methodTour ctx d r m).visits
      (Resolved.behindBody ctx r m) := by
  refine (statements_handed (fun s _ => hands s) h).trans ?_
  have hdone : Handed (Resolved.behindBody ctx r m) [] (Resolved.method ctx r m) :=
    ⟨h, Nat.le_refl _, id, by simp [Resolved.method_eq, Resolved.behindBody],
      fun _ _ _ => .inl, fun _ hv => absurd hv List.not_mem_nil⟩
  have hboundary : Handed (Resolved.method ctx r m)
      ((Resolved.method ctx r m).seen ctx [.boundary d]) (Resolved.behindBody ctx r m) :=
    handed_still h rfl (fun _ _ => rfl) (List.forall_mem_singleton.2 rfl)
  exact hdone.trans hboundary

theorem values_handed {es : List Expr} (h : (es.foldl (Resolved.expr ctx) r).faults = #[]) :
    Handed r (Resolved.along (Resolved.expr ctx) (fun r e => r.seen ctx e.places) r es)
      (es.foldl (Resolved.expr ctx) r) := by
  induction es generalizing r with
  | nil => exact .refl h
  | cons e es ih =>
    have hrest := ih h
    exact (handed_expr hrest.faults e.takesSlot_places).trans hrest

theorem valueTour_handed {table : Types.Table} {d : ClassDecl}
    (h : (Resolved.behindValues table r d).faults = #[]) :
    Handed (Resolved.atClass table r d) (Resolved.valueTour table r d).visits
      (Resolved.behindValues table r d) :=
  (values_handed h).trans
    (handed_still h rfl (fun _ _ => rfl) (List.forall_mem_singleton.2 rfl))

end Javelet.Scope
