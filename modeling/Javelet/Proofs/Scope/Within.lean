import Javelet.Proofs.Scope.Finished
import Javelet.Proofs.Scope.Slots
import Mathlib.Data.List.Pairwise

/-!
# The scopes of a method

While the body of a method is walked, every scope that is opened lies inside of the scope of the
method. So what is seen from a place in the body is declared in the body, or seen from the scope of
the method already, and in slot 0 of a method without a receiver there is its parameter.
-/
namespace Javelet

namespace Arena

variable {base : ScopeId} {nodes : List NodeId} {a : Arena}

/-- Behind the scope `base` all scopes lie inside of it, and so do the scopes that are attached to
some nodes. -/
structure Within (base : ScopeId) (nodes : List NodeId) (a : Arena) : Prop where
  lt : base < a.size
  attached : ∀ node ∈ nodes, ∀ id, a.scopeOf node = some id → base ≤ id
  parent : ∀ id outer, base < id → a.parentOf id = some outer → base ≤ outer

namespace Within

theorem put (h : a.Within base nodes) (scope : ScopeId) (name : String) (e : Scope.Entry) :
    (a.put scope name e).Within base nodes := by
  refine ⟨Nat.lt_of_lt_of_eq h.lt (size_put ..).symm, h.attached, ?_⟩
  intro id outer hid houter
  rw [parentOf_put] at houter
  exact h.parent id outer hid houter

theorem attach (h : a.Within base nodes) {node : NodeId} {id : ScopeId} (hid : base ≤ id) :
    (a.attach node id).Within base nodes := by
  refine ⟨h.lt, ?_, h.parent⟩
  intro other hother scope hscope
  by_cases hne : other = node
  · rw [hne, scopeOf_attach_self] at hscope
    cases hscope
    exact hid
  · rw [scopeOf_attach_of_ne a hne] at hscope
    exact h.attached other hother scope hscope

theorem push (h : a.Within base nodes) {name : String} {kind : Scope.Kind} {parent : ScopeId}
    (hparent : base ≤ parent) : (a.push name kind parent).Within base nodes := by
  refine ⟨Nat.lt_of_lt_of_le h.lt (by simp), h.attached, ?_⟩
  intro id outer hid houter
  rcases Nat.lt_trichotomy id a.size with hlt | rfl | hlt
  · rw [parentOf_push hlt] at houter
    exact h.parent id outer hid houter
  · rw [parentOf_push_size] at houter
    cases houter
    exact hparent
  · rw [parentOf, get?_eq_none (by rw [size_push]; exact hlt)] at houter
    cases houter

/-- A scope around one inside of `base` lies inside of it too, or is around it. -/
theorem around (h : a.Within base nodes) {id outer : ScopeId} (hid : base ≤ id)
    (ho : a.Around id outer) : base < outer ∨ a.Around base outer := by
  induction ho with
  | self id =>
    rcases Nat.lt_or_eq_of_le hid with hlt | rfl
    · exact .inl hlt
    · exact .inr (.self _)
  | @step id parent outer hparent hlt hrest ih =>
    rcases Nat.lt_or_eq_of_le hid with hbase | rfl
    · exact ih (h.parent id parent hbase hparent)
    · exact .inr (.step hparent hlt hrest)

end Within

end Arena

namespace Scope

variable {base : ScopeId} {nodes : List NodeId} {static : Bool} {ctx : Context}
  {r r' r'' : Resolved} {visits more : List Visit}

/-- A place inside of a method. -/
structure Context.Within (base : ScopeId) (static : Bool) (ctx : Context) : Prop where
  isStatic : ctx.isStatic = static
  scope : base ≤ ctx.scope

/-- The walk stays inside of a method. -/
structure Stays (base : ScopeId) (nodes : List NodeId) (static : Bool) (visits : List Visit)
    (r : Resolved) : Prop where
  arena : r.arena.Within base nodes
  visits : ∀ v ∈ visits, v.ctx.Within base static

namespace Stays

theorem nil (h : r.arena.Within base nodes) : Stays base nodes static [] r :=
  ⟨h, fun _ hv => absurd hv List.not_mem_nil⟩

theorem seen (hctx : ctx.Within base static) (h : r'.arena.Within base nodes)
    (places : List Place) : Stays base nodes static (r.seen ctx places) r' := by
  refine ⟨h, ?_⟩
  intro v hv
  obtain ⟨place, -, rfl⟩ := List.mem_map.1 hv
  exact hctx

theorem append (h : Stays base nodes static visits r) (h' : Stays base nodes static more r') :
    Stays base nodes static (visits ++ more) r' :=
  ⟨h'.arena, List.forall_mem_append.2 ⟨h.visits, h'.visits⟩⟩

end Stays

/-! ## Steps -/

theorem within_declare (h : r.arena.Within base nodes) (scope : ScopeId) (kind : LocalKind)
    (name : String) (ty : Ty) (p : Position) :
    (r.declare scope kind name ty p).arena.Within base nodes := by
  unfold Resolved.declare Resolved.allocate
  split
  · exact h
  · split
    · rename_i heq
      split at heq
      · cases heq
      · cases heq
        exact h
    · rename_i heq
      split at heq
      · cases heq
        exact h.put _ _ _
      · cases heq

theorem within_variable (h : r.arena.Within base nodes) (v : Variable) :
    (r.variable_ ctx v).arena.Within base nodes := by
  unfold Resolved.variable_
  refine within_declare ?_ _ _ _ _ _
  cases v.value with
  | none => exact h
  | some e => exact h

theorem within_selector (h : r.arena.Within base nodes) (node : NodeId) (e : Expr) :
    (r.selector ctx node e).arena.Within base nodes := by
  unfold Resolved.selector Resolved.allocate
  split
  · rename_i heq
    split at heq
    · cases heq
    · cases heq
      exact h
  · rename_i heq
    split at heq
    · cases heq
      exact ⟨h.lt, h.attached, h.parent⟩
    · cases heq

theorem within_loopInit (h : r.arena.Within base nodes) (init : Option ForInit) :
    (r.loopInit ctx init).arena.Within base nodes := by
  match init with
  | none => exact h
  | some (.declaration v) => exact within_variable h v
  | some (.assignment a) => exact h

theorem within_loopControl (h : r.arena.Within base nodes) (e : Option Expr)
    (update : Option Action) : (r.loopControl ctx e update).arena.Within base nodes := by
  cases e <;> cases update <;> exact h

theorem within_enterLoop (hctx : ctx.Within base static) (h : r.arena.Within base nodes)
    (id : NodeId) (init : Option ForInit) (body : Statement) :
    (r.enterLoop ctx id init body).1.arena.Within base nodes ∧
      (r.enterLoop ctx id init body).2.Within base static := by
  match init with
  | none => exact ⟨h, hctx⟩
  | some (.assignment a) => exact ⟨h, hctx⟩
  | some (.declaration v) =>
    have hsize := Nat.le_of_lt h.lt
    have hopened : ((r.arena.push "for" .loop ctx.scope).attach id r.arena.size).Within base nodes :=
      (h.push hctx.scope).attach hsize
    refine ⟨?_, hctx.isStatic, hsize⟩
    cases body with
    | block b => exact hopened.attach hsize
    | _ => exact hopened

/-! ## Statements -/

/-- What is shown of every statement. -/
def StaysIn (base : ScopeId) (nodes : List NodeId) (static : Bool) (s : Statement) : Prop :=
  ∀ {ctx r}, ctx.Within base static → s.nodes ⊆ nodes → r.arena.Within base nodes →
    Stays base nodes static (r.visits ctx s) (Resolved.statement ctx r s)

theorem statements_stay {ss : List Statement} (ih : ∀ s ∈ ss, StaysIn base nodes static s)
    (hctx : ctx.Within base static) (hn : statementNodes ss ⊆ nodes)
    (h : r.arena.Within base nodes) :
    Stays base nodes static (r.statementVisits ctx ss) (Resolved.statements ctx r ss) := by
  induction ss generalizing r with
  | nil =>
    rw [Resolved.statementVisits, Resolved.statements]
    exact .nil h
  | cons s ss ihss =>
    rw [statementNodes, List.append_subset] at hn
    rw [List.forall_mem_cons] at ih
    rw [Resolved.statementVisits, Resolved.statements]
    have hs := ih.1 hctx hn.1 h
    exact hs.append (ihss ih.2 hn.2 hs.arena)

theorem block_stays {b : Block} (kind : Kind)
    (ih : ∀ s ∈ b.statements, StaysIn base nodes static s) (hctx : ctx.Within base static)
    (hn : b.nodes ⊆ nodes) (h : r.arena.Within base nodes) :
    Stays base nodes static (r.blockVisits ctx kind b) (Resolved.block ctx kind r b) := by
  have hopened : (r.opened ctx kind b).1.arena.Within base nodes ∧
      (r.opened ctx kind b).2.Within base static := by
    unfold Resolved.opened
    split
    · rename_i scope hscope
      exact ⟨h, hctx.isStatic, h.attached b.id (hn (Block.id_mem_nodes b)) scope hscope⟩
    · have hsize := Nat.le_of_lt h.lt
      exact ⟨(h.push hctx.scope).attach hsize, hctx.isStatic, hsize⟩
  rw [Resolved.block_eq]
  obtain ⟨id, p, ss⟩ := b
  rw [Resolved.blockVisits]
  rw [Block.nodes, List.cons_subset] at hn
  exact statements_stay ih hopened.2 hn.2 hopened.1

theorem caseBodies_stay {cases : List Case}
    (ih : ∀ c ∈ cases, ∀ s ∈ c.body.statements, StaysIn base nodes static s)
    (hctx : ctx.Within base static) (hn : caseNodes cases ⊆ nodes)
    (h : r.arena.Within base nodes) :
    Stays base nodes static (r.caseVisits ctx cases) (Resolved.caseBodies ctx r cases) := by
  induction cases generalizing r with
  | nil =>
    rw [Resolved.caseVisits, Resolved.caseBodies]
    exact .nil h
  | cons c cases ihc =>
    obtain ⟨p, q, l, b⟩ := c
    rw [caseNodes, List.append_subset] at hn
    rw [List.forall_mem_cons] at ih
    rw [Resolved.caseVisits, Resolved.caseBodies]
    have hb := block_stays .case ih.1 hctx hn.1 h
    exact hb.append (ihc ih.2 hn.2 hb.arena)

theorem defaultBody_stays {b : Option Block}
    (ih : ∀ b' ∈ b, ∀ s ∈ b'.statements, StaysIn base nodes static s)
    (hctx : ctx.Within base static) (hn : defaultNodes b ⊆ nodes)
    (h : r.arena.Within base nodes) :
    Stays base nodes static (r.defaultVisits ctx b) (Resolved.optionalBlock ctx r b) := by
  cases b with
  | none =>
    rw [Resolved.defaultVisits, Resolved.optionalBlock]
    exact .nil h
  | some b =>
    rw [defaultNodes] at hn
    rw [Resolved.defaultVisits, Resolved.optionalBlock]
    exact block_stays .case (ih b rfl) hctx hn h

theorem otherwise_stays {s : Option Statement} (ih : ∀ s' ∈ s, StaysIn base nodes static s')
    (hctx : ctx.Within base static) (hn : otherwiseNodes s ⊆ nodes)
    (h : r.arena.Within base nodes) :
    Stays base nodes static (r.otherwiseVisits ctx s) (Resolved.optionalStatement ctx r s) := by
  cases s with
  | none =>
    rw [Resolved.otherwiseVisits, Resolved.optionalStatement]
    exact .nil h
  | some s =>
    rw [otherwiseNodes] at hn
    rw [Resolved.otherwiseVisits, Resolved.optionalStatement]
    exact ih s rfl hctx hn h

theorem stays_in (s : Statement) : StaysIn base nodes static s := by
  induction s using Statement.induction with
  | block b ih =>
    intro ctx r hctx hn h
    rw [Statement.nodes] at hn
    rw [Resolved.visits, Resolved.statement]
    exact (Stays.seen hctx h _).append (block_stays .block ih hctx hn h)
  | conditional p e body otherwise ihbody ihother =>
    intro ctx r hctx hn h
    rw [Statement.nodes, List.append_subset] at hn
    rw [Resolved.visits, Resolved.statement]
    have hbody := ihbody hctx hn.1 (show (r.expr ctx e).arena.Within base nodes from h)
    exact (Stays.seen hctx h _).append
      (hbody.append (otherwise_stays ihother hctx hn.2 hbody.arena))
  | whileLoop p e body ih =>
    intro ctx r hctx hn h
    rw [Statement.nodes] at hn
    rw [Resolved.visits, Resolved.statement]
    exact (Stays.seen hctx h _).append
      (ih hctx hn (show (r.expr ctx e).arena.Within base nodes from h))
  | forLoop p id init e update body ih =>
    intro ctx r hctx hn h
    rw [Statement.nodes, List.cons_subset] at hn
    rw [Resolved.visits, Resolved.statement]
    obtain ⟨hentered, hinner⟩ := within_enterLoop hctx h id init body
    have hinit := @within_loopInit _ _ (r.enterLoop ctx id init body).2 _ hentered init
    have hcondition := @within_loopControl _ _ (r.enterLoop ctx id init body).2 _ hinit e none
    have hupdate := @within_loopControl _ _ (r.enterLoop ctx id init body).2 _ hinit e update
    refine (Stays.seen hctx hentered _).append ?_
    refine (Stays.seen hinner hinit _).append ?_
    refine (Stays.seen hinner hcondition _).append ?_
    exact (Stays.seen hinner hupdate _).append (ih hinner hn.2 hupdate)
  | switch p id e cases default_ ihc ihd =>
    intro ctx r hctx hn h
    rw [Statement.nodes, List.cons_subset, List.append_subset] at hn
    rw [Resolved.visits, Resolved.statement]
    have hselector := @within_selector _ _ ctx _ h id e
    have hcases := caseBodies_stay ihc hctx hn.2.1 hselector
    exact (Stays.seen hctx hselector _).append
      (hcases.append (defaultBody_stays ihd hctx hn.2.2 hcases.arena))
  | jump p j =>
    intro ctx r hctx hn h
    rw [Resolved.visits, Resolved.statement]
    exact .seen hctx (show (r.report (jumpFaults ctx r.arena j)).arena.Within base nodes from h) _
  | action a =>
    intro ctx r hctx hn h
    rw [Resolved.visits, Resolved.statement]
    exact .seen hctx (show (r.report (actionFaults ctx r.arena a)).arena.Within base nodes from h) _
  | declaration v =>
    intro ctx r hctx hn h
    rw [Resolved.visits, Resolved.statement]
    exact .seen hctx (within_variable h v) _

/-! ## Methods -/

theorem within_params (h : r.arena.Within base nodes) (scope : ScopeId) (ps : List Parameter) :
    (Resolved.params scope r ps).arena.Within base nodes := by
  refine List.foldlRecOn (motive := fun r' : Resolved => r'.arena.Within base nodes) _ _ h ?_
  exact fun r' hr p _ => within_declare hr scope .parameter p.name p.type p.position

variable {m : Method}

/-- In front of the body of a method its scope is the last one. -/
theorem within_atBody (ctx : Context) (hc : Closed r nodes) :
    (Resolved.atBody ctx r m).arena.Within r.arena.size nodes := by
  have hopened : (r.arena.push m.signature.text .method ctx.scope).Within r.arena.size nodes := by
    refine ⟨Nat.lt_of_lt_of_eq (Nat.lt_succ_self _) (Arena.size_push ..).symm, ?_, ?_⟩
    · intro node hnode id hid
      rw [Arena.scopeOf_push, hc node hnode] at hid
      cases hid
    · intro id outer hid houter
      rw [Arena.parentOf, Arena.get?_eq_none (by rw [Arena.size_push]; exact hid)] at houter
      cases houter
  exact within_params ((hopened.attach (Nat.le_refl _)).attach (Nat.le_refl _)) _ _

/-- The walk over the body of a method stays inside of the method. -/
theorem body_stays (ctx : Context) (hc : Closed r m.nodes) :
    Stays r.arena.size (statementNodes m.body.statements) m.signature.isStatic
      ((Resolved.atBody ctx r m).statementVisits (Resolved.bodyContext ctx r m) m.body.statements)
      (Resolved.behindBody ctx r m) := by
  have hclosed : Closed r (statementNodes m.body.statements) := by
    intro node hnode
    refine hc node (List.mem_cons_of_mem _ ?_)
    rw [Block.nodes_eq]
    exact List.mem_cons_of_mem _ hnode
  exact statements_stay (fun s _ => stays_in s) ⟨rfl, Nat.le_refl _⟩ (List.Subset.refl _)
    (within_atBody ctx hclosed)

/-- What is found behind the declarations of parameters is an older entry or one of them. -/
theorem declared_params {scope : ScopeId} {ps : List Parameter}
    (h : (Resolved.params scope r ps).faults = #[]) (hps : ∀ p ∈ ps, p.type.IsValue)
    {id : ScopeId} {name : String} {e : Entry}
    (he : (Resolved.params scope r ps).arena.lookupLocal id name = some e) :
    r.arena.lookupLocal id name = some e ∨ id = scope ∧ ∃ i p, ps[i]? = some p ∧ p.name = name ∧
      e = ⟨.variable p.type, some (r.nextSlot + i)⟩ := by
  induction ps generalizing r with
  | nil => exact .inl he
  | cons p ps ih =>
    rw [List.forall_mem_cons] at hps
    have hrest : Walked scope [] (r.declare scope .parameter p.name p.type p.position)
        (Resolved.params scope r (p :: ps)) := Resolved.walked_params hps.2
    obtain ⟨-, hdeclare⟩ := Resolved.faultless_declare (hrest.faults h)
    have hstep := ih (r := r.declare scope .parameter p.name p.type p.position) h hps.2 he
    rw [hdeclare] at hstep
    rcases hstep with hold | ⟨rfl, i, q, hq, hname, hentry⟩
    · by_cases hself : id = scope ∧ name = p.name
      · obtain ⟨rfl, rfl⟩ := hself
        exact .inr ⟨rfl, 0, p, rfl, rfl, Arena.lookupLocal_put_self hold⟩
      · rw [Arena.lookupLocal_put_of_ne (Decidable.not_and_iff_not_or_not.1 hself)] at hold
        exact .inl hold
    · refine .inr ⟨rfl, i + 1, q, hq, hname, ?_⟩
      rw [hentry, Nat.add_right_comm, Nat.add_assoc]

/-- What is found in front of the body of a method is an older entry or a parameter. -/
theorem declared_atBody (hw : m.signature.WellNamed) (h : (Resolved.atBody ctx r m).faults = #[])
    {id : ScopeId} {name : String} {e : Entry}
    (he : (Resolved.atBody ctx r m).arena.lookupLocal id name = some e) :
    r.arena.lookupLocal id name = some e ∨ id = r.arena.size ∧ ∃ i p,
      m.signature.params[i]? = some p ∧ p.name = name ∧
        e = ⟨.variable p.type, some ((if m.signature.isStatic then 0 else 1) + i)⟩ := by
  rcases declared_params h hw.params he with hold | hparam
  · exact .inl ((Arena.lookupLocal_push ..).symm.trans hold)
  · exact .inr hparam

/-- What is held in the slots of a method: each parameter, and each variable that is declared at one
of the visits. -/
inductive Held (m : Method) (visits : List Visit) : Nat → String → Ty → Prop
  | param {i : Nat} {p : Parameter} : m.signature.params[i]? = some p →
      Held m visits ((if m.signature.isStatic then 0 else 1) + i) p.name p.type
  | variable_ {v : Visit} {x : Variable} : v ∈ visits → v.place = .statement (.declaration x) →
      Held m visits v.state.nextSlot x.name x.type

/-- A variable that is found from a place in a method is held in its slot. -/
theorem held_of_lookup {visits : List Visit} (hw : m.signature.WellNamed)
    (hb : Bare ctx.Known r ctx.scope) (hc : Closed r m.nodes)
    (hh : Handed (Resolved.atBody ctx r m) visits (Resolved.behindBody ctx r m))
    (hf : Filled (Resolved.atBody ctx r m) (Resolved.behindBody ctx r m))
    {scope : ScopeId} (hscope : r.arena.size ≤ scope) {name : String} {ty : Ty} {slot : Nat}
    (h : (Resolved.behindBody ctx r m).arena.lookup scope name =
      some ⟨.variable ty, some slot⟩) : Held m visits slot name ty := by
  obtain ⟨outer, haround, hlocal⟩ := Arena.exists_around h
  rcases hh.declared outer name _ hlocal with hold | ⟨v, hv, x, hplace, rfl, -, he⟩
  · rcases declared_atBody hw hh.faults hold with hold | ⟨-, i, p, hp, rfl, he⟩
    · -- around the method there are no variables in slots
      exfalso
      have houter : outer < r.arena.size := by
        refine Nat.lt_of_not_le fun hle => ?_
        rw [Arena.lookupLocal, Arena.get?_eq_none hle] at hold
        cases hold
      have hlt : r.arena.size < (Resolved.atBody ctx r m).arena.size := (within_atBody ctx hc).lt
      have hparams : Walked r.arena.size [] _ (Resolved.atBody ctx r m) :=
        Resolved.walked_params hw.params
      have hparents : ∀ id ≤ r.arena.size, (Resolved.behindBody ctx r m).arena.parentOf id =
          (r.arena.push m.signature.text .method ctx.scope).parentOf id := by
        intro id hid
        rw [hf.parent id (Nat.lt_of_le_of_lt hid hlt)]
        exact hparams.parent id (Nat.lt_of_le_of_lt hid (by simp [Resolved.enter]))
      rcases (body_stays ctx hc).arena.around hscope haround with hlt | haround
      · exact Nat.lt_asymm houter hlt
      · cases haround with
        | self => exact Nat.lt_irrefl _ houter
        | step hparent _ hrest =>
          rw [hparents _ (Nat.le_refl _), Arena.parentOf_push_size] at hparent
          cases hparent
          have hrest' : r.arena.Around ctx.scope outer := hrest.congr
            (fun id hid => (hparents id (Nat.le_of_lt hid)).trans (Arena.parentOf_push hid)) hb.lt
          rcases hb.entries outer hrest' name _ hold with ⟨_, _, -, hlt⟩ | ⟨hnone, -⟩
          · exact Nat.not_lt_zero _ hlt
          · cases hnone
    · cases he
      exact .param hp
  · cases he
    exact .variable_ hv hplace

section Held

variable {visits : List Visit} {slot : Nat} {name name' : String} {ty ty' : Ty}
  (hh : Handed r visits r')
  (hstart : r.nextSlot = (if m.signature.isStatic then 0 else 1) + m.signature.params.length)

theorem slot?_declaration {v : Visit} {x : Variable} (h : v.place = .statement (.declaration x)) :
    v.slot? = some v.state.nextSlot := by
  rw [Visit.slot?, h]
  rfl

include hh

/-- A slot is handed out at one visit. -/
theorem eq_of_slot? {v v' : Visit} (hv : v ∈ visits) (hv' : v' ∈ visits)
    (h : v.slot? = some slot) (h' : v'.slot? = some slot) : v = v' := by
  have hnodup : (visits.filterMap Visit.slot?).Nodup := hh.slots ▸ List.nodup_range'
  rw [List.Nodup, List.pairwise_filterMap] at hnodup
  have hsymm : Std.Symm fun a a' : Visit =>
      ∀ s, a.slot? = some s → ∀ s', a'.slot? = some s' → s ≠ s' :=
    ⟨fun _ _ hne s hs s' hs' => (hne s' hs' s hs).symm⟩
  exact Classical.byContradiction fun hne => hnodup.forall hv hv' hne slot h slot h' rfl

include hstart

/-- What is declared in the body of a method is held behind its parameters. -/
theorem le_of_declaration {v : Visit} {x : Variable} (hv : v ∈ visits)
    (hplace : v.place = .statement (.declaration x)) :
    (if m.signature.isStatic then 0 else 1) + m.signature.params.length ≤ v.state.nextSlot := by
  have hmem : v.state.nextSlot ∈ visits.filterMap Visit.slot? :=
    List.mem_filterMap.2 ⟨v, hv, slot?_declaration hplace⟩
  rw [hh.slots, List.mem_range'_1, hstart] at hmem
  exact hmem.1

/-- Slot 0 is left to the receiver, where there is one. -/
theorem Held.first_le (h : Held m visits slot name ty) :
    (if m.signature.isStatic then 0 else 1) ≤ slot := by
  cases h with
  | param _ => exact Nat.le_add_right ..
  | variable_ hv hplace => exact Nat.le_of_add_right_le (le_of_declaration hh hstart hv hplace)

/-- No slot holds two variables. -/
theorem Held.unique {slot' : Nat} (h : Held m visits slot name ty)
    (h' : Held m visits slot' name' ty') (hslot : slot = slot') : name = name' ∧ ty = ty' := by
  cases h with
  | param hp =>
    obtain ⟨hlt, -⟩ := List.getElem?_eq_some_iff.1 hp
    cases h' with
    | param hq =>
      rw [Nat.add_left_cancel hslot] at hp
      cases hp.symm.trans hq
      exact ⟨rfl, rfl⟩
    | variable_ hv hplace =>
      have hle := le_of_declaration hh hstart hv hplace
      omega
  | variable_ hv hplace =>
    have hle := le_of_declaration hh hstart hv hplace
    cases h' with
    | param hq =>
      obtain ⟨hlt, -⟩ := List.getElem?_eq_some_iff.1 hq
      omega
    | variable_ hv' hplace' =>
      have hsame := slot?_declaration hplace'
      rw [← hslot] at hsame
      obtain rfl := eq_of_slot? hh hv hv' (slot?_declaration hplace) hsame
      cases hplace.symm.trans hplace'
      exact ⟨rfl, rfl⟩

end Held

end Scope

end Javelet
