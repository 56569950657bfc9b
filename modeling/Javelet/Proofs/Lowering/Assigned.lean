import Javelet.Proofs.Assembly.Assigned
import Javelet.Proofs.Lowering.OperandStack
import Javelet.Proofs.Lowering.Slots
import Javelet.Proofs.Lowering.SlotsAround

/-!
# Variables are stored before they are loaded

A variable is stored into where its declaration is lowered. A name is taken for it in the scope of
the declaration only, and control comes into the middle of a scope only by jumps to labels that stand
behind a whole statement. So on each path the variables in the scopes around a place have been stored
into when the place is reached, apart from those of declarations that are branches: their scope goes
on behind the statement, and control may pass them by.
-/
namespace Javelet

namespace Assembly

variable {code : Segment} {i : Instruction} {exits : List (Label × Nat)} {d d' : Nat}

theorem mem_slots_of_loaded? (hi : .op i ∈ code) {slot : Nat} (h : i.loaded? = some slot) :
    slot ∈ readings Instruction.slot? code := by
  refine mem_readings.2 ⟨i, hi, ?_⟩
  cases i with
  | load cell s => exact h
  | _ => cases h

theorem exists_jump (hi : .op i ∈ code) {l : Label} (h : i.target? = some l) (d : Nat) :
    ∃ n, (l, n) ∈ jumps d code := by
  induction code generalizing d with
  | nil => cases hi
  | cons item rest ih =>
    rcases List.mem_cons.1 hi with heq | hrest
    · cases heq
      refine ⟨i.after d, List.mem_append_left _ ?_⟩
      exact List.mem_map.2 ⟨l, Option.mem_toList.2 h, rfl⟩
    · cases item with
      | op i' =>
        obtain ⟨n, hn⟩ := ih hrest (i'.after d)
        exact ⟨n, List.mem_append_right _ hn⟩
      | label l' => exact ih hrest d
      | alternative => exact ih hrest (d - 1)

theorem mem_labelsOf_of_placed {l : Label} {n : Nat} (h : (l, n) ∈ placed d code) :
    l ∈ labelsOf code := by
  induction code generalizing d with
  | nil => cases h
  | cons item rest ih =>
    cases item with
    | op i => exact ih h
    | label l' =>
      rw [labelsOf_label]
      rcases List.mem_cons.1 h with heq | h
      · cases heq
        exact List.mem_cons_self
      · exact List.mem_cons_of_mem _ (ih h)
    | alternative => exact ih h

/-- Code whose slots are all known keeps what is known. -/
theorem Flow.carries {K : Set Nat} (h : Flow exits d code d')
    (hslots : ∀ slot ∈ readings Instruction.slot? code, slot ∈ K) :
    Carries exits K K code K [] := by
  intro marks hmarks
  suffices hstill : ∃ own, Assures marks K code K own by
    obtain ⟨own, hown⟩ := hstill
    exact ⟨own, hown, nofun⟩
  refine Assures.still ?_ ?_
  · intro i hi slot hslot
    exact hslots slot (mem_slots_of_loaded? hi hslot)
  · intro i hi l hl
    obtain ⟨n, hn⟩ := exists_jump hi hl d
    rcases h.lands _ hn with hp | he
    · exact .inl (mem_labelsOf_of_placed hp)
    · exact .inr (hmarks _ he)

end Assembly

namespace Lowering

open Assembly Scope

variable {a : Arena} {last r r' : Resolved} {ctx : Context} {env : Env} {E K : Set Nat}
  {visits more : List Scope.Visit} {first next : Label} {p : Position} {code : Segment}

/-! ## Frames

In front of a part of a statement the variables around the statement are known. They are added to
those that are excused, so that the labels of the statement can be reached from the part. -/

/-- A set of slots that holds those that are excused and those of the variables around a place. -/
structure Framed (a : Arena) (ctx : Context) (r : Resolved) (visits : List Scope.Visit)
    (K : Set Nat) : Prop where
  excused : Excused a visits K
  around : slotsAround a r ctx.scope ⊆ K

theorem framed_of_excused (hE : Excused a visits E) (ctx : Context) (r : Resolved) :
    Framed a ctx r visits (E ∪ slotsAround a r ctx.scope) :=
  ⟨hE.mono Set.subset_union_left, Set.subset_union_right⟩

theorem Framed.left (h : Framed a ctx r (visits ++ more) K) : Framed a ctx r visits K :=
  ⟨h.excused.left, h.around⟩

theorem Framed.right (h : Framed a ctx r (visits ++ more) K) : Framed a ctx r more K :=
  ⟨h.excused.right, h.around⟩

theorem Framed.tail {v : Scope.Visit} (h : Framed a ctx r (v :: visits) K) :
    Framed a ctx r visits K :=
  ⟨h.excused.sub fun _ => List.mem_cons_of_mem _, h.around⟩

/-- A name at a place is taken for a variable around the place, or it is excused. -/
theorem Framed.slot_mem (hl : Final last a) (ha : Aligned a ctx r env) (hf : Filled r last)
    {place : Place} {name : String} {l : Local} (hK : Framed a ctx r visits K)
    (hplace : ⟨place, ctx, r⟩ ∈ visits) (hname : place.name? = some name)
    (hlocal : env.local? name = some l) : l.slot ∈ K := by
  have hfound := lookup_of_local? hlocal
  rw [ha.arena, ha.scope] at hfound
  rcases lookup_finished hl hf ha.visible.lt name with hsame | ⟨ty, slot, hlater, hle⟩
  · rw [hsame] at hfound
    obtain ⟨outer, haround, hentry⟩ := Arena.exists_around hfound
    have hparent : ∀ id < r.arena.size, r.arena.parentOf id = a.parentOf id :=
      fun id hid => ((hl.parent id (Nat.lt_of_lt_of_le hid hf.size)).trans (hf.parent id hid)).symm
    exact hK.around ⟨outer, name, l.type, haround.congr hparent ha.visible.lt, hentry⟩
  · cases hfound.symm.trans hlater
    exact hK.excused.later _ hplace name l.type l.slot hname hlater hle

/-- The code of places that take no slots of their own keeps what is known. -/
theorem Framed.carries {exits : List (Label × Nat)} {d d' : Nat} {places : List Place}
    (hK : Framed a ctx r (r.seen ctx places) K) (hl : Final last a) (ha : Aligned a ctx r env)
    (hf : Filled r last) (hplaces : ∀ place ∈ places, place.takesSlot = false)
    (ht : Traced code (env.seen places) code) (hflow : Flow exits d code d') :
    Carries exits K K code K [] := by
  refine hflow.carries ?_
  intro slot hslot
  rcases ht.slots slot hslot with rfl | ⟨g, hg, hm⟩
  · exact hK.excused.receiver
  · obtain ⟨place, hplace, rfl⟩ := List.mem_map.1 hg
    cases hm with
    | name hname hlocal => exact hK.slot_mem hl ha hf (List.mem_map_of_mem hplace) hname hlocal
    | declaration hd _ =>
      obtain rfl : place = _ := hd
      cases hplaces _ hplace
    | switch hs _ =>
      obtain rfl : place = _ := hs
      cases hplaces _ hplace

/-! ## Statements -/

/-- What is shown of every statement: where the variables around it are known in front of it, those
around the place behind it are known there. -/
def Secures (a : Arena) (last : Resolved) (s : Statement) : Prop :=
  ∀ {ctx r env E join first code next}, Joint a last ctx r env s → env.WellNamed →
    Excused a (r.visits ctx s) E → Yields (statement env join s) first code next →
    Carries (joinExits env join) E (E ∪ slotsAround a r ctx.scope) code
      (E ∪ slotsAround a (Resolved.statement ctx r s) ctx.scope) []

theorem statements_secure {ss : List Statement} (ih : ∀ s ∈ ss, Secures a last s)
    (h : JointList a last ctx r env ss) (henv : env.WellNamed)
    (hE : Excused a (r.statementVisits ctx ss) E)
    (hy : Yields (statements env [] ss) first code next) :
    Carries env.exits E (E ∪ slotsAround a r ctx.scope) code
      (E ∪ slotsAround a (Resolved.statements ctx r ss) ctx.scope) [] := by
  induction ss generalizing r first code with
  | nil =>
    obtain ⟨rfl, rfl⟩ := yields_statements_nil.1 hy
    rw [Resolved.statements]
    exact .nil
  | cons s ss ihss =>
    obtain ⟨c, rest, middle, hc, hrest, rfl⟩ := yields_statements_cons.1 hy
    rw [List.forall_mem_cons] at ih
    rw [Resolved.statementVisits] at hE
    rw [Resolved.statements]
    have hs := ih.1 h.head.1 henv hE.left hc
    have hss := ihss ih.2 h.tail hE.right hrest
    exact hs.append hss

theorem block_secures (hl : Final last a) {b : Block} {kind : Scope.Kind}
    (ih : ∀ s ∈ b.statements, Secures a last s) (h : JointBlock a last ctx kind r env b)
    (henv : env.WellNamed) (hE : Excused a (r.blockVisits ctx kind b) E)
    (hy : Yields (block env b) first code next) :
    Carries env.exits E (E ∪ slotsAround a r ctx.scope) code
      (E ∪ slotsAround a (Resolved.block ctx kind r b) (r.opened ctx kind b).2.scope) [] := by
  have hopened := h.slotsAround_opened hl
  have hvisits : Excused a ((r.opened ctx kind b).1.statementVisits (r.opened ctx kind b).2
      b.statements) E := by
    obtain ⟨id, q, ss⟩ := b
    rw [Resolved.blockVisits] at hE
    exact hE
  have hss := statements_secure ih h.statements (henv.enter b.id) hvisits (yields_block.1 hy)
  rw [Resolved.block_eq]
  exact hss.imp (Set.union_subset_union_right _ hopened) (Set.Subset.refl _)

/-- A block that starts where the variables around it are known keeps them known. -/
theorem block_keeps (hl : Final last a) {b : Block} {kind : Scope.Kind}
    (ih : ∀ s ∈ b.statements, Secures a last s) (h : JointBlock a last ctx kind r env b)
    (henv : env.WellNamed) (hK : Framed a ctx r (r.blockVisits ctx kind b) K)
    (hy : Yields (block env b) first code next) : Carries env.exits K K code K [] :=
  (block_secures hl ih h henv hK.excused hy).imp
    (Set.union_subset (Set.Subset.refl K) hK.around) Set.subset_union_left

/-- A branch that starts where the variables around it are known keeps them known. -/
theorem Secures.keeps {s : Statement} {join : Option Label} (hs : Secures a last s)
    (h : Joint a last ctx r env s) (henv : env.WellNamed) (hK : Framed a ctx r (r.visits ctx s) K)
    (hy : Yields (statement env join s) first code next) :
    Carries (joinExits env join) K K code K [] :=
  (hs h henv hK.excused hy).imp (Set.union_subset (Set.Subset.refl K) hK.around)
    Set.subset_union_left

/-- A statement that declares nothing and keeps what is known is secure. -/
theorem secures_of_keeps (hl : Final last a) {s : Statement}
    (hs : (Place.statement s).isDeclaration = false) (hblock : s.blockId? = none)
    (hkeeps : ∀ {ctx r env K join first code next}, Joint a last ctx r env s → env.WellNamed →
      Framed a ctx r (r.visits ctx s) K → Yields (statement env join s) first code next →
      ∃ labels, Carries (joinExits env join) K K code K labels) :
    Secures a last s := by
  intro ctx r env E join first code next h henv hE hy
  obtain ⟨labels, hcode⟩ := hkeeps h henv (framed_of_excused hE ctx r) hy
  have hown : ownSlots a ctx.scope s ⊆ E ∪ slotsAround a r ctx.scope := by
    rintro slot ⟨x, rfl, -⟩
    cases hs
  have hbehind : E ∪ slotsAround a (Resolved.statement ctx r s) ctx.scope ⊆
      E ∪ slotsAround a r ctx.scope := by
    refine Set.union_subset Set.subset_union_left ?_
    exact (gains hl s h (h.unopened.closed hblock) hE).trans
      (Set.union_subset (Set.Subset.refl _) hown)
  exact (hcode.lower Set.subset_union_left).imp (Set.Subset.refl _) hbehind

theorem test_keeps (hl : Final last a) (ha : Aligned a ctx r env) (hf : Filled r last)
    (henv : env.WellNamed) {e : Expr} (he : e.WellNamed) (hK : Framed a ctx r (r.seen ctx e.places) K)
    {yes no : Label} (hy : Yields (test env e yes no) first code next) :
    Carries [(yes, 0), (no, 0)] K K code K [] :=
  hK.carries hl ha hf e.takesSlot_places (@test_traced env env.targets _ _ _ _ e yes no hy List.infix_rfl)
    (test_flow henv he hy)

/-! ## Simple statements -/

theorem action_keeps (hl : Final last a) (ha : Aligned a ctx r env) (hf : Filled r last)
    (henv : env.WellNamed) {act : Action} (hact : act.WellNamed)
    (hK : Framed a ctx r (r.seen ctx act.places) K) (hy : Yields (action env act) first code next) :
    Carries [] K K code K [] :=
  hK.carries hl ha hf act.takesSlot_places (@action_traced env env.targets _ _ _ _ act hy List.infix_rfl)
    (action_flow henv hact hy)

theorem jump_secures (hl : Final last a) {j : Jump} : Secures a last (.jump p j) := by
  apply secures_of_keeps hl rfl rfl
  intro ctx r env K join first code next h henv hK hy
  have hwell : j.WellNamed := by
    cases h.wellNamed with
    | jump hj => exact hj
  rw [Resolved.visits] at hK
  rw [statement] at hy
  have hplaces : ∀ place ∈ (Statement.jump p j).own, place.takesSlot = false := by
    cases j with
    | return_ value =>
      cases value with
      | none => exact List.forall_mem_singleton.2 rfl
      | some e => exact List.forall_mem_cons.2 ⟨rfl, e.takesSlot_places⟩
    | break_ => exact List.forall_mem_singleton.2 rfl
    | continue_ => exact List.forall_mem_singleton.2 rfl
  have hjump := hK.carries hl h.aligned h.filled hplaces (@jump_traced env env.targets _ _ p _ _ j hy List.infix_rfl)
    (jump_flow henv hwell hy)
  exact ⟨_, hjump.mono fun _ => List.mem_append_right _⟩

theorem action_secures (hl : Final last a) {act : Action} : Secures a last (.action act) := by
  apply secures_of_keeps hl rfl rfl
  intro ctx r env K join first code next h henv hK hy
  have hwell : act.WellNamed := by
    cases h.wellNamed with
    | action hact => exact hact
  rw [Resolved.visits] at hK
  rw [statement] at hy
  exact ⟨_, (action_keeps hl h.aligned h.filled henv hwell hK.tail hy).closed⟩

/-- A declaration stores into the slot of its variable. -/
theorem declaration_secures (hl : Final last a) {x : Variable} :
    Secures a last (.declaration x) := by
  intro ctx r env E join first code next h henv hE hy
  have hwell : x.WellNamed := by
    cases h.wellNamed with
    | declaration hx => exact hx
  have hgains := h.gains_declaration hl
  rw [Resolved.visits] at hE
  rw [statement] at hy
  obtain ⟨l, hlocal, hcode⟩ := yields_variable.1 hy
  generalize hK : E ∪ slotsAround a r ctx.scope = K
  have hframe : Framed a ctx r (r.seen ctx (x.value.toList.flatMap Expr.places)) K :=
    hK ▸ (framed_of_excused hE ctx r).tail
  have hown : ownSlots a ctx.scope (.declaration x) ⊆ {l.slot} := by
    rintro slot ⟨_, heq, hfound⟩
    cases heq
    have hsame := lookup_of_local? hlocal
    rw [h.aligned.arena, h.aligned.scope, Arena.lookup_of_lookupLocal hfound] at hsame
    exact Option.some.inj (Scope.Entry.mk.inj (Option.some.inj hsame)).2
  have hbehind : E ∪ slotsAround a (Resolved.statement ctx r (.declaration x)) ctx.scope ⊆
      K ∪ {l.slot} := by
    rw [← hK, Set.union_assoc]
    exact Set.union_subset_union_right E (hgains.trans (Set.union_subset_union_right _ hown))
  have hstore : Carries (joinExits env join) E K [.op l.store] (K ∪ {l.slot}) [] :=
    .store _ l.slot
  have hsub : E ⊆ K := hK ▸ Set.subset_union_left
  rcases hcode with ⟨-, -, rfl⟩ | ⟨e, value, hsome, hv, rfl⟩
  · have hpush : Carries (joinExits env join) K K (ops [.pushDefault l.type]) K [] := by
      refine ((@flow_pushDefault l.type 0).carries ?_).closed
      intro slot hslot
      simp at hslot
    exact ((hpush.lower hsub).append hstore).imp (Set.Subset.refl K) hbehind
  · rw [hsome, Option.toList_some, List.flatMap_singleton] at hframe
    have hvalue := hframe.carries hl h.aligned h.filled e.takesSlot_places
      (@expr_traced e env env.targets _ _ _ _ hv List.infix_rfl) ((expr_flow henv (hwell.value e hsome) hv).2 0)
    exact ((hvalue.closed.lower hsub).append hstore).imp (Set.Subset.refl K) hbehind

/-! ## Conditionals -/

/-- The other branch of a conditional, with its label. -/
theorem elseBranch_keeps {otherwise : Option Statement} {no finish : Label}
    (henv : env.WellNamed) (ih : ∀ s ∈ otherwise, Secures a last s)
    (hjoint : ∀ s ∈ otherwise, Joint a last ctx r env s)
    (hK : Framed a ctx r (r.otherwiseVisits ctx otherwise) K)
    (hy : Yields (elseBranch env no finish otherwise) first code next) :
    Carries ((finish, 0) :: env.exits) K K code K (otherwise.toList.map fun _ => no) := by
  cases otherwise with
  | none =>
    obtain ⟨rfl, rfl⟩ := yields_pure.1 hy
    exact .nil
  | some s =>
    rw [Resolved.otherwiseVisits] at hK
    rcases yields_elseBranch.1 hy with ⟨-, c, hc, rfl⟩ | ⟨-, c, hc, rfl⟩
    · exact (Carries.label no).append (Secures.keeps (ih s rfl) (hjoint s rfl) henv hK hc)
    · have hbranch := Secures.keeps (ih s rfl) (hjoint s rfl) henv hK hc
      have hinside : Carries ((finish, 0) :: env.exits) K K c K [] :=
        hbranch.mono fun _ => List.mem_cons_of_mem _
      exact ((Carries.label no).append hinside).append (.goto List.mem_cons_self)

theorem conditional_secures (hl : Final last a) {e : Expr} {body : Statement}
    {otherwise : Option Statement} (ihbody : Secures a last body)
    (ihother : ∀ s ∈ otherwise, Secures a last s) :
    Secures a last (.conditional p e body otherwise) := by
  apply secures_of_keeps hl rfl rfl
  intro ctx r env K join first code next h henv hK hy
  obtain ⟨decision, inner, rest, middle, middle', hd, hi, hr, rfl⟩ := yields_conditional.1 hy
  obtain ⟨⟨hbody, hcbody⟩, hother⟩ := h.conditional
  have hwell : e.WellNamed := by
    cases h.wellNamed with
    | conditional he _ _ => exact he
  have hparts := hK
  rw [Resolved.visits] at hparts
  have hbehind : slotsAround a (Resolved.statement ctx (r.expr ctx e) body) ctx.scope ⊆ K :=
    (Gains.branch (gains hl body) hbody hcbody hparts.right.left.excused hK.excused
      List.mem_cons_self).trans (Set.union_subset (Set.Subset.refl K) hK.around)
  generalize hfinish : join.getD (first + 1) = finish at hd hr ⊢
  generalize hno : otherwiseLabel first finish otherwise = no at hd hr
  have hdecision := test_keeps hl h.aligned h.filled henv hwell hparts.left.tail hd
  have hinner := ihbody.keeps hbody henv ⟨hparts.right.left.excused, hK.around⟩ hi
  have hrest := elseBranch_keeps henv ihother (fun s hs => (hother s hs).1)
    ⟨hparts.right.right.excused, hbehind⟩ hr
  -- first every label counts as an exit; those that the code places are closed afterwards
  let exits := (first, 0) :: (no, 0) :: (finish, 0) :: env.exits
  have hstart : Carries exits K K (decision ++ .label first :: inner) K [first] := by
    have hdecision : Carries exits K K decision K [] :=
      hdecision.mono (by simp +contextual [exits])
    have hinner : Carries exits K K inner K [] :=
      hinner.mono (by simp +contextual [exits, joinExits])
    exact hdecision.append ((Carries.label first).append hinner)
  have hend : Carries exits K K (.op (.goto finish) :: rest) K (otherwise.toList.map fun _ => no) := by
    have hgoto : Carries exits K K [.op (.goto finish)] K [] := .goto (by simp [exits])
    exact hgoto.append (hrest.mono (by simp +contextual [exits]))
  have hlast : Carries exits K K (if join.isNone then [.label finish] else []) K
      (if join.isNone then [finish] else []) := by
    split
    · exact .label finish
    · exact .nil
  refine ⟨_, ((hstart.append hend).append hlast).close ?_⟩
  have hfinal : finish ∈ (if join.isNone then [finish] else []) ∨
      (finish, 0) ∈ joinExits env join := by
    cases join with
    | none => exact .inl (List.mem_singleton.2 rfl)
    | some j => exact .inr (by simp [joinExits, ← hfinish])
  simp only [List.mem_append]
  intro j hj
  simp only [exits, List.mem_cons] at hj
  rcases hj with rfl | rfl | rfl | hj
  · exact .inl (.inl (.inl (List.mem_singleton.2 rfl)))
  · cases otherwise with
    | none =>
      rw [← hno]
      exact hfinal.imp_left .inr
    | some s => exact .inl (.inl (.inr (List.mem_singleton.2 rfl)))
  · exact hfinal.imp_left .inr
  · exact .inr (List.mem_append_right _ hj)

/-! ## Loops -/

theorem whileLoop_secures (hl : Final last a) {e : Expr} {body : Statement}
    (ih : Secures a last body) : Secures a last (.whileLoop p e body) := by
  apply secures_of_keeps hl rfl rfl
  intro ctx r env K join first code next h henv hK hy
  obtain ⟨decision, inner, middle, hd, hi, rfl⟩ := yields_whileLoop.1 hy
  obtain ⟨hbody, -⟩ := h.whileLoop
  have hwell : e.WellNamed := by
    cases h.wellNamed with
    | whileLoop he _ => exact he
  rw [Resolved.visits] at hK
  have hdecision := test_keeps hl h.aligned h.filled henv hwell hK.left.tail hd
  have hinner := ih.keeps (hbody.inside _) (henv.inside _) ⟨hK.right.excused, hK.around⟩ hi
  let exits := (first, 0) :: (first + 1, 0) :: (first + 2, 0) :: env.exits
  have hloop : Carries exits K K (.label first :: decision) K [first] :=
    (Carries.label first).append (hdecision.mono (by simp +contextual [exits]))
  have hbody : Carries exits K K (.label (first + 1) :: inner) K [first + 1] :=
    (Carries.label _).append
      (hinner.mono (by simp +contextual [exits, joinExits, Env.exits, Env.inside]))
  have hback : Carries exits K K [.op (.goto first), .label (first + 2)] K [first + 2] :=
    (Carries.goto (by simp [exits])).append (.label _)
  refine ⟨_, ((hloop.append hbody).append hback).close ?_⟩
  intro j hj
  simp only [exits, List.mem_cons] at hj
  rcases hj with rfl | rfl | rfl | hj
  · exact .inl (by simp)
  · exact .inl (by simp)
  · exact .inl (by simp)
  · exact .inr (List.mem_append_right _ hj)

/-- The first part of a for loop is one of the simple statements. -/
theorem forInit_secures (hl : Final last a) (i : ForInit) : Secures a last i.asStatement := by
  cases i with
  | declaration x => exact declaration_secures hl
  | assignment b => exact action_secures hl

theorem joint_asStatement {i : ForInit} (hi : i.WellNamed) (ha : Aligned a ctx r env)
    (hf : Filled (Resolved.statement ctx r i.asStatement) last) :
    Joint a last ctx r env i.asStatement := by
  have hnodes : i.asStatement.nodes = [] := by
    cases i <;> rfl
  have hwell : i.asStatement.WellNamed := by
    cases i with
    | declaration x => exact .declaration hi
    | assignment b => exact .action hi
  refine ⟨hwell, ?_, ?_, ha, hf, ?_⟩
  · rw [hnodes]
    exact List.nodup_nil
  · rw [Unopened, hnodes]
    exact nofun
  · rw [hnodes]
    exact nofun

theorem forInit_carries (hl : Final last a) (ha : Aligned a ctx r env) (henv : env.WellNamed)
    {init : Option ForInit} (hinit : ∀ i ∈ init, i.WellNamed)
    (hf : Filled (r.loopInit ctx init) last) (hE : Excused a (r.seen ctx (initPlaces init)) E)
    (hy : Yields (forInit env init) first code next) :
    Carries env.exits E (E ∪ slotsAround a r ctx.scope) code
      (E ∪ slotsAround a (r.loopInit ctx init) ctx.scope) [] := by
  cases init with
  | none =>
    obtain ⟨rfl, rfl⟩ := yields_pure.1 hy
    exact .nil
  | some i =>
    have hcode : Yields (statement env none i.asStatement) first code next := by
      cases i with
      | declaration x =>
        rw [ForInit.asStatement, statement]
        exact hy
      | assignment b =>
        rw [ForInit.asStatement, statement]
        exact hy
    have hvisits : r.visits ctx i.asStatement = r.seen ctx (initPlaces (some i)) := by
      rw [initPlaces, Option.toList_some, List.flatMap_singleton]
      cases i with
      | declaration x => rw [ForInit.asStatement, Resolved.visits]
      | assignment b => rw [ForInit.asStatement, Resolved.visits]
    rw [Resolved.loopInit_eq] at hf ⊢
    exact forInit_secures hl i (joint_asStatement (hinit i rfl) ha hf) henv (hvisits ▸ hE) hcode

theorem forTest_keeps (hl : Final last a) (ha : Aligned a ctx r env) (hf : Filled r last)
    (henv : env.WellNamed) {e : Option Expr} (he : ∀ e' ∈ e, e'.WellNamed)
    (hK : Framed a ctx r (r.seen ctx (conditionPlaces e)) K) {yes no : Label}
    (hy : Yields (forTest env e yes no) first code next) :
    Carries [(yes, 0), (no, 0)] K K code K [] :=
  hK.carries hl ha hf (takesSlot_flatMap_places _)
    (@forTest_traced env env.targets _ _ _ _ e yes no hy List.infix_rfl) (forTest_flow henv he hy)

theorem forUpdate_keeps (hl : Final last a) (ha : Aligned a ctx r env) (hf : Filled r last)
    (henv : env.WellNamed) {update : Option Action} (hu : ∀ act ∈ update, act.WellNamed)
    (hK : Framed a ctx r (r.seen ctx (updatePlaces update)) K)
    (hy : Yields (forUpdate env update) first code next) : Carries [] K K code K [] := by
  refine hK.carries hl ha hf ?_ (@forUpdate_traced env env.targets _ _ _ _ update hy List.infix_rfl)
    (forUpdate_flow henv hu hy)
  cases update with
  | none => exact nofun
  | some act =>
    rw [updatePlaces, Option.toList_some, List.flatMap_singleton]
    exact List.forall_mem_cons.2 ⟨rfl, act.takesSlot_places⟩

/-- The parts of a for loop that are repeated, between their labels. -/
theorem repeated_keeps {exits : List (Label × Nat)} {decision inner after : Segment} {top : Label}
    (hdecision : Carries [(top + 1, 0), (top + 3, 0)] K K decision K [])
    (hinner : Carries ((top + 3, 0) :: (top + 2, 0) :: exits) K K inner K [])
    (hafter : Carries [] K K after K []) :
    Carries exits K K (.label top :: decision ++ .label (top + 1) :: inner ++
      .label (top + 2) :: after ++ [Item.op (Instruction.goto top), Item.label (top + 3)]) K
      [top, top + 1, top + 2, top + 3] := by
  let all := (top, 0) :: (top + 1, 0) :: (top + 2, 0) :: (top + 3, 0) :: exits
  have hloop : Carries all K K (.label top :: decision) K [top] :=
    (Carries.label top).append (hdecision.mono (by simp +contextual [all]))
  have hbody : Carries all K K (.label (top + 1) :: inner) K [top + 1] :=
    (Carries.label _).append (hinner.mono (by simp +contextual [all]))
  have hstep : Carries all K K (.label (top + 2) :: after) K [top + 2] :=
    (Carries.label _).append hafter.closed
  have hback : Carries all K K [.op (.goto top), .label (top + 3)] K [top + 3] :=
    (Carries.goto (by simp [all])).append (.label _)
  refine (((hloop.append hbody).append hstep).append hback).close ?_
  intro j hj
  simp only [all, List.mem_cons] at hj
  rcases hj with rfl | rfl | rfl | rfl | hj
  · exact .inl (by simp)
  · exact .inl (by simp)
  · exact .inl (by simp)
  · exact .inl (by simp)
  · exact .inr hj

theorem forLoop_secures (hl : Final last a) {id : NodeId} {init : Option ForInit}
    {e : Option Expr} {update : Option Action} {body : Statement} (ih : Secures a last body) :
    Secures a last (.forLoop p id init e update body) := by
  apply secures_of_keeps hl rfl rfl
  intro ctx r env K join first code next h henv hK hy
  obtain ⟨before, decision, inner, after, top, middle, middle', hb, hd, hi, ha, rfl⟩ :=
    yields_forLoop.1 hy
  have henv' := henv.enter id
  have hloop := h.forLoop
  have hopened := h.slotsAround_enterLoop hl
  obtain ⟨hinit, he, hupdate⟩ : (∀ i ∈ init, i.WellNamed) ∧ (∀ e' ∈ e, e'.WellNamed) ∧
      ∀ act ∈ update, act.WellNamed := by
    cases h.wellNamed with
    | forLoop hinit he hupdate _ => exact ⟨hinit, he, hupdate⟩
  have hE := hK.excused
  rw [Resolved.visits] at hE
  generalize r.enterLoop ctx id init body = o at hloop hopened hE
  obtain ⟨atInit, inside⟩ := o
  have hf3 := hloop.body.filled
  have hf2 := hloop.walkedUpdate.toFilled.trans hf3
  have hf1 := hloop.walkedCondition.toFilled.trans hf2
  have hinner1 := hloop.aligned.later hloop.walkedInit.toFilled
  have hinner2 := hinner1.later hloop.walkedCondition.toFilled
  have hbefore := forInit_carries hl hloop.aligned henv' hinit hf1 hE.right.left hb
  -- the variable of the loop is known at all of its labels
  generalize hK1 : K ∪ slotsAround a (atInit.loopInit inside init) inside.scope = K1 at hbefore
  have hsub : K ⊆ K1 := hK1 ▸ Set.subset_union_left
  have hopened' : K ∪ slotsAround a atInit inside.scope ⊆ K :=
    Set.union_subset (Set.Subset.refl K) (hopened.trans hK.around)
  have haround : ∀ e' update', slotsAround a
      ((atInit.loopInit inside init).loopControl inside e' update') inside.scope ⊆ K1 := by
    intro e' update'
    rw [slotsAround, arena_loopControl, ← hK1]
    exact Set.subset_union_right
  have hparts := hE.right.right.mono hsub
  have hdecision := forTest_keeps hl hinner1 hf1 henv' he ⟨hparts.left, haround none none⟩ hd
  have hinner := ih.keeps (hloop.body.inside _) (henv'.inside _)
    ⟨hparts.right.right, haround e update⟩ hi
  have hafter := forUpdate_keeps hl hinner2 hf2 henv' hupdate
    ⟨hparts.right.left, haround e none⟩ ha
  have hinside : Carries ((top + 3, 0) :: (top + 2, 0) :: env.exits) K1 K1 inner K1 [] :=
    hinner.mono (by simp +contextual [joinExits, Env.exits, Env.inside, Env.enter])
  have hrepeated := repeated_keeps hdecision hinside hafter
  have hwhole := (hbefore.imp hopened' (Set.Subset.refl K1)).append (hrepeated.lower hsub)
  have hcode : before ++ .label top :: decision ++ .label (top + 1) :: inner ++
      .label (top + 2) :: after ++ [Item.op (Instruction.goto top), Item.label (top + 3)] =
      before ++ (.label top :: decision ++ .label (top + 1) :: inner ++
        .label (top + 2) :: after ++ [Item.op (Instruction.goto top), Item.label (top + 3)]) := by
    simp
  rw [hcode]
  exact ⟨_, (hwhole.imp (Set.Subset.refl K) hsub).mono fun _ => List.mem_append_right _⟩

/-! ## Switches -/

/-- The bodies of cases, with the labels before them. -/
theorem caseBodies_keep (hl : Final last a) {cases : List Case} {label : Label}
    (ih : ∀ c ∈ cases, ∀ s ∈ c.body.statements, Secures a last s)
    (h : JointCases a last ctx r env cases) (henv : env.WellNamed)
    (hK : Framed a ctx r (r.caseVisits ctx cases) K)
    (hy : Yields (caseBodies env [] label cases) first code next) :
    Carries env.exits K K code K (List.range' label cases.length) := by
  induction cases generalizing r label first code with
  | nil =>
    obtain ⟨rfl, rfl⟩ := yields_caseBodies_nil.1 hy
    exact .nil
  | cons c cases ihc =>
    obtain ⟨body, rest, middle, hbody, hrest, rfl⟩ := yields_caseBodies_cons.1 hy
    obtain ⟨hhead, hclosed⟩ := h.head
    have htail := h.tail
    rw [List.forall_mem_cons] at ih
    obtain ⟨p, q, l, b⟩ := c
    rw [Resolved.caseVisits] at hK
    have hb := block_keeps hl ih.1 hhead henv hK.left hbody
    have hcs := ihc ih.2 htail ⟨hK.right.excused, (hhead.gains hclosed).trans hK.around⟩ hrest
    exact ((Carries.label label).append hb).append hcs

theorem defaultBody_keeps (hl : Final last a) {default_ : Option Block} {label : Label}
    (ih : ∀ b ∈ default_, ∀ s ∈ b.statements, Secures a last s)
    (h : ∀ b ∈ default_, JointBlock a last ctx .case r env b) (henv : env.WellNamed)
    (hK : Framed a ctx r (r.defaultVisits ctx default_) K)
    (hy : Yields (defaultBody env label default_) first code next) :
    Carries env.exits K K code K (default_.toList.map fun _ => label) := by
  cases default_ with
  | none =>
    obtain ⟨rfl, rfl⟩ := yields_pure.1 hy
    exact .nil
  | some b =>
    obtain ⟨body, hbody, rfl⟩ := yields_defaultBody.1 hy
    rw [Resolved.defaultVisits] at hK
    exact (Carries.label label).append (block_keeps hl (ih b rfl) (h b rfl) henv hK hbody)

theorem switch_secures (hl : Final last a) {id : NodeId} {e : Expr} {cases : List Case}
    {default_ : Option Block} (ihc : ∀ c ∈ cases, ∀ s ∈ c.body.statements, Secures a last s)
    (ihd : ∀ b ∈ default_, ∀ s ∈ b.statements, Secures a last s) :
    Secures a last (.switch p id e cases default_) := by
  apply secures_of_keeps hl rfl rfl
  intro ctx r env K join first code next h henv hK hy
  obtain ⟨slot, store, tests, bodies, ending, label, miss, finish, middle, hmiss, hfinish, -, hs, ht,
    hb, hd, rfl⟩ := yields_switch.1 hy
  obtain ⟨hselector, hcases, hdefault⟩ := h.switch
  obtain ⟨v, hv, -, rfl⟩ := yields_selector.1 hs
  have hwell : e.WellNamed := by
    cases h.wellNamed with
    | switch he _ _ => exact he
  rw [Resolved.visits] at hK
  have hsame : slotsAround a (r.selector ctx id e) ctx.scope ⊆ K := by
    rw [slotsAround, (Resolved.faultless_selector (hselector.faults hl)).2]
    exact hK.around
  have hvalue := hK.left.tail.carries hl h.aligned h.filled e.takesSlot_places
    (@expr_traced e env env.targets _ _ _ _ hv List.infix_rfl) ((expr_flow henv hwell hv).2 0)
  have hbodies := caseBodies_keep hl ihc (hcases.inside _) (henv.inside _)
    ⟨hK.right.left.excused, hsame⟩ hb
  have hlast := defaultBody_keeps hl ihd (fun b hb => (hdefault b hb).1.inside _) (henv.inside _)
    ⟨hK.right.right.excused, hcases.gains.trans hsame⟩ hd
  let exits := (List.range' label cases.length).map (·, 0) ++
    (miss, 0) :: (finish, 0) :: env.exits
  have hinside : ∀ j ∈ (env.inside ⟨none, finish⟩).exits, j ∈ exits := by
    simp +contextual [exits, Env.exits, Env.inside]
  -- the tests load the slot of the switch, and the labels of the bodies need not know it
  have htests : Carries exits K (K ∪ {slot}) tests (K ∪ {slot}) [] := by
    have hflow : Flow exits 0 tests 0 := by
      refine caseTests_flow ?_ ht
      intro i hi
      refine List.mem_append_left _ (List.mem_map_of_mem ?_)
      rw [List.mem_range'_1]
      exact ⟨Nat.le_add_right label i, Nat.add_lt_add_left hi label⟩
    refine (hflow.carries ?_).lower Set.subset_union_left
    intro s hs
    exact .inr (slots_caseTests ht s hs)
  have hstore : Carries exits K K (v.code ++ ops [Local.store ⟨slot, .int⟩]) (K ∪ {slot}) [] :=
    hvalue.closed.append (.store _ slot)
  have hgoto : Carries exits K (K ∪ {slot}) [.op (.goto miss)] K [] :=
    (Carries.goto (by simp [exits])).imp Set.subset_union_left (Set.Subset.refl K)
  have htoBodies := ((hstore.append htests).append hgoto).append (hbodies.mono hinside)
  have hall := (htoBodies.append (hlast.mono hinside)).append (.label finish)
  have hcode : v.code ++ ops [Local.store ⟨slot, .int⟩] ++ tests ++ .op (.goto miss) :: bodies ++
      ending ++ [Item.label finish] = v.code ++ ops [Local.store ⟨slot, .int⟩] ++ tests ++
        [Item.op (Instruction.goto miss)] ++ bodies ++ ending ++ [Item.label finish] := by simp
  rw [hcode]
  refine ⟨_, hall.close ?_⟩
  intro j hj
  simp only [exits, List.mem_append, List.mem_map, List.mem_cons] at hj ⊢
  rcases hj with ⟨l, hmem, rfl⟩ | rfl | rfl | hj
  · exact .inl (.inl (.inl (.inr hmem)))
  · cases default_ with
    | none =>
      obtain rfl : finish = miss := hfinish
      exact .inl (.inr (.inl rfl))
    | some b => exact .inl (.inl (.inr ⟨b, List.mem_singleton.2 rfl, rfl⟩))
  · exact .inl (.inr (.inl rfl))
  · exact .inr (List.mem_append_right _ hj)

/-! ## All statements -/

/-- A block leaves the variables around it known, and its own ones if it shares their scope. -/
theorem blockStatement_secures (hl : Final last a) {b : Block}
    (ih : ∀ s ∈ b.statements, Secures a last s) : Secures a last (.block b) := by
  intro ctx r env E join first code next h henv hE hy
  have hvisits := hE
  rw [Resolved.visits] at hvisits
  rw [statement] at hy
  have hjoint := h.block
  have hexits : ∀ j ∈ env.exits, j ∈ joinExits env join := fun _ => List.mem_append_right _
  rw [Resolved.statement]
  cases hscope : r.arena.scopeOf b.id with
  | some scope =>
    obtain ⟨rfl, -⟩ := hjoint.attached b.id (Block.id_mem_nodes b) _ hscope
    have hsame : (r.opened ctx .block b).2.scope = ctx.scope := by
      rw [Resolved.opened, hscope]
    have hblock := block_secures hl ih hjoint henv hvisits.right hy
    rw [hsame] at hblock
    exact hblock.mono hexits
  | none =>
    have hclosed : Closed r b.nodes := by
      intro node hnode
      by_contra hne
      obtain ⟨id, hid⟩ := Option.ne_none_iff_exists'.1 hne
      obtain ⟨-, rfl⟩ := hjoint.attached node hnode id hid
      exact hne hscope
    have hkeeps := block_keeps hl ih hjoint henv (framed_of_excused hvisits.right ctx r) hy
    refine ((hkeeps.lower Set.subset_union_left).mono hexits).imp (Set.Subset.refl _) ?_
    exact Set.union_subset_union_right E (hjoint.gains hclosed)

/-- The code of a statement loads no variable around it that is not stored into before. -/
theorem secures (hl : Final last a) (s : Statement) : Secures a last s := by
  induction s using Statement.induction with
  | block b ih => exact blockStatement_secures hl ih
  | conditional p e body otherwise ihbody ihother => exact conditional_secures hl ihbody ihother
  | whileLoop p e body ih => exact whileLoop_secures hl ih
  | forLoop p id init e update body ih => exact forLoop_secures hl ih
  | switch p id e cases default_ ihc ihd => exact switch_secures hl ihc ihd
  | jump p j => exact jump_secures hl
  | action act => exact action_secures hl
  | declaration x => exact declaration_secures hl

end Lowering

end Javelet
