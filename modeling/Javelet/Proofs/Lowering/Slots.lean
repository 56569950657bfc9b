import Javelet.Proofs.Grammar.Receivers
import Javelet.Proofs.Lowering.Tours

/-!
# The slots of a method

The parameters, the local variables and the switches of a method have slots of their own. Together
they are the numbers from the first one on, without a gap: slot 0 is left to the receiver, where
there is one, and the header counts them all. The code of the method loads and stores no others.
-/
namespace Javelet

/-- The first slot that is handed out in a method. -/
def Method.firstSlot (m : Method) : Nat := if m.signature.isStatic then 0 else 1

/-- How many slots are handed out in a method. -/
def Method.slotCount (m : Method) : Nat :=
  m.signature.params.length + m.body.places.countP Place.isDeclaration +
    m.body.places.countP Place.isSwitch

theorem countP_takesSlot (places : List Place) : places.countP Place.takesSlot =
    places.countP Place.isDeclaration + places.countP Place.isSwitch := by
  induction places with
  | nil => rfl
  | cons place places ih =>
    have hdisjoint : place.isDeclaration = true → place.isSwitch = false := by
      unfold Place.isDeclaration
      split
      · exact fun _ => rfl
      · nofun
    rw [List.countP_cons, List.countP_cons, List.countP_cons, ih, Place.takesSlot]
    cases hd : place.isDeclaration with
    | true =>
      rw [hdisjoint hd]
      simp
      omega
    | false =>
      simp
      omega

namespace Scope

theorem length_slots (visits : List Visit) :
    (visits.filterMap Visit.slot?).length = (visits.map Visit.place).countP Place.takesSlot := by
  induction visits with
  | nil => rfl
  | cons v visits ih =>
    rw [List.map_cons, List.countP_cons, ← ih, List.filterMap_cons, Visit.slot?]
    cases v.place.takesSlot <;> simp

end Scope

namespace Lowering

open Assembly Scope

/-- The slot that is recorded for the variable or for the switch at a visit. -/
def Visit.slot? (g : Visit) : Option Nat :=
  match g.place with
  | .statement (.declaration x) => (g.env.arena.lookupLocal g.env.scope x.name).bind Entry.slot
  | .statement (.switch _ id _ _ _) => g.env.arena.reservedSlot id
  | _ => none

/-- The slot that is recorded for a parameter, inside of its method. -/
def Env.paramSlot? (env : Env) (p : Parameter) : Option Nat :=
  (env.arena.lookupLocal env.scope p.name).bind Entry.slot

/-- The slots of the parameters of a method, and of the variables and the switches in its body. -/
def Env.slots (env : Env) (m : Method) : List Nat :=
  let env := env.enter m.signature.id
  m.signature.params.filterMap env.paramSlot? ++ (env.blockVisits m.body).filterMap Visit.slot?

variable {a : Arena} {start last r final : Resolved} {v : Scope.Visit} {g : Visit}
  {ctx : Context} {env : Env}

/-! ## Visits -/

/-- The slot that is handed out at a visit is recorded for it. -/
theorem slot?_of_meets (hm : Meets a last v g) : g.slot? = v.slot? := by
  obtain ⟨hplace, ha, -, hs⟩ := hm
  obtain ⟨place, ctx, r⟩ := v
  obtain ⟨_, env⟩ := g
  cases hplace
  match place with
  | .statement (.declaration x) =>
    have hfound : a.lookupLocal ctx.scope x.name = some ⟨.variable x.type, some r.nextSlot⟩ := hs
    have hrecorded : (env.arena.lookupLocal env.scope x.name).bind Entry.slot =
        some r.nextSlot := by
      rw [ha.arena, ha.scope]
      exact congrArg (·.bind Entry.slot) hfound
    exact hrecorded
  | .statement (.switch p id e cases default_) =>
    have hrecorded : env.arena.reservedSlot id = some r.nextSlot := by
      rw [ha.arena]
      exact hs
    exact hrecorded
  | .statement (.block _) => rfl
  | .statement (.conditional ..) => rfl
  | .statement (.whileLoop ..) => rfl
  | .statement (.forLoop ..) => rfl
  | .statement (.jump ..) => rfl
  | .statement (.action _) => rfl
  | .target _ => rfl
  | .expr _ => rfl
  | .boundary _ => rfl

theorem filterMap_slot? {visits : List Scope.Visit} {gs : List Visit}
    (h : List.Forall₂ (Meets a last) visits gs) :
    gs.filterMap Visit.slot? = visits.filterMap Scope.Visit.slot? := by
  induction h with
  | nil => rfl
  | cons hm _ ih => rw [List.filterMap_cons, List.filterMap_cons, slot?_of_meets hm, ih]

namespace Tracks

variable {w : Tour Scope.Visit} {t : Tour Visit}

theorem map_place (h : Tracks a start last w t) :
    w.visits.map Scope.Visit.place = t.visits.map Visit.place := by
  refine List.forall₂_eq_eq_eq ▸ ?_
  rw [List.forall₂_map_left_iff, List.forall₂_map_right_iff]
  exact h.meets.imp fun v g hm => hm.place.symm

/-- One slot is handed out for each declaration and for each switch. -/
theorem nextSlot (h : Tracks a start last w t) {places : List Place}
    (hp : t.visits.map Visit.place = places) : last.nextSlot = start.nextSlot +
      (places.countP Place.isDeclaration + places.countP Place.isSwitch) := by
  have hlength := length_slots w.visits
  rw [h.handed.slots, List.length_range', h.map_place, hp, countP_takesSlot] at hlength
  have hle := h.handed.nextSlot
  omega

theorem slots (h : Tracks a start last w t) : t.visits.filterMap Visit.slot? =
    List.range' start.nextSlot (last.nextSlot - start.nextSlot) :=
  (filterMap_slot? h.meets).trans h.handed.slots

/-- The slots that are found at a visit of a method are handed out in the method. -/
theorem mentions_lt (h : Tracks a start last w t) (hg : g ∈ t.visits) {slot : Nat}
    (hslot : g.Mentions slot) : slot < last.nextSlot := by
  obtain ⟨v, -, hm⟩ := h.exists_meets hg
  cases hslot with
  | name _ hlocal => exact local?_slot_lt h.final hm hlocal
  | declaration _ hlocal => exact local?_slot_lt h.final hm hlocal
  | switch hplace hreserved =>
    have hrecorded : g.slot? = some slot := by
      rw [Visit.slot?, hplace]
      exact hreserved
    have hmem : slot ∈ t.visits.filterMap Visit.slot? :=
      List.mem_filterMap.2 ⟨g, hg, hrecorded⟩
    rw [h.slots, List.mem_range'_1] at hmem
    have hle := h.handed.nextSlot
    omega

end Tracks

/-! ## Methods -/

theorem filterMap_consecutive {α : Type} {f : α → Option Nat} {xs : List α} {n : Nat}
    (h : ∀ i x, xs[i]? = some x → f x = some (n + i)) :
    xs.filterMap f = List.range' n xs.length := by
  induction xs generalizing n with
  | nil => rfl
  | cons x xs ih =>
    rw [List.filterMap_cons, h 0 x rfl, List.length_cons, List.range'_succ]
    refine congrArg (n :: ·) (ih ?_)
    intro i y hy
    rw [h (i + 1) y hy, Nat.add_right_comm, Nat.add_assoc]

/-- What is recorded for a method. -/
structure Allotted (env : Env) (m : Method) : Prop where
  params : ∀ i p, m.signature.params[i]? = some p →
    (env.enter m.signature.id).paramSlot? p = some (m.firstSlot + i)
  slots : env.slots m = List.range' m.firstSlot m.slotCount
  locals : env.arena.localsOf m.signature.id = some (m.firstSlot + m.slotCount)
  limit : m.firstSlot + m.slotCount ≤ slotLimit
  mentions : ∀ g ∈ (env.enter m.signature.id).blockVisits m.body, ∀ slot, g.Mentions slot →
    slot < m.firstSlot + m.slotCount

/-- The parameters of a method in front of its body. -/
theorem params_atBody {m : Method} (hw : m.signature.WellNamed)
    (h : (Resolved.atBody ctx r m).faults = #[]) :
    (Resolved.atBody ctx r m).nextSlot = m.firstSlot + m.signature.params.length ∧
      (Resolved.atBody ctx r m).nextSlot ≤ slotLimit ∧
      ∀ i p, m.signature.params[i]? = some p →
        (Resolved.atBody ctx r m).arena.lookupLocal r.arena.size p.name =
          some ⟨.variable p.type, some (m.firstSlot + i)⟩ := by
  have hopened : r.arena.size <
      (r.enter ctx.scope m.signature.text .method m.signature.id).1.arena.size :=
    Nat.lt_of_lt_of_eq (Nat.lt_succ_self _) (Arena.size_push ..).symm
  have hdeclared := fun hsize => faultless_params hsize hw.params h
  obtain ⟨-, hnext, hlimit, hslots⟩ := hdeclared hopened
  refine ⟨hnext, hlimit ?_, hslots⟩
  show m.firstSlot ≤ slotLimit
  unfold Method.firstSlot
  split <;> decide

/-- The scope of a method stays attached to it. -/
theorem scopeOf_signature {m : Method} (hw : m.WellNamed) (hn : m.nodes.Nodup)
    (hc : Closed r m.nodes) (hlast : Completed m.nodes (Resolved.method ctx r m) final) :
    final.arena.scopeOf m.signature.id = some r.arena.size := by
  obtain ⟨rest, hgrown, hdisjoint⟩ := hlast.grown
  have hfinal := (hgrown.attached m.signature.id (hdisjoint _ (List.mem_cons_self ..))).scopeOf
  have hbody := @Resolved.walked_body ctx r m hw hn hc
  have hparams : Walked r.arena.size [] _ (Resolved.atBody ctx r m) :=
    Resolved.walked_params hw.signature.params
  rw [Method.nodes, Block.nodes_eq, List.nodup_cons, List.mem_cons, not_or] at hn
  have hopened := (hparams.attached m.signature.id List.not_mem_nil).scopeOf
  refine (hfinal.trans (hbody.attached m.signature.id hn.1.2).scopeOf).trans (hopened.trans ?_)
  rw [Arena.scopeOf_attach_of_ne _ hn.1.1]
  exact Arena.scopeOf_attach_self ..

theorem localsOf_method {m : Method}
    (hlast : Completed m.nodes (Resolved.method ctx r m) final) :
    final.arena.localsOf m.signature.id = some (Resolved.behindBody ctx r m).nextSlot := by
  obtain ⟨rest, hgrown, hdisjoint⟩ := hlast.grown
  rw [(hgrown.attached m.signature.id (hdisjoint _ (List.mem_cons_self ..))).localsOf]
  exact Arena.localsOf_setLocals_self ..

/-- The parameters are found in the scope of the method. -/
theorem paramSlot?_of_params {d : ClassDecl} {m : Method} (hw : m.WellNamed) (hn : m.nodes.Nodup)
    (hc : Closed r m.nodes) (hb : Bare ctx.Known r ctx.scope)
    (ha : ClassAligned final.arena d ctx env) (hl : Final (Resolved.behindBody ctx r m) final.arena)
    (hlast : Completed m.nodes (Resolved.method ctx r m) final) {p : Parameter} {slot : Nat}
    (hp : (Resolved.atBody ctx r m).arena.lookupLocal r.arena.size p.name =
      some ⟨.variable p.type, some slot⟩) :
    (env.enter m.signature.id).paramSlot? p = some slot := by
  have hsize := (visible_atBody hb hw.signature).lt
  have hfilled := (@Resolved.walked_body ctx r m hw hn hc).toFilled
  have hfound := (hl.same _ (Nat.lt_of_lt_of_le hsize hfilled.size) _).trans
    (hfilled.kept _ _ _ hp)
  rw [Env.paramSlot?, show (env.enter m.signature.id).arena = final.arena from ha.arena,
    Env.enter, ha.arena, scopeOf_signature hw hn hc hlast]
  exact congrArg (·.bind Entry.slot) hfound

theorem method_allotted {d : ClassDecl} {m : Method} (hw : m.WellNamed) (hn : m.nodes.Nodup)
    (hc : Closed r m.nodes) (hb : Bare ctx.Known r ctx.scope)
    (ha : ClassAligned final.arena d ctx env)
    (hlast : Completed m.nodes (Resolved.method ctx r m) final) : Allotted env m := by
  have ht := methodTour_tracks hw hn hc hb ha hlast
  obtain ⟨hnext, hlimit, hparams⟩ := params_atBody hw.signature ht.handed.faults
  have hplaces : (env.methodTour d m).visits.map Visit.place = m.body.places ++ [.boundary d] := by
    rw [Env.methodTour, List.map_append, Env.map_place_blockVisits]
    rfl
  have hcount := ht.nextSlot hplaces
  rw [List.countP_append, List.countP_append] at hcount
  have hlocals : (Resolved.behindBody ctx r m).nextSlot = m.firstSlot + m.slotCount := by
    rw [hcount, hnext, Method.slotCount]
    simp [Place.isDeclaration, Place.isSwitch, Nat.add_assoc]
  have hparamSlots : ∀ i p, m.signature.params[i]? = some p →
      (env.enter m.signature.id).paramSlot? p = some (m.firstSlot + i) :=
    fun i p hp => paramSlot?_of_params hw hn hc hb ha ht.final hlast (hparams i p hp)
  refine ⟨hparamSlots, ?_, ?_, ?_, ?_⟩
  · have hbody : ((env.enter m.signature.id).blockVisits m.body).filterMap Visit.slot? =
        List.range' (m.firstSlot + 1 * m.signature.params.length)
          (m.slotCount - m.signature.params.length) := by
      have hslots := ht.slots
      rw [Env.methodTour, List.filterMap_append, hlocals, hnext, Nat.add_sub_add_left] at hslots
      rw [Nat.one_mul]
      exact (List.append_nil _).symm.trans hslots
    have hle : m.signature.params.length ≤ m.slotCount := by
      rw [Method.slotCount, Nat.add_assoc]
      exact Nat.le_add_right ..
    rw [Env.slots, filterMap_consecutive hparamSlots, hbody, List.range'_append,
      Nat.add_sub_cancel' hle]
  · rw [ha.arena, localsOf_method hlast, hlocals]
  · rw [← hlocals]
    exact ht.handed.limit hlimit
  · intro g hg slot hslot
    rw [← hlocals]
    exact ht.mentions_lt (List.mem_append_left _ hg) hslot

/-! ## Classes -/

/-- What is recorded for a class: its initial values mention no slots. -/
structure ClassAllotted (env : Env) (d : ClassDecl) : Prop where
  methods : ∀ m ∈ d.members, Allotted env m
  values : ∀ g ∈ env.seen (d.values.flatMap Expr.places), ∀ slot, ¬ g.Mentions slot

/-- No variable is found from the scope of a class. -/
theorem local?_of_bare {d : ClassDecl} (ha : ClassAligned a d ctx env) (hl : Final last a)
    (hb : Bare ctx.Known last ctx.scope) (name : String) : env.local? name = none := by
  cases h : env.local? name with
  | none => rfl
  | some l =>
    have hfound := lookup_of_local? h
    rw [ha.arena, ha.scope,
      Arena.lookup_congr hl.parent (fun id hid => hl.same id hid name) hb.lt] at hfound
    rcases hb.lookup hfound with ⟨ty, s, -, hlt⟩ | ⟨hnone, -⟩
    · exact (Nat.not_lt_zero s hlt).elim
    · cases hnone

theorem class_allotted {table : Types.Table} {d : ClassDecl} (ht : table.WellNamed)
    (hw : d.WellNamed) (hn : d.nodes.Nodup) (hc : Closed r d.nodes)
    (hb : Bare (fun _ e => e.meaning = .type) r Arena.root)
    (hlast : Completed d.nodes (Resolved.class_ table r d) final) :
    ClassAllotted (classEnv (.outermost table final.arena) d) d := by
  have ha := class_aligned ht hw hn hc hlast
  refine ⟨forall_members hw hn hc hb hlast ?_, ?_⟩
  · exact fun m hm r' hn hc hb hlast _ => method_allotted (hw.methods m hm) hn hc hb ha hlast
  · obtain ⟨rest, hgrown, -⟩ := grown_behindMembers hw hn hc hlast
    intro g hg slot hslot
    obtain ⟨place, hplace, rfl⟩ := List.mem_map.1 hg
    have htakes := takesSlot_flatMap_places d.values place hplace
    cases hslot with
    | name _ hlocal =>
      have hnone := local?_of_bare ha (hgrown.final hlast.faults) (bare_behindValues hb)
      cases (hnone _).symm.trans hlocal
    | declaration heq _ =>
      cases heq
      cases htakes
    | switch heq _ =>
      cases heq
      cases htakes

theorem program_allotted {program : Program} {table : Types.Table} (ht : table.WellNamed)
    (hw : program.WellNamed) (hn : program.nodes.Nodup) (hf : (resolve program table).faults = #[])
    {d : ClassDecl} (hd : .class_ d ∈ program.declarations) :
    ClassAllotted (classEnv (.outermost table (resolve program table).arena) d) d :=
  forall_classes hw hn hf
    (fun _ hd _ hn hc hb hlast _ => class_allotted ht (hw _ hd) hn hc hb hlast) d hd

/-! ## Code -/

/-- What is recorded for a method and what its code makes of it. -/
structure MethodSlots (env : Env) (m : Method) (mc : MethodCode) : Prop where
  params : ∀ i p, m.signature.params[i]? = some p →
    (env.enter m.signature.id).paramSlot? p = some (m.firstSlot + i)
  slots : env.slots m = List.range' m.firstSlot m.slotCount
  nodup : (env.slots m).Nodup
  receiver : m.signature.isStatic = false → 0 ∉ env.slots m
  locals : mc.locals = m.firstSlot + m.slotCount
  limit : mc.locals ≤ 65535
  code : ∀ slot ∈ readings Instruction.slot? mc.code, slot < mc.locals

variable {first next : Label}

theorem methodCode_slots {header : Header} {before : Segment} {m : Method} {mc : MethodCode}
    (ha : Allotted env m) (hbefore : ∀ slot ∈ readings Instruction.slot? before, slot = 0)
    (hpos : 0 < m.firstSlot + m.slotCount)
    (h : Yields (methodCode env header before m) first mc next) : MethodSlots env m mc := by
  obtain ⟨body, hbody, rfl⟩ := yields_methodCode.1 h
  have hlocals : (env.arena.localsOf m.signature.id).getD 1 = m.firstSlot + m.slotCount := by
    rw [ha.locals]
    rfl
  refine ⟨ha.params, ha.slots, ?_, ?_, hlocals, ?_, ?_⟩
  · rw [ha.slots]
    exact List.nodup_range'
  · intro hstatic
    rw [ha.slots, List.mem_range'_1, Method.firstSlot, hstatic]
    exact fun hzero => Nat.not_succ_le_zero 0 hzero.1
  · rw [hlocals]
    exact ha.limit
  · intro slot hslot
    rw [hlocals]
    rw [readings_append] at hslot
    rcases List.mem_append.1 hslot with hslot | hslot
    · rw [hbefore slot hslot]
      exact hpos
    · rcases (body_traced hbody List.infix_rfl).slots slot hslot with rfl | ⟨g, hg, hm⟩
      · exact hpos
      · exact ha.mentions g hg slot hm

/-- What a constructor does before its body mentions the receiver only. -/
theorem prologue_slots {d : ClassDecl} {superclass : String} {code : Segment}
    (ha : ClassAllotted env d) (h : Yields (prologue env superclass d.properties) first code next) :
    ∀ slot ∈ readings Instruction.slot? code, slot = 0 := by
  intro slot hslot
  rcases (prologue_traced h List.infix_rfl).slots slot hslot with hzero | ⟨g, hg, hm⟩
  · exact hzero
  · exact (ha.values g hg slot hm).elim

/-- A method has a receiver, or it has a parameter. -/
theorem params_pos {d : ClassDecl} (h : d.ReceiversFit) :
    ∀ m ∈ d.members, 0 < m.firstSlot + m.signature.params.length := by
  intro m hm
  rw [Method.firstSlot]
  rcases List.mem_append.1 hm with hm | hm
  · rw [h.members m hm]
    exact Nat.lt_of_lt_of_le Nat.one_pos (Nat.le_add_right ..)
  · have hparams := (h.main m (Option.mem_toList.1 hm)).2
    omega

/-- The methods of a class, and the constructor of a class that declares none. -/
structure ClassSlots (env : Env) (d : ClassDecl) (c : ClassSection) : Prop where
  receivers : d.ReceiversFit
  methods : ∃ own default_, c.methods = own ++ default_ ∧
    List.Forall₂ (MethodSlots env) d.members own ∧
    ∀ mc ∈ default_, mc.locals = 1 ∧ ∀ slot ∈ readings Instruction.slot? mc.code, slot = 0

theorem class_slots {d : ClassDecl} {c : ClassSection} (hr : d.ReceiversFit)
    (ha : ClassAllotted (classEnv env d) d) (h : Yields (class_ env d) first c next) :
    ClassSlots (classEnv env d) d c := by
  obtain ⟨constructors, methods, default_, middle, middle', hc, hm, hdefault, hall, -⟩ :=
    yields_class h
  have hpos : ∀ m ∈ d.members, 0 < m.firstSlot + m.slotCount := by
    intro m hm
    have hfirst := params_pos hr m hm
    rw [Method.slotCount]
    omega
  refine ⟨hr, constructors ++ methods, default_, hall, ?_, ?_⟩
  · have hmembers : d.members = d.constructors ++ (d.methods ++ d.main.toList) :=
      List.append_assoc ..
    rw [hmembers] at hpos ⊢
    have hallotted := ha.methods
    rw [hmembers] at hallotted
    refine List.rel_append (forall₂_mapM ?_ hc) (forall₂_mapM ?_ hm)
    · intro m hmem first mc next hy
      obtain ⟨before, middle, hp, hcode⟩ := yields_constructor.1 hy
      have hmem' := List.mem_append_left (d.methods ++ d.main.toList) hmem
      exact methodCode_slots (hallotted m hmem') (prologue_slots ha hp) (hpos m hmem') hcode
    · intro m hmem first mc next hy
      have hmem' := List.mem_append_right d.constructors hmem
      exact methodCode_slots (hallotted m hmem') (fun _ hs => absurd hs List.not_mem_nil)
        (hpos m hmem') hy
  · rcases hdefault with ⟨-, mc, rfl, hy⟩ | ⟨-, rfl, -⟩
    · simp only [defaultConstructor, yields_bind, yields_pure] at hy
      obtain ⟨before, _, hp, rfl, rfl⟩ := hy
      exact List.forall_mem_singleton.2 ⟨rfl, prologue_slots ha hp⟩
    · exact fun _ hmem => absurd hmem List.not_mem_nil

/-! ## Accepted programs -/

theorem receiversFit_of_parseSource {source : String} {program : Program}
    (h : parseSource source = .ok program) {d : ClassDecl}
    (hd : .class_ d ∈ program.declarations) : d.ReceiversFit := by
  simp only [parseSource, except_bind_eq_ok, mapError_eq_ok] at h
  obtain ⟨tokens, -, hparse⟩ := h
  exact parse_receivers hparse d hd

/-- In a program that is compiled, every constructor, method and entry point has slots without a gap
for its parameters, its variables and its switches, in this order, and its header and its code know
of no others. -/
theorem compiled_slots {source text : String} (h : compile source = .ok text) :
    ∃ program analysis sections, Accepted source program analysis sections ∧
      text = programText sections ∧
      List.Forall₂ (fun decl s => ∀ d, decl = .class_ d → ∃ c, s = .class_ c ∧
          ClassSlots (classEnv (.outermost analysis.table analysis.arena) d) d c)
        program.declarations sections := by
  obtain ⟨program, analysis, sections, ha, htext⟩ := compile_eq_ok_iff.1 h
  refine ⟨program, analysis, sections, ha, htext, ?_⟩
  obtain ⟨hw, hn⟩ := wellNamed_of_parseSource ha.parsed
  obtain ⟨htable, harena, hfaults⟩ := analyze_eq_ok ha.analyzed
  have ht : analysis.table.WellNamed := htable ▸ Types.wellNamed_collect hw
  obtain ⟨next, hy⟩ := yields_program ha.lowered
  refine forall₂_mapM ?_ hy
  rintro _ hd first s next hs d rfl
  obtain ⟨c, hc, rfl⟩ := yields_typeDecl_class.1 hs
  have hreceivers := receiversFit_of_parseSource ha.parsed hd
  have hallotted := program_allotted ht hw hn hfaults hd
  rw [← harena] at hallotted
  exact ⟨c, rfl, class_slots hreceivers hallotted hc⟩

/-- Parameters, a variable in a switch, and an entry point with variables in a loop. -/
def crowdedMethod : String :=
  "class A { int f(int a, int b) { switch (a) { case 1: int c = b; } return a; } } " ++
    "class B { public static void main(String[] s) { for (int i = 1; i < 2; i = 3) { int e; } } }"

theorem crowdedMethod_slots : ∃ program analysis sections,
    Accepted crowdedMethod program analysis sections ∧
    List.Forall₂ (fun decl s => ∀ d, decl = .class_ d → ∃ c, s = .class_ c ∧
        ClassSlots (classEnv (.outermost analysis.table analysis.arena) d) d c)
      program.declarations sections := by
  have hok : (compile crowdedMethod).isOk = true := by
    rw [compile, parseSource, tokenize_ofList (s := crowdedMethod) (Source.append_ofList rfl rfl)]
    decide +kernel
  obtain ⟨text, h⟩ := exists_ok_of_isOk hok
  obtain ⟨program, analysis, sections, ha, -, hslots⟩ := compiled_slots h
  exact ⟨program, analysis, sections, ha, hslots⟩

end Lowering

end Javelet
