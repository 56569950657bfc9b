import Javelet.Proofs.Lowering.Avoids
import Javelet.Proofs.Lowering.Linkage
import Javelet.Proofs.Lowering.ReceiverLoads
import Javelet.Proofs.Lowering.Slots
import Javelet.Proofs.Scope.Within

/-!
# What the analysis rules out

The lowering looks up again what the stages before it have found: types, variables, the slots of
switches, the targets of jumps and the values of labels. In a program that has been read, and whose
types and names are in order, all of it is there. And in the entry point, which has no receiver,
nothing needs one: slot 0 holds its parameter, and the instruction that would load a receiver loads
this parameter wherever it stands.
-/
namespace Javelet

namespace Lowering

open Assembly Scope Javelet.Types

/-! ## Visits -/

variable {a : Arena} {last r final : Scope.Resolved} {v : Scope.Visit} {g : Visit}
  {ctx : Context} {env : Env} {name : String}

/-- The lowering takes a name for what the walk takes it for, or for a variable. -/
theorem entity?_of_meets (hl : Final last a) (hm : Meets a last v g)
    (hname : v.place.name? = some name) :
    g.env.entity? name = v.ctx.entity? v.state.arena name ∨
      ∃ slot, g.env.entity? name = some (.slot slot) := by
  rcases lookup_finished hl hm.filled hm.aligned.visible.lt name with hsame | ⟨ty, slot, hfound, -⟩
  · exact .inl (entity?_of_lookup hm hname hsame)
  · refine .inr ⟨slot, ?_⟩
    rw [Env.entity?, local?_eq, hm.aligned.arena, hm.aligned.scope, hfound]
    rfl

/-- What is looked up at a place without faults is there. -/
theorem resolved_of_meets (hl : Final last a) (hm : Meets a last v g) : g.Resolved := by
  refine ⟨?_, ?_, ?_⟩
  · intro n hn
    rw [hm.place] at hn
    obtain ⟨e, he⟩ := exists_entity hm.settled hn
    rcases entity?_of_meets hl hm hn with hsame | ⟨slot, hslot⟩
    · exact ⟨e, hsame.trans he⟩
    · exact ⟨.slot slot, hslot⟩
  · intro x hx
    have hsettled := hm.settled
    rw [Settled, ← hm.place, hx] at hsettled
    have hfound := Arena.lookup_of_lookupLocal hsettled
    rw [← hm.aligned.arena, ← hm.aligned.scope] at hfound
    exact ⟨⟨v.state.nextSlot, x.type⟩, by rw [local?_eq, hfound]; rfl⟩
  · intro p id e cases default_ hswitch
    have hsettled := hm.settled
    rw [Settled, ← hm.place, hswitch] at hsettled
    exact ⟨v.state.nextSlot, hm.aligned.arena ▸ hsettled⟩

/-- The head of a chain that stands at a place without faults. -/
theorem headFault_of_settled (hs : Settled a v) {h : Head} (hh : v.place.head? = some h) :
    v.ctx.headFault v.state.arena h = none := by
  have hchain : ∃ c : Chain, c.head = h ∧ chainFaults v.ctx v.state.arena c = [] := by
    obtain ⟨place, ctx, r⟩ := v
    unfold Place.head? at hh
    split at hh
    · rename_i c hplace
      cases hplace
      have hexpr : exprFaults ctx r.arena (.access c) = [] := hs
      rw [exprFaults] at hexpr
      exact ⟨c, Option.some.inj hh, hexpr⟩
    · rename_i c hplace
      cases hplace
      exact ⟨c, Option.some.inj hh, hs⟩
    · cases hh
  obtain ⟨c, rfl, hfaults⟩ := hchain
  rw [chainFaults_eq, List.append_eq_nil_iff, faultAt, List.map_eq_nil_iff] at hfaults
  exact Option.toList_eq_nil_iff.1 hfaults.1

/-- The name that stands at a place is the head of a chain there. -/
theorem head?_of_name? {place : Place} (h : place.name? = some name) :
    ∃ p, place.head? = some (.name p name) := by
  rcases Place.name?_eq_some h with ⟨p, ls, rfl⟩ | ⟨p, ls, rfl⟩
  · exact ⟨p, rfl⟩
  · exact ⟨p, rfl⟩

/-- Where there is no receiver, a place without faults needs none. -/
theorem receiverless_of_meets (hl : Final last a) (hm : Meets a last v g)
    (hstatic : v.ctx.isStatic = true) : g.Receiverless := by
  have hinstance : ∀ use, v.ctx.instanceFault use ≠ none := by
    intro use
    rw [Context.instanceFault, if_pos hstatic]
    exact Option.some_ne_none _
  refine ⟨?_, ?_⟩
  · intro h hh
    rw [hm.place] at hh
    have hnone := headFault_of_settled hm.settled hh
    cases h with
    | name p n => exact ⟨p, n, rfl⟩
    | this p => exact (hinstance _ hnone).elim
    | call p n args =>
      rw [Context.headFault] at hnone
      split at hnone
      · cases hnone
      · exact (hinstance _ hnone).elim
  · intro n owner hn hproperty
    rw [hm.place] at hn
    obtain ⟨p, hhead⟩ := head?_of_name? hn
    obtain ⟨e, he, hreceiver⟩ :=
      Context.nameFault_eq_none_iff.1 (headFault_of_settled hm.settled hhead)
    rcases entity?_of_meets hl hm hn with hsame | ⟨slot, hslot⟩
    · have heq : e = .property owner := Option.some.inj (he.symm.trans (hsame.symm.trans hproperty))
      cases hstatic.symm.trans (hreceiver owner heq)
    · cases hslot.symm.trans hproperty

/-! ## Methods -/

/-- What is known of a method in front of its lowering: whatever is looked up in it is there, and
if it has no receiver, nothing in it needs one and slot 0 holds its parameter. -/
structure Provided (env : Env) (m : Method) : Prop where
  resolved : ∀ g ∈ (env.enter m.signature.id).blockVisits m.body, g.Resolved
  receiverless : m.signature.isStatic = true →
    ∀ g ∈ (env.enter m.signature.id).blockVisits m.body, g.Receiverless
  first : m.signature.isStatic = true → ∀ p, m.signature.params = [p] →
    ∀ g ∈ (env.enter m.signature.id).blockVisits m.body, ∀ n l, g.env.local? n = some l →
      l.slot = 0 → n = p.name ∧ l.type = p.type

/-- The passes meet in the body of a method. -/
theorem body_meets {d : ClassDecl} {m : Method} {start : Scope.Resolved}
    (h : Tracks a start last (Resolved.methodTour ctx d r m) (env.methodTour d m)) :
    List.Forall₂ (Meets a last)
      ((Resolved.atBody ctx r m).statementVisits (Resolved.bodyContext ctx r m) m.body.statements)
      ((env.enter m.signature.id).blockVisits m.body) := by
  have hmeets := h.meets
  rw [Resolved.methodTour, Env.methodTour] at hmeets
  have hlength := hmeets.length_eq
  rw [List.length_append, List.length_append] at hlength
  have hbody := List.forall₂_take_append _ _ _ hmeets
  rwa [List.take_left' (Nat.add_right_cancel hlength)] at hbody

/-- A variable that is found from a place in a method is held in its slot. -/
theorem held_of_local? {d : ClassDecl} {m : Method} (hw : m.WellNamed) (hn : m.nodes.Nodup)
    (hc : Closed r m.nodes) (hb : Bare ctx.Known r ctx.scope)
    (h : Tracks a (Resolved.atBody ctx r m) (Resolved.behindBody ctx r m)
      (Resolved.methodTour ctx d r m) (env.methodTour d m))
    (hg : g ∈ (env.enter m.signature.id).blockVisits m.body) {l : Local}
    (hl : g.env.local? name = some l) :
    Held m (Resolved.methodTour ctx d r m).visits l.slot name l.type := by
  obtain ⟨v, hv, hm⟩ := exists_of_mem_right (body_meets h) hg
  have hfound := lookup_of_local? hl
  rw [hm.aligned.arena, hm.aligned.scope,
    lookup_of_final h.final hm.filled hm.aligned.visible.lt] at hfound
  exact held_of_lookup hw.signature hb hc h.handed (@Resolved.walked_body ctx r m hw hn hc).toFilled
    ((body_stays ctx hc).visits v hv).scope hfound

theorem method_provided {d : ClassDecl} {m : Method} (hw : m.WellNamed) (hn : m.nodes.Nodup)
    (hc : Closed r m.nodes) (hb : Bare ctx.Known r ctx.scope)
    (ha : ClassAligned final.arena d ctx env)
    (hlast : Completed m.nodes (Resolved.method ctx r m) final) : Provided env m := by
  have ht := methodTour_tracks hw hn hc hb ha hlast
  refine ⟨?_, ?_, ?_⟩
  · intro g hg
    obtain ⟨v, -, hm⟩ := exists_of_mem_right (body_meets ht) hg
    exact resolved_of_meets ht.final hm
  · intro hstatic g hg
    obtain ⟨v, hv, hm⟩ := exists_of_mem_right (body_meets ht) hg
    have hinstance := ((body_stays ctx hc).visits v hv).isStatic.trans hstatic
    exact receiverless_of_meets ht.final hm hinstance
  · intro hstatic p hparams g hg n l hl hslot
    obtain ⟨hnext, -⟩ := params_atBody hw.signature ht.handed.faults
    have hparam : m.signature.params[0]? = some p := by rw [hparams, List.getElem?_cons_zero]
    refine (held_of_local? hw hn hc hb ht hg hl).unique ht.handed hnext (.param hparam) ?_
    rw [hslot, if_pos hstatic]

/-! ## Classes -/

/-- What is known of a class in front of its lowering. -/
structure ClassProvided (env : Env) (d : ClassDecl) : Prop where
  methods : ∀ m ∈ d.members, Provided env m
  values : env.Resolves (d.values.flatMap Expr.places)

theorem class_provided {table : Types.Table} {d : ClassDecl} (ht : table.WellNamed)
    (hw : d.WellNamed) (hn : d.nodes.Nodup) (hc : Closed r d.nodes)
    (hb : Bare (fun _ e => e.meaning = .type) r Arena.root)
    (hlast : Completed d.nodes (Resolved.class_ table r d) final) :
    ClassProvided (classEnv (.outermost table final.arena) d) d := by
  have ha := class_aligned ht hw hn hc hlast
  refine ⟨forall_members hw hn hc hb hlast ?_, ?_⟩
  · exact fun m hm r' hn hc hb hlast _ => method_provided (hw.methods m hm) hn hc hb ha hlast
  · obtain ⟨rest, hgrown, -⟩ := grown_behindMembers hw hn hc hlast
    have hl := hgrown.final hlast.faults
    intro g hg
    obtain ⟨v, -, hm⟩ := exists_of_mem_right (values_meet ha hl (bare_atClass hb) (.refl _)) hg
    exact resolved_of_meets hl hm

theorem program_provided {program : Program} {table : Types.Table} (ht : table.WellNamed)
    (hw : program.WellNamed) (hn : program.nodes.Nodup)
    (hf : (resolve program table).faults = #[]) :
    ∀ d, .class_ d ∈ program.declarations →
      ClassProvided (classEnv (.outermost table (resolve program table).arena) d) d :=
  forall_classes hw hn hf fun _ hd _ hn hc hb hlast _ => class_provided ht (hw _ hd) hn hc hb hlast

/-! ## The entry point -/

/-- Whether the parameter in slot 0 is read at a visit. -/
def Visit.readsParameter (p : Parameter) (g : Visit) : Bool :=
  decide (g.place.loaded? = some p.name ∧ g.env.local? p.name = some ⟨0, p.type⟩)

/-- The code of an entry point: nothing in it needs a receiver, and the instruction that would load
one stands in it once for each place at which the parameter is read, and nowhere else. -/
def EntryCode (env : Env) (m : Method) (mc : MethodCode) : Prop :=
  ∃ p, m.signature.params = [p] ∧ p.type = .arrayOf .string ∧
    (∀ g ∈ (env.enter m.signature.id).blockVisits m.body, g.Receiverless) ∧
    (readings some mc.code).count .loadThis =
      ((env.enter m.signature.id).blockVisits m.body).countP (Visit.readsParameter p)

/-- What is loaded from slot 0 of an entry point is its parameter. -/
theorem loadsFirst_eq {p : Parameter} (hp : p.type = .arrayOf .string)
    (h : ∀ n l, g.env.local? n = some l → l.slot = 0 → n = p.name ∧ l.type = p.type) :
    g.loadsFirst = g.readsParameter p := by
  rw [Bool.eq_iff_iff, Visit.readsParameter, decide_eq_true_iff, Visit.loadsFirst,
    Option.any_eq_true]
  constructor
  · rintro ⟨l, hl, hfirst⟩
    obtain ⟨n, hn, hlocal⟩ := Option.bind_eq_some_iff.1 hl
    have hload : l.load = .loadThis := of_decide_eq_true hfirst
    injection hload with hcell hslot
    obtain ⟨rfl, htype⟩ := h n l hlocal hslot
    obtain ⟨slot, ty⟩ := l
    cases hslot
    cases htype
    exact ⟨hn, hlocal⟩
  · rintro ⟨hn, hlocal⟩
    refine ⟨_, Option.bind_eq_some_iff.2 ⟨_, hn, hlocal⟩, ?_⟩
    rw [Local.isFirst, hp]
    decide

variable {first next : Label}

theorem methodCode_entry {header : Header} {m : Method} {mc : MethodCode} {p : Parameter}
    (h : Provided env m) (hstatic : m.signature.isStatic = true)
    (hparams : m.signature.params = [p]) (hp : p.type = .arrayOf .string)
    (hy : Yields (methodCode env header [] m) first mc next) : EntryCode env m mc := by
  obtain ⟨body, hbody, rfl⟩ := yields_methodCode.1 hy
  have hreceiverless := h.receiverless hstatic
  refine ⟨p, hparams, hp, hreceiverless, ?_⟩
  rw [List.nil_append, body_counted hbody hreceiverless]
  exact List.countP_congr fun g hg => by rw [loadsFirst_eq hp (h.first hstatic p hparams g hg)]

/-- What has no receiver in the section of a class is the code of its entry point. -/
structure EntryPoint (env : Env) (d : ClassDecl) (c : ClassSection) : Prop where
  only : ∀ mc ∈ c.methods, mc.header.isStatic = true → ∃ m ∈ d.main, EntryCode env m mc
  code : ∀ m ∈ d.main, ∃ mc ∈ c.methods, mc.header.isStatic = true ∧ EntryCode env m mc

theorem isStatic_header {m : Method} {mc : MethodCode} (h : Yields (method env m) first mc next) :
    mc.header.isStatic = m.signature.isStatic := by
  obtain ⟨body, -, rfl⟩ := yields_methodCode.1 h
  rw [Signature.isStatic]
  cases m.signature.kind <;> rfl

theorem isStatic_constructor {superclass : String} {properties : List Property} {m : Method}
    {mc : MethodCode} (h : Yields (constructor env superclass properties m) first mc next) :
    mc.header.isStatic = false := by
  obtain ⟨before, middle, -, hy⟩ := yields_constructor.1 h
  obtain ⟨body, -, rfl⟩ := yields_methodCode.1 hy
  rfl

theorem main_entry {d : ClassDecl} {m : Method} {mc : MethodCode} (hfit : d.MembersFit)
    (hm : m ∈ d.main) (h : Provided env m) (hy : Yields (method env m) first mc next) :
    EntryCode env m mc := by
  obtain ⟨hkind, -, htypes, -⟩ := hfit.main m hm
  obtain ⟨p, hparams, hp⟩ := List.map_eq_singleton_iff.1 htypes
  exact methodCode_entry h (by rw [Signature.isStatic, hkind]; rfl) hparams hp hy

theorem class_entryPoint {d : ClassDecl} {c : ClassSection} (hfit : d.MembersFit)
    (h : ClassProvided (classEnv env d) d) (hy : Yields (class_ env d) first c next) :
    EntryPoint (classEnv env d) d c := by
  obtain ⟨constructors, methods, default_, middle, middle', hc, hm, hdefault, hall, -⟩ :=
    yields_class hy
  have hmain : ∀ m ∈ d.main, m ∈ d.members :=
    fun m hm => List.mem_append_right _ (Option.mem_toList.2 hm)
  refine ⟨?_, ?_⟩
  · intro mc hmc hstatic
    rw [hall, List.mem_append, List.mem_append] at hmc
    rcases hmc with (hmc | hmc) | hmc
    · obtain ⟨m, -, _, _, hy⟩ := yields_mapM_of_mem hc hmc
      cases hstatic.symm.trans (isStatic_constructor hy)
    · obtain ⟨m, hmem, _, _, hy⟩ := yields_mapM_of_mem hm hmc
      rcases List.mem_append.1 hmem with hmem | hmem
      · have hinstance : m.signature.isStatic = false := by
          rw [Signature.isStatic, hfit.methods m hmem]
          rfl
        cases hstatic.symm.trans ((isStatic_header hy).trans hinstance)
      · have hmem' := Option.mem_toList.1 hmem
        exact ⟨m, hmem', main_entry hfit hmem' (h.methods m (hmain m hmem')) hy⟩
    · rcases hdefault with ⟨-, mc', rfl, hy⟩ | ⟨-, rfl, -⟩
      · obtain rfl := List.mem_singleton.1 hmc
        simp only [defaultConstructor, yields_bind, yields_pure] at hy
        obtain ⟨before, _, -, rfl, -⟩ := hy
        cases hstatic
      · cases hmc
  · intro m hmem
    have hmem' : m ∈ d.methods ++ d.main.toList :=
      List.mem_append_right _ (Option.mem_toList.2 hmem)
    obtain ⟨mc, hmc, _, _, hy⟩ := yields_mapM_of_mem_source hm hmem'
    refine ⟨mc, ?_, ?_, main_entry hfit hmem (h.methods m (hmain m hmem)) hy⟩
    · rw [hall]
      exact List.mem_append_left _ (List.mem_append_right _ hmc)
    · rw [isStatic_header hy, Signature.isStatic, (hfit.main m hmem).1]
      rfl

/-! ## Analyzed programs -/

theorem program_avoids {program : Program} {analysis : Analysis}
    (hanalyze : analyze program = .ok analysis)
    (hfits : ∀ d, .class_ d ∈ program.declarations → ∀ m ∈ d.members, m.body.Fits .none)
    (h : ∀ d, .class_ d ∈ program.declarations →
      ClassProvided (classEnv (.outermost analysis.table analysis.arena) d) d) :
    ∀ l, Lowering.program analysis.table analysis.arena program = .error l →
      l.fault.isRuledOut = false := by
  have htypes := declares_of_analyze hanalyze
  have havoids : Avoids (program.declarations.mapM
      (typeDecl (.outermost analysis.table analysis.arena))) := by
    refine .mapM fun decl hd => ?_
    cases decl with
    | interface d => exact .pure
    | class_ d =>
      have hprovided := h d hd
      have hinfo := Table.lookup_eq_ok.2 (htypes.own _ hd)
      exact .map (class_avoids hinfo (hfits d hd)
        (fun m hm => (hprovided.methods m hm).resolved) hprovided.values)
  intro l hl
  rw [Lowering.program, StateT.run'_eq] at hl
  cases hrun : (program.declarations.mapM
      (typeDecl (.outermost analysis.table analysis.arena))).run 0 with
  | error l' =>
    rw [hrun] at hl
    cases hl
    exact havoids 0 l hrun
  | ok r =>
    rw [hrun] at hl
    cases hl

/-- In a program that has been read and analyzed, the lowering stops with no fault that the stages
before it rule out. If it does not stop, the section of each class has code without a receiver for
its entry point alone: nothing there needs a receiver, and each instruction that would load one
reads the parameter. -/
theorem analyzed_avoids_fallbacks {source : String} {program : Program} {analysis : Analysis}
    (hparse : parseSource source = .ok program) (hanalyze : analyze program = .ok analysis) :
    (∀ l, Lowering.program analysis.table analysis.arena program = .error l →
      l.fault.isRuledOut = false) ∧
    ∀ sections, Lowering.program analysis.table analysis.arena program = .ok sections →
      List.Forall₂ (fun decl s => ∀ d, decl = .class_ d → ∃ c, s = .class_ c ∧
          EntryPoint (classEnv (.outermost analysis.table analysis.arena) d) d c)
        program.declarations sections := by
  obtain ⟨hw, hn⟩ := wellNamed_of_parseSource hparse
  obtain ⟨ts, -, hts⟩ := parseSource_eq_ok_iff.1 hparse
  obtain ⟨htable, harena, hfaults⟩ := analyze_eq_ok hanalyze
  have ht : analysis.table.WellNamed := htable ▸ Types.wellNamed_collect hw
  have hprovided := program_provided ht hw hn hfaults
  rw [← harena] at hprovided
  refine ⟨program_avoids hanalyze (fun d hd => parse_fits hts hd) hprovided, ?_⟩
  intro sections hsections
  obtain ⟨next, hy⟩ := yields_program hsections
  refine forall₂_mapM ?_ hy
  rintro _ hd first s next hs d rfl
  obtain ⟨c, hc, rfl⟩ := yields_typeDecl_class.1 hs
  exact ⟨c, rfl, class_entryPoint (parse_membersFit hts _ hd) (hprovided d hd) hc⟩

/-- An entry point that reads its parameter in a loop and in a switch, with jumps out of both. -/
def guardedEntry : String :=
  "class A \x7b int x = 1; public static void main(String[] a) \x7b while (true) \x7b " ++
    "String[] b = a; switch (b.length) " ++
    "{ case 1: System.out.println(a[0]); break; default: continue; } \x7d \x7d \x7d"

theorem guardedEntry_avoids_fallbacks : ∃ program analysis sections,
    parseSource guardedEntry = .ok program ∧ analyze program = .ok analysis ∧
    Lowering.program analysis.table analysis.arena program = .ok sections ∧
    (∀ l, Lowering.program analysis.table analysis.arena program = .error l →
      l.fault.isRuledOut = false) ∧
    List.Forall₂ (fun decl s => ∀ d, decl = .class_ d → ∃ c, s = .class_ c ∧
        EntryPoint (classEnv (.outermost analysis.table analysis.arena) d) d c)
      program.declarations sections := by
  have hok : (compile guardedEntry).isOk = true := by
    rw [compile, parseSource, tokenize_ofList (s := guardedEntry)
      (Source.append_ofList (Source.append_ofList rfl rfl) rfl)]
    decide +kernel
  obtain ⟨text, h⟩ := exists_ok_of_isOk hok
  obtain ⟨program, analysis, sections, ha, -⟩ := compile_eq_ok_iff.1 h
  obtain ⟨havoids, hentry⟩ := analyzed_avoids_fallbacks ha.parsed ha.analyzed
  exact ⟨program, analysis, sections, ha.parsed, ha.analyzed, ha.lowered, havoids,
    hentry sections ha.lowered⟩

end Lowering

end Javelet
