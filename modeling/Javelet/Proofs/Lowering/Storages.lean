import Javelet.Proofs.Lowering.Gate
import Javelet.Proofs.Lowering.Kinds

/-!
# The storages of a program

A method keeps each of its variables in a slot of its own, and an object keeps each property under
its name and its owner. So there is a storage in which everything that can be named in the method is
of the kind of its type, and in any such storage the code of every expression in the method is in
order.
-/
namespace Javelet

/-! ## Expressions at places -/

theorem Expr.WellNamed.parts {e : Expr} (h : e.WellNamed) : ∀ part ∈ e.parts, part.WellNamed := by
  induction h with
  | literal =>
    rw [Expr.parts]
    exact List.forall_mem_singleton.2 .literal
  | binary hl hr ihl ihr =>
    rw [Expr.parts]
    exact List.forall_mem_cons.2 ⟨.binary hl hr, List.forall_mem_append.2 ⟨ihl, ihr⟩⟩
  | access hh hl ihh ihl =>
    rw [Expr.parts, Chain.parts_eq, Chain.operands, List.forall_mem_cons, List.forall_mem_flatMap]
    refine ⟨.access hh hl, List.forall_mem_append.2 ⟨ihh, ?_⟩⟩
    exact List.forall_mem_flatMap.2 ihl
  | newObject hargs ih =>
    rw [Expr.parts, exprParts_eq, List.forall_mem_cons, List.forall_mem_flatMap]
    exact ⟨.newObject hargs, ih⟩
  | newArray helement hlength ih =>
    rw [Expr.parts]
    exact List.forall_mem_cons.2 ⟨.newArray helement hlength, ih⟩

/-- The expressions among some places are well-named. -/
def ExprsNamed (places : List Place) : Prop := ∀ e, Place.expr e ∈ places → e.WellNamed

namespace ExprsNamed

variable {places rest : List Place}

theorem nil : ExprsNamed [] := fun _ he => absurd he List.not_mem_nil

theorem append (h : ExprsNamed places) (h' : ExprsNamed rest) : ExprsNamed (places ++ rest) :=
  fun e he => (List.mem_append.1 he).elim (h e) (h' e)

theorem flatMap {α : Type} {f : α → List Place} {xs : List α}
    (h : ∀ x ∈ xs, ExprsNamed (f x)) : ExprsNamed (xs.flatMap f) := by
  intro e he
  obtain ⟨x, hx, he⟩ := List.mem_flatMap.1 he
  exact h x hx e he

theorem expr {e : Expr} (h : e.WellNamed) : ExprsNamed e.places := by
  intro part hpart
  obtain ⟨part, hmem, heq⟩ := List.mem_map.1 hpart
  cases heq
  exact h.parts part hmem

/-- A place with no expression of its own. -/
theorem cons {place : Place} (hplace : ∀ e, place ≠ .expr e) (h : ExprsNamed places) :
    ExprsNamed (place :: places) := by
  intro e he
  rcases List.mem_cons.1 he with heq | he
  · exact absurd heq.symm (hplace e)
  · exact h e he

theorem chain {c : Chain} (h : c.WellNamed) : ExprsNamed (c.operands.flatMap Expr.places) := by
  refine flatMap fun e he => ?_
  cases h with
  | access hh hl =>
    rcases List.mem_append.1 he with he | he
    · exact expr (hh e he)
    · obtain ⟨l, hmem, he⟩ := List.mem_flatMap.1 he
      exact expr (hl l hmem e he)

theorem action {a : Action} (h : a.WellNamed) : ExprsNamed a.places := by
  cases a with
  | assignment a =>
    rw [Action.places, List.flatMap_append, List.flatMap_singleton]
    have hplace : ∀ e, Place.target a.target ≠ .expr e := fun _ heq => by cases heq
    exact cons hplace ((chain h.target).append (expr h.value))
  | call c => exact expr h

theorem own {s : Statement} (h : s.WellNamed) : ExprsNamed s.own := by
  refine cons nofun ?_
  cases h with
  | block => exact nil
  | conditional he => exact expr he
  | whileLoop he => exact expr he
  | forLoop => exact nil
  | switch he => exact expr he
  | @jump p j hj =>
    match j with
    | .return_ (some e) => exact expr (hj e rfl)
    | .return_ none => exact nil
    | .break_ => exact nil
    | .continue_ => exact nil
  | action ha => exact action ha
  | declaration hv => exact flatMap fun e he => expr (hv.value e (Option.mem_toList.1 he))

end ExprsNamed

theorem ForInit.WellNamed.asStatement {i : ForInit} (h : i.WellNamed) :
    i.asStatement.WellNamed := by
  cases i with
  | declaration v => exact .declaration h
  | assignment a => exact .action h

theorem exprsNamed_statements {ss : List Statement} (h : ∀ s ∈ ss, ExprsNamed s.places) :
    ExprsNamed (statementPlaces ss) := by
  induction ss with
  | nil =>
    rw [statementPlaces]
    exact .nil
  | cons s ss ih =>
    rw [List.forall_mem_cons] at h
    rw [statementPlaces]
    exact h.1.append (ih h.2)

theorem exprsNamed_block {b : Block} (h : ∀ s ∈ b.statements, ExprsNamed s.places) :
    ExprsNamed b.places := by
  obtain ⟨id, p, ss⟩ := b
  rw [Block.places]
  exact exprsNamed_statements h

theorem exprsNamed_cases {cases : List Case}
    (h : ∀ c ∈ cases, ∀ s ∈ (Case.body c).statements, ExprsNamed s.places) :
    ExprsNamed (casePlaces cases) := by
  induction cases with
  | nil =>
    rw [casePlaces]
    exact .nil
  | cons c cases ih =>
    obtain ⟨p, q, l, b⟩ := c
    rw [List.forall_mem_cons] at h
    rw [casePlaces]
    exact (exprsNamed_block h.1).append (ih h.2)

/-- The expressions in a well-named statement are well-named. -/
theorem Statement.WellNamed.exprsNamed {s : Statement} (h : s.WellNamed) : ExprsNamed s.places := by
  induction h with
  | block hb ih =>
    rw [Statement.places]
    exact (ExprsNamed.own (.block hb)).append (exprsNamed_block ih)
  | @conditional p e body otherwise he hbody hother ihbody ihother =>
    rw [Statement.places]
    refine (ExprsNamed.own (.conditional he hbody hother)).append (ihbody.append ?_)
    cases otherwise with
    | none =>
      rw [otherwisePlaces]
      exact .nil
    | some s =>
      rw [otherwisePlaces]
      exact ihother s rfl
  | whileLoop he hbody ih =>
    rw [Statement.places]
    exact (ExprsNamed.own (.whileLoop he hbody)).append ih
  | forLoop hinit he hupdate hbody ih =>
    rw [Statement.places]
    refine (ExprsNamed.own (.forLoop hinit he hupdate hbody)).append (.append ?_ (.append ?_
      (.append ?_ ih)))
    · exact .flatMap fun i hi => .own (hinit i (Option.mem_toList.1 hi)).asStatement
    · exact .flatMap fun e he' => .expr (he e (Option.mem_toList.1 he'))
    · exact .flatMap fun a ha => .own (.action (hupdate a (Option.mem_toList.1 ha)))
  | @switch p id e cases default_ he hcases hdefault ihcases ihdefault =>
    rw [Statement.places]
    refine (ExprsNamed.own (.switch he hcases hdefault)).append
      ((exprsNamed_cases ihcases).append ?_)
    cases default_ with
    | none =>
      rw [defaultPlaces]
      exact .nil
    | some b =>
      rw [defaultPlaces]
      exact exprsNamed_block (ihdefault b rfl)
  | jump hj =>
    rw [Statement.places]
    exact .own (.jump hj)
  | action ha =>
    rw [Statement.places]
    exact .own (.action ha)
  | declaration hv =>
    rw [Statement.places]
    exact .own (.declaration hv)

/-- The expressions in a well-named class are well-named. -/
theorem ClassDecl.WellNamed.exprsNamed {d : ClassDecl} (h : d.WellNamed) :
    ∀ t ∈ d.tours, ExprsNamed t.visits := by
  have hboundary : ExprsNamed [.boundary d] := .cons nofun .nil
  intro t ht
  rcases List.mem_cons.1 ht with rfl | ht
  · refine .append (.flatMap fun e he => .expr ?_) hboundary
    obtain ⟨p, hp, hvalue⟩ := List.mem_filterMap.1 he
    exact (h.properties p hp).variable_.value e hvalue
  · obtain ⟨m, hm, rfl⟩ := List.mem_map.1 ht
    exact (exprsNamed_block fun s hs => ((h.methods m hm).body s hs).exprsNamed).append hboundary

namespace Types

theorem category_ofDecl (d : TypeDecl) : (TypeInfo.ofDecl d).category ≠ .primitive := by
  cases d with
  | interface d =>
    rw [TypeInfo.ofDecl, TypeInfo.ofInterface, putMethods_eq]
    intro heq
    cases heq
  | class_ d =>
    have hdeclared : (TypeInfo.declaredClass d).category = .class_ := by
      rw [TypeInfo.declaredClass, putMethods_eq, putProperties_eq]
    rw [TypeInfo.ofDecl, TypeInfo.ofClass]
    split
    · rw [hdeclared]
      intro heq
      cases heq
    · show (TypeInfo.declaredClass d).category ≠ .primitive
      rw [hdeclared]
      intro heq
      cases heq

/-- The declared names are not built in. -/
theorem Declares.free {p : Program} {t : Table} (h : Declares p t) (ht : t.Layered) :
    ∀ d ∈ p.declarations, d.name ∉ builtins := by
  intro d hd hbuiltin
  obtain ⟨info, hfind, hprimitive⟩ := ht.builtin _ hbuiltin
  cases (h.own d hd).symm.trans hfind
  exact category_ofDecl d hprimitive

end Types

namespace Lowering

open Assembly Scope

/-! ## Surroundings at visits -/

/-- The same surroundings, in a scope that may be another one. -/
def Env.Around (env inner : Env) : Prop := ∃ scope, inner = { env with scope := scope }

theorem Env.Around.refl (env : Env) : env.Around env := ⟨env.scope, rfl⟩

theorem Env.Around.enter {env inner : Env} (h : env.Around inner) (node : NodeId) :
    env.Around (inner.enter node) := by
  obtain ⟨scope, rfl⟩ := h
  exact ⟨_, rfl⟩

section Visits

variable {outer : Env}

theorem around_seen {env : Env} (h : outer.Around env) (places : List Place) :
    ∀ g ∈ env.seen places, outer.Around g.env := by
  intro g hg
  obtain ⟨place, -, rfl⟩ := List.mem_map.1 hg
  exact h

mutual

/-- A statement is visited in the surroundings that it stands in. -/
theorem around_visits {env : Env} (h : outer.Around env) (s : Statement) :
    ∀ g ∈ env.visits s, outer.Around g.env := by
  match s with
  | .block b =>
    rw [Env.visits]
    exact List.forall_mem_append.2 ⟨around_seen h _, around_blockVisits h b⟩
  | .conditional p e body otherwise =>
    rw [Env.visits]
    exact List.forall_mem_append.2 ⟨around_seen h _,
      List.forall_mem_append.2 ⟨around_visits h body, around_otherwiseVisits h otherwise⟩⟩
  | .whileLoop p e body =>
    rw [Env.visits]
    exact List.forall_mem_append.2 ⟨around_seen h _, around_visits h body⟩
  | .forLoop p id init e update body =>
    have hinner := h.enter id
    rw [Env.visits]
    simp only [List.forall_mem_append]
    exact ⟨around_seen h _, around_seen hinner _, around_seen hinner _, around_seen hinner _,
      around_visits hinner body⟩
  | .switch p id e cases default_ =>
    rw [Env.visits]
    exact List.forall_mem_append.2 ⟨around_seen h _,
      List.forall_mem_append.2 ⟨around_caseVisits h cases, around_defaultVisits h default_⟩⟩
  | .jump p j =>
    rw [Env.visits]
    exact around_seen h _
  | .action a =>
    rw [Env.visits]
    exact around_seen h _
  | .declaration v =>
    rw [Env.visits]
    exact around_seen h _

theorem around_otherwiseVisits {env : Env} (h : outer.Around env) (s : Option Statement) :
    ∀ g ∈ env.otherwiseVisits s, outer.Around g.env := by
  match s with
  | none =>
    rw [Env.otherwiseVisits]
    exact List.forall_mem_nil _
  | some s =>
    rw [Env.otherwiseVisits]
    exact around_visits h s

theorem around_statementVisits {env : Env} (h : outer.Around env) (ss : List Statement) :
    ∀ g ∈ env.statementVisits ss, outer.Around g.env := by
  match ss with
  | [] =>
    rw [Env.statementVisits]
    exact List.forall_mem_nil _
  | s :: rest =>
    rw [Env.statementVisits]
    exact List.forall_mem_append.2 ⟨around_visits h s, around_statementVisits h rest⟩

theorem around_blockVisits {env : Env} (h : outer.Around env) (b : Block) :
    ∀ g ∈ env.blockVisits b, outer.Around g.env := by
  match b with
  | .mk id p body =>
    rw [Env.blockVisits]
    exact around_statementVisits (h.enter id) body

theorem around_caseVisits {env : Env} (h : outer.Around env) (cases : List Case) :
    ∀ g ∈ env.caseVisits cases, outer.Around g.env := by
  match cases with
  | [] =>
    rw [Env.caseVisits]
    exact List.forall_mem_nil _
  | .mk _ _ _ body :: rest =>
    rw [Env.caseVisits]
    exact List.forall_mem_append.2 ⟨around_blockVisits h body, around_caseVisits h rest⟩

theorem around_defaultVisits {env : Env} (h : outer.Around env) (b : Option Block) :
    ∀ g ∈ env.defaultVisits b, outer.Around g.env := by
  match b with
  | none =>
    rw [Env.defaultVisits]
    exact List.forall_mem_nil _
  | some b =>
    rw [Env.defaultVisits]
    exact around_blockVisits h b

end

/-- The visits of the tours over a class are made in the surroundings of its members. -/
theorem around_distinctTours (env : Env) (d : ClassDecl) :
    ∀ t ∈ env.distinctTours d, ∀ g ∈ t.visits, env.Around g.env := by
  intro t ht
  rcases List.mem_cons.1 ht with rfl | ht
  · exact around_seen (.refl env) _
  · obtain ⟨m, -, rfl⟩ := List.mem_map.1 ht
    exact List.forall_mem_append.2 ⟨around_blockVisits ((Env.Around.refl env).enter _) m.body,
      List.forall_mem_singleton.2 (.refl env)⟩

end Visits

/-- In an analyzed program the classes are classes of objects. -/
theorem objects_classEnv {program : Program} {analysis : Analysis}
    (hanalyze : analyze program = .ok analysis) {d : ClassDecl}
    (hd : .class_ d ∈ program.declarations) :
    (classEnv (.outermost analysis.table analysis.arena) d).Objects := by
  have hdeclares := declares_of_analyze hanalyze
  have hlayered : analysis.table.Layered :=
    (analyze_eq_ok hanalyze).1 ▸ Types.layered_collect program
  have hobject : ∀ d' ∈ program.declarations, Cell.ofTy (.plain d'.name) = .reference := by
    intro d' hd'
    rw [Cell.ofTy, if_neg]
    exact fun hinteger =>
      hdeclares.free hlayered d' hd' (Types.Table.mem_builtins_of_isInteger hinteger)
  refine ⟨hobject _ hd, ?_⟩
  intro name args info h
  obtain ⟨t, hfind, hmem, -⟩ := Types.mem_constructors_of_resolveConstructor h
  rcases hdeclares.cases_find? hfind with ⟨d', hd', rfl, -⟩ | ⟨builtin, rfl⟩
  · exact hobject d' hd'
  · cases hmem

/-! ## What is kept -/

/-- The kind of a property, told by the class that declares it. -/
def fieldCell (t : Types.Table) (owner name : String) : Cell :=
  ((t.find? owner).bind fun info => info.properties.find? name).elim .reference fun p => .ofTy p.type

theorem fieldCell_of_findProperty {t : Types.Table} {className name : String}
    {owner : Types.TypeInfo} {info : Types.PropertyInfo}
    (h : t.findProperty className name = some (owner, info)) :
    fieldCell t owner.name name = .ofTy info.type := by
  obtain ⟨owner', hmem, hfind⟩ := List.exists_of_findSome?_eq_some h
  obtain ⟨p, hp, heq⟩ := Option.map_eq_some_iff.1 hfind
  cases heq
  rw [fieldCell, Types.Table.find?_of_mem_ancestors hmem, Option.bind_some, hp]
  rfl

/-- Surroundings with no variables in them. -/
theorem keptBy_of_bare {env : Env} (h : ∀ name, env.local? name = none) (slots : Nat → Cell)
    (hfirst : slots 0 = .reference) : env.KeptBy ⟨slots, fieldCell env.table⟩ := by
  refine ⟨hfirst, fun name l hl => ?_, fun _ _ _ _ => fieldCell_of_findProperty⟩
  cases (h name).symm.trans hl

section Kept

variable {ctx : Context} {r final : Resolved} {env : Env} {d : ClassDecl} {m : Method}

/-- Slot 0 keeps a reference: to the receiver, or to the arguments of the program. -/
theorem first_held {visits : List Scope.Visit} {r' : Resolved} (hh : Handed r visits r')
    (hstart : r.nextSlot = m.firstSlot + m.signature.params.length) (hfit : d.MembersFit)
    (hm : m ∈ d.members) {name : String} {ty : Ty} (h : Held m visits 0 name ty) :
    Cell.ofTy ty = .reference := by
  rcases List.mem_append.1 hm with hm | hm
  · have hle := h.first_le hh hstart
    rw [hfit.receivers.members m hm] at hle
    exact absurd hle (by decide)
  · have hmain := Option.mem_toList.1 hm
    obtain ⟨p, hparams, htype⟩ := List.map_eq_singleton_iff.1 (hfit.main m hmain).2.2.1
    have hparam : m.signature.params[0]? = some p := by rw [hparams, List.getElem?_cons_zero]
    have hheld : Held m visits _ p.name p.type := .param hparam
    have hzero : (if m.signature.isStatic then 0 else 1) + 0 = 0 := by
      rw [if_pos (hfit.receivers.main m hmain).1]
    rw [(h.unique hh hstart hheld hzero.symm).2, htype]
    rfl

/-- There is a storage for the tour over a method: no slot is needed for two variables. -/
theorem exists_storage_method (hw : m.WellNamed) (hn : m.nodes.Nodup) (hc : Closed r m.nodes)
    (hb : Bare ctx.Known r ctx.scope) (ha : ClassAligned final.arena d ctx env)
    (hlast : Completed m.nodes (Resolved.method ctx r m) final) (hfit : d.MembersFit)
    (hm : m ∈ d.members) (hbare : ∀ name, env.local? name = none) :
    ∃ s : Storage, ∀ g ∈ (env.methodTour d m).visits, g.env.KeptBy s := by
  have ht := methodTour_tracks hw hn hc hb ha hlast
  obtain ⟨hnext, -⟩ := params_atBody hw.signature ht.handed.faults
  have hcell : ∀ slot, ∃ cell, (slot = 0 → cell = .reference) ∧
      ∀ name ty, Held m (Resolved.methodTour ctx d r m).visits slot name ty →
        cell = Cell.ofTy ty := by
    intro slot
    by_cases hheld : ∃ name ty, Held m (Resolved.methodTour ctx d r m).visits slot name ty
    · obtain ⟨name, ty, hheld⟩ := hheld
      refine ⟨.ofTy ty, ?_, ?_⟩
      · rintro rfl
        exact first_held ht.handed hnext hfit hm hheld
      · intro name' ty' hheld'
        rw [(hheld.unique ht.handed hnext hheld' rfl).2]
    · exact ⟨.reference, fun _ => rfl, fun name ty h => absurd ⟨name, ty, h⟩ hheld⟩
  choose slots hfirst hkept using hcell
  refine ⟨⟨slots, fieldCell env.table⟩, ?_⟩
  rw [Env.methodTour, List.forall_mem_append]
  refine ⟨fun g hg => ?_, ?_⟩
  · refine ⟨hfirst 0 rfl, fun name l hl => ?_, fun _ _ _ _ hp => ?_⟩
    · exact hkept l.slot name l.type (held_of_local? hw hn hc hb ht hg hl)
    · obtain ⟨scope, heq⟩ := around_blockVisits ((Env.Around.refl env).enter _) m.body g hg
      rw [heq] at hp
      exact fieldCell_of_findProperty hp
  · exact List.forall_mem_singleton.2 (keptBy_of_bare hbare slots (hfirst 0 rfl))

/-- There is a storage for each tour over a class. -/
theorem exists_storage_class {table : Types.Table} (ht : table.WellNamed) (hw : d.WellNamed)
    (hn : d.nodes.Nodup) (hc : Closed r d.nodes)
    (hb : Bare (fun _ e => e.meaning = .type) r Arena.root)
    (hlast : Completed d.nodes (Resolved.class_ table r d) final) (hfit : d.MembersFit) :
    ∀ t ∈ (classEnv (.outermost table final.arena) d).distinctTours d,
      ∃ s : Storage, ∀ g ∈ t.visits, g.env.KeptBy s := by
  have ha := class_aligned ht hw hn hc hlast
  obtain ⟨rest, hgrown, -⟩ := grown_behindMembers hw hn hc hlast
  have hbare := local?_of_bare ha (hgrown.final hlast.faults) (bare_behindValues hb)
  refine List.forall_mem_cons.2 ⟨?_, List.forall_mem_map.2 ?_⟩
  · refine ⟨⟨fun _ => .reference, fieldCell table⟩, fun g hg => ?_⟩
    obtain ⟨place, -, rfl⟩ := List.mem_map.1 hg
    exact keptBy_of_bare hbare _ rfl
  · refine forall_members hw hn hc hb hlast ?_
    intro m hm r' hn hc hb hlast _
    exact exists_storage_method (hw.methods m hm) hn hc hb ha hlast hfit hm hbare

end Kept

/-! ## Analyzed programs -/

/-- The code of an expression in a class of an analyzed program leaves one cell of the kind of its
type, in any storage that keeps what can be named there. -/
theorem visit_leavesCell {source : String} {program : Program} {analysis : Analysis}
    (hparse : parseSource source = .ok program) (hanalyze : analyze program = .ok analysis)
    {d : ClassDecl} (hd : .class_ d ∈ program.declarations) {t : Tour Visit}
    (ht : t ∈ (classEnv (.outermost analysis.table analysis.arena) d).distinctTours d) {g : Visit}
    (hg : g ∈ t.visits) {e : Expr} (hplace : g.place = .expr e) {s : Storage}
    (hs : g.env.KeptBy s) {targets : List Targets} {first next : Label} {v : Typed}
    (hy : Yields (expr (g.env.aimed targets) e) first v next) :
    LeavesCell s (Assembly.written v.code) (.ofTy v.type) := by
  obtain ⟨hnamed, hnodes⟩ := wellNamed_of_parseSource hparse
  obtain ⟨htable, harena, -⟩ := analyze_eq_ok hanalyze
  have hw : d.WellNamed := hnamed _ hd
  have hmembers : (classEnv (.outermost analysis.table analysis.arena) d).WellNamed :=
    ⟨htable ▸ Types.wellNamed_collect hnamed, harena ▸ Scope.holdsValues_resolve hnamed hnodes _,
      hw.name⟩
  have hobjects := objects_classEnv hanalyze hd
  have he : e.WellNamed := by
    have htour : (⟨t.node, t.visits.map Visit.place⟩ : Tour Place) ∈ d.tours := by
      rw [← map_place_distinctTours (classEnv (.outermost analysis.table analysis.arena) d) d]
      exact List.mem_map.2 ⟨t, ht, rfl⟩
    exact hw.exprsNamed _ htour e (List.mem_map.2 ⟨g, hg, hplace⟩)
  have henv : (g.env.aimed targets).WellNamed ∧ (g.env.aimed targets).Objects := by
    obtain ⟨scope, heq⟩ := around_distinctTours _ d t ht g hg
    rw [heq]
    exact ⟨⟨hmembers.table, hmembers.arena, hmembers.className⟩,
      ⟨hobjects.self, hobjects.created⟩⟩
  have hkept : (g.env.aimed targets).KeptBy s := ⟨hs.first, hs.variable_, hs.property⟩
  obtain ⟨landings, hscan⟩ := expr_kinds henv.1 henv.2 hkept he hy []
  exact hscan.leavesCell (expr_labelled e hy).nodup

/-- The lowering comes to every expression in an analyzed program. Some storage keeps everything that
can be named along a tour, each thing according to its type; and with a storage that keeps what can
be named at the place of an expression, no run through the code of the expression is stuck or touches
the cells below its own, and every run ends with one more cell, of the kind of the type. -/
theorem expressions_leave_kinds {source : String} {program : Program} {analysis : Analysis}
    (hparse : parseSource source = .ok program) (hanalyze : analyze program = .ok analysis) :
    (∀ d, .class_ d ∈ program.declarations → ∀ places ∈ d.tours,
      ∃ t ∈ tours analysis.table analysis.arena program, t.visits.map Visit.place = places.visits) ∧
    ∀ t ∈ tours analysis.table analysis.arena program,
      (∃ s : Storage, ∀ g ∈ t.visits, g.env.KeptBy s) ∧
      ∀ g ∈ t.visits, ∀ e, g.place = .expr e → ∀ s : Storage, g.env.KeptBy s →
        ∀ targets first v next, Yields (expr (g.env.aimed targets) e) first v next →
          LeavesCell s (Assembly.written v.code) (.ofTy v.type) := by
  refine ⟨?_, ?_⟩
  · intro d hd places hplaces
    obtain ⟨t, ht, -, hvisits⟩ := exists_tour hd hplaces
    exact ⟨t, ht, hvisits⟩
  · intro t ht
    obtain ⟨decl, hd, ht⟩ := List.mem_flatMap.1 (mem_tours.1 ht)
    cases decl with
    | interface d => cases ht
    | class_ d =>
      refine ⟨?_, fun g hg e hplace s hs targets first v next hy =>
        visit_leavesCell hparse hanalyze hd ht hg hplace hs hy⟩
      obtain ⟨hw, hn⟩ := wellNamed_of_parseSource hparse
      obtain ⟨ts, -, hts⟩ := parseSource_eq_ok_iff.1 hparse
      obtain ⟨htable, harena, hfaults⟩ := analyze_eq_ok hanalyze
      have hwell : analysis.table.WellNamed := htable ▸ Types.wellNamed_collect hw
      rw [harena] at ht
      exact forall_classes hw hn hfaults (fun d hd r hn hc hb hlast _ =>
        exists_storage_class hwell (hw _ hd) hn hc hb hlast (parse_membersFit hts _ hd)) d hd t ht

/-- Fields, elements and lengths of arrays, and a call that converts its argument. -/
def manyKinds : String :=
  "class B \x7b B next; char[] t; boolean f(int i) \x7b " ++
    "return t.length > i && f(t[i]) || next == null; \x7d \x7d"

/-- The value of the expression at a visit, with labels from 0 on. -/
def Visit.value? (g : Visit) : Option Typed :=
  match g.place with
  | .expr e => ((expr g.env e).run 0).toOption.map Prod.fst
  | _ => none

theorem yields_of_value? {g : Visit} {v : Typed} (h : g.value? = some v) :
    ∃ e next, g.place = .expr e ∧ Yields (expr g.env e) 0 v next := by
  unfold Visit.value? at h
  split at h
  · rename_i e hplace
    obtain ⟨⟨v', next⟩, hrun, rfl⟩ := Option.map_eq_some_iff.1 h
    cases hresult : (expr g.env e).run 0 with
    | error l =>
      rw [hresult] at hrun
      cases hrun
    | ok r =>
      rw [hresult] at hrun
      cases hrun
      exact ⟨e, next, hplace, hresult⟩
  · cases h

theorem manyKinds_leave_kinds : ∃ program analysis t g e v next s,
    parseSource manyKinds = .ok program ∧ analyze program = .ok analysis ∧
    t ∈ tours analysis.table analysis.arena program ∧ g ∈ t.visits ∧ g.place = .expr e ∧
    Yields (expr g.env e) 0 v next ∧ 20 < v.code.length ∧ g.env.KeptBy s ∧
    LeavesCell s (Assembly.written v.code) .int := by
  have hcheck : (parseSource manyKinds).toOption.any (fun program =>
      (analyze program).toOption.any fun analysis =>
        (tours analysis.table analysis.arena program).any fun t => t.visits.any fun g =>
          g.value?.any fun v => decide (v.type = .boolean ∧ 20 < v.code.length)) = true := by
    rw [parseSource, tokenize_ofList (s := manyKinds) (Source.append_ofList rfl rfl)]
    decide +kernel
  obtain ⟨program, hparse, hcheck⟩ := exists_ok_of_any hcheck
  obtain ⟨analysis, hanalyze, hcheck⟩ := exists_ok_of_any hcheck
  obtain ⟨t, ht, hcheck⟩ := List.any_eq_true.1 hcheck
  obtain ⟨g, hg, hcheck⟩ := List.any_eq_true.1 hcheck
  obtain ⟨v, hv, hcheck⟩ := (Option.any_eq_true _ _).1 hcheck
  obtain ⟨htype, hlength⟩ := of_decide_eq_true hcheck
  obtain ⟨e, next, hplace, hy⟩ := yields_of_value? hv
  obtain ⟨⟨s, hkept⟩, hcells⟩ := (expressions_leave_kinds hparse hanalyze).2 t ht
  have hcell := hcells g hg e hplace s (hkept g hg) g.env.targets 0 v next hy
  rw [htype] at hcell
  exact ⟨program, analysis, t, g, e, v, next, s, hparse, hanalyze, ht, hg, hplace, hy, hlength,
    hkept g hg, hcell⟩

end Lowering

end Javelet
