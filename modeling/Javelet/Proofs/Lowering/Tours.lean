import Javelet.Proofs.Lowering.Coupling
import Javelet.Proofs.Lowering.OperandStack
import Javelet.Proofs.Lowering.Traced
import Javelet.Proofs.Scope.Slots
import Mathlib.Data.List.Flatten

/-!
# Both passes make the same tours

The walk over a program comes to the initial values of a class once and to each of its methods
once; the lowering comes to the initial values again for each constructor. Whatever the lowering
visits on behalf of a node, the walk has visited on behalf of the same node, place by place in the
same scopes, and behind each member both are back in the scope of the class.
-/
namespace Javelet.Lowering

open Scope

/-- Both passes make the same tour: place by place they stand in the same surroundings. The walk
goes from one state to another. -/
structure Tracks (a : Arena) (start last : Resolved) (w : Tour Scope.Visit) (g : Tour Visit) :
    Prop where
  node : g.node = w.node
  handed : Handed start w.visits last
  final : Final last a
  meets : List.Forall₂ (Meets a last) w.visits g.visits

def Matches (a : Arena) (w : Tour Scope.Visit) (g : Tour Visit) : Prop :=
  ∃ start last, Tracks a start last w g

theorem exists_of_mem_right {α β : Type} {R : α → β → Prop} {xs : List α} {ys : List β}
    (h : List.Forall₂ R xs ys) {y : β} (hy : y ∈ ys) : ∃ x ∈ xs, R x y := by
  induction h with
  | nil => cases hy
  | cons hxy _ ih =>
    rcases List.mem_cons.1 hy with rfl | hy
    · exact ⟨_, List.mem_cons_self .., hxy⟩
    · obtain ⟨x, hx, hr⟩ := ih hy
      exact ⟨x, List.mem_cons_of_mem _ hx, hr⟩

theorem Tracks.exists_meets {a : Arena} {start last : Resolved} {w : Tour Scope.Visit}
    {t : Tour Visit} (h : Tracks a start last w t) {g : Visit} (hg : g ∈ t.visits) :
    ∃ v ∈ w.visits, Meets a last v g :=
  exists_of_mem_right h.meets hg

/-- What follows on a part of the program: the walk goes on to its end without a fault, and comes
to none of the nodes again. -/
structure Completed (nodes : List NodeId) (r final : Resolved) : Prop where
  grown : ∃ rest, Grown rest r final ∧ ∀ node ∈ nodes, node ∉ rest
  faults : final.faults = #[]

variable {r final : Resolved} {env : Env} {ctx : Context}

/-- Along a list whose members are walked one after the other, the walk comes to each member in a
state in which nothing is known of its nodes, and goes on from there to the end of the program. -/
theorem forall₂_along {α β γ : Type} {R : β → γ → Prop} {f : Resolved → α → Resolved}
    {nodes : α → List NodeId} {walk : Resolved → α → List β} {lower : α → List γ}
    {scope : ScopeId} {known : String → Entry → Prop} {xs : List α} (hn : (xs.flatMap nodes).Nodup)
    (hc : Closed r (xs.flatMap nodes)) (hb : Bare known r scope)
    (hf : ∀ x ∈ xs, ∀ r, (nodes x).Nodup → Closed r (nodes x) → Grown (nodes x) r (f r x))
    (hx : ∀ x ∈ xs, ∀ r, (nodes x).Nodup → Closed r (nodes x) → Bare known r scope →
      Completed (nodes x) (f r x) final → List.Forall₂ R (walk r x) (lower x))
    (hlast : Completed (xs.flatMap nodes) (xs.foldl f r) final) :
    List.Forall₂ R (Resolved.along f walk r xs) (xs.flatMap lower) := by
  induction xs generalizing r with
  | nil => exact .nil
  | cons x xs ih =>
    rw [List.flatMap_cons] at hn hc hlast ⊢
    rw [List.forall_mem_cons] at hf hx
    have hstep := hf.1 r (List.nodup_append.1 hn).1 hc.left
    have hother : ∀ node ∈ nodes x, node ∉ xs.flatMap nodes :=
      fun node hmem hmem' => (List.nodup_append.1 hn).2.2 node hmem node hmem' rfl
    have hclosed : Closed (f r x) (xs.flatMap nodes) := by
      intro node hnode
      rw [(hstep.attached node fun hmem => hother node hmem hnode).scopeOf]
      exact hc.right node hnode
    have hrest := Grown.foldl (List.nodup_append.1 hn).2.1 hclosed hf.2
    obtain ⟨⟨rest, hgrown, hdisjoint⟩, hfaults⟩ := hlast
    rw [Resolved.along]
    refine List.rel_append ?_ ?_
    · refine hx.1 r (List.nodup_append.1 hn).1 hc.left hb ⟨⟨_, hrest.trans hgrown, ?_⟩, hfaults⟩
      intro node hnode hmem
      rcases List.mem_append.1 hmem with hmem | hmem
      · exact hother node hnode hmem
      · exact hdisjoint node (List.mem_append_left _ hnode) hmem
    · exact ih (List.nodup_append.1 hn).2.1 hclosed (hb.grown hstep) hf.2 hx.2
        ⟨⟨rest, hgrown, fun node hnode => hdisjoint node (List.mem_append_right _ hnode)⟩, hfaults⟩

/-! ## Methods -/

/-- The surroundings of the members of a class in both passes. -/
structure ClassAligned (a : Arena) (d : ClassDecl) (ctx : Context) (env : Env) : Prop where
  arena : env.arena = a
  table : env.table = ctx.table
  wellNamed : ctx.table.WellNamed
  className : env.className = ctx.className
  scope : env.scope = ctx.scope
  attached : a.scopeOf d.id = some ctx.scope

theorem ClassAligned.aligned {a : Arena} {d : ClassDecl} (h : ClassAligned a d ctx env)
    (hv : Visible ctx.Known r ctx.scope) : Aligned a ctx r env :=
  ⟨h.arena, h.table, h.wellNamed, h.className, h.scope, hv⟩

/-- The place behind a member. -/
theorem meets_boundary {a : Arena} {last : Resolved} {d : ClassDecl} (h : ClassAligned a d ctx env)
    (hb : Bare ctx.Known r ctx.scope) (hf : Filled r last) :
    Meets a last ⟨.boundary d, ctx, r⟩ ⟨.boundary d, env⟩ :=
  ⟨rfl, h.aligned hb.visible, hf, h.attached⟩

/-- Both passes come to the body of a method behind its parameters. -/
theorem jointList_body {d : ClassDecl} {m : Method} (hw : m.WellNamed) (hn : m.nodes.Nodup)
    (hc : Closed r m.nodes) (hb : Bare ctx.Known r ctx.scope)
    (ha : ClassAligned final.arena d ctx env)
    (hlast : Completed m.nodes (Resolved.method ctx r m) final) :
    JointList final.arena (Resolved.behindBody ctx r m) (Resolved.bodyContext ctx r m)
      (Resolved.atBody ctx r m) ((env.enter m.signature.id).enter m.body.id)
      m.body.statements := by
  obtain ⟨⟨rest, hgrown, hdisjoint⟩, hfaults⟩ := hlast
  have hbody : (statementNodes m.body.statements).Nodup := by
    rw [Method.nodes, Block.nodes_eq, List.nodup_cons, List.nodup_cons] at hn
    exact hn.2.2
  have hp : Persists final.arena (Resolved.behindBody ctx r m) (statementNodes m.body.statements)
      (Resolved.behindBody ctx r m) := by
    refine (persists_behindBody hgrown hdisjoint hn).sub ?_
    rw [Block.nodes_eq]
    exact fun node => List.mem_cons_of_mem _
  have hinner : Aligned final.arena (Resolved.bodyContext ctx r m) (Resolved.atBody ctx r m)
      ((env.enter m.signature.id).enter m.body.id) := by
    refine ⟨ha.arena, ha.table, ha.wellNamed, ha.className, ?_, visible_atBody hb hw.signature⟩
    rw [Env.enter, show (env.enter m.signature.id).arena = final.arena from ha.arena,
      scopeOf_body hgrown hdisjoint hw hn hc]
    rfl
  exact ⟨hw.body, hbody, Resolved.closed_atBody hw.signature hn hc, hinner, hp⟩

theorem methodTour_tracks {d : ClassDecl} {m : Method} (hw : m.WellNamed) (hn : m.nodes.Nodup)
    (hc : Closed r m.nodes) (hb : Bare ctx.Known r ctx.scope)
    (ha : ClassAligned final.arena d ctx env)
    (hlast : Completed m.nodes (Resolved.method ctx r m) final) :
    Tracks final.arena (Resolved.atBody ctx r m) (Resolved.behindBody ctx r m)
      (Resolved.methodTour ctx d r m) (env.methodTour d m) := by
  have hjoint := jointList_body hw hn hc hb ha hlast
  obtain ⟨⟨rest, hgrown, hdisjoint⟩, hfaults⟩ := hlast
  have hl := final_behindBody hgrown hfaults
  have hvisits := statements_couple (fun s _ => couples hl s) hjoint
  refine ⟨rfl, methodTour_handed hl.faults, hl, List.rel_append ?_ ?_⟩
  · obtain ⟨signature, ⟨id, p, ss⟩⟩ := m
    rw [Env.blockVisits]
    exact hvisits
  · refine .cons (meets_boundary ha (hb.grown (Resolved.grown_method hw hn hc)) ?_) .nil
    exact ⟨⟨Nat.le_refl _, fun _ _ => rfl, fun _ _ _ h => h, fun _ _ _ _ h => .inl h⟩,
      Nat.le_refl _, fun _ _ _ _ h _ => .inl h, id, id⟩

/-! ## Classes -/

theorem values_meet {a : Arena} {last : Resolved} {d : ClassDecl} {es : List Expr}
    (ha : ClassAligned a d ctx env) (hl : Final last a) (hb : Bare ctx.Known r ctx.scope)
    (hf : Filled (es.foldl (Resolved.expr ctx) r) last) :
    List.Forall₂ (Meets a last)
      (Resolved.along (Resolved.expr ctx) (fun r e => r.seen ctx e.places) r es)
      (env.seen (es.flatMap Expr.places)) := by
  induction es generalizing r with
  | nil => exact .nil
  | cons e es ih =>
    have he : Walked r.arena.size [] r (r.expr ctx e) := Resolved.walked_expr ctx r e
    have hrest : Walked r.arena.size [] (r.expr ctx e) _ :=
      Resolved.walked_initialValues ctx (r.expr ctx e) es
    have hf' : Filled (r.expr ctx e) last := hrest.toFilled.trans hf
    rw [Resolved.along, List.flatMap_cons, Env.seen, List.map_append]
    refine List.rel_append ?_ (ih (hb.grown he.grown) hf)
    exact meets_seen (ha.aligned hb.visible) (he.toFilled.trans hf')
      (settled_expr (hf'.faults hl.faults))

/-- The tours over a class, each of them once. -/
def Env.distinctTours (env : Env) (d : ClassDecl) : List (Tour Visit) :=
  env.valueTour d :: d.members.map (env.methodTour d)

section Class

variable {table : Types.Table} {d : ClassDecl}

/-- Behind the initial values of a class the walk goes on to its methods. -/
theorem grown_behindMembers (hw : d.WellNamed) (hn : d.nodes.Nodup) (hc : Closed r d.nodes)
    (hlast : Completed d.nodes (Resolved.class_ table r d) final) :
    ∃ rest, Grown rest (Resolved.behindValues table r d) final ∧ d.id ∉ rest := by
  rw [Resolved.class_eq] at hlast
  obtain ⟨rest, hgrown, hdisjoint⟩ := hlast.grown
  have hclosed := @closed_behindValues r table d hn hc
  rw [ClassDecl.nodes, List.nodup_cons] at hn
  have hmembers : Grown _ _ (d.members.foldl
      (Resolved.method (Resolved.classContext table r d)) (Resolved.behindValues table r d)) :=
    Grown.foldl hn.2 hclosed fun m hm _ => Resolved.grown_method (hw.methods m hm)
  refine ⟨_, hmembers.trans hgrown, ?_⟩
  rw [List.mem_append, not_or]
  exact ⟨hn.1, hdisjoint d.id (List.mem_cons_self ..)⟩

theorem class_aligned (ht : table.WellNamed) (hw : d.WellNamed) (hn : d.nodes.Nodup)
    (hc : Closed r d.nodes) (hlast : Completed d.nodes (Resolved.class_ table r d) final) :
    ClassAligned final.arena d (Resolved.classContext table r d)
      (classEnv (.outermost table final.arena) d) := by
  obtain ⟨rest, hgrown, hother⟩ := grown_behindMembers hw hn hc hlast
  have hattached : final.arena.scopeOf d.id = some r.arena.size := by
    rw [(hgrown.attached d.id hother).scopeOf, scopeOf_behindValues]
  refine ⟨rfl, rfl, ht, rfl, ?_, hattached⟩
  show (final.arena.scopeOf d.id).getD Arena.root = r.arena.size
  rw [hattached]
  rfl

theorem bare_behindValues (hb : Bare (fun _ e => e.meaning = .type) r Arena.root) :
    Bare (Resolved.classContext table r d).Known (Resolved.behindValues table r d) r.arena.size :=
  (bare_atClass hb).grown (Resolved.walked_initialValues ..).grown

/-- The walk comes to the methods of a class one after the other. -/
theorem forall₂_members {β γ : Type} {R : β → γ → Prop} {walk : Resolved → Method → List β}
    {lower : Method → List γ} (hw : d.WellNamed) (hn : d.nodes.Nodup) (hc : Closed r d.nodes)
    (hb : Bare (fun _ e => e.meaning = .type) r Arena.root)
    (hlast : Completed d.nodes (Resolved.class_ table r d) final)
    (hm : ∀ m ∈ d.members, ∀ r', m.nodes.Nodup → Closed r' m.nodes →
      Bare (Resolved.classContext table r d).Known r' r.arena.size →
      Completed m.nodes (Resolved.method (Resolved.classContext table r d) r' m) final →
      List.Forall₂ R (walk r' m) (lower m)) :
    List.Forall₂ R
      (Resolved.along (Resolved.method (Resolved.classContext table r d)) walk
        (Resolved.behindValues table r d) d.members)
      (d.members.flatMap lower) := by
  have hclosed := @closed_behindValues r table d hn hc
  rw [ClassDecl.nodes, List.nodup_cons] at hn
  rw [Resolved.class_eq] at hlast
  obtain ⟨⟨rest, hgrown, hdisjoint⟩, hfaults⟩ := hlast
  refine forall₂_along hn.2 hclosed (bare_behindValues hb)
    (fun m hm _ => Resolved.grown_method (hw.methods m hm)) hm ⟨⟨rest, hgrown, ?_⟩, hfaults⟩
  exact fun node hnode => hdisjoint node (List.mem_cons_of_mem _ hnode)

/-- What is shown of a method in the state in which the walk comes to it and makes its tour. -/
theorem forall_members {P : Method → Prop} (hw : d.WellNamed) (hn : d.nodes.Nodup)
    (hc : Closed r d.nodes) (hb : Bare (fun _ e => e.meaning = .type) r Arena.root)
    (hlast : Completed d.nodes (Resolved.class_ table r d) final)
    (hm : ∀ m ∈ d.members, ∀ r', m.nodes.Nodup → Closed r' m.nodes →
      Bare (Resolved.classContext table r d).Known r' r.arena.size →
      Completed m.nodes (Resolved.method (Resolved.classContext table r d) r' m) final →
      Resolved.methodTour (Resolved.classContext table r d) d r' m ∈ Resolved.classTours table r d →
      P m) :
    ∀ m ∈ d.members, P m := by
  have hmethods := @forall₂_members r final table d (Tour Scope.Visit) Method
    (fun t m => t ∈ Resolved.classTours table r d → P m)
    (fun r' m => [Resolved.methodTour (Resolved.classContext table r d) d r' m]) (fun m => [m])
    hw hn hc hb hlast fun m hm' r' hn hc hb hlast => .cons (hm m hm' r' hn hc hb hlast) .nil
  intro m hmem
  obtain ⟨t, ht, h⟩ := exists_of_mem_right hmethods
    (List.mem_flatMap.2 ⟨m, hmem, List.mem_singleton.2 rfl⟩)
  exact h (List.mem_cons_of_mem _ ht)

theorem class_matches (ht : table.WellNamed) (hw : d.WellNamed) (hn : d.nodes.Nodup)
    (hc : Closed r d.nodes) (hb : Bare (fun _ e => e.meaning = .type) r Arena.root)
    (hlast : Completed d.nodes (Resolved.class_ table r d) final) :
    List.Forall₂ (Matches final.arena) (Resolved.classTours table r d)
      ((classEnv (.outermost table final.arena) d).distinctTours d) := by
  have ha := class_aligned ht hw hn hc hlast
  obtain ⟨rest, hgrown, -⟩ := grown_behindMembers hw hn hc hlast
  have hl := hgrown.final hlast.faults
  refine .cons ⟨_, _, rfl, valueTour_handed hl.faults, hl, ?_⟩ ?_
  · rw [Resolved.valueTour, Env.valueTour, Env.seen, List.map_append]
    refine List.rel_append (values_meet ha hl (bare_atClass hb) (.refl _)) ?_
    exact .cons (meets_boundary ha (bare_behindValues hb) (.refl _)) .nil
  · rw [List.map_eq_flatMap]
    refine forall₂_members hw hn hc hb hlast ?_
    intro m hm r' hn hc hb hlast
    exact .cons ⟨_, _, methodTour_tracks (hw.methods m hm) hn hc hb ha hlast⟩ .nil

end Class

/-! ## Programs -/

/-- The tours over a declaration, each of them once. -/
def distinctTours (table : Types.Table) (arena : Arena) : TypeDecl → List (Tour Visit)
  | .class_ d => (classEnv (.outermost table arena) d).distinctTours d
  | .interface _ => []

theorem flatten_along {α β : Type} (f : Resolved → α → Resolved) (see : Resolved → α → List β)
    (r : Resolved) (xs : List α) :
    (Resolved.along f (fun r x => [see r x]) r xs).flatten = Resolved.along f see r xs := by
  induction xs generalizing r with
  | nil => rfl
  | cons x xs ih =>
    rw [Resolved.along, Resolved.along, List.flatten_append, ih, List.flatten_singleton]

/-- What is shown of a class in the state in which the walk comes to it and makes its tours. -/
theorem forall_classes {program : Program} {table : Types.Table} {P : ClassDecl → Prop}
    (hw : program.WellNamed) (hn : program.nodes.Nodup) (hf : (resolve program table).faults = #[])
    (h : ∀ d, .class_ d ∈ program.declarations → ∀ r, d.nodes.Nodup → Closed r d.nodes →
      Bare (fun _ e => e.meaning = .type) r Arena.root →
      Completed d.nodes (Resolved.class_ table r d) (resolve program table) →
      (∀ t ∈ Resolved.classTours table r d, t ∈ Scope.tours program table) → P d) :
    ∀ d, .class_ d ∈ program.declarations → P d := by
  have hclasses := @forall₂_along _ (resolve program table) TypeDecl (List (Tour Scope.Visit))
    TypeDecl (fun ts decl => (∀ t ∈ ts, t ∈ Scope.tours program table) →
      ∀ d, decl = .class_ d → P d) _ _
    (fun r' decl => [Resolved.declarationTours table r' decl]) (fun decl => [decl]) _ _ _ hn
    (fun node _ => scopeOf_typeNames program node) (bare_typeNames program)
    (fun d hd r hn hc => Resolved.grown_declaration (hw d hd) hn hc) ?_ ⟨⟨[], .refl _, nofun⟩, hf⟩
  · intro d hd
    obtain ⟨ts, hts, hd'⟩ := exists_of_mem_right hclasses
      (List.mem_flatMap.2 ⟨_, hd, List.mem_singleton.2 rfl⟩)
    refine hd' ?_ d rfl
    intro t ht
    rw [Scope.tours, ← flatten_along]
    exact List.mem_flatten.2 ⟨ts, hts, ht⟩
  · intro decl hdecl r hn hc hb hlast
    refine .cons ?_ .nil
    rintro htours d rfl
    exact h d hdecl r hn hc hb hlast htours

/-- The walk makes each tour of the lowering, in the order of the declarations. -/
theorem program_matches {program : Program} {table : Types.Table} (ht : table.WellNamed)
    (hw : program.WellNamed) (hn : program.nodes.Nodup)
    (hf : (resolve program table).faults = #[]) :
    List.Forall₂ (Matches (resolve program table).arena) (Scope.tours program table)
      (program.declarations.flatMap (distinctTours table (resolve program table).arena)) := by
  refine forall₂_along hn (fun node _ => scopeOf_typeNames program node) (bare_typeNames program)
    (fun d hd r hn hc => Resolved.grown_declaration (hw d hd) hn hc) ?_ ⟨⟨[], .refl _, nofun⟩, hf⟩
  intro d hd r hn hc hb hlast
  cases d with
  | class_ d => exact class_matches ht (hw _ hd) hn hc hb hlast
  | interface d => exact .nil

theorem analyzed_matches {source : String} {program : Program} {analysis : Analysis}
    (hparse : parseSource source = .ok program) (hanalyze : analyze program = .ok analysis) :
    List.Forall₂ (Matches analysis.arena) (Scope.tours program analysis.table)
      (program.declarations.flatMap (distinctTours analysis.table analysis.arena)) := by
  obtain ⟨hw, hn⟩ := wellNamed_of_parseSource hparse
  obtain ⟨htable, harena, hfaults⟩ := analyze_eq_ok hanalyze
  have ht : analysis.table.WellNamed := htable ▸ Types.wellNamed_collect hw
  rw [harena]
  exact program_matches ht hw hn hfaults

/-- The lowering repeats tours but makes no others. -/
theorem mem_classTours {d : ClassDecl} {t : Tour Visit} :
    t ∈ env.classTours d ↔ t ∈ (classEnv env d).distinctTours d := by
  rw [Env.classTours, Env.blockTours, Env.distinctTours, ClassDecl.members, List.flatten_append,
    List.flatten_append, ← List.flatMap_def, ← List.flatMap_def]
  simp only [List.mem_append, List.mem_flatMap, List.mem_cons, List.mem_map, List.not_mem_nil,
    or_false]
  constructor
  · rintro ((⟨m, hm, rfl | rfl⟩ | ⟨m, hm, rfl⟩) | ht)
    · exact .inl rfl
    · exact .inr ⟨m, .inl (.inl hm), rfl⟩
    · exact .inr ⟨m, hm.elim (fun h => .inl (.inr h)) .inr, rfl⟩
    · split at ht
      · exact .inl (List.mem_singleton.1 ht)
      · cases ht
  · rintro (rfl | ⟨m, (hm | hm) | hm, rfl⟩)
    · cases d.constructors with
      | nil => exact .inr (List.mem_singleton.2 rfl)
      | cons m ms => exact .inl (.inl ⟨m, List.mem_cons_self .., .inl rfl⟩)
    · exact .inl (.inl ⟨m, hm, .inr rfl⟩)
    · exact .inl (.inr ⟨m, .inl hm, rfl⟩)
    · exact .inl (.inr ⟨m, .inr hm, rfl⟩)

theorem mem_tours {table : Types.Table} {arena : Arena} {p : Program} {t : Tour Visit} :
    t ∈ tours table arena p ↔ t ∈ p.declarations.flatMap (distinctTours table arena) := by
  have hdecl : ∀ d : TypeDecl, t ∈ (Env.outermost table arena).declarationTours d ↔
      t ∈ distinctTours table arena d := by
    intro d
    cases d with
    | interface d => exact Iff.rfl
    | class_ d => exact mem_classTours
  simp only [tours, List.mem_flatMap, hdecl]

/-- What stands at the places of the tours over a class, told without a pass. -/
theorem map_place_distinctTours (env : Env) (d : ClassDecl) :
    (env.distinctTours d).map (fun t => ⟨t.node, t.visits.map Visit.place⟩) = d.tours := by
  rw [Env.distinctTours, ClassDecl.tours, List.map_cons, List.map_map]
  congr 1
  · rw [Env.valueTour, Env.map_place_seen]
  · refine List.map_congr_left ?_
    intro m _
    rw [Function.comp_apply, Env.methodTour, List.map_append, Env.map_place_blockVisits]
    rfl

/-- The lowering comes to all places of a class. -/
theorem exists_tour {program : Program} {table : Types.Table} {arena : Arena} {d : ClassDecl}
    (hd : .class_ d ∈ program.declarations) {t : Tour Place} (ht : t ∈ d.tours) :
    ∃ g ∈ tours table arena program, g.node = t.node ∧ g.visits.map Visit.place = t.visits := by
  rw [← map_place_distinctTours (classEnv (.outermost table arena) d) d] at ht
  obtain ⟨g, hg, rfl⟩ := List.mem_map.1 ht
  exact ⟨g, mem_tours.2 (List.mem_flatMap.2 ⟨_, hd, hg⟩), rfl, rfl⟩

/-- Tours are made on behalf of different nodes. -/
theorem nodup_nodes_tours {program : Program} (hn : program.nodes.Nodup) (table : Types.Table)
    (arena : Arena) :
    ((program.declarations.flatMap (distinctTours table arena)).map Tour.node).Nodup := by
  refine hn.sublist ?_
  rw [Program.nodes, List.map_flatMap]
  refine List.Sublist.flatMap_right _ ?_
  intro d _
  cases d with
  | interface d => exact List.nil_sublist _
  | class_ d =>
    rw [distinctTours, Env.distinctTours, List.map_cons, List.map_map, TypeDecl.nodes,
      ClassDecl.nodes, List.map_eq_flatMap]
    refine List.Sublist.cons_cons _ (List.Sublist.flatMap_right _ ?_)
    exact fun m _ => List.Sublist.cons_cons _ (List.nil_sublist _)

/-! ## Accepted programs -/

/-- What the passes know of each other at a place: it is the same place, they stand in the same
scope, and what the walk does there stays. -/
structure SameScope (arena : Arena) (v : Scope.Visit) (g : Visit) : Prop where
  place : g.place = v.place
  scope : g.env.scope = v.ctx.scope
  settled : Settled arena v

theorem Tracks.forall₂_sameScope {a : Arena} {start last : Resolved} {w : Tour Scope.Visit}
    {g : Tour Visit} (h : Tracks a start last w g) :
    List.Forall₂ (SameScope a) w.visits g.visits :=
  h.meets.imp fun _ _ hm => ⟨hm.place, hm.aligned.scope, hm.settled⟩

/-- In a program without faults in types and names, the lowering makes the tours of the walk: the
walk makes one on behalf of each class and each of its members, and the lowering comes to the same
places in the same scopes, to all places of the program. If the program is lowered, then the lowering
to each method of a class runs the lowering of all places on the tours to this method. -/
theorem lowering_shares_scopes {source : String} {program : Program} {analysis : Analysis}
    (hparse : parseSource source = .ok program) (hanalyze : analyze program = .ok analysis) :
    ((Scope.tours program analysis.table).map Tour.node).Nodup ∧
    (∀ g ∈ tours analysis.table analysis.arena program,
      ∃ w ∈ Scope.tours program analysis.table, w.node = g.node ∧
        List.Forall₂ (SameScope analysis.arena) w.visits g.visits) ∧
    (∀ d, .class_ d ∈ program.declarations → ∀ t ∈ d.tours,
      ∃ g ∈ tours analysis.table analysis.arena program,
        g.node = t.node ∧ g.visits.map Visit.place = t.visits) ∧
    ∀ sections, Lowering.program analysis.table analysis.arena program = .ok sections →
      List.Forall₂ (fun decl s => ∀ d, decl = .class_ d → ∃ c, s = .class_ c ∧
          List.Forall₂ RunsTours ((Env.outermost analysis.table analysis.arena).blockTours d)
            c.methods)
        program.declarations sections := by
  obtain ⟨hw, hn⟩ := wellNamed_of_parseSource hparse
  have hmatches := analyzed_matches hparse hanalyze
  refine ⟨?_, ?_, ?_, fun sections => program_runs⟩
  · have hnodes : (Scope.tours program analysis.table).map Tour.node =
        (program.declarations.flatMap (distinctTours analysis.table analysis.arena)).map
          Tour.node := by
      refine List.forall₂_eq_eq_eq ▸ ?_
      rw [List.forall₂_map_left_iff, List.forall₂_map_right_iff]
      exact hmatches.imp fun w g ⟨_, _, ht⟩ => ht.node.symm
    rw [hnodes]
    exact nodup_nodes_tours hn _ _
  · intro g hg
    obtain ⟨w, hw, hm⟩ := exists_of_mem_right hmatches (mem_tours.1 hg)
    obtain ⟨start, last, ht⟩ := hm
    exact ⟨w, hw, ht.node.symm, ht.forall₂_sameScope⟩
  · exact fun d hd t => exists_tour hd

/-- An initial value, a for loop that shares its scope with its body, and a switch with a
declaration in one of its bodies. -/
def nestedScopes : String :=
  "class A { int x = 1; A() { for (int i = x; i < 2; i = 3) { switch (i) { case 1: int x; } } } }"

theorem nestedScopes_share_scopes : ∃ program analysis sections,
    parseSource nestedScopes = .ok program ∧ analyze program = .ok analysis ∧
    Lowering.program analysis.table analysis.arena program = .ok sections ∧
    ((Scope.tours program analysis.table).map Tour.node).Nodup ∧
    (∀ g ∈ tours analysis.table analysis.arena program,
      ∃ w ∈ Scope.tours program analysis.table, w.node = g.node ∧
        List.Forall₂ (SameScope analysis.arena) w.visits g.visits) ∧
    List.Forall₂ (fun decl s => ∀ d, decl = .class_ d → ∃ c, s = .class_ c ∧
        List.Forall₂ RunsTours ((Env.outermost analysis.table analysis.arena).blockTours d)
          c.methods)
      program.declarations sections := by
  have hok : (compile nestedScopes).isOk = true := by
    rw [compile, parseSource, tokenize_ofList (s := nestedScopes) rfl]
    decide +kernel
  obtain ⟨text, h⟩ := exists_ok_of_isOk hok
  obtain ⟨program, analysis, sections, ha, -⟩ := compile_eq_ok_iff.1 h
  obtain ⟨hnodes, hscopes, -, hruns⟩ := lowering_shares_scopes ha.parsed ha.analyzed
  exact ⟨program, analysis, sections, ha.parsed, ha.analyzed, ha.lowered, hnodes, hscopes,
    hruns sections ha.lowered⟩

end Javelet.Lowering
