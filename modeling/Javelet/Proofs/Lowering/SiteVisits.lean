import Javelet.Proofs.Lowering.Tours

/-!
# Declarations at the sites of a method

The sites of a method and its tour follow the same lowering: each declaration at a site is visited on
the tour, in the surroundings of the site but for the targets of jumps. There the walk has entered
the variable with its type, so this is the type with which the lowering finds it.
-/
namespace Javelet.Lowering

open Assembly Scope

/-- The declarations in the statement of a site are visited, in surroundings that differ from those of
the site at most in the targets of jumps. -/
def Site.Visited (visits : List Visit) (site : Site) : Prop :=
  ∃ env targets, site.env = Env.aimed env targets ∧
    ∀ g ∈ env.visits site.statement, g.place.isDeclaration = true → g ∈ visits

variable {visits : List Visit} {site site' : Site} {env : Env}

theorem Listed.visited {targets : List Targets} {before : Segment} {first : Label}
    {ss : List Statement} (h : Listed (env.aimed targets) before first ss site)
    (hv : ∀ g ∈ env.statementVisits ss, g.place.isDeclaration = true → g ∈ visits) :
    site.Visited visits := by
  induction h with
  | head =>
    rw [Env.statementVisits, List.forall_mem_append] at hv
    exact ⟨env, targets, rfl, hv.1⟩
  | tail _ _ ih =>
    rw [Env.statementVisits, List.forall_mem_append] at hv
    exact ih hv.2

/-- A block as a statement is visited, too, but it is not a declaration. -/
theorem visited_block {targets : List Targets} {b : Block} {first : Label} {before : Segment}
    (hv : ∀ g ∈ env.blockVisits b, g.place.isDeclaration = true → g ∈ visits) :
    Site.Visited visits ⟨env.aimed targets, none, .block b, first, before⟩ := by
  refine ⟨env, targets, rfl, ?_⟩
  rw [Env.visits, List.forall_mem_append]
  exact ⟨List.forall_mem_singleton.2 nofun, hv⟩

theorem CaseListed.visited {targets : List Targets} {before : Segment} {label first : Label}
    {cases : List Case} (h : CaseListed (env.aimed targets) before label first cases site)
    (hv : ∀ g ∈ env.caseVisits cases, g.place.isDeclaration = true → g ∈ visits) :
    site.Visited visits := by
  induction h with
  | @head before label first c cases =>
    obtain ⟨p, q, l, b⟩ := c
    rw [Env.caseVisits, List.forall_mem_append] at hv
    exact visited_block hv.1
  | @tail before code label first middle c cases site _ _ ih =>
    obtain ⟨p, q, l, b⟩ := c
    rw [Env.caseVisits, List.forall_mem_append] at hv
    exact ih hv.2

theorem Part.visited (h : Part site site') (hv : site.Visited visits) : site'.Visited visits := by
  obtain ⟨env, targets, henv, hv⟩ := hv
  cases h with
  | @block _ join b first before _ hl =>
    subst henv
    obtain ⟨id, p, ss⟩ := b
    rw [Env.visits, List.forall_mem_append, Env.blockVisits] at hv
    have hl' : Listed ((env.enter id).aimed targets) before first ss site' := hl
    exact hl'.visited hv.2
  | conditionalBody hd =>
    subst henv
    rw [Env.visits, List.forall_mem_append, List.forall_mem_append] at hv
    exact ⟨env, targets, rfl, hv.2.1⟩
  | conditionalElse hd hi =>
    subst henv
    rw [Env.visits, List.forall_mem_append, List.forall_mem_append, Env.otherwiseVisits] at hv
    exact ⟨env, targets, rfl, hv.2.2⟩
  | whileBody hd =>
    subst henv
    rw [Env.visits, List.forall_mem_append] at hv
    exact ⟨env, _, rfl, hv.2⟩
  | @forBody _ join p id init e update body first top middle before code decision hb hd =>
    subst henv
    simp only [Env.visits, List.forall_mem_append] at hv
    exact ⟨env.enter id, _, rfl, hv.2.2.2.2⟩
  | @forInit _ join p id i e update body first before =>
    subst henv
    simp only [Env.visits, List.forall_mem_append] at hv
    refine ⟨env.enter id, targets, rfl, ?_⟩
    have hinit := hv.2.1
    rw [initPlaces, Option.toList_some, List.flatMap_singleton] at hinit
    cases i with
    | declaration x =>
      rw [ForInit.asStatement, Env.visits]
      exact hinit
    | assignment a =>
      rw [ForInit.asStatement, Env.visits]
      exact hinit
  | @forUpdate _ join p id init e a body first top middle middle' before code decision inner hb hd
      hi =>
    subst henv
    simp only [Env.visits, List.forall_mem_append] at hv
    refine ⟨env.enter id, targets, rfl, ?_⟩
    have hupdate := hv.2.2.2.1
    rw [updatePlaces, Option.toList_some, List.flatMap_singleton] at hupdate
    rw [Env.visits]
    exact hupdate
  | caseBody hfin hslot hs ht hl =>
    subst henv
    rw [Env.visits, List.forall_mem_append, List.forall_mem_append] at hv
    rw [aimed_inside] at hl
    exact hl.visited hv.2.1
  | defaultBody hfin hslot hs ht hb =>
    subst henv
    rw [Env.visits, List.forall_mem_append, List.forall_mem_append, Env.defaultVisits] at hv
    rw [aimed_inside]
    exact visited_block hv.2.2

theorem Inside.visited {root : Site} (h : Inside root site) (hv : root.Visited visits) :
    site.Visited visits := by
  induction h with
  | refl => exact hv
  | step _ hp ih => exact hp.visited ih

/-- The body of a method starts the tour over the method. -/
theorem BodySite.visited {superclass : String} {d : ClassDecl} {mc : MethodCode}
    (h : BodySite env superclass d mc site) :
    ∃ m ∈ d.members, site.Visited (env.methodTour d m).visits := by
  have htour : ∀ m : Method, ∀ g ∈ (env.enter m.signature.id).blockVisits m.body,
      g.place.isDeclaration = true → g ∈ (env.methodTour d m).visits :=
    fun m g hg _ => List.mem_append_left _ hg
  cases h with
  | @method m first next hm hy =>
    refine ⟨m, ?_, visited_block (htour m)⟩
    rw [ClassDecl.members, List.append_assoc]
    exact List.mem_append_right _ hm
  | @constructor m first middle next before hm hp hy =>
    exact ⟨m, List.mem_append_left _ (List.mem_append_left _ hm), visited_block (htour m)⟩

/-- Where a variable is declared, the lowering finds it with its type. -/
theorem local?_of_declaration {a : Arena} {last : Resolved} {v : Scope.Visit} {g : Visit}
    (hm : Meets a last v g) {x : Variable} (hg : g.place = .statement (.declaration x)) :
    ∃ slot, g.env.local? x.name = some ⟨slot, x.type⟩ := by
  have hsettled := hm.settled
  rw [Settled, ← hm.place, hg] at hsettled
  refine ⟨v.state.nextSlot, ?_⟩
  rw [local?_eq, hm.aligned.arena, hm.aligned.scope, Arena.lookup_of_lookupLocal hsettled]
  rfl

/-- On the tours over the members of a class, the lowering finds each declared variable with the type
of the declaration. -/
def DeclaresTypes (env : Env) (d : ClassDecl) : Prop :=
  ∀ m ∈ d.members, ∀ g ∈ (env.methodTour d m).visits, ∀ x,
    g.place = .statement (.declaration x) → ∃ slot, g.env.local? x.name = some ⟨slot, x.type⟩

theorem Accepted.declaresTypes {source : String} {program : Program} {analysis : Analysis}
    {sections : List Section} (ha : Accepted source program analysis sections) {d : ClassDecl}
    (hd : .class_ d ∈ program.declarations) :
    DeclaresTypes (classEnv (.outermost analysis.table analysis.arena) d) d := by
  intro m hm g hg x hx
  have htour : (classEnv (.outermost analysis.table analysis.arena) d).methodTour d m ∈
      program.declarations.flatMap (distinctTours analysis.table analysis.arena) :=
    List.mem_flatMap.2 ⟨_, hd, List.mem_cons_of_mem _ (List.mem_map_of_mem hm)⟩
  obtain ⟨w, -, start, last, ht⟩ :=
    exists_of_mem_right (analyzed_matches ha.parsed ha.analyzed) htour
  obtain ⟨v, -, hmeets⟩ := ht.exists_meets hg
  exact local?_of_declaration hmeets hx

/-- A declaration in a method stores into a variable of the type that it declares. -/
theorem BodySite.type_of_declaration {superclass : String} {d : ClassDecl} {mc : MethodCode}
    {root : Site} (h : BodySite env superclass d mc root) (hd : DeclaresTypes env d)
    (hin : Inside root site) {x : Variable} (hx : site.statement = .declaration x) {l : Local}
    (hl : site.env.local? x.name = some l) : l.type = x.type := by
  obtain ⟨m, hm, hroot⟩ := h.visited
  obtain ⟨around, targets, henv, hv⟩ := hin.visited hroot
  rw [hx] at hv
  have hself : ⟨.statement (.declaration x), around⟩ ∈ around.visits (.declaration x) := by
    rw [Env.visits]
    exact List.mem_cons_self ..
  obtain ⟨slot, hfound⟩ := hd m hm _ (hv _ hself rfl) x rfl
  rw [henv] at hl
  cases hl.symm.trans hfound
  rfl

end Javelet.Lowering
