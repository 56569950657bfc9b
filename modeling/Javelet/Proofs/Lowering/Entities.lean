import Javelet.Proofs.Lowering.Tours

/-!
# What names stand for in both passes

The walk looks a name up in scopes that are still being filled, the lowering looks it up in the
finished ones. A name that stands for one thing in the walk stands for the same thing in the
lowering, unless a variable of that name is declared later in a scope around the use: then the
lowering takes that variable. Slots are handed out in the order of the declarations, so such a
variable is known by its slot.
-/
namespace Javelet

/-- What a bare name stands for: a local variable, a property of a class or the root of the print
stream. -/
inductive Entity where
  | slot (number : Nat)
  | property (owner : String)
  | system
  deriving DecidableEq, Repr

namespace Scope.Context

variable {ctx : Context} {arena : Arena} {name : String}

/-- What a name stands for outside of the scopes. -/
def outer? (ctx : Context) (name : String) : Option Entity :=
  match ctx.table.findProperty ctx.className name with
  | some (owner, _) => some (.property owner.name)
  | none => if name = systemRoot then some .system else none

/-- What a name at the head of a chain stands for in the walk. -/
def entity? (ctx : Context) (arena : Arena) (name : String) : Option Entity :=
  match arena.lookup ctx.scope name with
  | none => ctx.outer? name
  | some ⟨_, some slot⟩ => some (.slot slot)
  | some ⟨.variable _, none⟩ => some (.property ctx.className)
  | some ⟨.type, none⟩ => none
  | some ⟨.method _, none⟩ => ctx.outer? name

/-- A name has a fault where it stands for nothing, and where it stands for a property but there is
no receiver. -/
theorem nameFault_eq_none_iff : ctx.nameFault arena name = none ↔
    ∃ e, ctx.entity? arena name = some e ∧ ∀ owner, e = .property owner → ctx.isStatic = false := by
  have houter : (if (ctx.table.findProperty ctx.className name).isSome then
        ctx.instanceFault (.property name)
      else if name = systemRoot then none else some (Fault.undefinedVariable name)) = none ↔
      ∃ e, ctx.outer? name = some e ∧ ∀ owner, e = .property owner → ctx.isStatic = false := by
    unfold outer? instanceFault
    cases ctx.table.findProperty ctx.className name with
    | some found => simp
    | none => by_cases hs : name = systemRoot <;> simp [hs]
  unfold nameFault entity?
  cases arena.lookup ctx.scope name with
  | none => exact houter
  | some entry =>
    obtain ⟨meaning, slot⟩ := entry
    cases slot with
    | some slot => simp [Entry.isLocal]
    | none =>
      match meaning with
      | .variable ty => simp [Entry.isLocal, instanceFault]
      | .method returns => simpa [Entry.isLocal] using houter
      | .type => simp [Entry.isLocal]

end Scope.Context

namespace Dictionary

theorem isSome_lookup {α : Type} {entry : String × α} {entries : List (String × α)}
    (h : entry ∈ entries) : ∃ value, lookup entry.1 entries = some value := by
  induction entries with
  | nil => cases h
  | cons first rest ih =>
    rw [lookup]
    split
    · exact ⟨_, rfl⟩
    · rename_i hne
      rcases List.mem_cons.1 h with rfl | h
      · exact (hne rfl).elim
      · exact ih h

end Dictionary

namespace Types

/-- A property of a class hides those of its superclasses. -/
theorem findProperty_own {t : Table} (ht : t.WellNamed) {className : String} {info : TypeInfo}
    (hinfo : t.find? className = some info) {p : PropertyInfo} (hp : p ∈ info.properties.values) :
    ∃ found, t.findProperty className p.name = some (info, found) := by
  obtain ⟨entry, hentry, rfl⟩ := List.mem_map.1 hp
  obtain ⟨found, hfound⟩ := Dictionary.isSome_lookup hentry
  have hkey := ((ht.of_find? hinfo).1.properties entry hentry).key
  have hown : info.properties.find? entry.2.name = some found := by
    rw [hkey]
    exact hfound
  have hclimb : ∃ rest, t.ancestors className = info :: rest := by
    have hfind : findType t.types className = some info := hinfo
    rw [Table.ancestors, climb]
    split
    · rename_i hnone
      cases hnone.symm.trans hfind
    · rename_i found hsome
      cases hsome.symm.trans hfind
      split
      · exact ⟨[], rfl⟩
      · exact ⟨_, rfl⟩
  obtain ⟨rest, hrest⟩ := hclimb
  refine ⟨found, ?_⟩
  rw [Table.findProperty, hrest, List.findSome?_cons, hown]
  rfl

end Types

namespace Entity

open Assembly Lowering

/-- The code that loads what a name stands for. -/
def LoadedBy (name : String) (code : Segment) : Entity → Prop
  | .slot number => ∃ cell, code = ops [.load cell number]
  | .property owner => ∃ ty, code = ops [.loadThis, .getField owner name ty]
  | .system => code = []

/-- The code that stores into what a name stands for. -/
def StoredBy (name : String) (code : Segment) : Entity → Prop
  | .slot number => ∃ value cell, code = value ++ ops [.store cell number]
  | .property owner => ∃ value ty, code = .op .loadThis :: value ++ ops [.putField owner name ty]
  | .system => False

end Entity

namespace Lowering

open Assembly Scope

/-- What a bare name stands for in the lowering. -/
def Env.entity? (env : Env) (name : String) : Option Entity :=
  match env.local? name with
  | some l => some (.slot l.slot)
  | none =>
    match env.table.findProperty env.className name with
    | some (owner, _) => some (.property owner.name)
    | none => if name = systemRoot then some .system else none

variable {env : Env} {first next : Label} {p : Position} {name : String}

/-- The head of a chain loads what its name stands for. -/
theorem nameHead_loads {r : Reached} (h : Yields (nameHead env name p) first r next) :
    ∃ e, env.entity? name = some e ∧ e.LoadedBy name r.code := by
  unfold nameHead at h
  unfold Env.entity?
  cases hl : env.local? name with
  | some l =>
    rw [hl] at h
    obtain ⟨rfl, -⟩ := yields_pure.1 h
    exact ⟨.slot l.slot, rfl, _, rfl⟩
  | none =>
    rw [hl] at h
    cases hp : env.table.findProperty env.className name with
    | some found =>
      simp only [hp, yields_pure] at h
      obtain ⟨rfl, -⟩ := h
      exact ⟨.property found.1.name, rfl, _, rfl⟩
    | none =>
      simp only [hp, yields_ite, yields_pure, yields_refuse, and_false, or_false] at h
      obtain ⟨hs, rfl, -⟩ := h
      exact ⟨.system, if_pos hs, rfl⟩

/-- An assignment to a bare name stores into what the name stands for. -/
theorem assignName_stores {op : AssignOp} {value : Expr} {code : Segment}
    (h : Yields (assignName env name p op value) first code next) :
    ∃ e, env.entity? name = some e ∧ e.StoredBy name code := by
  unfold assignName at h
  unfold Env.entity?
  cases hl : env.local? name with
  | some l =>
    simp only [hl, yields_bind, yields_storeLocal] at h
    obtain ⟨v, _, -, -, rfl, -⟩ := h
    exact ⟨.slot l.slot, rfl, _, _, rfl⟩
  | none =>
    simp only [hl, yields_bind, yields_property, yields_storeField, yields_pure] at h
    obtain ⟨_, _, ⟨owner, info, hp, rfl, rfl⟩, v, _, -, _, _, ⟨rfl, rfl, -⟩, rfl, rfl⟩ := h
    exact ⟨.property owner.name, by rw [hp], _, _, rfl⟩

/-! ## Names at the same place -/

variable {a : Arena} {start last : Resolved} {visits : List Scope.Visit} {v : Scope.Visit}
  {g : Visit}

/-- A name that stands at a place without faults stands for something. -/
theorem exists_entity (hs : Settled a v) (hname : v.place.name? = some name) :
    ∃ e, v.ctx.entity? v.state.arena name = some e := by
  have hchain : ∃ p ls, chainFaults v.ctx v.state.arena (.mk (.name p name) ls) = [] := by
    obtain ⟨place, ctx, r⟩ := v
    rcases Place.name?_eq_some hname with ⟨p, ls, rfl⟩ | ⟨p, ls, rfl⟩
    · have hexpr : exprFaults ctx r.arena (.access (.mk (.name p name) ls)) = [] := hs
      rw [exprFaults] at hexpr
      exact ⟨p, ls, hexpr⟩
    · exact ⟨p, ls, hs⟩
  obtain ⟨p, ls, hfaults⟩ := hchain
  rw [chainFaults_eq, List.append_eq_nil_iff] at hfaults
  have hnone : v.ctx.nameFault v.state.arena name = none := by
    cases hf : v.ctx.nameFault v.state.arena name with
    | none => rfl
    | some fault =>
      have hhead : v.ctx.headFault v.state.arena (.name p name) = some fault := hf
      simp [Chain.head, hhead, faultAt] at hfaults
  obtain ⟨e, he, -⟩ := Context.nameFault_eq_none_iff.1 hnone
  exact ⟨e, he⟩

/-- A variable that the walk finds is held in a slot that has been handed out. -/
theorem slot_lt_of_entity? (hv : Visible v.ctx.Known v.state v.ctx.scope) {slot : Nat}
    (h : v.ctx.entity? v.state.arena name = some (.slot slot)) : slot < v.state.nextSlot := by
  have houter : v.ctx.outer? name ≠ some (.slot slot) := by
    unfold Context.outer?
    split
    · nofun
    · split <;> nofun
  unfold Context.entity? at h
  split at h
  · exact (houter h).elim
  · rename_i hfound
    cases h
    rcases hv.lookup hfound with ⟨ty, s, heq, hlt⟩ | ⟨hnone, -⟩
    · cases heq
      exact hlt
    · cases hnone
  · cases h
  · cases h
  · exact (houter h).elim

/-- A property that is found in the scope of its class is the one that is found in the types. -/
theorem outer?_of_member {ctx : Context} (ht : ctx.table.WellNamed) {ty : Ty}
    (h : ctx.Known name ⟨.variable ty, none⟩) :
    ctx.outer? name = some (.property ctx.className) := by
  rcases h with htype | ⟨info, hinfo, ⟨p, hp, rfl, -⟩ | ⟨returns, hmethod⟩⟩
  · cases htype
  · obtain ⟨found, hfound⟩ := Types.findProperty_own ht hinfo hp
    rw [Context.outer?, hfound, ← (ht.of_find? hinfo).2]
  · cases hmethod

/-- Where a name means the same in the finished scopes, it stands for the same in both passes. -/
theorem entity?_of_lookup (hm : Meets a last v g) (hname : v.place.name? = some name)
    (h : a.lookup v.ctx.scope name = v.state.arena.lookup v.ctx.scope name) :
    g.env.entity? name = v.ctx.entity? v.state.arena name := by
  have houter : g.env.local? name = none → g.env.entity? name = v.ctx.outer? name := by
    intro hnone
    rw [Env.entity?, hnone, hm.aligned.table, hm.aligned.className]
    rfl
  obtain ⟨e, he⟩ := exists_entity hm.settled hname
  have hlocal := local?_eq g.env name
  rw [hm.aligned.arena, hm.aligned.scope, h] at hlocal
  unfold Context.entity? at he ⊢
  cases hfound : v.state.arena.lookup v.ctx.scope name with
  | none =>
    rw [hfound] at hlocal
    exact houter hlocal
  | some entry =>
    rw [hfound] at hlocal he
    rcases hm.aligned.visible.lookup hfound with ⟨ty, s, rfl, -⟩ | ⟨hslot, hknown⟩
    · rw [Env.entity?, hlocal]
      rfl
    · obtain ⟨meaning, slot⟩ := entry
      cases hslot
      rw [houter hlocal]
      match meaning with
      | .variable ty => exact outer?_of_member hm.aligned.wellNamed hknown
      | .method returns => rfl
      | .type => cases he

/-! ## Names of later variables -/

/-- The lowering takes a name at a visit for a variable that is declared at another one, in a scope
around the first: the walk does not come to the declaration before it has come to the name. -/
def Captured (visits : List Scope.Visit) (v : Scope.Visit) (g : Visit) (name : String) : Prop :=
  ∃ later ∈ visits, ∃ x, later.place = .statement (.declaration x) ∧ x.name = name ∧
    g.env.arena.Around g.env.scope later.ctx.scope ∧ v.state.nextSlot ≤ later.state.nextSlot ∧
    g.env.entity? name = some (.slot later.state.nextSlot)

/-- In the finished scopes a name means what it means to the walk, or a later variable. -/
theorem lookup_finished (hl : Final last a) (hf : Filled r last) {scope : ScopeId}
    (hlt : scope < r.arena.size) (name : String) :
    a.lookup scope name = r.arena.lookup scope name ∨
      ∃ ty s, a.lookup scope name = some ⟨.variable ty, some s⟩ ∧ r.nextSlot ≤ s := by
  rw [lookup_of_final hl hf hlt]
  exact hf.toExtends.lookup hlt name

/-- A variable in a slot that is handed out later is declared at a later visit. -/
theorem captured_of_lookup (hh : Handed start visits last) (hl : Final last a) (hv : v ∈ visits)
    (hm : Meets a last v g) {ty : Ty} {slot : Nat}
    (h : a.lookup v.ctx.scope name = some ⟨.variable ty, some slot⟩)
    (hle : v.state.nextSlot ≤ slot) : Captured visits v g name := by
  have hentity : g.env.entity? name = some (.slot slot) := by
    rw [Env.entity?, local?_eq, hm.aligned.arena, hm.aligned.scope, h]
    rfl
  obtain ⟨outer, haround, hlocal⟩ := Arena.exists_around h
  have hparent : ∀ id < v.state.arena.size, a.parentOf id = v.state.arena.parentOf id :=
    fun id hid => (hl.parent id (Nat.lt_of_lt_of_le hid hm.filled.size)).trans
      (hm.filled.parent id hid)
  have haround' := haround.congr hparent hm.aligned.visible.lt
  have houter : outer < last.arena.size :=
    Nat.lt_of_le_of_lt haround.le (Nat.lt_of_lt_of_le hm.aligned.visible.lt hm.filled.size)
  rw [hl.same outer houter] at hlocal
  rcases hh.later v hv outer name _ hlocal with hold | ⟨later, hlater, x, hx, rfl, rfl, he⟩
  · rcases hm.aligned.visible.entries outer haround' name _ hold with ⟨_, _, heq, hlt⟩ | ⟨hnone, -⟩
    · cases heq
      exact (Nat.not_le.2 hlt hle).elim
    · cases hnone
  · cases he
    refine ⟨later, hlater, x, hx, rfl, ?_, hle, hentity⟩
    rw [hm.aligned.arena, hm.aligned.scope]
    exact haround

/-- Both passes take a name for the same thing, exactly if the lowering does not take it for a
variable that the walk has not come to. -/
theorem entity?_eq_iff (hh : Handed start visits last) (hl : Final last a) (hv : v ∈ visits)
    (hm : Meets a last v g) (hname : v.place.name? = some name) :
    ∃ e, v.ctx.entity? v.state.arena name = some e ∧
      (g.env.entity? name = some e ↔ ¬ Captured visits v g name) := by
  obtain ⟨e, he⟩ := exists_entity hm.settled hname
  refine ⟨e, he, ?_, ?_⟩
  · rintro hsame ⟨later, -, x, -, -, -, hle, hslot⟩
    cases hsame.symm.trans hslot
    exact Nat.not_le.2 (slot_lt_of_entity? hm.aligned.visible he) hle
  · intro hfree
    rcases lookup_finished hl hm.filled hm.aligned.visible.lt name with hsame | ⟨ty, slot, hfound, hle⟩
    · exact (entity?_of_lookup hm hname hsame).trans he
    · exact (hfree (captured_of_lookup hh hl hv hm hfound hle)).elim

/-! ## Accepted programs -/

/-- What the passes take the name at a place for: the walk for something, and the lowering for the
same thing, unless it is captured. -/
def SameEntity (visits : List Scope.Visit) (v : Scope.Visit) (g : Visit) : Prop :=
  g.place = v.place ∧ ∀ name, v.place.name? = some name →
    ∃ e, v.ctx.entity? v.state.arena name = some e ∧
      (g.env.entity? name = some e ↔ ¬ Captured visits v g name)

theorem Tracks.forall₂_sameEntity {w : Tour Scope.Visit} {g : Tour Visit}
    (h : Tracks a start last w g) : List.Forall₂ (SameEntity w.visits) w.visits g.visits := by
  have hmem : List.Forall₂ (fun v g => v ∈ w.visits ∧ Meets a last v g) w.visits g.visits :=
    (List.forall₂_and_left ..).2 ⟨fun _ => id, h.meets⟩
  exact hmem.imp fun v g hm =>
    ⟨hm.2.place, fun name => entity?_eq_iff h.handed h.final hm.1 hm.2⟩

/-- In a program without faults in types and names, the lowering takes the name at the head of each
chain and of each target for what the walk takes it for, unless a variable of that name is declared
later in a scope around the place: it takes the name for that variable instead. The lowering loads
what it takes a name for, and stores into it. -/
theorem names_agree_unless_captured {source : String} {program : Program} {analysis : Analysis}
    (hparse : parseSource source = .ok program) (hanalyze : analyze program = .ok analysis) :
    (∀ g ∈ tours analysis.table analysis.arena program,
      ∃ w ∈ Scope.tours program analysis.table, w.node = g.node ∧
        List.Forall₂ (SameEntity w.visits) w.visits g.visits) ∧
    (∀ d, .class_ d ∈ program.declarations → ∀ t ∈ d.tours,
      ∃ g ∈ tours analysis.table analysis.arena program,
        g.node = t.node ∧ g.visits.map Visit.place = t.visits) ∧
    (∀ env name p first r next, Yields (nameHead env name p) first r next →
      ∃ e, env.entity? name = some e ∧ e.LoadedBy name r.code) ∧
    ∀ env name p op value first code next, Yields (assignName env name p op value) first code next →
      ∃ e, env.entity? name = some e ∧ e.StoredBy name code := by
  refine ⟨?_, fun d hd t => exists_tour hd, fun env name p first r next => nameHead_loads,
    fun env name p op value first code next => assignName_stores⟩
  intro g hg
  obtain ⟨w, hw, hm⟩ := exists_of_mem_right (analyzed_matches hparse hanalyze) (mem_tours.1 hg)
  obtain ⟨start, last, ht⟩ := hm
  exact ⟨w, hw, ht.node.symm, ht.forall₂_sameEntity⟩

/-- A property of a superclass, a variable in an inner scope that hides it, and `System`. -/
def hiddenProperty : String :=
  "class B { int x; } " ++
    "class A extends B { A() { x = 1; if (x > 0) { int x = 2; System.out.println(x); } } }"

theorem hiddenProperty_agrees : ∃ program analysis,
    parseSource hiddenProperty = .ok program ∧ analyze program = .ok analysis ∧
    ∀ g ∈ tours analysis.table analysis.arena program,
      ∃ w ∈ Scope.tours program analysis.table, w.node = g.node ∧
        List.Forall₂ (SameEntity w.visits) w.visits g.visits := by
  have hok : (compile hiddenProperty).isOk = true := by
    rw [compile, parseSource, tokenize_ofList (s := hiddenProperty) (Source.append_ofList rfl rfl)]
    decide +kernel
  obtain ⟨text, h⟩ := exists_ok_of_isOk hok
  obtain ⟨program, analysis, sections, ha, -⟩ := compile_eq_ok_iff.1 h
  exact ⟨program, analysis, ha.parsed, ha.analyzed,
    (names_agree_unless_captured ha.parsed ha.analyzed).1⟩

/-- An assignment to a property in front of a variable of the same name. -/
def earlyUse : String := "class A { int x; void f() { x = 1; int x = 2; } }"

/-- The walk takes the assigned name for the property, the lowering for the variable. -/
theorem earlyUse_captured : ∃ program analysis,
    parseSource earlyUse = .ok program ∧ analyze program = .ok analysis ∧
    ∃ w ∈ Scope.tours program analysis.table,
      ∃ g ∈ tours analysis.table analysis.arena program, w.node = g.node ∧
        ∃ pair ∈ w.visits.zip g.visits, pair.1.place.name? = some "x" ∧
          pair.1.ctx.entity? pair.1.state.arena "x" = some (.property "A") ∧
          pair.2.env.entity? "x" = some (.slot 1) := by
  have hcheck : ((parseSource earlyUse).toOption.any fun program =>
      (analyze program).toOption.any fun (analysis : Analysis) =>
        decide (∃ w ∈ Scope.tours program analysis.table,
          ∃ g ∈ tours analysis.table analysis.arena program, w.node = g.node ∧
            ∃ pair ∈ w.visits.zip g.visits, pair.1.place.name? = some "x" ∧
              pair.1.ctx.entity? pair.1.state.arena "x" = some (.property "A") ∧
              pair.2.env.entity? "x" = some (.slot 1))) = true := by
    rw [parseSource, tokenize_ofList (s := earlyUse) rfl]
    decide +kernel
  obtain ⟨program, hparse, hcheck⟩ := exists_ok_of_any hcheck
  obtain ⟨analysis, hanalyze, hcheck⟩ := exists_ok_of_any hcheck
  exact ⟨program, analysis, hparse, hanalyze, of_decide_eq_true hcheck⟩

end Lowering

end Javelet
