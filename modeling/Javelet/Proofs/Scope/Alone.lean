import Javelet.Proofs.Scope.InStep

/-!
# Declarations walked alone

Of what has been walked before a declaration, its walk sees the names of the types and nothing else.
So a declaration that is walked behind others comes to the same faults as when it is walked alone,
and of its nodes the same is known afterwards. The faults of a program are those of its declarations,
one after the other.
-/
namespace Javelet

/-- Of a node the same is known in both arenas, and what is seen from its scope is the same. -/
structure Arena.Alike (node : NodeId) (a a' : Arena) : Prop where
  seen : (a'.scopeOf node).map a'.lookup = (a.scopeOf node).map a.lookup
  reservedSlot : a'.reservedSlot node = a.reservedSlot node
  localsOf : a'.localsOf node = a.localsOf node

namespace Arena

variable {node : NodeId} {nodes : List NodeId} {a a' a'' base : Arena}

theorem Alike.symm (h : Alike node a a') : Alike node a' a :=
  ⟨h.seen.symm, h.reservedSlot.symm, h.localsOf.symm⟩

theorem Alike.trans (h : Alike node a a') (h' : Alike node a' a'') : Alike node a a'' :=
  ⟨h'.seen.trans h.seen, h'.reservedSlot.trans h.reservedSlot, h'.localsOf.trans h.localsOf⟩

theorem Alongside.alike (h : Alongside nodes base a a') (hnode : node ∈ nodes) :
    Alike node a a' := by
  refine ⟨?_, h.known.reservedSlot node hnode, h.known.localsOf node hnode⟩
  rw [h.known.scopeOf node hnode, Option.map_map]
  congr 1
  funext id name
  exact h.placed.lookup id name

/-- What is added elsewhere later does not show at a node. -/
theorem Kept.alike (h : Kept nodes a a') (hnode : node ∉ nodes)
    (hlt : ∀ id, a.scopeOf node = some id → id < a.size) : Alike node a a' := by
  have hsame := h.elsewhere node hnode
  refine ⟨?_, hsame.reservedSlot, hsame.localsOf⟩
  rw [hsame.scopeOf]
  cases hscope : a.scopeOf node with
  | none => rfl
  | some id =>
    rw [Option.map_some, Option.map_some]
    congr 1
    funext name
    exact h.lookup (hlt id hscope) name

/-- Nothing is known of a node. -/
abbrev Unknown (node : NodeId) (a : Arena) : Prop := SameAt node .initial a

/-- The root of an arena holds the given names, and nothing is around it. -/
structure Rooted (names a : Arena) : Prop where
  size_pos : 0 < a.size
  lookupLocal : ∀ name, a.lookupLocal root name = names.lookupLocal root name
  parentOf : a.parentOf root = none

theorem Rooted.kept {names : Arena} (h : Rooted names a) (hk : Kept nodes a a') :
    Rooted names a' := by
  refine ⟨Nat.lt_of_lt_of_le h.size_pos hk.size, ?_, ?_⟩
  · intro name
    rw [hk.lookupLocal root h.size_pos, h.lookupLocal]
  · rw [hk.parentOf root h.size_pos, h.parentOf]

theorem Rooted.lookup {names : Arena} (h : Rooted names a) (name : String) :
    a.lookup root name = names.lookupLocal root name := by
  rw [← h.lookupLocal]
  cases hlocal : a.lookupLocal root name with
  | some e => exact lookup_of_lookupLocal hlocal
  | none =>
    refine lookup_eq_none hlocal ?_
    rw [h.parentOf]
    nofun

/-- Two walks start alike: one with the names of the types alone, the other behind more. -/
theorem alongside_start {names : Arena} (hsize : names.size = 1) (hnames : Rooted names names)
    (ha : Rooted names a) (hunknown : ∀ n ∈ nodes, Unknown n names ∧ Unknown n a) :
    Alongside nodes a names a := by
  have houtside : ∀ id : ScopeId, names.get? (id + 1) = none ∧ a.get? (a.size + id) = none :=
    fun id => ⟨get?_eq_none (hsize ▸ Nat.le_add_left 1 id), get?_eq_none (Nat.le_add_right _ _)⟩
  refine ⟨⟨ha.size_pos, hnames.size_pos, ?_, ?_, ?_⟩, ⟨?_, ?_, ?_, ?_⟩, .refl nodes a⟩
  · rw [hsize]
    rfl
  · intro id name
    cases id with
    | zero => exact ha.lookupLocal name
    | succ id =>
      rw [Scope.placed, Arena.lookupLocal, (houtside id).2, Arena.lookupLocal, (houtside id).1]
  · intro id
    cases id with
    | zero =>
      have hroot : names.parentOf 0 = none := hnames.parentOf
      rw [hroot]
      exact ha.parentOf
    | succ id =>
      rw [Scope.placed, Arena.parentOf, (houtside id).2, Arena.parentOf, (houtside id).1]
      rfl
  · intro n hn
    rw [(hunknown n hn).1.scopeOf, (hunknown n hn).2.scopeOf]
    rfl
  · intro n hn id hid
    rw [(hunknown n hn).1.scopeOf] at hid
    cases hid
  · intro n hn
    rw [(hunknown n hn).1.reservedSlot, (hunknown n hn).2.reservedSlot]
  · intro n hn
    rw [(hunknown n hn).1.localsOf, (hunknown n hn).2.localsOf]

end Arena

namespace Scope

/-! ## Methods and types -/

namespace Alongside

variable {base r r' : Resolved} {nodes : List NodeId} {ctx ctx' : Context} {table table' : Types.Table}

theorem method (h : Alongside base nodes r r') (hc : Beside base.arena.size ctx ctx') {m : Method}
    (hn : ∀ n ∈ m.nodes, n ∈ nodes) :
    Alongside base nodes (Resolved.method ctx r m) (Resolved.method ctx' r' m) := by
  rw [Method.nodes, Block.nodes_eq, List.forall_mem_cons, List.forall_mem_cons] at hn
  obtain ⟨hid, hbody, hstatements⟩ := hn
  have hpos := h.arena.placed.size_pos
  have hopened := h.enter ctx.scope m.signature.text .method hid
  have hattached := hopened.attach hbody hpos (r.size_enter .. ▸ Nat.lt_succ_self _)
  have hparams := (hattached.restart (if m.signature.isStatic then 0 else 1)).params hpos
    m.signature.params
  rw [← hc.scope, ← h.size] at hparams
  have hinside : Beside base.arena.size (Resolved.bodyContext ctx r m)
      (Resolved.bodyContext ctx' r' m) :=
    ⟨hc.table, hc.className, rfl, h.size, hpos⟩
  exact (hparams.statements (fun s _ => staysInStep s) hinside hstatements).setLocals hid

theorem abstractMethod (h : Alongside base nodes r r') (scope : ScopeId) {header : Signature}
    (hid : header.id ∈ nodes) :
    Alongside base nodes (Resolved.abstractMethod scope r header)
      (Resolved.abstractMethod (placed base.arena.size scope) r' header) := by
  have hpos := h.arena.placed.size_pos
  have hparams := ((h.enter scope header.text .method hid).restart 1).params hpos header.params
  rw [← h.size] at hparams
  exact hparams.setLocals hid

theorem members (h : Alongside base nodes r r') {scope : ScopeId} (hscope : 0 < scope)
    (info : Types.TypeInfo) :
    Alongside base nodes { r with arena := Resolved.members info scope r.arena }
      { r' with arena := Resolved.members info (placed base.arena.size scope) r'.arena } := by
  have hproperties := List.foldl_rel (l := info.properties.values) h.arena
    fun p _ _ _ ha => ha.insertNew hscope p.name ⟨.variable p.type, none⟩
  have hmethods := List.foldl_rel (l := info.methods.values) hproperties
    fun m _ _ _ ha => ha.insertNew hscope m.signature ⟨.method m.returns, none⟩
  exact ⟨hmethods, h.faults⟩

theorem atClass (h : Alongside base nodes r r') (ht : table.Same table') {d : ClassDecl}
    (hid : d.id ∈ nodes) :
    Alongside base nodes (Resolved.atClass table r d) (Resolved.atClass table' r' d) := by
  have hopened := h.enter Arena.root d.name .class_ hid
  unfold Resolved.atClass
  rw [ht d.name, h.size]
  cases table'.find? d.name with
  | none => exact hopened
  | some info => exact hopened.members h.arena.placed.size_pos info

theorem class_ (h : Alongside base nodes r r') (ht : table.Same table') {d : ClassDecl}
    (hn : ∀ n ∈ d.nodes, n ∈ nodes) :
    Alongside base nodes (Resolved.class_ table r d) (Resolved.class_ table' r' d) := by
  rw [ClassDecl.nodes, List.forall_mem_cons] at hn
  have hinside : Beside base.arena.size (Resolved.classContext table r d)
      (Resolved.classContext table' r' d) :=
    ⟨ht, rfl, rfl, h.size, h.arena.placed.size_pos⟩
  rw [Resolved.class_eq, Resolved.class_eq]
  refine List.foldl_rel (List.foldl_rel (h.atClass ht hn.1) ?_) ?_
  · exact fun e _ _ _ hr => hr.expr hinside e
  · exact fun m hm _ _ hr => hr.method hinside fun n hmem => hn.2 n (List.mem_flatMap.2 ⟨m, hm, hmem⟩)

theorem interface (h : Alongside base nodes r r') {d : InterfaceDecl}
    (hn : ∀ n ∈ d.nodes, n ∈ nodes) :
    Alongside base nodes (Resolved.interface r d) (Resolved.interface r' d) := by
  rw [InterfaceDecl.nodes, List.forall_mem_cons, List.forall_mem_map] at hn
  have hopened := h.enter Arena.root d.name .interface hn.1
  have hmethods : Alongside base nodes
      (d.methods.foldl (Resolved.abstractMethod r.arena.size)
        (r.enter Arena.root d.name .interface d.id).1)
      (d.methods.foldl (Resolved.abstractMethod (placed base.arena.size r.arena.size))
        (r'.enter Arena.root d.name .interface d.id).1) :=
    List.foldl_rel hopened fun header hmem _ _ hr => hr.abstractMethod _ (hn.2 header hmem)
  rw [← h.size] at hmethods
  exact hmethods

theorem declaration (h : Alongside base nodes r r') (ht : table.Same table') {d : TypeDecl}
    (hn : ∀ n ∈ d.nodes, n ∈ nodes) :
    Alongside base nodes (Resolved.declaration table r d) (Resolved.declaration table' r' d) := by
  cases d with
  | class_ d => exact h.class_ ht hn
  | interface d => exact h.interface hn

end Alongside

/-! ## Programs -/

/-- The walk over a declaration alone. -/
def alone (names : Arena) (table : Types.Table) (d : TypeDecl) : Resolved :=
  Resolved.declaration table ⟨names, #[], 0⟩ d

/-- The result of a walk over declarations, told by the walks over each of them alone. -/
structure Gathered (names : Arena) (table : Types.Table) (ds : List TypeDecl) (r r' : Resolved) :
    Prop where
  faults : r'.faults.toList =
    r.faults.toList ++ ds.flatMap fun d => (alone names table d).faults.toList
  alike : ∀ d ∈ ds, ∀ n ∈ d.nodes, (alone names table d).arena.Alike n r'.arena
  kept : Arena.Kept (ds.flatMap TypeDecl.nodes) r.arena r'.arena

theorem gathered_foldl {names : Arena} {table table' : Types.Table} (ht : table.Same table')
    (hsize : names.size = 1) (hnames : names.Rooted names) {ds : List TypeDecl}
    (hnodup : (ds.flatMap TypeDecl.nodes).Nodup)
    (hunknown : ∀ n ∈ ds.flatMap TypeDecl.nodes, Arena.Unknown n names) {r : Resolved}
    (hr : names.Rooted r.arena)
    (hr' : ∀ n ∈ ds.flatMap TypeDecl.nodes, Arena.Unknown n r.arena) :
    Gathered names table ds r (ds.foldl (Resolved.declaration table') r) := by
  induction ds generalizing r with
  | nil => exact ⟨by simp, List.forall_mem_nil _, .refl _ _⟩
  | cons d ds ih =>
    rw [List.flatMap_cons] at hnodup hunknown hr'
    rw [List.forall_mem_append] at hunknown hr'
    obtain ⟨-, hrest, hdisjoint⟩ := List.nodup_append.1 hnodup
    have hstart : Alongside r d.nodes ⟨names, #[], 0⟩ r :=
      ⟨Arena.alongside_start hsize hnames hr fun n hn => ⟨hunknown.1 n hn, hr'.1 n hn⟩, by simp⟩
    have hd : Alongside r d.nodes (alone names table d) (r.declaration table' d) :=
      hstart.declaration ht fun n hn => hn
    have hnext := ih hrest hunknown.2 (hr.kept hd.arena.kept) fun n hn =>
      (hr'.2 n hn).trans (hd.arena.kept.elsewhere n fun hmem => hdisjoint n hmem n hn rfl)
    refine ⟨?_, ?_, hd.arena.kept.trans hnext.kept⟩
    · rw [List.foldl_cons, hnext.faults, hd.faults, List.flatMap_cons, List.append_assoc]
    · rw [List.forall_mem_cons]
      refine ⟨?_, hnext.alike⟩
      intro n hn
      refine (hd.arena.alike hn).trans (hnext.kept.alike (fun hmem => hdisjoint n hn n hmem rfl) ?_)
      intro id hid
      rw [hd.arena.known.scopeOf n hn, Option.map_eq_some_iff] at hid
      obtain ⟨id, hid, rfl⟩ := hid
      rw [hd.size]
      exact Arena.placed_strictMono hr.size_pos (hd.arena.known.inner n hn id hid).2

section Programs

variable {p q : Program} (hp : p.declarations.Perm q.declarations)

include hp

theorem rooted_typeNames : (typeNames p).Rooted (typeNames q) := by
  have hentered := enters_typeNames q
  refine ⟨?_, ?_, ?_⟩
  · rw [hentered.size]
    exact Nat.succ_pos 0
  · intro name
    rw [lookupLocal_typeNames, lookupLocal_typeNames]
    simp only [(hp.map TypeDecl.name).mem_iff]
  · rw [hentered.parent]
    rfl

variable {table table' : Types.Table} (ht : table.Same table') (hn : p.nodes.Nodup)

include ht hn

/-- The walk over a program, told by the walks over its declarations alone, in whatever order the
names of the types have been entered. -/
theorem gathered_resolve : Gathered (typeNames p) table q.declarations
    ⟨typeNames q, #[], 0⟩ (resolve q table') := by
  have hunknown : ∀ (p : Program) (n : NodeId), Arena.Unknown n (typeNames p) :=
    fun p n => (enters_typeNames p).attached n
  exact gathered_foldl ht (enters_typeNames p).size (rooted_typeNames (.refl _))
    ((hp.flatMap_right TypeDecl.nodes).nodup hn) (fun n _ => hunknown p n) (rooted_typeNames hp)
    fun n _ => hunknown q n

theorem faults_resolve_perm :
    (resolve p table).faults.toList.Perm (resolve q table').faults.toList := by
  have hself := gathered_resolve (.refl p.declarations) (.refl table) hn
  rw [hself.faults, (gathered_resolve hp ht hn).faults]
  exact (hp.flatMap_right _).append_left _

/-- Of a node the same is known in every order of the declarations. -/
theorem alike_resolve {d : TypeDecl} (hd : d ∈ p.declarations) {n : NodeId} (hmem : n ∈ d.nodes) :
    (resolve p table).arena.Alike n (resolve q table').arena := by
  have hself := gathered_resolve (.refl p.declarations) (.refl table) hn
  exact (hself.alike d hd n hmem).symm.trans
    ((gathered_resolve hp ht hn).alike d (hp.subset hd) n hmem)

/-- From outside of all declarations the same is seen in every order. -/
theorem lookup_root_resolve (name : String) : (resolve q table').arena.lookup Arena.root name =
    (resolve p table).arena.lookup Arena.root name := by
  have hself := (rooted_typeNames (.refl p.declarations)).kept
    (gathered_resolve (.refl p.declarations) (.refl table) hn).kept
  have hother := (rooted_typeNames hp).kept (gathered_resolve hp ht hn).kept
  rw [hself.lookup, hother.lookup]

end Programs

end Scope

end Javelet
