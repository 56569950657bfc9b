import Javelet.Proofs.Lowering.OperandStack
import Javelet.Proofs.Scope.Carried
import Javelet.Proofs.Types.Members

/-!
# Inherited properties as names

From a place in a class a name means a variable, or what it means in the scope of the class. That
scope holds the properties and methods of the class itself, and around it lie the names of all
types. So a property of the class hides a type of its name, and a type hides a property of a
superclass: such a property is not found under its bare name, every other one is.
-/
namespace Javelet

namespace Scope

variable {table : Types.Table} {className name : String} {base : String → Option Entry}
  {ctx : Context} {r r' : Resolved}

/-! ## What is found from a place -/

/-- From a place with a receiver a name means a variable, or what `base` gives. -/
structure Outward (table : Types.Table) (className : String) (base : String → Option Entry)
    (ctx : Context) (r : Resolved) : Prop where
  table : ctx.table = table
  className : ctx.className = className
  isStatic : ctx.isStatic = false
  lt : ctx.scope < r.arena.size
  lookup : ∀ name, r.arena.lookup ctx.scope name = base name ∨
    ∃ ty s, r.arena.lookup ctx.scope name = some ⟨.variable ty, some s⟩

theorem lookup_enter (parent : ScopeId) (h : parent < r.arena.size) (text : String) (kind : Kind)
    (node : NodeId) (name : String) :
    (r.enter parent text kind node).1.arena.lookup r.arena.size name =
      r.arena.lookup parent name := by
  have hlocal : ∀ id, (r.enter parent text kind node).1.arena.lookupLocal id name =
      r.arena.lookupLocal id name :=
    fun id => Arena.lookupLocal_push _ _ _ _ id name
  have hnone : r.arena.lookupLocal r.arena.size name = none := by
    rw [Arena.lookupLocal, Arena.get?_eq_none (Nat.le_refl _)]
    rfl
  rw [Arena.lookup_of_parent ((hlocal _).trans hnone) (Arena.parentOf_push_size ..) h]
  exact Arena.lookup_congr (fun id hid => Arena.parentOf_push hid) (fun id _ => hlocal id) h

theorem carried_outward (table : Types.Table) (className : String)
    (base : String → Option Entry) : Carried (Outward table className base) := by
  refine ⟨?_, ?_, ?_⟩
  · intro ctx r r' h hf
    refine ⟨h.table, h.className, h.isStatic, Nat.lt_of_lt_of_le h.lt hf.size, ?_⟩
    intro name
    rcases hf.toExtends.lookup h.lt name with hsame | ⟨ty, s, hnew, -⟩
    · rw [hsame]
      exact h.lookup name
    · exact .inr ⟨ty, s, hnew⟩
  · intro ctx r h text kind node
    refine ⟨h.table, h.className, h.isStatic, ?_, ?_⟩
    · exact Nat.lt_of_lt_of_eq (Nat.lt_succ_self _) (Arena.size_push ..).symm
    · intro name
      rw [lookup_enter ctx.scope h.lt]
      exact h.lookup name
  · intro ctx r h node id
    refine ⟨h.table, h.className, h.isStatic, h.lt, ?_⟩
    intro name
    have hsame : (r.arena.attach node id).lookup ctx.scope name = r.arena.lookup ctx.scope name :=
      Arena.lookup_congr (fun _ _ => rfl) (fun _ _ => rfl) h.lt
    have hlookup := h.lookup name
    rwa [← hsame] at hlookup

/-! ## The names of types -/

/-- Seen from a scope, names mean what `base` gives. -/
structure Means (scope : ScopeId) (base : String → Option Entry) (r : Resolved) : Prop where
  lt : scope < r.arena.size
  lookup : ∀ name, r.arena.lookup scope name = base name

/-- In a scope that is not walked names keep their meaning. -/
theorem Means.grown {scope : ScopeId} {nodes : List NodeId} (h : Means scope base r)
    (hg : Grown nodes r r') : Means scope base r' := by
  refine ⟨Nat.lt_of_lt_of_le h.lt hg.size, ?_⟩
  intro name
  rw [Arena.lookup_congr hg.parent (fun id hid => hg.same id hid name) h.lt]
  exact h.lookup name

theorem means_typeNames (program : Program) :
    Means Arena.root ((typeNames program).lookupLocal Arena.root) ⟨typeNames program, #[], 0⟩ := by
  have henters := enters_typeNames program
  refine ⟨Nat.lt_of_lt_of_eq Nat.zero_lt_one henters.size.symm, ?_⟩
  intro name
  cases hlocal : (typeNames program).lookupLocal Arena.root name with
  | some e => exact Arena.lookup_of_lookupLocal hlocal
  | none =>
    refine Arena.lookup_eq_none hlocal ?_
    intro parent hparent
    exact Nat.not_lt_zero parent

/-! ## The scope of a class -/

/-- What a name means in the scope of a class: a property or a method of the class, or else what it
means outside. -/
def classMeaning (program : Program) (info : Types.TypeInfo) (name : String) : Option Entry :=
  (((info.properties.values.find? fun p => p.name = name).map fun p => ⟨.variable p.type, none⟩).or
    ((info.methods.values.find? fun m => m.signature = name).map fun m =>
      ⟨.method m.returns, none⟩)).or
    ((typeNames program).lookupLocal Arena.root name)

theorem means_atClass {program : Program} {d : ClassDecl} {info : Types.TypeInfo}
    (hinfo : table.find? d.name = some info)
    (hr : Means Arena.root ((typeNames program).lookupLocal Arena.root) r) :
    Means r.arena.size (classMeaning program info) (Resolved.atClass table r d) := by
  have hopened : r.arena.size <
      (r.enter Arena.root d.name .class_ d.id).1.arena.size :=
    Nat.lt_of_lt_of_eq (Nat.lt_succ_self _) (Arena.size_push ..).symm
  have henters := Resolved.enters_atClass table r d
  refine ⟨Nat.lt_of_lt_of_eq hopened henters.size.symm, ?_⟩
  intro name
  have hnone : (r.enter Arena.root d.name .class_ d.id).1.arena.lookupLocal r.arena.size name =
      none := by
    rw [show (r.enter Arena.root d.name .class_ d.id).1.arena.lookupLocal r.arena.size name =
      r.arena.lookupLocal r.arena.size name from Arena.lookupLocal_push .., Arena.lookupLocal,
      Arena.get?_eq_none (Nat.le_refl _)]
    rfl
  have hlocal : (Resolved.atClass table r d).arena.lookupLocal r.arena.size name =
      ((info.properties.values.find? fun p => p.name = name).map fun p =>
        (⟨.variable p.type, none⟩ : Entry)).or
      ((info.methods.values.find? fun m => m.signature = name).map fun m =>
        ⟨.method m.returns, none⟩) := by
    unfold Resolved.atClass
    rw [hinfo]
    unfold Resolved.members
    rw [Arena.lookupLocal_foldl_insertNew Types.MethodInfo.signature
        (fun m => ⟨.method m.returns, none⟩),
      Arena.lookupLocal_foldl_insertNew Types.PropertyInfo.name
        (fun p => ⟨.variable p.type, none⟩) hopened, hnone, Option.none_or]
    rw [Arena.size_foldl_insertNew Types.PropertyInfo.name]
    exact hopened
  cases hfound : (Resolved.atClass table r d).arena.lookupLocal r.arena.size name with
  | some e =>
    rw [hfound] at hlocal
    rw [Arena.lookup_of_lookupLocal hfound, classMeaning, ← hlocal, Option.some_or]
  | none =>
    have hparent : (Resolved.atClass table r d).arena.parentOf r.arena.size = some Arena.root :=
      (henters.parent _).trans (Arena.parentOf_push_size ..)
    have hgrown := Resolved.grown_atClass table r d
    rw [hfound] at hlocal
    rw [Arena.lookup_of_parent hfound hparent hr.lt, (hr.grown hgrown).lookup, classMeaning,
      ← hlocal, Option.none_or]

/-! ## Bare names of properties -/

/-- A class and what is known of it: its properties stand under their names, and no type has the
key of a method as its name. -/
structure MembersKnown (program : Program) (table : Types.Table) (d : ClassDecl)
    (info : Types.TypeInfo) : Prop where
  find : table.find? d.name = some info
  properties : ∀ name, (∃ p ∈ info.properties.values, p.name = name) ↔
    name ∈ d.properties.map fun q => q.variable_.name
  methods : ∀ m ∈ info.methods.values, m.signature ∉ program.declarations.map TypeDecl.name

/-- What is said of the bare name at a visit, if it is the name of a property that the class has or
inherits and no variable of that name can be seen: it has no fault, unless the class has no property
of that name itself and there is a type of that name. -/
def NamesProperty (program : Program) (table : Types.Table) (d : ClassDecl) (v : Visit) : Prop :=
  ∀ name, v.place.name? = some name →
    (∀ e, v.state.arena.lookup v.ctx.scope name = some e → e.isLocal = false) →
    (table.findProperty d.name name).isSome →
    v.ctx.nameFault v.state.arena name =
      if name ∈ program.declarations.map TypeDecl.name ∧
          name ∉ d.properties.map fun q => q.variable_.name then
        some (.typeAsValue name)
      else none

theorem nameFault_of_outward {program : Program} {d : ClassDecl} {info : Types.TypeInfo}
    (hk : MembersKnown program table d info)
    (h : Outward table d.name (classMeaning program info) ctx r)
    (hfree : ∀ e, r.arena.lookup ctx.scope name = some e → e.isLocal = false)
    (hfound : (table.findProperty d.name name).isSome) :
    ctx.nameFault r.arena name =
      if name ∈ program.declarations.map TypeDecl.name ∧
          name ∉ d.properties.map fun q => q.variable_.name then
        some (.typeAsValue name)
      else none := by
  have hlookup : r.arena.lookup ctx.scope name = classMeaning program info name := by
    rcases h.lookup name with hsame | ⟨ty, s, hlocal⟩
    · exact hsame
    · cases hfree _ hlocal
  have hreceiver : ∀ use, ctx.instanceFault use = none := by
    intro use
    rw [Context.instanceFault, h.isStatic, if_neg Bool.false_ne_true]
  unfold Context.nameFault
  rw [h.table, h.className, if_pos hfound, hlookup, classMeaning]
  simp only [hreceiver]
  cases hp : info.properties.values.find? fun p => p.name = name with
  | some p =>
    have hown : name ∈ d.properties.map fun q => q.variable_.name :=
      (hk.properties name).1 ⟨p, List.mem_of_find?_eq_some hp,
        by simpa using List.find?_some hp⟩
    rw [if_neg fun hhidden => hhidden.2 hown]
    rfl
  | none =>
    have hown : name ∉ d.properties.map fun q => q.variable_.name := by
      intro hmem
      obtain ⟨p, hmem, hname⟩ := (hk.properties name).2 hmem
      exact List.find?_eq_none.1 hp p hmem (decide_eq_true hname)
    cases hm : info.methods.values.find? fun m => m.signature = name with
    | some m =>
      have hsignature : m.signature = name := by simpa using List.find?_some hm
      rw [if_neg fun hhidden =>
        hk.methods m (List.mem_of_find?_eq_some hm) (hsignature ▸ hhidden.1)]
      rfl
    | none =>
      rw [lookupLocal_typeNames]
      by_cases ht : name ∈ program.declarations.map TypeDecl.name
      · rw [if_pos ht, if_pos ⟨ht, hown⟩]
        rfl
      · rw [if_neg ht, if_neg fun hhidden => ht hhidden.1]
        rfl

/-! ## Programs -/

/-- The walk comes to each member of a list in a state that has grown from the first one. -/
theorem exists_along {α β : Type} (f : Resolved → α → Resolved) (see : Resolved → α → List β)
    {nodes : α → List NodeId} {xs : List α} {scope : ScopeId} (hn : (xs.flatMap nodes).Nodup)
    (hc : Closed r (xs.flatMap nodes)) (hr : Means scope base r)
    (hf : ∀ x ∈ xs, ∀ r, (nodes x).Nodup → Closed r (nodes x) → Grown (nodes x) r (f r x))
    {x : α} (hx : x ∈ xs) :
    ∃ r', Means scope base r' ∧ (nodes x).Nodup ∧ Closed r' (nodes x) ∧
      see r' x ⊆ Resolved.along f see r xs := by
  induction xs generalizing r with
  | nil => cases hx
  | cons y ys ih =>
    rw [List.flatMap_cons] at hn hc
    rw [List.nodup_append] at hn
    rw [Resolved.along]
    have hgrown := hf y (List.mem_cons_self ..) r hn.1 hc.left
    rcases List.mem_cons.1 hx with rfl | hx
    · exact ⟨r, hr, hn.1, hc.left, List.subset_append_left _ _⟩
    · have hclosed : Closed (f r y) (ys.flatMap nodes) := by
        intro node hnode
        have hother : node ∉ nodes y := fun hmem => hn.2.2 node hmem node hnode rfl
        rw [(hgrown.attached node hother).scopeOf]
        exact hc.right node hnode
      obtain ⟨r', hmeans, hnodup, hclosed', hsub⟩ := ih hn.2.1 hclosed (hr.grown hgrown)
        (fun y hy => hf y (List.mem_cons_of_mem _ hy)) hx
      exact ⟨r', hmeans, hnodup, hclosed', List.subset_append_of_subset_right _ hsub⟩

theorem exists_membersKnown {source : String} {program : Program}
    (hparse : parseSource source = .ok program) (hfaults : (Types.collect program).faults = #[])
    {d : ClassDecl} (hd : .class_ d ∈ program.declarations) :
    ∃ info, MembersKnown program (Types.collect program).table d info := by
  obtain ⟨hw, -⟩ := Lowering.wellNamed_of_parseSource hparse
  obtain ⟨info, hfind, -, -, -, hproperties⟩ := Types.collect_keeps_members hparse hfaults hd
  refine ⟨info, hfind, ?_, ?_⟩
  · intro name
    have hvalues : info.properties.values.Perm (d.properties.map .ofProperty) := by
      have hsnd := hproperties.map Prod.snd
      rwa [ClassDecl.propertyEntries, List.map_map] at hsnd
    simp only [hvalues.mem_iff, List.mem_map]
    constructor
    · rintro ⟨p, ⟨q, hq, rfl⟩, hname⟩
      exact ⟨q, hq, hname⟩
    · rintro ⟨q, hq, hname⟩
      exact ⟨_, ⟨q, hq, rfl⟩, hname⟩
  · intro m _ hmem
    obtain ⟨e, he, hname⟩ := List.mem_map.1 hmem
    have hplain : PlainName e.name := by
      cases e with
      | class_ e => exact (hw _ he).name.toPlainName
      | interface e => exact (hw _ he).name.toPlainName
    -- the key of a method has a bracket, the name of a type has none
    have hbracket : '(' ∉ e.name.toList := hplain.not_mem (by decide)
    refine hbracket ?_
    rw [hname]
    simp [Types.MethodInfo.signature, signatureText]

variable {program : Program} {d : ClassDecl} {info : Types.TypeInfo}

theorem namesProperty_of_outward (hk : MembersKnown program table d info) {visits : List Visit}
    (h : ∀ v ∈ visits, Outward table d.name (classMeaning program info) v.ctx v.state) :
    ∀ v ∈ visits, NamesProperty program table d v :=
  fun v hv _ _ hfree hfound => nameFault_of_outward hk (h v hv) hfree hfound

/-- No name stands behind a member. -/
theorem namesProperty_boundary (ctx : Context) (r : Resolved) (e : ClassDecl) :
    NamesProperty program table d ⟨.boundary e, ctx, r⟩ := by
  intro name hname
  cases hname

/-- What is seen of the initial values of a class. -/
theorem namesProperty_valueTour (hk : MembersKnown program table d info)
    (hr : Means Arena.root ((typeNames program).lookupLocal Arena.root) r) :
    ∀ v ∈ (Resolved.valueTour table r d).visits, NamesProperty program table d v := by
  have hmeans := means_atClass hk.find hr
  have hstart : Outward table d.name (classMeaning program info)
      (Resolved.classContext table r d) (Resolved.atClass table r d) :=
    ⟨rfl, rfl, rfl, hmeans.lt, fun name => .inl (hmeans.lookup name)⟩
  refine List.forall_mem_append.2 ⟨?_, ?_⟩
  · exact namesProperty_of_outward hk ((carried_outward _ _ _).values hstart)
  · exact List.forall_mem_singleton.2 (namesProperty_boundary _ _ d)

/-- What is seen of the body of a method with a receiver. -/
theorem namesProperty_methodTour (hk : MembersKnown program table d info) {m : Method}
    (hctx : ctx.table = table ∧ ctx.className = d.name) (hm : m.signature.isStatic = false)
    (hr : Means ctx.scope (classMeaning program info) r) (hw : m.WellNamed) (hn : m.nodes.Nodup)
    (hc : Closed r m.nodes) :
    ∀ v ∈ (Resolved.methodTour ctx d r m).visits, NamesProperty program table d v := by
  refine List.forall_mem_append.2 ⟨?_, ?_⟩
  · refine namesProperty_of_outward hk ((carried_outward _ _ _).body hw hn hc ?_)
    exact ⟨hctx.1, hctx.2, hm, hr.lt, fun name => .inl (hr.lookup name)⟩
  · exact List.forall_mem_singleton.2 (namesProperty_boundary _ _ d)

end Scope

/-- The tours over the parts of a class that have a receiver, told by the places: over the initial
values of the properties, and over every constructor and method but the entry point. -/
def ClassDecl.instanceTours (d : ClassDecl) : List (Tour Place) :=
  ⟨d.id, d.values.flatMap Expr.places ++ [.boundary d]⟩ ::
    (d.members.filter fun m => !m.signature.isStatic).map fun m =>
      ⟨m.signature.id, m.body.places ++ [.boundary d]⟩

namespace Scope

/-- In a program whose types are in order, and wherever there is a receiver: the bare name of a
property that no variable hides is accepted if the class declares the property itself, or if no type
has this name. The name of a type hides an inherited property. -/
theorem properties_hidden_by_types {source : String} {program : Program}
    (hparse : parseSource source = .ok program) (hfaults : (Types.collect program).faults = #[])
    {d : ClassDecl} (hd : .class_ d ∈ program.declarations) :
    ∀ t ∈ d.instanceTours, ∃ w ∈ tours program (Types.collect program).table,
      w.node = t.node ∧ w.visits.map Visit.place = t.visits ∧
        ∀ v ∈ w.visits, NamesProperty program (Types.collect program).table d v := by
  obtain ⟨hw, hn⟩ := Lowering.wellNamed_of_parseSource hparse
  obtain ⟨info, hk⟩ := exists_membersKnown hparse hfaults hd
  obtain ⟨r, hmeans, hnodes, hclosed, hsub⟩ :
      ∃ r, Means Arena.root ((typeNames program).lookupLocal Arena.root) r ∧ d.nodes.Nodup ∧
        Closed r d.nodes ∧ Resolved.classTours (Types.collect program).table r d ⊆
          tours program (Types.collect program).table :=
    exists_along (Resolved.declaration _) (Resolved.declarationTours _) hn
      (fun node _ => scopeOf_typeNames program node) (means_typeNames program)
      (fun e he r hn hc => Resolved.grown_declaration (hw e he) hn hc) hd
  have hclass : d.WellNamed := hw _ hd
  intro t ht
  rcases List.mem_cons.1 ht with rfl | ht
  · refine ⟨_, hsub (List.mem_cons_self ..), rfl, ?_, namesProperty_valueTour hk hmeans⟩
    rw [Resolved.valueTour, List.map_append, map_place_values]
    rfl
  · obtain ⟨m, hm, rfl⟩ := List.mem_map.1 ht
    rw [List.mem_filter, Bool.not_eq_true'] at hm
    have hvalues : Means r.arena.size (classMeaning program info)
        (Resolved.behindValues (Types.collect program).table r d) :=
      (means_atClass hk.find hmeans).grown (Resolved.walked_initialValues ..).grown
    have hbehind : Closed (Resolved.behindValues (Types.collect program).table r d)
        (d.members.flatMap Method.nodes) :=
      closed_behindValues hnodes hclosed
    rw [ClassDecl.nodes, List.nodup_cons] at hnodes
    let ctx := Resolved.classContext (Types.collect program).table r d
    obtain ⟨r', hmeans', hnodes', hclosed', hsub'⟩ := exists_along (Resolved.method ctx)
      (fun r m => [Resolved.methodTour ctx d r m]) hnodes.2 hbehind hvalues
      (fun m hm r hn hc => Resolved.grown_method (hclass.methods m hm) hn hc) hm.1
    refine ⟨_, hsub (List.mem_cons_of_mem _ (hsub' (List.mem_singleton_self _))), rfl,
      map_place_methodTour .., ?_⟩
    exact namesProperty_methodTour hk ⟨rfl, rfl⟩ hm.2 hmeans' (hclass.methods m hm.1) hnodes'
      hclosed'

/-- A property of a superclass that has the name of a type. -/
def typeNamesake : String :=
  "class T { } class S { int T; } class C extends S { int f() { return T; } }"

theorem typeNamesake_properties : ∃ program d, parseSource typeNamesake = .ok program ∧
    (Types.collect program).faults = #[] ∧ .class_ d ∈ program.declarations ∧ d.name = "C" ∧
    ∀ t ∈ d.instanceTours, ∃ w ∈ tours program (Types.collect program).table,
      w.node = t.node ∧ w.visits.map Visit.place = t.visits ∧
        ∀ v ∈ w.visits, NamesProperty program (Types.collect program).table d v := by
  have hcheck : ((parseSource typeNamesake).toOption.any fun program =>
      (Types.collect program).faults.isEmpty && program.classes.any fun d => d.name == "C") =
      true := by
    rw [parseSource, tokenize_ofList (s := typeNamesake) rfl]
    decide +kernel
  obtain ⟨program, hparse, hcheck⟩ := Lowering.exists_ok_of_any hcheck
  rw [Bool.and_eq_true, Array.isEmpty_iff, List.any_eq_true] at hcheck
  obtain ⟨hfaults, d, hd, hname⟩ := hcheck
  obtain ⟨decl, hdecl, hclass⟩ := List.mem_filterMap.1 hd
  cases decl with
  | interface e => cases hclass
  | class_ d' =>
    cases hclass
    exact ⟨program, d, hparse, hfaults, hdecl, beq_iff_eq.1 hname,
      properties_hidden_by_types hparse hfaults hdecl⟩

/-- The inherited property is found in the types, there is a receiver and no variable of its name,
and still its bare name is refused. -/
theorem typeNamesake_refused : ∃ program, parseSource typeNamesake = .ok program ∧
    (Types.collect program).faults = #[] ∧
    ∃ w ∈ tours program (Types.collect program).table, ∃ v ∈ w.visits,
      v.ctx.className = "C" ∧ v.ctx.isStatic = false ∧ v.place.name? = some "T" ∧
      (v.state.arena.lookup v.ctx.scope "T").any Entry.isLocal = false ∧
      ((Types.collect program).table.findProperty "C" "T").isSome ∧
      v.ctx.nameFault v.state.arena "T" = some (.typeAsValue "T") ∧
      ∃ f ∈ (resolve program (Types.collect program).table).faults.toList,
        f.fault = .typeAsValue "T" := by
  have hcheck : ((parseSource typeNamesake).toOption.any fun program =>
      decide ((Types.collect program).faults.toList = [] ∧
        ∃ w ∈ tours program (Types.collect program).table, ∃ v ∈ w.visits,
          v.ctx.className = "C" ∧ v.ctx.isStatic = false ∧ v.place.name? = some "T" ∧
          (v.state.arena.lookup v.ctx.scope "T").any Entry.isLocal = false ∧
          ((Types.collect program).table.findProperty "C" "T").isSome ∧
          v.ctx.nameFault v.state.arena "T" = some (.typeAsValue "T") ∧
          ∃ f ∈ (resolve program (Types.collect program).table).faults.toList,
            f.fault = .typeAsValue "T")) = true := by
    rw [parseSource, tokenize_ofList (s := typeNamesake) rfl]
    decide +kernel
  obtain ⟨program, hparse, hcheck⟩ := Lowering.exists_ok_of_any hcheck
  obtain ⟨hfaults, hrest⟩ := of_decide_eq_true hcheck
  exact ⟨program, hparse, Array.toList_eq_nil_iff.1 hfaults, hrest⟩

end Scope

end Javelet
