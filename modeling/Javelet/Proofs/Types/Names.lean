import Javelet.Proofs.Syntax.Names
import Javelet.Types.Collect

/-!
# Well-named tables

The table of a well-named program holds plain names only, and every type in it is known, so it is
the type of a value. A call that is resolved has as many arguments as the method has parameters.
-/
namespace Javelet

namespace Dictionary

variable {α : Type}

theorem mem_place {key : String} {value : α} {entries : List (String × α)} {entry : String × α}
    (h : entry ∈ place key value entries) : entry = (key, value) ∨ entry ∈ entries := by
  induction entries with
  | nil => simpa [place] using h
  | cons first rest ih =>
    simp only [place] at h
    split at h
    · rcases List.mem_cons.1 h with h | h
      · exact .inl h
      · exact .inr (List.mem_cons_of_mem _ h)
    · split at h
      · exact List.mem_cons.1 h
      · rcases List.mem_cons.1 h with h | h
        · exact .inr (h ▸ List.mem_cons_self ..)
        · exact (ih h).imp_right (List.mem_cons_of_mem _)

theorem mem_values_insert {d : Dictionary α} {key : String} {value v : α}
    (h : v ∈ (d.insert key value).values) : v = value ∨ v ∈ d.values := by
  obtain ⟨entry, he, rfl⟩ := List.mem_map.1 h
  rcases mem_place he with rfl | he
  · exact .inl rfl
  · exact .inr (List.mem_map.2 ⟨entry, he, rfl⟩)

theorem mem_of_lookup {key : String} {value : α} {entries : List (String × α)}
    (h : lookup key entries = some value) : (key, value) ∈ entries := by
  induction entries with
  | nil => cases h
  | cons first rest ih =>
    simp only [lookup] at h
    split at h
    · rename_i hk
      cases h
      subst hk
      exact List.mem_cons_self ..
    · exact List.mem_cons_of_mem _ (ih h)

end Dictionary

namespace Types

/-- A property stands under its own name, which is plain, and has a type of values. -/
structure PropertyInfo.WellNamed (key : String) (p : PropertyInfo) : Prop where
  key : p.name = key
  name : PlainName p.name
  type : p.type.IsValue

structure MethodInfo.WellNamed (m : MethodInfo) : Prop where
  name : PlainName m.name
  params : ∀ t ∈ m.params, t.IsValue
  returns : m.returns.IsResult

structure TypeInfo.WellNamed (info : TypeInfo) : Prop where
  name : ValueName info.name
  superclass : ∀ s ∈ info.superclass, PlainName s
  properties : ∀ entry ∈ info.properties.entries, PropertyInfo.WellNamed entry.1 entry.2
  methods : ∀ m ∈ info.methods.values, m.WellNamed

def Table.WellNamed (t : Table) : Prop := ∀ info ∈ t.types, info.WellNamed

section Table

variable {t : Table} {name : String} {info : TypeInfo}

theorem mem_of_findType {types : List TypeInfo} (h : findType types name = some info) :
    info ∈ types ∧ info.name = name := by
  have hname := List.find?_some h
  exact ⟨List.mem_of_find?_eq_some h, by simpa using hname⟩

theorem Table.WellNamed.of_find? (ht : t.WellNamed) (h : t.find? name = some info) :
    info.WellNamed ∧ info.name = name := by
  obtain ⟨hmem, hname⟩ := mem_of_findType h
  exact ⟨ht info hmem, hname⟩

theorem Table.WellNamed.of_contains (ht : t.WellNamed) (h : t.contains name = true) :
    ValueName name := by
  obtain ⟨info, hfind⟩ := Option.isSome_iff_exists.1 h
  obtain ⟨hinfo, hname⟩ := ht.of_find? hfind
  exact hname ▸ hinfo.name

/-- A type that is resolved is the type of a value. -/
theorem Table.WellNamed.of_resolve (ht : t.WellNamed) {ty ty' : Ty} (h : t.resolve ty = .ok ty') :
    ty'.IsValue := by
  unfold Table.resolve at h
  split at h
  · cases h
  · split at h
    · rename_i hc
      cases h
      exact ht.of_contains hc
    · cases h

theorem Table.WellNamed.of_resolveReturn (ht : t.WellNamed) {ty ty' : Ty}
    (h : t.resolveReturn ty = .ok ty') : ty'.IsResult := by
  unfold Table.resolveReturn at h
  split at h
  · cases h
    exact .inl rfl
  · exact .inr (ht.of_resolve h)

theorem Table.WellNamed.modify (ht : t.WellNamed) {change : TypeInfo → TypeInfo}
    (hc : ∀ info, info.WellNamed → (change info).WellNamed) : (t.modify name change).WellNamed := by
  intro info hmem
  obtain ⟨info', hmem', rfl⟩ := List.mem_map.1 hmem
  split
  · exact hc info' (ht info' hmem')
  · exact ht info' hmem'

theorem Table.WellNamed.initial : Table.initial.WellNamed := by
  intro info hmem
  obtain ⟨name, hname, rfl⟩ := List.mem_map.1 hmem
  exact ⟨valueName_of_mem hname, nofun, nofun, nofun⟩

theorem TypeInfo.WellNamed.putProperty (hi : info.WellNamed) {p : PropertyInfo}
    (hn : PlainName p.name) (ht : p.type.IsValue) : (info.putProperty p).WellNamed := by
  refine ⟨hi.name, hi.superclass, ?_, hi.methods⟩
  intro entry hentry
  rcases Dictionary.mem_place hentry with rfl | hentry
  · exact ⟨rfl, hn, ht⟩
  · exact hi.properties entry hentry

theorem TypeInfo.WellNamed.putMethod (hi : info.WellNamed) {m : MethodInfo} (hm : m.WellNamed) :
    (info.putMethod m).WellNamed := by
  refine ⟨hi.name, hi.superclass, hi.properties, ?_⟩
  intro m' hmem
  rcases Dictionary.mem_values_insert hmem with rfl | hmem
  · exact hm
  · exact hi.methods m' hmem

end Table

/-! ## Collecting -/

namespace Collected

variable {c : Collected}

theorem wellNamed_modify (hc : c.table.WellNamed) {name : String} {change : TypeInfo → TypeInfo}
    (h : ∀ info, info.WellNamed → (change info).WellNamed) :
    (c.modify name change).table.WellNamed :=
  hc.modify h

theorem wellNamed_register (hc : c.table.WellNamed) {decl : TypeDecl} (hd : ValueName decl.name) :
    (c.register decl).1.table.WellNamed := by
  have hdeclare : ∀ category table, c.table.declare (.bare decl.name category) = .ok table →
      table.WellNamed := by
    intro category table h
    unfold Table.declare at h
    split at h
    · cases h
    · cases h
      exact List.forall_mem_cons.2 ⟨⟨hd, nofun, nofun, nofun⟩, hc⟩
  unfold register
  cases decl with
  | class_ d =>
    simp only
    split
    · exact hdeclare _ _ ‹_›
    · exact hc
  | interface d =>
    simp only
    split
    · exact hdeclare _ _ ‹_›
    · exact hc

theorem valueName_of_typeDecl {decl : TypeDecl} (h : decl.WellNamed) : ValueName decl.name := by
  cases decl with
  | class_ d => exact ClassDecl.WellNamed.name h
  | interface d => exact InterfaceDecl.WellNamed.name h

theorem wellNamed_registerAll {decls : List TypeDecl} (hc : c.table.WellNamed)
    (hd : ∀ d ∈ decls, d.WellNamed) :
    (c.registerAll decls).1.table.WellNamed ∧ ∀ d ∈ (c.registerAll decls).2, d ∈ decls := by
  induction decls generalizing c with
  | nil => exact ⟨hc, nofun⟩
  | cons decl rest ih =>
    have hfirst := wellNamed_register hc (valueName_of_typeDecl (hd decl (List.mem_cons_self ..)))
    obtain ⟨htable, hkept⟩ := ih hfirst fun d hm => hd d (List.mem_cons_of_mem _ hm)
    refine ⟨htable, ?_⟩
    intro d hm
    simp only [registerAll] at hm
    split at hm
    · rcases List.mem_cons.1 hm with rfl | hm
      · exact List.mem_cons_self ..
      · exact List.mem_cons_of_mem _ (hkept d hm)
    · exact List.mem_cons_of_mem _ (hkept d hm)

/-- A supertype that is accepted is in the table. -/
theorem supertype_spec (hc : c.table.WellNamed) (wanted : Category) (p : Position)
    (name : Option String) :
    (c.supertype wanted p name).1.table = c.table ∧
      ∀ s ∈ (c.supertype wanted p name).2, PlainName s := by
  unfold supertype
  split
  · exact ⟨rfl, by simp⟩
  · rename_i name
    split
    · exact ⟨rfl, by simp⟩
    · rename_i info hlookup
      split
      · refine ⟨rfl, ?_⟩
        intro s hs
        cases hs
        unfold Table.lookup at hlookup
        split at hlookup
        · rename_i hfind
          cases hlookup
          obtain ⟨hinfo, hname⟩ := hc.of_find? hfind
          exact hname ▸ hinfo.name.toPlainName
        · cases hlookup
      · exact ⟨rfl, by simp⟩

theorem wellNamed_linkSupertypes (hc : c.table.WellNamed) (decl : ClassDecl) :
    (c.linkSupertypes decl).table.WellNamed := by
  obtain ⟨htable, hsuper⟩ := supertype_spec hc .class_ decl.position decl.superclass
  have hc' : (c.supertype .class_ decl.position decl.superclass).1.table.WellNamed := htable ▸ hc
  have htable' := (supertype_spec hc' .interface decl.position decl.interface).1
  have hlinked : ((c.supertype .class_ decl.position decl.superclass).1.supertype .interface
      decl.position decl.interface).1.table.WellNamed := by
    rw [htable']
    exact hc'
  exact wellNamed_modify hlinked fun info hi => ⟨hi.name, hsuper, hi.properties, hi.methods⟩

/-- Reports leave the table as it is. -/
theorem table_foldl_report {α : Type} (faults : List α) (fault : α → Fault) (p : α → Position) :
    (faults.foldl (fun c a => c.report (fault a) (p a)) c).table = c.table := by
  induction faults generalizing c with
  | nil => rfl
  | cons a rest ih => exact ih

theorem wellNamed_cutCycles (hc : c.table.WellNamed) (classes : List ClassDecl) :
    (c.cutCycles classes).table.WellNamed := by
  unfold cutCycles
  refine List.foldlRecOn (motive := fun c : Collected => c.table.WellNamed) _ _ ?_ ?_
  · rw [table_foldl_report]
    exact hc
  · intro c hc decl _
    exact wellNamed_modify hc fun info hi => ⟨hi.name, nofun, hi.properties, hi.methods⟩

theorem paramTypes_spec (hc : c.table.WellNamed) (ps : List Parameter) :
    (c.paramTypes ps).1.table = c.table ∧ ∀ t ∈ (c.paramTypes ps).2, t.IsValue := by
  induction ps generalizing c with
  | nil => exact ⟨rfl, nofun⟩
  | cons param rest ih =>
    unfold paramTypes
    split
    · rename_i ty hty
      obtain ⟨htable, htypes⟩ := ih hc
      exact ⟨htable, List.forall_mem_cons.2 ⟨hc.of_resolve hty, htypes⟩⟩
    · exact ih (c := c.report _ _) hc

theorem methodInfo_spec (hc : c.table.WellNamed) {header : Signature} (hh : header.WellNamed) :
    (c.methodInfo header).1.table = c.table ∧ ∀ m ∈ (c.methodInfo header).2, m.WellNamed := by
  unfold methodInfo
  split
  rename_i c' returns hreturns
  have hr : c'.table = c.table ∧ ∀ t ∈ returns, t.IsResult := by
    split at hreturns
    · rename_i ty hty
      cases hreturns
      refine ⟨rfl, ?_⟩
      intro t ht
      cases ht
      exact hc.of_resolveReturn hty
    · cases hreturns
      exact ⟨rfl, nofun⟩
  obtain ⟨htable, hparams⟩ := paramTypes_spec (hr.1 ▸ hc) header.params
  refine ⟨htable.trans hr.1, ?_⟩
  intro m hm
  simp only at hm
  split at hm
  · obtain ⟨ty, hty, rfl⟩ := Option.map_eq_some_iff.1 hm
    exact ⟨hh.name, hparams, hr.2 ty hty⟩
  · cases hm

theorem wellNamed_addMethod (hc : c.table.WellNamed) {owner : String} {m : MethodInfo}
    (hm : m.WellNamed) (p : Position) : (c.addMethod owner m p).table.WellNamed := by
  unfold addMethod
  split
  · exact hc
  · split
    · exact hc
    · exact wellNamed_modify hc fun info hi => hi.putMethod hm

theorem wellNamed_collectMethod (hc : c.table.WellNamed) {owner : String} {header : Signature}
    (hh : header.WellNamed) : (collectMethod owner c header).table.WellNamed := by
  obtain ⟨htable, hm⟩ := methodInfo_spec hc hh
  unfold collectMethod
  split
  · rename_i c' m heq
    rw [heq] at htable hm
    exact wellNamed_addMethod (htable ▸ hc) (hm m rfl) _
  · rename_i c' heq
    rw [heq] at htable
    exact htable ▸ hc

theorem wellNamed_collectProperty (hc : c.table.WellNamed) {className : String}
    {property : Property} (hp : property.WellNamed) :
    (collectProperty className c property).table.WellNamed := by
  unfold collectProperty
  simp only
  split
  · exact hc
  · rename_i ty hty
    split
    · exact hc
    · split
      · exact hc
      · exact wellNamed_modify hc fun info hi => hi.putProperty hp.name (hc.of_resolve hty)

theorem wellNamed_collectNamedMethod (hc : c.table.WellNamed) {className : String}
    {header : Signature} (hh : header.WellNamed) :
    (collectNamedMethod className c header).table.WellNamed := by
  unfold collectNamedMethod
  split
  · exact hc
  · exact wellNamed_collectMethod hc hh

theorem wellNamed_defaultConstructor {className : String} (h : ValueName className) :
    (defaultConstructor className).WellNamed :=
  ⟨h.toPlainName, nofun, .inl rfl⟩

theorem wellNamed_collectInterface (hc : c.table.WellNamed) {decl : InterfaceDecl}
    (hd : decl.WellNamed) : (c.collectInterface decl).table.WellNamed :=
  List.foldlRecOn (motive := fun c : Collected => c.table.WellNamed) _ _ hc
    fun _ hc header hmem => wellNamed_collectMethod hc (hd.methods header hmem)

theorem wellNamed_collectClass (hc : c.table.WellNamed) {decl : ClassDecl} (hd : decl.WellNamed) :
    (c.collectClass decl).table.WellNamed := by
  have hheader : ∀ header ∈ (decl.constructors ++ decl.methods ++ decl.main.toList).map
      Method.signature, header.WellNamed := by
    intro header hmem
    obtain ⟨m, hm, rfl⟩ := List.mem_map.1 hmem
    exact (hd.methods m hm).signature
  unfold collectClass
  apply wellNamed_modify
  · refine List.foldlRecOn (motive := fun c : Collected => c.table.WellNamed) _ _ ?_ ?_
    · refine List.foldlRecOn (motive := fun c : Collected => c.table.WellNamed) _ _ ?_ ?_
      · refine List.foldlRecOn (motive := fun c : Collected => c.table.WellNamed) _ _ hc ?_
        intro c hc property hmem
        exact wellNamed_collectProperty hc (hd.properties property hmem)
      · intro c hc header hmem
        apply wellNamed_collectMethod hc (hheader header _)
        simp only [List.map_append, List.mem_append]
        exact .inl (.inl hmem)
    · intro c hc header hmem
      apply wellNamed_collectNamedMethod hc (hheader header _)
      simp only [List.map_append, List.mem_append] at hmem ⊢
      exact hmem.elim (fun h => .inl (.inr h)) .inr
  · intro info hi
    split
    · exact hi
    · exact hi.putMethod (wellNamed_defaultConstructor hd.name)

theorem table_checkInterface (decl : ClassDecl) : (c.checkInterface decl).table = c.table := by
  unfold checkInterface
  split
  · rfl
  · split
    · rfl
    · exact table_foldl_report _ _ _

end Collected

/-- The table of a well-named program is well-named. -/
theorem wellNamed_collect {program : Program} (hp : program.WellNamed) :
    (collect program).table.WellNamed := by
  obtain ⟨htable, hkept⟩ := Collected.wellNamed_registerAll (c := ⟨.initial, #[]⟩) .initial hp
  have hclass : ∀ decl ∈ (Collected.registerAll ⟨.initial, #[]⟩ program.declarations).2.filterMap
      TypeDecl.class?, decl.WellNamed := by
    intro decl hmem
    obtain ⟨d, hd, hclass⟩ := List.mem_filterMap.1 hmem
    cases d with
    | class_ d =>
      cases hclass
      exact hp _ (hkept _ hd)
    | interface d => cases hclass
  unfold collect
  simp only
  refine List.foldlRecOn (motive := fun c : Collected => c.table.WellNamed) _ _ ?_ ?_
  · refine List.foldlRecOn (motive := fun c : Collected => c.table.WellNamed) _ _ ?_ ?_
    · apply Collected.wellNamed_cutCycles
      exact List.foldlRecOn (motive := fun c : Collected => c.table.WellNamed) _ _ htable
        fun _ hc decl _ => Collected.wellNamed_linkSupertypes hc decl
    · intro c hc decl hmem
      obtain ⟨d, hd, hinterface⟩ := List.mem_filterMap.1 hmem
      cases d with
      | class_ d => cases hinterface
      | interface d =>
        cases hinterface
        exact Collected.wellNamed_collectInterface hc (hp _ (hkept _ hd))
  · intro c hc decl hmem
    rw [Collected.table_checkInterface]
    exact Collected.wellNamed_collectClass hc (hclass decl hmem)

/-! ## Members -/

theorem mem_of_mem_dropType {types : List TypeInfo} {name : String} {info : TypeInfo}
    (h : info ∈ dropType types name) : info ∈ types :=
  (List.mem_filter.1 h).1

theorem mem_of_mem_climb {unvisited : List TypeInfo} {name : String} {info : TypeInfo}
    (h : info ∈ climb unvisited name) : info ∈ unvisited := by
  fun_induction climb unvisited name with
  | case1 => cases h
  | case2 unvisited name t hfind hsuper =>
    cases List.mem_singleton.1 h
    exact (mem_of_findType hfind).1
  | case3 unvisited name t hfind parent hsuper ih =>
    rcases List.mem_cons.1 h with rfl | h
    · exact (mem_of_findType hfind).1
    · exact mem_of_mem_dropType (ih h)

namespace Table.WellNamed

variable {t : Table}

theorem of_findProperty (ht : t.WellNamed) {className name : String} {owner : TypeInfo}
    {p : PropertyInfo} (h : t.findProperty className name = some (owner, p)) :
    ValueName owner.name ∧ p.WellNamed name := by
  obtain ⟨owner', hmem, hfind⟩ := List.exists_of_findSome?_eq_some h
  obtain ⟨p', hp, heq⟩ := Option.map_eq_some_iff.1 hfind
  cases heq
  have hinfo := ht owner (mem_of_mem_climb hmem)
  exact ⟨hinfo.name, hinfo.properties _ (Dictionary.mem_of_lookup hp)⟩

end Table.WellNamed

/-- A method that is found is one of its owner, has the name looked for and is no constructor. -/
structure FoundOn (t : Table) (type name : String) (found : TypeInfo × MethodInfo) : Prop where
  owner : found.1 ∈ t.ancestors type
  method : found.2 ∈ found.1.methods.values
  name : found.2.name = name
  isConstructor : found.2.isConstructor = false

theorem foundOn_addMethods {t : Table} {type name : String} {found : List (TypeInfo × MethodInfo)}
    {owner : TypeInfo} (ho : owner ∈ t.ancestors type) (hf : ∀ f ∈ found, FoundOn t type name f) :
    ∀ f ∈ Table.addMethods name found owner, FoundOn t type name f := by
  refine List.foldlRecOn
    (motive := fun found : List (TypeInfo × MethodInfo) => ∀ f ∈ found, FoundOn t type name f) _ _
    hf ?_
  intro found hf m hm f hmem
  split at hmem
  · rename_i hname
    rcases List.mem_append.1 hmem with hmem | hmem
    · exact hf f hmem
    · cases List.mem_singleton.1 hmem
      exact ⟨ho, hm, hname.1, hname.2.1⟩
  · exact hf f hmem

theorem foundOn_methodsNamed {t : Table} {type name : String} :
    ∀ f ∈ t.methodsNamed type name, FoundOn t type name f := by
  refine List.foldlRecOn
    (motive := fun found : List (TypeInfo × MethodInfo) => ∀ f ∈ found, FoundOn t type name f) _ _
    nofun ?_
  intro found hf owner hmem
  exact foundOn_addMethods hmem hf

/-- A method is chosen for arguments by its key, or because it takes them. -/
def Chosen (t : Table) (name : String) (args : List Ty) (m : MethodInfo) : Prop :=
  m.signature = signatureText name args ∨ t.accepts m.params args = true

theorem foundOn_resolveMethod {t : Table} {type name : String} {args : List Ty} {owner : TypeInfo}
    {m : MethodInfo} (h : t.resolveMethod type name args = some (owner, m)) :
    FoundOn t type name (owner, m) ∧ Chosen t name args m := by
  rcases Option.or_eq_some_iff.1 h with h | ⟨-, h⟩
  · have hkey := List.find?_some h
    exact ⟨foundOn_methodsNamed _ (List.mem_of_find?_eq_some h), .inl (by simpa using hkey)⟩
  · have hfit := List.find?_some h
    exact ⟨foundOn_methodsNamed _ (List.mem_of_find?_eq_some h), .inr hfit⟩

theorem mem_constructors_of_resolveConstructor {t : Table} {className : String} {args : List Ty}
    {m : MethodInfo} (h : t.resolveConstructor className args = some m) :
    ∃ info, t.find? className = some info ∧ m ∈ info.constructors ∧ Chosen t className args m := by
  obtain ⟨info, hfind, h⟩ := Option.bind_eq_some_iff.1 h
  refine ⟨info, hfind, ?_⟩
  rcases Option.or_eq_some_iff.1 h with h | ⟨-, h⟩
  · have hkey := List.find?_some h
    exact ⟨List.mem_of_find?_eq_some h, .inl (by simpa using hkey)⟩
  · have hfit := List.find?_some h
    exact ⟨List.mem_of_find?_eq_some h, .inr hfit⟩

namespace Table.WellNamed

variable {t : Table} {name : String} {args : List Ty} {m : MethodInfo}

/-- A method that is chosen for arguments has as many parameters. -/
theorem length_eq_of_chosen (hm : m.WellNamed) (hn : PlainName name) (ha : ∀ a ∈ args, a.IsValue)
    (h : Chosen t name args m) : m.params.length = args.length := by
  rcases h with hkey | hfit
  · rw [(signatureText_inj hm.name hn hm.params ha hkey).2]
  · simp only [Table.accepts, Bool.and_eq_true, beq_iff_eq] at hfit
    exact hfit.1

/-- A call that is resolved passes as many arguments as the method has parameters. -/
theorem of_resolveMethod (ht : t.WellNamed) (ha : ∀ a ∈ args, a.IsValue) {type : String}
    {owner : TypeInfo} (h : t.resolveMethod type name args = some (owner, m)) :
    ValueName owner.name ∧ m.WellNamed ∧ m.name = name ∧ m.params.length = args.length := by
  obtain ⟨hfound, hchosen⟩ := foundOn_resolveMethod h
  have hinfo := ht owner (mem_of_mem_climb hfound.owner)
  have hm := hinfo.methods m hfound.method
  exact ⟨hinfo.name, hm, hfound.name, length_eq_of_chosen hm (hfound.name ▸ hm.name) ha hchosen⟩

/-- A creation that is resolved passes as many arguments as the constructor has parameters. -/
theorem of_resolveConstructor (ht : t.WellNamed) (ha : ∀ a ∈ args, a.IsValue)
    (h : t.resolveConstructor name args = some m) :
    ValueName name ∧ m.WellNamed ∧ m.params.length = args.length := by
  obtain ⟨info, hfind, hmem, hchosen⟩ := mem_constructors_of_resolveConstructor h
  obtain ⟨hinfo, hname⟩ := ht.of_find? hfind
  have hm := hinfo.methods m (List.mem_filter.1 hmem).1
  have hn : ValueName name := hname ▸ hinfo.name
  exact ⟨hn, hm, length_eq_of_chosen hm hn.toPlainName ha hchosen⟩

end Table.WellNamed

end Types

end Javelet
