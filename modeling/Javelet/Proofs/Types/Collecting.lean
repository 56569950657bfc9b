import Javelet.Proofs.Types.Rounds

/-!
# The stages of collecting

What each stage of collecting makes of a program: the names are registered, the first declaration
of each that is free; classes are linked to their supertypes, cycles are cut, and interfaces and
classes get their members. The category of a type is settled by its name alone, so an interface
that a class names stays one in all later stages.

A round reads of the other types what no step of the round changes, and each step changes its own
type, so the order of the steps shows in the order of the faults only. The types of a program with
different names come out the same in every order of its declarations.
-/
namespace Javelet

/-- What a declaration declares. -/
def TypeDecl.category : TypeDecl → Types.Category
  | class_ _ => .class_
  | interface _ => .interface

theorem TypeDecl.class?_eq_some {decl : TypeDecl} {d : ClassDecl} :
    decl.class? = some d ↔ decl = .class_ d := by
  cases decl <;> simp [class?]

theorem TypeDecl.interface?_eq_some {decl : TypeDecl} {d : InterfaceDecl} :
    decl.interface? = some d ↔ decl = .interface d := by
  cases decl <;> simp [interface?]

namespace Types

/-! ## Names -/

theorem exists_class_iff {decls : List TypeDecl} {name : String} :
    (∃ d ∈ decls, d.name = name ∧ d.category = .class_) ↔
      ∃ d, .class_ d ∈ decls ∧ d.name = name := by
  constructor
  · rintro ⟨decl, hdecl, hname, hcategory⟩
    cases decl with
    | class_ d => exact ⟨d, hdecl, hname⟩
    | interface e => cases hcategory
  · rintro ⟨d, hd, hname⟩
    exact ⟨_, hd, hname, rfl⟩

theorem exists_interface_iff {decls : List TypeDecl} {name : String} :
    (∃ d ∈ decls, d.name = name ∧ d.category = .interface) ↔
      ∃ e, .interface e ∈ decls ∧ e.name = name := by
  constructor
  · rintro ⟨decl, hdecl, hname, hcategory⟩
    cases decl with
    | class_ d => cases hcategory
    | interface e => exact ⟨e, hdecl, hname⟩
  · rintro ⟨e, he, hname⟩
    exact ⟨_, he, hname, rfl⟩

theorem Table.find?_mk_cons (info : TypeInfo) (types : List TypeInfo) (name : String) :
    (Table.mk (info :: types)).find? name =
      if info.name = name then some info else (Table.mk types).find? name := by
  simp only [Table.find?, findType, List.find?_cons]
  split
  · rename_i h
    rw [if_pos (by simpa using h)]
  · rename_i h
    rw [if_neg (by simpa using h)]

theorem Table.contains_eq_false {t : Table} {name : String} :
    t.contains name = false ↔ t.find? name = none := by
  simp [Table.contains]

namespace Collected

theorem register_eq (c : Collected) (d : TypeDecl) :
    c.register d = if c.table.contains d.name then
        (c.reportAll [⟨.table (.alreadyDeclared d.name), d.position⟩], false)
      else (⟨⟨.bare d.name d.category :: c.table.types⟩, c.faults⟩, true) := by
  by_cases htaken : c.table.contains d.name = true
  · rw [if_pos htaken]
    cases d <;> simp [register, Table.declare, TypeInfo.bare, htaken, report_eq]
  · rw [if_neg htaken]
    cases d <;> simp [register, Table.declare, TypeInfo.bare, htaken, TypeDecl.category]

/-- A declaration is registered under a name that is free: neither taken before nor by an earlier
declaration. -/
def Introduced (decls : List TypeDecl) (c : Collected) (d : TypeDecl) : Prop :=
  ∃ before after, decls = before ++ d :: after ∧ d.name ∉ before.map TypeDecl.name ∧
    c.table.contains d.name = false

/-- The result of registering declarations. -/
structure Recorded (decls : List TypeDecl) (c : Collected) (r : Collected × List TypeDecl) :
    Prop where
  sublist : r.2.Sublist decls
  nodup : (r.2.map TypeDecl.name).Nodup
  mem : ∀ d, d ∈ r.2 ↔ Introduced decls c d
  own : ∀ d ∈ r.2, r.1.table.find? d.name = some (.bare d.name d.category)
  others : ∀ other, other ∉ r.2.map TypeDecl.name →
    r.1.table.find? other = c.table.find? other

theorem introduced_cons {d e : TypeDecl} {rest : List TypeDecl} {c : Collected} :
    Introduced (d :: rest) c e ↔ (e = d ∧ c.table.contains d.name = false) ∨
      e.name ≠ d.name ∧ Introduced rest c e := by
  constructor
  · rintro ⟨before, after, heq, hbefore, hfree⟩
    cases before with
    | nil =>
      cases heq
      exact .inl ⟨rfl, hfree⟩
    | cons first before =>
      cases heq
      rw [List.map_cons, List.mem_cons, not_or] at hbefore
      exact .inr ⟨hbefore.1, before, after, rfl, hbefore.2, hfree⟩
  · rintro (⟨rfl, hfree⟩ | ⟨hne, before, after, rfl, hbefore, hfree⟩)
    · exact ⟨[], rest, rfl, List.not_mem_nil, hfree⟩
    · refine ⟨d :: before, after, rfl, ?_, hfree⟩
      rw [List.map_cons, List.mem_cons, not_or]
      exact ⟨hne, hbefore⟩

theorem find?_declared (c : Collected) (d : TypeDecl) {other : String} (hother : other ≠ d.name) :
    (Table.mk (.bare d.name d.category :: c.table.types)).find? other = c.table.find? other := by
  rw [Table.find?_mk_cons]
  exact if_neg (Ne.symm hother)

theorem recorded (decls : List TypeDecl) (c : Collected) :
    Recorded decls c (c.registerAll decls) := by
  induction decls generalizing c with
  | nil =>
    refine ⟨.slnil, List.nodup_nil, fun d => ⟨nofun, ?_⟩, List.forall_mem_nil _, fun _ _ => rfl⟩
    rintro ⟨before, after, heq, -⟩
    cases before <;> cases heq
  | cons d rest ih =>
    rw [registerAll, register_eq]
    by_cases htaken : c.table.contains d.name = true
    · rw [if_pos htaken]
      obtain ⟨hsublist, hnodup, hmem, hown, hothers⟩ := ih
        (c.reportAll [⟨.table (.alreadyDeclared d.name), d.position⟩])
      refine ⟨hsublist.cons d, hnodup, ?_, hown, hothers⟩
      intro e
      rw [introduced_cons, ← Bool.not_eq_true, htaken]
      refine (hmem e).trans ⟨fun he => .inr ⟨?_, he⟩, ?_⟩
      · intro heq
        obtain ⟨-, -, -, -, hfree⟩ := he
        rw [heq] at hfree
        cases htaken.symm.trans hfree
      · rintro (⟨-, hfalse⟩ | ⟨-, he⟩)
        · exact (hfalse rfl).elim
        · exact he
    · rw [if_neg htaken]
      obtain ⟨hsublist, hnodup, hmem, hown, hothers⟩ := ih
        ⟨⟨.bare d.name d.category :: c.table.types⟩, c.faults⟩
      have hself : (Table.mk (.bare d.name d.category :: c.table.types)).contains d.name = true := by
        rw [Table.contains, Table.find?_mk_cons]
        simp [TypeInfo.bare]
      have hrest : ∀ e, Introduced rest ⟨⟨.bare d.name d.category :: c.table.types⟩, c.faults⟩ e ↔
          e.name ≠ d.name ∧ Introduced rest c e := by
        intro e
        by_cases heq : e.name = d.name
        · refine ⟨?_, fun h => (h.1 heq).elim⟩
          rintro ⟨-, -, -, -, hfree⟩
          rw [heq] at hfree
          cases hself.symm.trans hfree
        · have hcontains : (Table.mk (.bare d.name d.category :: c.table.types)).contains e.name =
              c.table.contains e.name := by
            rw [Table.contains, Table.contains, find?_declared c d heq]
          simp only [Introduced, hcontains, ne_eq, heq, not_false_eq_true, true_and]
      -- later declarations of the name find it taken
      have hfresh : d.name ∉ (registerAll ⟨⟨.bare d.name d.category :: c.table.types⟩, c.faults⟩
          rest).2.map TypeDecl.name := by
        intro htwice
        obtain ⟨e, he, heq⟩ := List.mem_map.1 htwice
        exact ((hrest e).1 ((hmem e).1 he)).1 heq
      refine ⟨hsublist.cons_cons d, List.nodup_cons.2 ⟨hfresh, hnodup⟩, ?_, ?_, ?_⟩
      · intro e
        rw [introduced_cons, ← hrest e, ← hmem e]
        dsimp only
        rw [if_pos rfl, List.mem_cons, and_iff_left (Bool.not_eq_true _ ▸ htaken)]
      · refine List.forall_mem_cons.2 ⟨?_, hown⟩
        dsimp only
        rw [hothers _ hfresh, Table.find?_mk_cons]
        exact if_pos rfl
      · intro other hother
        obtain ⟨hne, hrest⟩ := not_or.1 (mt List.mem_cons.2 hother)
        exact (hothers other hrest).trans (find?_declared c d hne)

/-- What is registered, and reported, of declarations with different names. -/
structure Registered (decls : List TypeDecl) (c : Collected) (r : Collected × List TypeDecl) :
    Prop where
  kept : r.2 = decls.filter fun d => !c.table.contains d.name
  faults : r.1.faults.toList = c.faults.toList ++
    (decls.filter fun d => c.table.contains d.name).map fun d =>
      ⟨.table (.alreadyDeclared d.name), d.position⟩

theorem registered {decls : List TypeDecl} (hn : (decls.map TypeDecl.name).Nodup) (c : Collected) :
    Registered decls c (c.registerAll decls) := by
  induction decls generalizing c with
  | nil => exact ⟨rfl, by simp [registerAll]⟩
  | cons d rest ih =>
    rw [List.map_cons, List.nodup_cons] at hn
    rw [registerAll, register_eq]
    by_cases htaken : c.table.contains d.name = true
    · rw [if_pos htaken]
      obtain ⟨hkept, hfaults⟩ := ih hn.2
        (c.reportAll [⟨.table (.alreadyDeclared d.name), d.position⟩])
      refine ⟨?_, ?_⟩
      · rw [List.filter_cons_of_neg (by simp [htaken])]
        exact hkept
      · dsimp only
        rw [hfaults, List.filter_cons_of_pos (by exact htaken)]
        simp [reportAll]
    · rw [if_neg htaken]
      obtain ⟨hkept, hfaults⟩ := ih hn.2
        ⟨⟨.bare d.name d.category :: c.table.types⟩, c.faults⟩
      have hcontains : ∀ e ∈ rest,
          (Table.mk (.bare d.name d.category :: c.table.types)).contains e.name =
            c.table.contains e.name := by
        intro e he
        rw [Table.contains, Table.contains, find?_declared]
        intro heq
        exact hn.1 (heq ▸ List.mem_map_of_mem he)
      have hkept' := hkept.trans (List.filter_congr fun e he => by rw [hcontains e he])
      have hfaults' := List.filter_congr fun e he => hcontains e he
      refine ⟨?_, ?_⟩
      · rw [List.filter_cons_of_pos (by simp [htaken]), ← hkept']
        rfl
      · dsimp only
        rw [hfaults, List.filter_cons_of_neg (by exact htaken), hfaults']

/-! ## Cycles -/

/-- The classes that lie on a cycle. -/
def cyclicClasses (t : Table) (classes : List ClassDecl) : List ClassDecl :=
  classes.filter fun d => t.extendsItself d.name

theorem find?_foldl_modify {change : TypeInfo → TypeInfo}
    (hname : ∀ info, (change info).name = info.name)
    (hagain : ∀ info, change (change info) = change info) (xs : List ClassDecl) (c : Collected)
    (name : String) :
    (xs.foldl (fun c d => c.modify d.name change) c).table.find? name =
      if name ∈ xs.map ClassDecl.name then (c.table.find? name).map change
      else c.table.find? name := by
  induction xs generalizing c with
  | nil => simp
  | cons d xs ih =>
    rw [List.foldl_cons, ih, Collected.modify, Table.find?_modify _ _ _ hname]
    by_cases hd : name = d.name
    · have hagain' : change ∘ change = change := funext hagain
      simp [hd, hagain']
    · simp [hd]

theorem find?_cutCycles (c : Collected) (classes : List ClassDecl) (name : String) :
    (c.cutCycles classes).table.find? name =
      if name ∈ (cyclicClasses c.table classes).map ClassDecl.name then
        (c.table.find? name).map fun info => { info with superclass := none }
      else c.table.find? name := by
  unfold cutCycles
  dsimp only
  rw [foldl_report, find?_foldl_modify (by intro; rfl) (by intro; rfl)]
  rfl

theorem faults_cutCycles (c : Collected) (classes : List ClassDecl) :
    (c.cutCycles classes).faults.toList = c.faults.toList ++
      (cyclicClasses c.table classes).map fun d => ⟨.cyclic d.name, d.position⟩ := by
  have hmodify : ∀ (xs : List ClassDecl) (c : Collected),
      (xs.foldl (fun c d => c.modify d.name fun info => { info with superclass := none })
        c).faults = c.faults := by
    intro xs
    induction xs with
    | nil => exact fun _ => rfl
    | cons d xs ih => exact fun c => ih _
  unfold cutCycles
  dsimp only
  rw [hmodify, foldl_report]
  simp [reportAll, cyclicClasses]

end Collected

/-! ## Stages -/

/-- The table with the names of a program; also the declarations whose names were free. -/
def registration (p : Program) : Collected × List TypeDecl :=
  Collected.registerAll ⟨.initial, #[]⟩ p.declarations

def keptClasses (p : Program) : List ClassDecl := (registration p).2.filterMap TypeDecl.class?

def keptInterfaces (p : Program) : List InterfaceDecl :=
  (registration p).2.filterMap TypeDecl.interface?

/-- The table with supertypes. -/
def linked (p : Program) : Collected :=
  (keptClasses p).foldl Collected.linkSupertypes (registration p).1

/-- The table without cycles. -/
def acyclic (p : Program) : Collected := (linked p).cutCycles (keptClasses p)

/-- The table with the methods of interfaces. -/
def withInterfaces (p : Program) : Collected :=
  (keptInterfaces p).foldl Collected.collectInterface (acyclic p)

theorem collect_eq (p : Program) : collect p = (keptClasses p).foldl
    (fun c d => (c.collectClass d).checkInterface d) (withInterfaces p) := rfl

/-- What a view shows of a table. -/
def Table.sights (view : TypeInfo → TypeInfo) (t : Table) (name : String) : Option TypeInfo :=
  (t.find? name).map view

theorem Table.shows_sights (view : TypeInfo → TypeInfo) (t : Table) : t.Shows view (t.sights view) :=
  fun _ => rfl

/-- A type without its members. -/
def TypeInfo.heading (info : TypeInfo) : TypeInfo :=
  { info with properties := .empty, methods := .empty }

/-- The interfaces that types name are interfaces. -/
def Table.InterfacesFit (t : Table) : Prop :=
  ∀ name info, t.find? name = some info → ∀ i ∈ info.interface, ∀ info', t.find? i = some info' →
    info'.isInterface = true

section Stages

variable {p : Program}

theorem sublist_classNames (decls : List TypeDecl) :
    ((decls.filterMap TypeDecl.class?).map ClassDecl.name).Sublist (decls.map TypeDecl.name) := by
  induction decls with
  | nil => exact .slnil
  | cons d rest ih =>
    cases d with
    | class_ d => exact ih.cons_cons d.name
    | interface d => exact ih.cons d.name

theorem sublist_interfaceNames (decls : List TypeDecl) :
    ((decls.filterMap TypeDecl.interface?).map InterfaceDecl.name).Sublist
      (decls.map TypeDecl.name) := by
  induction decls with
  | nil => exact .slnil
  | cons d rest ih =>
    cases d with
    | class_ d => exact ih.cons d.name
    | interface d => exact ih.cons_cons d.name

theorem registered_registration (hn : (p.declarations.map TypeDecl.name).Nodup) :
    Collected.Registered p.declarations ⟨.initial, #[]⟩ (registration p) :=
  Collected.registered hn _

theorem recorded_registration (p : Program) :
    Collected.Recorded p.declarations ⟨.initial, #[]⟩ (registration p) :=
  Collected.recorded _ _

theorem nodup_keptClasses : ((keptClasses p).map ClassDecl.name).Nodup :=
  (recorded_registration p).nodup.sublist (sublist_classNames _)

theorem nodup_keptInterfaces : ((keptInterfaces p).map InterfaceDecl.name).Nodup :=
  (recorded_registration p).nodup.sublist (sublist_interfaceNames _)

/-- A registered type has neither supertypes nor members. -/
theorem bare_of_registration {name : String} {info : TypeInfo}
    (h : (registration p).1.table.find? name = some info) : info = .bare name info.category := by
  have hr := recorded_registration p
  by_cases hmem : name ∈ (registration p).2.map TypeDecl.name
  · obtain ⟨d, hd, rfl⟩ := List.mem_map.1 hmem
    cases (hr.own d hd).symm.trans h
    rfl
  · rw [hr.others name hmem] at h
    obtain ⟨hinfo, hname⟩ := mem_of_findType h
    obtain ⟨builtin, -, rfl⟩ := List.mem_map.1 hinfo
    cases hname
    rfl

theorem find?_class {d : ClassDecl} (hd : d ∈ keptClasses p) :
    (registration p).1.table.find? d.name = some (.bare d.name .class_) := by
  obtain ⟨decl, hdecl, hclass⟩ := List.mem_filterMap.1 hd
  obtain rfl := TypeDecl.class?_eq_some.1 hclass
  exact (recorded_registration p).own _ hdecl

theorem find?_interface {d : InterfaceDecl} (hd : d ∈ keptInterfaces p) :
    (registration p).1.table.find? d.name = some (.bare d.name .interface) := by
  obtain ⟨decl, hdecl, hinterface⟩ := List.mem_filterMap.1 hd
  obtain rfl := TypeDecl.interface?_eq_some.1 hinterface
  exact (recorded_registration p).own _ hdecl

/-- A name stands for a class or an interface if one of that name is declared. -/
theorem category_registration {name : String} (category : Category) (h : category ≠ .primitive) :
    (∃ info, (registration p).1.table.find? name = some info ∧ info.category = category) ↔
      ∃ d ∈ (registration p).2, d.name = name ∧ d.category = category := by
  have hr := recorded_registration p
  constructor
  · rintro ⟨info, hfind, rfl⟩
    by_cases hmem : name ∈ (registration p).2.map TypeDecl.name
    · obtain ⟨d, hd, rfl⟩ := List.mem_map.1 hmem
      cases (hr.own d hd).symm.trans hfind
      exact ⟨d, hd, rfl, rfl⟩
    · rw [hr.others name hmem] at hfind
      obtain ⟨builtin, -, rfl⟩ := List.mem_map.1 (mem_of_findType hfind).1
      exact (h rfl).elim
  · rintro ⟨d, hd, rfl, rfl⟩
    exact ⟨_, hr.own d hd, rfl⟩

theorem round_linked (p : Program) : Round TypeInfo.outline ((registration p).1.table.sights TypeInfo.outline)
    ClassDecl.name Collected.linkSupertypes (keptClasses p) (registration p).1 (linked p) :=
  round_foldl (fun d _ => local_linkSupertypes _ d) nodup_keptClasses
    (Table.shows_sights _ _)

/-- A class is linked to the supertypes with which nothing is wrong. -/
theorem find?_linked {d : ClassDecl} (hd : d ∈ keptClasses p) :
    (linked p).table.find? d.name = some { TypeInfo.bare d.name .class_ with
      superclass := if supertypeFaults (registration p).1.table .class_ d.position d.superclass = []
        then d.superclass else none
      interface := if supertypeFaults (registration p).1.table .interface d.position d.interface = []
        then d.interface else none } := by
  rw [(round_linked p).own d hd, Collected.linkSupertypes_eq, Collected.modify,
    Table.find?_modify _ _ _ (by intro; rfl), if_pos rfl, Collected.table_reportAll,
    find?_class hd]
  rfl

theorem category_linked {name : String} : ((linked p).table.find? name).map TypeInfo.category =
    ((registration p).1.table.find? name).map TypeInfo.category := by
  have h := congrArg (Option.map TypeInfo.category) ((round_linked p).shows name)
  rw [Table.sights, Option.map_map, Option.map_map] at h
  exact h

/-- An interface that a linked type names is one. -/
theorem isInterface_linked {name i : String} {info : TypeInfo}
    (h : (linked p).table.find? name = some info) (hi : info.interface = some i) :
    ∃ above, (registration p).1.table.find? i = some above ∧ above.category = .interface := by
  by_cases hmem : name ∈ (keptClasses p).map ClassDecl.name
  · obtain ⟨d, hd, rfl⟩ := List.mem_map.1 hmem
    cases (find?_linked hd).symm.trans h
    dsimp only at hi
    split at hi
    · rename_i hnone
      rw [hi] at hnone
      exact supertypeFaults_eq_nil_iff.1 hnone
    · cases hi
  · rw [(round_linked p).others name hmem] at h
    rw [bare_of_registration h] at hi
    cases hi

theorem interfacesFit_linked : (linked p).table.InterfacesFit := by
  intro name info hfind i hi info' hfind'
  obtain ⟨above, habove, hinterface⟩ := isInterface_linked hfind hi
  have hcategory := @category_linked p i
  rw [hfind', habove, Option.map_some, Option.map_some, Option.some.injEq] at hcategory
  rw [TypeInfo.isInterface, hcategory, hinterface]
  rfl

/-- Cutting a cycle changes a superclass only. -/
theorem find?_acyclic {name : String} {info : TypeInfo}
    (h : (acyclic p).table.find? name = some info) :
    ∃ info', (linked p).table.find? name = some info' ∧ info.category = info'.category ∧
      info.interface = info'.interface := by
  rw [acyclic, Collected.find?_cutCycles] at h
  split at h
  · obtain ⟨info', hfind, rfl⟩ := Option.map_eq_some_iff.1 h
    exact ⟨info', hfind, rfl, rfl⟩
  · exact ⟨info, h, rfl, rfl⟩

theorem category_acyclic {name : String} : ((acyclic p).table.find? name).map TypeInfo.category =
    ((registration p).1.table.find? name).map TypeInfo.category := by
  rw [← category_linked, acyclic, Collected.find?_cutCycles]
  split
  · rw [Option.map_map]
    rfl
  · rfl

theorem interfacesFit_acyclic : (acyclic p).table.InterfacesFit := by
  intro name info hfind i hi info' hfind'
  obtain ⟨before, hbefore, -, hinterface⟩ := find?_acyclic hfind
  obtain ⟨before', hbefore', hcategory, -⟩ := find?_acyclic hfind'
  have hfit := interfacesFit_linked name before hbefore i (hinterface ▸ hi) before' hbefore'
  rw [TypeInfo.isInterface, hcategory]
  exact hfit

theorem round_interfaces (p : Program) : Round TypeInfo.heading ((acyclic p).table.sights TypeInfo.heading)
    InterfaceDecl.name Collected.collectInterface (keptInterfaces p) (acyclic p)
    (withInterfaces p) :=
  round_foldl (fun d _ => local_collectInterface (fun _ _ _ => rfl) d.methods)
    nodup_keptInterfaces (Table.shows_sights _ _)

/-- Interfaces get methods, and nothing else changes. -/
theorem find?_withInterfaces {name : String} {info : TypeInfo}
    (h : (withInterfaces p).table.find? name = some info) :
    ∃ info', (acyclic p).table.find? name = some info' ∧ info.heading = info'.heading := by
  have hshows := (round_interfaces p).shows name
  rw [h, Option.map_some, Table.sights, eq_comm, Option.map_eq_some_iff] at hshows
  obtain ⟨info', hfind, hheading⟩ := hshows
  exact ⟨info', hfind, hheading.symm⟩

theorem category_withInterfaces {name : String} :
    ((withInterfaces p).table.find? name).map TypeInfo.category =
      ((registration p).1.table.find? name).map TypeInfo.category := by
  have h := congrArg (Option.map TypeInfo.category) ((round_interfaces p).shows name)
  rw [Table.sights, Option.map_map, Option.map_map] at h
  exact h.trans category_acyclic

theorem interfacesFit_withInterfaces : (withInterfaces p).table.InterfacesFit := by
  intro name info hfind i hi info' hfind'
  obtain ⟨before, hbefore, hheading⟩ := find?_withInterfaces hfind
  obtain ⟨before', hbefore', hheading'⟩ := find?_withInterfaces hfind'
  have hinterface : info.interface = before.interface := by
    simpa only [TypeInfo.heading] using congrArg TypeInfo.interface hheading
  have hcategory : info'.category = before'.category := by
    simpa only [TypeInfo.heading] using congrArg TypeInfo.category hheading'
  have hfit := interfacesFit_acyclic name before hbefore i (hinterface ▸ hi) before' hbefore'
  rw [TypeInfo.isInterface, hcategory]
  exact hfit

/-- A class is not an interface. -/
theorem isInterface_class {d : ClassDecl} (hd : d ∈ keptClasses p) {info : TypeInfo}
    (h : (withInterfaces p).table.find? d.name = some info) : info.isInterface = false := by
  have hcategory := @category_withInterfaces p d.name
  rw [h, find?_class hd] at hcategory
  rw [TypeInfo.isInterface, Option.some.inj hcategory]
  rfl

theorem local_classStep {d : ClassDecl} (hd : d ∈ keptClasses p) :
    Local TypeInfo.contract ((withInterfaces p).table.sights TypeInfo.contract) d.name
      fun c => (c.collectClass d).checkInterface d := by
  have hown : ∀ info : TypeInfo, (withInterfaces p).table.sights TypeInfo.contract d.name =
      some info.contract → info.isInterface = false := by
    intro info hinfo
    obtain ⟨before, hbefore, hcontract⟩ := Option.map_eq_some_iff.1 hinfo
    rw [← isInterface_contract, ← hcontract, isInterface_contract]
    exact isInterface_class hd hbefore
  refine (local_collectClass ?_ ?_).comp (local_checkInterface ?_)
  · exact fun info _ hinfo => contract_eq (hown info hinfo) rfl rfl rfl rfl
  · exact fun info _ hinfo => contract_eq (hown info hinfo) rfl rfl rfl rfl
  · intro w hw i hi w' hw'
    obtain ⟨info, hfind, rfl⟩ := Option.map_eq_some_iff.1 hw
    obtain ⟨info', hfind', rfl⟩ := Option.map_eq_some_iff.1 hw'
    rw [isInterface_contract]
    have hinterface : info.contract.interface = info.interface := by
      rw [TypeInfo.contract]
      split <;> rfl
    exact interfacesFit_withInterfaces d.name info hfind i (hinterface ▸ hi) info' hfind'

theorem round_classes (p : Program) : Round TypeInfo.contract
    ((withInterfaces p).table.sights TypeInfo.contract) ClassDecl.name
    (fun c d => (c.collectClass d).checkInterface d) (keptClasses p) (withInterfaces p)
    (collect p) := by
  rw [collect_eq]
  exact round_foldl (fun d hd => local_classStep hd) nodup_keptClasses
    (Table.shows_sights _ _)

end Stages

/-! ## The order of declarations -/

theorem Table.Same.sights {t t' : Table} (h : t.Same t') (view : TypeInfo → TypeInfo) :
    t.sights view = t'.sights view := by
  funext name
  rw [Table.sights, Table.sights, h name]

/-- The same types under the same names, and the same faults in some order. -/
structure Collected.Alike (c c' : Collected) : Prop where
  table : c.table.Same c'.table
  faults : c.faults.toList.Perm c'.faults.toList

/-- A round comes to the same in every order of its steps. -/
theorem Round.alike {α : Type} {view : TypeInfo → TypeInfo} {sights : String → Option TypeInfo}
    {name : α → String} {step : Collected → α → Collected} {xs xs' : List α}
    {c c' d d' : Collected} (hr : Round view sights name step xs c d)
    (hr' : Round view sights name step xs' c' d')
    (hf : ∀ x ∈ xs, Local view sights (name x) (step · x)) (hp : xs.Perm xs') (hc : c.Alike c')
    (hs : c.table.Shows view sights) : d.Alike d' := by
  have hs' : c'.table.Shows view sights := fun other => hc.table other ▸ hs other
  refine ⟨?_, ?_⟩
  · intro other
    by_cases hmem : other ∈ xs.map name
    · obtain ⟨x, hx, rfl⟩ := List.mem_map.1 hmem
      rw [hr.own x hx, hr'.own x (hp.subset hx)]
      exact ((hf x hx).reads c c' hs hs' (hc.table _)).1
    · rw [hr.others other hmem, hr'.others other (mt (hp.map name).mem_iff.2 hmem)]
      exact hc.table other
  · have hnews : (xs.flatMap fun x => c.news (step · x)) = xs.flatMap fun x => c'.news (step · x) :=
      List.flatMap_congr fun x hx => (hf x hx).news_eq hs hs' (hc.table _)
    rw [hr.faults, hr'.faults, hnews]
    exact hc.faults.append (hp.flatMap_right _)

section Orders

variable {p q : Program} (hp : p.declarations.Perm q.declarations)
  (hn : (p.declarations.map TypeDecl.name).Nodup)

include hp hn

theorem registration_perm : (registration p).2.Perm (registration q).2 := by
  rw [(registered_registration hn).kept, (registered_registration ((hp.map _).nodup hn)).kept]
  exact hp.filter _

theorem registration_alike : (registration p).1.Alike (registration q).1 := by
  have hr := recorded_registration p
  have hr' := recorded_registration q
  have hkept := registration_perm hp hn
  refine ⟨?_, ?_⟩
  · intro name
    by_cases hmem : name ∈ (registration p).2.map TypeDecl.name
    · obtain ⟨d, hd, rfl⟩ := List.mem_map.1 hmem
      rw [hr.own d hd, hr'.own d (hkept.subset hd)]
    · rw [hr.others name hmem, hr'.others name (mt (hkept.map _).mem_iff.2 hmem)]
  · rw [(registered_registration hn).faults,
      (registered_registration ((hp.map _).nodup hn)).faults]
    exact ((hp.filter _).map _).append_left _

theorem keptClasses_perm : (keptClasses p).Perm (keptClasses q) :=
  (registration_perm hp hn).filterMap _

theorem keptInterfaces_perm : (keptInterfaces p).Perm (keptInterfaces q) :=
  (registration_perm hp hn).filterMap _

theorem linked_alike : (linked p).Alike (linked q) := by
  have hstart := registration_alike hp hn
  have hround := round_linked p
  have hround' := round_linked q
  rw [← hstart.table.sights] at hround'
  exact hround.alike hround' (fun d _ => local_linkSupertypes _ d) (keptClasses_perm hp hn) hstart
    (Table.shows_sights _ _)

theorem acyclic_alike : (acyclic p).Alike (acyclic q) := by
  obtain ⟨htable, hfaults⟩ := linked_alike hp hn
  have hcyclic : (Collected.cyclicClasses (linked p).table (keptClasses p)).Perm
      (Collected.cyclicClasses (linked q).table (keptClasses q)) := by
    unfold Collected.cyclicClasses
    rw [htable.extendsItself]
    exact (keptClasses_perm hp hn).filter _
  refine ⟨?_, ?_⟩
  · intro name
    rw [acyclic, acyclic, Collected.find?_cutCycles, Collected.find?_cutCycles, htable name]
    simp only [(hcyclic.map ClassDecl.name).mem_iff]
  · rw [acyclic, acyclic, Collected.faults_cutCycles, Collected.faults_cutCycles]
    exact hfaults.append (hcyclic.map _)

theorem withInterfaces_alike : (withInterfaces p).Alike (withInterfaces q) := by
  have hstart := acyclic_alike hp hn
  have hround := round_interfaces p
  have hround' := round_interfaces q
  rw [← hstart.table.sights] at hround'
  exact hround.alike hround' (fun d _ => local_collectInterface (fun _ _ _ => rfl) d.methods)
    (keptInterfaces_perm hp hn) hstart (Table.shows_sights _ _)

/-- The order of the declarations shows in the order of the faults only. -/
theorem collect_alike : (collect p).Alike (collect q) := by
  have hstart := withInterfaces_alike hp hn
  have hround := round_classes p
  have hround' := round_classes q
  rw [← hstart.table.sights] at hround'
  exact hround.alike hround' (fun d hd => local_classStep hd) (keptClasses_perm hp hn) hstart
    (Table.shows_sights _ _)

end Orders

end Types

end Javelet
