import Javelet.Proofs.Types.Lookups
import Mathlib.Data.List.Basic

/-!
# The rounds of collecting

The table of a program is built in rounds, and in every round each declaration changes its own type
only. What it reads of the other types does not change during the round. So a round does to each
type what the step of its declaration alone does, and reports the faults that these steps report
alone, one declaration after the other.
-/
namespace Javelet.Types

/-- A method as its header declares it. -/
def MethodInfo.ofSignature (s : Signature) : MethodInfo :=
  ⟨s.name, s.kind, s.access, s.returns, s.paramTypes⟩

/-- A property as it is declared. -/
def PropertyInfo.ofProperty (p : Property) : PropertyInfo :=
  ⟨p.access, p.variable_.name, p.variable_.type⟩

/-! ## Single checks -/

theorem Table.eq_of_resolve {t : Table} {ty ty' : Ty} (h : t.resolve ty = .ok ty') : ty' = ty := by
  unfold Table.resolve at h
  split at h
  · cases h
  · split at h
    · cases h
      rfl
    · cases h

/-- What is wrong with the type of a value that is written at a place. -/
def typeFaults (t : Table) (ty : Ty) (p : Position) : List (Located Fault) :=
  match t.resolve ty with
  | .ok _ => []
  | .error fault => [⟨.table fault, p⟩]

/-- What is wrong with the types in a method header. -/
def headerFaults (t : Table) (s : Signature) : List (Located Fault) :=
  (if s.returns.isVoid then [] else typeFaults t s.returns s.position) ++
    s.params.flatMap fun p => typeFaults t p.type p.position

/-- What is wrong with a supertype, which has to be of a category. -/
def supertypeFaults (t : Table) (category : Category) (p : Position) :
    Option String → List (Located Fault)
  | none => []
  | some name =>
    match t.lookup name with
    | .error fault => [⟨.table fault, p⟩]
    | .ok info =>
      if info.category = category then []
      else [⟨if category = .interface then .notAnInterface name else .notAClass name, p⟩]

theorem supertypeFaults_eq_nil_iff {t : Table} {category : Category} {p : Position}
    {name : String} : supertypeFaults t category p (some name) = [] ↔
      ∃ info, t.find? name = some info ∧ info.category = category := by
  unfold supertypeFaults
  dsimp only
  constructor
  · intro h
    split at h
    · cases h
    · rename_i info hlookup
      split at h
      · exact ⟨info, Table.lookup_eq_ok.1 hlookup, ‹_›⟩
      · cases h
  · rintro ⟨info, hfind, hcategory⟩
    rw [Table.lookup_eq_ok.2 hfind]
    exact if_pos hcategory

namespace Collected

/-- Add faults. -/
def reportAll (c : Collected) (new : List (Located Fault)) : Collected :=
  { c with faults := c.faults ++ new }

theorem report_eq (c : Collected) (fault : Fault) (p : Position) :
    c.report fault p = c.reportAll [⟨fault, p⟩] := by
  simp [report, reportAll]

@[simp] theorem reportAll_nil (c : Collected) : c.reportAll [] = c := by
  simp [reportAll]

@[simp] theorem reportAll_append (c : Collected) (new new' : List (Located Fault)) :
    (c.reportAll new).reportAll new' = c.reportAll (new ++ new') := by
  have hfaults : c.faults ++ new ++ new' = c.faults ++ (new ++ new') :=
    Array.toList_inj.1 (by simp)
  simp [reportAll, hfaults]

@[simp] theorem table_reportAll (c : Collected) (new : List (Located Fault)) :
    (c.reportAll new).table = c.table := rfl

theorem foldl_report {α : Type} (c : Collected) (xs : List α) (fault : α → Fault)
    (p : α → Position) : xs.foldl (fun c x => c.report (fault x) (p x)) c =
      c.reportAll (xs.map fun x => ⟨fault x, p x⟩) := by
  induction xs generalizing c with
  | nil => simp
  | cons x xs ih => rw [List.foldl_cons, ih, report_eq, reportAll_append, List.map_cons]; rfl

/-- The types of parameters are the written ones, if nothing is wrong with them. -/
theorem paramTypes_eq (c : Collected) (ps : List Parameter) :
    (c.paramTypes ps).1 =
        c.reportAll (ps.flatMap fun p => typeFaults c.table p.type p.position) ∧
      (c.paramTypes ps).2.length ≤ ps.length ∧
      ((c.paramTypes ps).2.length = ps.length ↔
        (ps.flatMap fun p => typeFaults c.table p.type p.position) = []) ∧
      ((c.paramTypes ps).2.length = ps.length → (c.paramTypes ps).2 = ps.map Parameter.type) := by
  induction ps generalizing c with
  | nil => simp [paramTypes]
  | cons p ps ih =>
    cases hresolve : c.table.resolve p.type with
    | ok ty =>
      obtain ⟨hfaults, hle, hiff, hmap⟩ := ih c
      have hty := Table.eq_of_resolve hresolve
      have hstep : c.paramTypes (p :: ps) = ((c.paramTypes ps).1, p.type :: (c.paramTypes ps).2) := by
        rw [paramTypes, hresolve, hty]
      have hnone : typeFaults c.table p.type p.position = [] := by
        rw [typeFaults, hresolve]
      rw [hstep, List.flatMap_cons, hnone, List.nil_append, List.length_cons, List.length_cons,
        Nat.succ.injEq, List.map_cons]
      exact ⟨hfaults, Nat.succ_le_succ hle, hiff, fun hlength => by rw [hmap hlength]⟩
    | error fault =>
      obtain ⟨hfaults, hle, -, -⟩ := ih (c.report (.table fault) p.position)
      have hstep : c.paramTypes (p :: ps) = (c.report (.table fault) p.position).paramTypes ps := by
        rw [paramTypes, hresolve]
      have hone : typeFaults c.table p.type p.position = [⟨.table fault, p.position⟩] := by
        rw [typeFaults, hresolve]
      rw [hstep, List.flatMap_cons, hone, List.length_cons]
      refine ⟨?_, Nat.le_succ_of_le hle, ?_, ?_⟩
      · rw [hfaults, report_eq, reportAll_append]
        rfl
      · simp only [List.cons_append, reduceCtorEq, iff_false]
        omega
      · omega

/-- A result type is the written one, if nothing is wrong with it. -/
theorem resolveReturn_cases (t : Table) (ty : Ty) (p : Position) :
    (t.resolveReturn ty = .ok ty ∧ (if ty.isVoid then [] else typeFaults t ty p) = []) ∨
      ∃ fault, t.resolveReturn ty = .error fault ∧
        (if ty.isVoid then [] else typeFaults t ty p) = [⟨.table fault, p⟩] := by
  unfold Table.resolveReturn typeFaults
  by_cases hv : ty.isVoid = true
  · rw [if_pos hv, if_pos hv, ← Ty.isVoid_iff.1 hv]
    exact .inl ⟨rfl, rfl⟩
  · rw [if_neg hv, if_neg hv]
    cases hresolve : t.resolve ty with
    | ok ty' =>
      rw [Table.eq_of_resolve hresolve]
      exact .inl ⟨rfl, rfl⟩
    | error fault => exact .inr ⟨fault, rfl, rfl⟩

/-- A header gives the method that it declares, unless something is wrong with it. -/
theorem methodInfo_eq (c : Collected) (s : Signature) :
    c.methodInfo s = (c.reportAll (headerFaults c.table s),
      if headerFaults c.table s = [] then some (.ofSignature s) else none) := by
  unfold methodInfo headerFaults
  rcases resolveReturn_cases c.table s.returns s.position with ⟨hreturn, hnone⟩ | ⟨fault, hreturn, hone⟩
  · obtain ⟨hfaults, -, hiff, hmap⟩ := paramTypes_eq c s.params
    rw [hreturn, hnone, List.nil_append]
    refine Prod.ext hfaults ?_
    dsimp only
    by_cases hlength : (c.paramTypes s.params).2.length = s.params.length
    · rw [if_pos hlength, if_pos (hiff.1 hlength), hmap hlength]
      rfl
    · rw [if_neg hlength, if_neg (mt hiff.2 hlength)]
  · obtain ⟨hfaults, -, -, -⟩ := paramTypes_eq (c.report (.table fault) s.position) s.params
    rw [hreturn, hone]
    refine Prod.ext ?_ ?_
    · dsimp only
      rw [hfaults, report_eq, reportAll_append]
      rfl
    · simp

theorem collectMethod_eq (owner : String) (c : Collected) (s : Signature) :
    collectMethod owner c s = if headerFaults c.table s = [] then
        c.addMethod owner (.ofSignature s) s.position
      else c.reportAll (headerFaults c.table s) := by
  unfold collectMethod
  rw [methodInfo_eq]
  by_cases h : headerFaults c.table s = []
  · rw [if_pos h, if_pos h, h, reportAll_nil]
  · rw [if_neg h, if_neg h]

theorem collectProperty_eq (className : String) (c : Collected) (p : Property) :
    collectProperty className c p =
      if typeFaults c.table p.variable_.type p.variable_.position = [] then
        match c.table.find? className with
        | none => c
        | some info =>
          if info.properties.contains p.variable_.name then
            c.report (.duplicateProperty p.variable_.name className) p.variable_.position
          else c.modify className (·.putProperty (.ofProperty p))
      else c.reportAll (typeFaults c.table p.variable_.type p.variable_.position) := by
  unfold collectProperty typeFaults
  dsimp only
  cases hresolve : c.table.resolve p.variable_.type with
  | ok ty =>
    rw [Table.eq_of_resolve hresolve]
    rfl
  | error fault =>
    rw [report_eq]
    rfl

theorem supertype_eq (c : Collected) (category : Category) (p : Position) (name : Option String) :
    c.supertype category p name = (c.reportAll (supertypeFaults c.table category p name),
      if supertypeFaults c.table category p name = [] then name else none) := by
  unfold supertype supertypeFaults
  cases name with
  | none => simp
  | some name =>
    cases hlookup : c.table.lookup name with
    | error fault => simp [hlookup, report_eq]
    | ok info =>
      by_cases hcat : info.category = category
      · simp [hlookup, hcat]
      · simp [hlookup, hcat, report_eq]

theorem linkSupertypes_eq (c : Collected) (d : ClassDecl) :
    c.linkSupertypes d =
      (c.reportAll (supertypeFaults c.table .class_ d.position d.superclass ++
        supertypeFaults c.table .interface d.position d.interface)).modify d.name fun info =>
          { info with
            superclass := if supertypeFaults c.table .class_ d.position d.superclass = [] then
                d.superclass else none
            interface := if supertypeFaults c.table .interface d.position d.interface = [] then
                d.interface else none } := by
  unfold linkSupertypes
  rw [supertype_eq]
  dsimp only
  rw [supertype_eq, reportAll_append, table_reportAll]

/-! ## Steps that change one type -/

/-- What a step adds to the faults. -/
def news (f : Collected → Collected) (c : Collected) : List (Located Fault) :=
  (f c).faults.toList.drop c.faults.size

end Collected

/-- What can be seen of the types of a table. -/
def Table.Shows (view : TypeInfo → TypeInfo) (sights : String → Option TypeInfo) (t : Table) : Prop :=
  ∀ name, (t.find? name).map view = sights name

/-- A step changes the type of one name only, in nothing that can be seen of it. What it makes of
the type, and which faults it adds, depends on the type and on what can be seen of the others. -/
structure Local (view : TypeInfo → TypeInfo) (sights : String → Option TypeInfo) (name : String)
    (f : Collected → Collected) : Prop where
  frame : ∀ c other, other ≠ name → (f c).table.find? other = c.table.find? other
  keeps : ∀ c, c.table.Shows view sights → ((f c).table.find? name).map view = sights name
  reads : ∀ c c', c.table.Shows view sights → c'.table.Shows view sights →
    c.table.find? name = c'.table.find? name →
    (f c).table.find? name = (f c').table.find? name ∧
      ∃ new, (f c).faults.toList = c.faults.toList ++ new ∧
        (f c').faults.toList = c'.faults.toList ++ new

namespace Local

variable {view : TypeInfo → TypeInfo} {sights : String → Option TypeInfo} {name : String}
  {f g : Collected → Collected}

theorem shows (hf : Local view sights name f) {c : Collected} (hc : c.table.Shows view sights) :
    (f c).table.Shows view sights := by
  intro other
  by_cases hother : other = name
  · rw [hother]
    exact hf.keeps c hc
  · rw [hf.frame c other hother]
    exact hc other

theorem same : Local view sights name fun c => c where
  frame _ _ _ := rfl
  keeps _ hc := hc name
  reads _ _ _ _ hown := ⟨hown, [], by simp, by simp⟩

theorem comp (hf : Local view sights name f) (hg : Local view sights name g) :
    Local view sights name fun c => g (f c) where
  frame c other hother := (hg.frame _ other hother).trans (hf.frame c other hother)
  keeps c hc := hg.keeps _ (hf.shows hc)
  reads c c' hc hc' hown := by
    obtain ⟨hmiddle, new, hnew, hnew'⟩ := hf.reads c c' hc hc' hown
    obtain ⟨hlast, more, hmore, hmore'⟩ := hg.reads _ _ (hf.shows hc) (hf.shows hc') hmiddle
    refine ⟨hlast, new ++ more, ?_, ?_⟩
    · rw [hmore, hnew, List.append_assoc]
    · rw [hmore', hnew', List.append_assoc]

theorem foldl {α : Type} {step : Collected → α → Collected} {xs : List α}
    (hf : ∀ x ∈ xs, Local view sights name fun c => step c x) :
    Local view sights name fun c => xs.foldl step c := by
  induction xs with
  | nil => exact same
  | cons x xs ih =>
    rw [List.forall_mem_cons] at hf
    exact hf.1.comp (ih hf.2)

theorem reportAll (new : List (Located Fault)) :
    Local view sights name fun c => c.reportAll new where
  frame _ _ _ := rfl
  keeps _ hc := hc name
  reads _ _ _ _ hown := ⟨hown, new, by simp [Collected.reportAll], by simp [Collected.reportAll]⟩

theorem report (fault : Fault) (p : Position) : Local view sights name fun c => c.report fault p := by
  simp only [Collected.report_eq]
  exact reportAll _

theorem modify {change : TypeInfo → TypeInfo} (hname : ∀ info, (change info).name = info.name)
    (hview : ∀ info, sights name = some (view info) → view (change info) = view info) :
    Local view sights name fun c => c.modify name change where
  frame c other hother := by
    rw [Collected.modify, Table.find?_modify _ _ _ hname, if_neg hother]
  keeps c hc := by
    have hown := hc name
    rw [Collected.modify, Table.find?_modify _ _ _ hname, if_pos rfl]
    cases hfind : c.table.find? name with
    | none =>
      rw [hfind] at hown
      exact hown
    | some info =>
      rw [hfind] at hown
      rw [← hown, Option.map_some, Option.map_some, Option.map_some, hview info hown.symm]
  reads c c' hc hc' hown := by
    refine ⟨?_, [], by simp [Collected.modify], by simp [Collected.modify]⟩
    simp only [Collected.modify, Table.find?_modify _ _ _ hname, if_true, hown]

/-- A step may depend on what it reads. -/
theorem read {α : Type} (r : Collected → α) (step : α → Collected → Collected)
    (hr : ∀ c c', c.table.Shows view sights → c'.table.Shows view sights →
      c.table.find? name = c'.table.find? name → r c = r c')
    (hstep : ∀ a, Local view sights name (step a)) : Local view sights name fun c => step (r c) c where
  frame c other hother := (hstep (r c)).frame c other hother
  keeps c hc := (hstep (r c)).keeps c hc
  reads c c' hc hc' hown := by
    have hread := hr c c' hc hc' hown
    rw [hread]
    exact (hstep (r c')).reads c c' hc hc' hown

theorem ite {p : Collected → Prop} [∀ c, Decidable (p c)]
    (hp : ∀ c c', c.table.Shows view sights → c'.table.Shows view sights →
      c.table.find? name = c'.table.find? name → (p c ↔ p c'))
    (hf : Local view sights name f) (hg : Local view sights name g) :
    Local view sights name fun c => if p c then f c else g c := by
  have hread := read (fun c => decide (p c)) (fun b c => if b then f c else g c)
    (fun c c' hc hc' hown => decide_eq_decide.2 (hp c c' hc hc' hown)) ?_
  · simpa only [decide_eq_true_eq] using hread
  · intro b
    cases b with
    | false => exact hg
    | true => exact hf

/-- A step adds faults behind those that are there. -/
theorem faults_eq (hf : Local view sights name f) {c : Collected} (hc : c.table.Shows view sights) :
    (f c).faults.toList = c.faults.toList ++ c.news f := by
  obtain ⟨-, new, hnew, -⟩ := hf.reads c c hc hc rfl
  rw [Collected.news, hnew, ← Array.length_toList, List.drop_left]

theorem news_eq (hf : Local view sights name f) {c c' : Collected} (hc : c.table.Shows view sights)
    (hc' : c'.table.Shows view sights) (hown : c.table.find? name = c'.table.find? name) :
    c.news f = c'.news f := by
  obtain ⟨-, new, hnew, hnew'⟩ := hf.reads c c' hc hc' hown
  rw [Collected.news, Collected.news, hnew, hnew', ← Array.length_toList, ← Array.length_toList,
    List.drop_left, List.drop_left]

end Local

/-- What a round does, whose steps change one type each and whose names are different: it does to
each type what the step of its name does at the start, and reports what the steps report there. -/
structure Round {α : Type} (view : TypeInfo → TypeInfo) (sights : String → Option TypeInfo)
    (name : α → String) (step : Collected → α → Collected) (xs : List α) (c c' : Collected) :
    Prop where
  shows : c'.table.Shows view sights
  own : ∀ x ∈ xs, c'.table.find? (name x) = (step c x).table.find? (name x)
  others : ∀ other, other ∉ xs.map name → c'.table.find? other = c.table.find? other
  faults : c'.faults.toList = c.faults.toList ++ xs.flatMap fun x => c.news (step · x)
  alone : ∀ x ∈ xs, (step c x).faults.toList = c.faults.toList ++ c.news (step · x)

theorem round_foldl {α : Type} {view : TypeInfo → TypeInfo} {sights : String → Option TypeInfo}
    {name : α → String} {step : Collected → α → Collected} {xs : List α}
    (hf : ∀ x ∈ xs, Local view sights (name x) (step · x)) (hn : (xs.map name).Nodup)
    {c : Collected} (hc : c.table.Shows view sights) :
    Round view sights name step xs c (xs.foldl step c) := by
  induction xs generalizing c with
  | nil => exact ⟨hc, List.forall_mem_nil _, fun _ _ => rfl, by simp, List.forall_mem_nil _⟩
  | cons x xs ih =>
    rw [List.forall_mem_cons] at hf
    rw [List.map_cons, List.nodup_cons] at hn
    have hfirst := hf.1.shows hc
    have hrest := ih hf.2 hn.2 hfirst
    -- the later steps find their types as the first one found them
    have hkept : ∀ y ∈ xs, (step c x).table.find? (name y) = c.table.find? (name y) := by
      intro y hy
      refine hf.1.frame c _ fun heq => hn.1 ?_
      rw [← heq]
      exact List.mem_map_of_mem hy
    refine ⟨hrest.shows, ?_, ?_, ?_, ?_⟩
    · rw [List.forall_mem_cons]
      refine ⟨hrest.others _ hn.1, ?_⟩
      intro y hy
      rw [List.foldl_cons, hrest.own y hy]
      exact ((hf.2 y hy).reads _ _ hfirst hc (hkept y hy)).1
    · intro other hother
      rw [List.map_cons, List.mem_cons, not_or] at hother
      rw [List.foldl_cons, hrest.others other hother.2, hf.1.frame c other hother.1]
    · rw [List.foldl_cons, hrest.faults, hf.1.faults_eq hc, List.flatMap_cons, List.append_assoc]
      congr 2
      exact List.flatMap_congr fun y hy => (hf.2 y hy).news_eq hfirst hc (hkept y hy)
    · intro y hy
      rcases List.mem_cons.1 hy with rfl | hy
      · exact hf.1.faults_eq hc
      · exact (hf.2 y hy).faults_eq hc

/-- In a round without new faults no step adds one. -/
theorem Round.faultless {α : Type} {view : TypeInfo → TypeInfo}
    {sights : String → Option TypeInfo} {name : α → String} {step : Collected → α → Collected}
    {xs : List α} {c c' : Collected} (hr : Round view sights name step xs c c')
    (h : c'.faults.toList = c.faults.toList) {x : α} (hx : x ∈ xs) :
    (step c x).faults.toList = c.faults.toList := by
  have hfaults := hr.faults
  rw [h, eq_comm, List.append_right_eq_self, List.flatMap_eq_nil_iff] at hfaults
  rw [hr.alone x hx, hfaults x hx, List.append_nil]

/-! ## Supertypes -/

/-- A type without its supertypes and members. -/
def TypeInfo.outline (info : TypeInfo) : TypeInfo := .bare info.name info.category

section Readings

variable {view : TypeInfo → TypeInfo} {sights : String → Option TypeInfo} {t t' : Table}

theorem Table.Shows.contains (h : t.Shows view sights) (h' : t'.Shows view sights) :
    t.contains = t'.contains := by
  funext name
  have hname := congrArg Option.isSome ((h name).trans (h' name).symm)
  simpa [Table.contains] using hname

theorem typeFaults_congr (h : t.contains = t'.contains) (ty : Ty) (p : Position) :
    typeFaults t ty p = typeFaults t' ty p := by
  simp only [typeFaults, Table.resolve, h]

theorem headerFaults_congr (h : t.contains = t'.contains) (s : Signature) :
    headerFaults t s = headerFaults t' s := by
  simp only [headerFaults, typeFaults_congr h]

theorem supertypeFaults_congr
    (h : ∀ name, (t.find? name).map TypeInfo.category = (t'.find? name).map TypeInfo.category)
    (category : Category) (p : Position) (name : Option String) :
    supertypeFaults t category p name = supertypeFaults t' category p name := by
  cases name with
  | none => rfl
  | some name =>
    have hname := h name
    unfold supertypeFaults Table.lookup
    cases hfind : t.find? name with
    | none =>
      rw [hfind, Option.map_none, eq_comm, Option.map_eq_none_iff] at hname
      simp [hfind, hname]
    | some info =>
      rw [hfind, Option.map_some, eq_comm, Option.map_eq_some_iff] at hname
      obtain ⟨info', hfind', hcategory⟩ := hname
      simp [hfind, hfind', hcategory]

end Readings

theorem local_linkSupertypes (sights : String → Option TypeInfo) (d : ClassDecl) :
    Local TypeInfo.outline sights d.name (·.linkSupertypes d) := by
  simp only [Collected.linkSupertypes_eq]
  refine Local.read
    (fun c => (supertypeFaults c.table .class_ d.position d.superclass,
      supertypeFaults c.table .interface d.position d.interface))
    (fun r c => (c.reportAll (r.1 ++ r.2)).modify d.name fun info =>
      { info with
        superclass := if r.1 = [] then d.superclass else none
        interface := if r.2 = [] then d.interface else none }) ?_ ?_
  · intro c c' hc hc' _
    have hcategory : ∀ name, (c.table.find? name).map TypeInfo.category =
        (c'.table.find? name).map TypeInfo.category := by
      intro name
      have hname := congrArg (Option.map TypeInfo.category) ((hc name).trans (hc' name).symm)
      rw [Option.map_map, Option.map_map] at hname
      exact hname
    rw [supertypeFaults_congr hcategory, supertypeFaults_congr hcategory]
  · intro r
    refine (Local.reportAll (r.1 ++ r.2)).comp (.modify ?_ ?_)
    · exact fun _ => rfl
    · exact fun _ _ => rfl

/-! ## Members -/

section Members

open Collected

variable {view : TypeInfo → TypeInfo} {sights : String → Option TypeInfo} {name : String}

theorem local_addMethod
    (hput : ∀ info m, sights name = some (view info) → view (info.putMethod m) = view info)
    (m : MethodInfo) (p : Position) : Local view sights name (·.addMethod name m p) := by
  refine Local.read (fun c => c.table.find? name)
    (fun own c => match own with
      | none => c
      | some info =>
        if info.methods.contains m.signature then c.report (.duplicateMethod m.signature name) p
        else c.modify name (·.putMethod m)) (fun _ _ _ _ hown => hown) ?_
  intro own
  cases own with
  | none => exact .same
  | some info =>
    dsimp only
    split
    · exact .report _ _
    · exact .modify (fun _ => rfl) fun info hinfo => hput info m hinfo

theorem local_collectMethod
    (hput : ∀ info m, sights name = some (view info) → view (info.putMethod m) = view info)
    (s : Signature) : Local view sights name (collectMethod name · s) := by
  simp only [Collected.collectMethod_eq]
  refine Local.read (fun c => headerFaults c.table s)
    (fun new c => if new = [] then c.addMethod name (.ofSignature s) s.position
      else c.reportAll new) (fun _ _ hc hc' _ => headerFaults_congr (hc.contains hc') s) ?_
  intro new
  split
  · exact local_addMethod hput _ _
  · exact .reportAll _

theorem local_collectNamedMethod
    (hput : ∀ info m, sights name = some (view info) → view (info.putMethod m) = view info)
    (s : Signature) : Local view sights name (collectNamedMethod name · s) := by
  unfold Collected.collectNamedMethod
  refine Local.ite ?_ (.report _ _) (local_collectMethod hput s)
  intro c c' _ _ hown
  rw [hown]

theorem local_collectProperty
    (hput : ∀ info p, sights name = some (view info) → view (info.putProperty p) = view info)
    (p : Property) : Local view sights name (collectProperty name · p) := by
  simp only [Collected.collectProperty_eq]
  refine Local.read
    (fun c => (typeFaults c.table p.variable_.type p.variable_.position, c.table.find? name))
    (fun r c => if r.1 = [] then
        match r.2 with
        | none => c
        | some info =>
          if info.properties.contains p.variable_.name then
            c.report (.duplicateProperty p.variable_.name name) p.variable_.position
          else c.modify name (·.putProperty (.ofProperty p))
      else c.reportAll r.1) ?_ ?_
  · intro c c' hc hc' hown
    rw [typeFaults_congr (hc.contains hc'), hown]
  · rintro ⟨new, own⟩
    dsimp only
    split
    · cases own with
      | none => exact .same
      | some info =>
        dsimp only
        split
        · exact .report _ _
        · exact .modify (fun _ => rfl) fun info hinfo => hput info _ hinfo
    · exact .reportAll _

theorem local_collectInterface
    (hput : ∀ info m, sights name = some (view info) → view (info.putMethod m) = view info)
    (methods : List Signature) :
    Local view sights name fun c => methods.foldl (collectMethod name) c :=
  .foldl fun s _ => local_collectMethod hput s

theorem local_collectClass {d : ClassDecl}
    (hput : ∀ info m, sights d.name = some (view info) → view (info.putMethod m) = view info)
    (hputProperty : ∀ info p, sights d.name = some (view info) →
      view (info.putProperty p) = view info) :
    Local view sights d.name (·.collectClass d) := by
  have hproperties : Local view sights d.name
      fun c => d.properties.foldl (collectProperty d.name) c :=
    .foldl fun p _ => local_collectProperty hputProperty p
  have hconstructors : Local view sights d.name
      fun c => (d.constructors.map Method.signature).foldl (collectMethod d.name) c :=
    .foldl fun s _ => local_collectMethod hput s
  have hmethods : Local view sights d.name fun c =>
      ((d.methods ++ d.main.toList).map Method.signature).foldl (collectNamedMethod d.name) c :=
    .foldl fun s _ => local_collectNamedMethod hput s
  refine ((hproperties.comp hconstructors).comp hmethods).comp (.modify ?_ ?_)
  · intro info
    split <;> rfl
  · intro info hinfo
    split
    · rfl
    · exact hput info _ hinfo

end Members

/-! ## Interfaces of classes -/

/-- A class without its members; of an interface all is seen. -/
def TypeInfo.contract (info : TypeInfo) : TypeInfo :=
  if info.isInterface then info else { info with properties := .empty, methods := .empty }

/-- Nothing is seen of the members of a class. -/
theorem contract_eq {info info' : TypeInfo} (h : info.isInterface = false)
    (hname : info'.name = info.name) (hcategory : info'.category = info.category)
    (hsuperclass : info'.superclass = info.superclass)
    (hinterface : info'.interface = info.interface) : info'.contract = info.contract := by
  have h' : info'.isInterface = false := by
    rw [← h, TypeInfo.isInterface, hcategory]
    rfl
  simp [TypeInfo.contract, h, h', hname, hcategory, hsuperclass, hinterface]

theorem isInterface_contract (info : TypeInfo) : info.contract.isInterface = info.isInterface := by
  unfold TypeInfo.contract
  split
  · rfl
  · rfl

/-- The methods of its interface that a class itself does not declare. -/
def missingFaults (t : Table) (d : ClassDecl) : List (Located Fault) :=
  match t.find? d.name with
  | none => []
  | some info =>
    match info.interface.bind t.find? with
    | none => []
    | some interface => (interface.methods.keys.filter fun key => !info.methods.contains key).map
        fun key => ⟨.missingMethod d.name key interface.name, d.position⟩

theorem Collected.checkInterface_eq (c : Collected) (d : ClassDecl) :
    c.checkInterface d = c.reportAll (missingFaults c.table d) := by
  unfold checkInterface missingFaults
  cases c.table.find? d.name with
  | none => simp
  | some info =>
    dsimp only
    cases info.interface.bind c.table.find? with
    | none => simp
    | some interface => exact foldl_report ..

/-- A class is checked against an interface of which all is seen. -/
theorem local_checkInterface {sights : String → Option TypeInfo} {d : ClassDecl}
    (hinterface : ∀ w ∈ sights d.name, ∀ i ∈ w.interface, ∀ w' ∈ sights i, w'.isInterface = true) :
    Local TypeInfo.contract sights d.name (·.checkInterface d) := by
  simp only [Collected.checkInterface_eq]
  refine Local.read (fun c => missingFaults c.table d) (fun new c => c.reportAll new) ?_
    fun new => .reportAll new
  intro c c' hc hc' hown
  unfold missingFaults
  rw [hown]
  cases hfind : c'.table.find? d.name with
  | none => rfl
  | some info =>
    have hsame : info.interface.bind c.table.find? = info.interface.bind c'.table.find? := by
      cases hi : info.interface with
      | none => rfl
      | some i =>
        have hseen : sights d.name = some info.contract := by
          rw [← hc' d.name, hfind]
          rfl
        have hcontract : info.contract.interface = some i := by
          rw [← hi, TypeInfo.contract]
          split <;> rfl
        -- what is seen of an interface is the interface
        have hwhole : ∀ t : Table, t.Shows TypeInfo.contract sights → t.find? i = sights i := by
          intro t ht
          have hti := ht i
          cases hfindi : t.find? i with
          | none =>
            rw [hfindi] at hti
            exact hti
          | some info' =>
            rw [hfindi, Option.map_some] at hti
            have hisInterface := hinterface _ hseen i hcontract _ hti.symm
            rw [isInterface_contract] at hisInterface
            rw [← hti, TypeInfo.contract, if_pos hisInterface]
        exact (hwhole c.table hc).trans (hwhole c'.table hc').symm
    dsimp only
    rw [hsame]

end Javelet.Types
