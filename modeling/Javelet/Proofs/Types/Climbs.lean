import Mathlib.Computability.StateTransition
import Mathlib.Data.List.Dedup
import Javelet.Proofs.Types.Overloads

/-!
# Climbs on any table

Superclasses may lead round a cycle, into one, or to a name that is not in the table. The way up from a
name is the sequence of the names that superclasses lead to, up to the first one that is not in the
table; round a cycle it goes on for ever. A climb takes a type out of those that it has still to visit,
so it ends on every table, and it comes to the types on the way up to the first name that comes again.
Both kinds of climb are also told as loops that keep what they have seen, one the types and the other
the names. From the first repetition on, a way leads to no new types, so what is looked up among the
types of a climb is what stands nearest on the whole way.
-/
namespace Javelet.Types

namespace Table

variable {t : Table} {name parent : String} {seen : List String} {unvisited : List TypeInfo}

/-! ## The way up -/

/-- The superclass that is named by the type of a name. -/
def superclassOf (t : Table) (name : String) : Option String :=
  (t.find? name).bind TypeInfo.superclass

/-- The names on the way up from a name, which come one after the other up to the first one that is
not in the table. -/
def way (t : Table) (name : String) : Nat → Option String
  | 0 => (some name).filter t.contains
  | n + 1 => ((t.way name n).bind t.superclassOf).filter t.contains

/-- The types on the way up from a name. -/
def typeOn (t : Table) (name : String) (n : Nat) : Option TypeInfo := (t.way name n).bind t.find?

/-- A way begins with some names, and none of them comes twice. -/
structure Begins (t : Table) (name : String) (names : List String) : Prop where
  nodup : names.Nodup
  along : ∀ i < names.length, t.way name i = names[i]?

theorem way_zero {info : TypeInfo} (h : t.find? name = some info) : t.way name 0 = some name :=
  Option.filter_some_pos (by rw [contains, h]; rfl)

theorem way_eq_none (h : t.find? name = none) (n : Nat) : t.way name n = none := by
  induction n with
  | zero =>
    rw [way, Option.filter_some_neg]
    simp [contains, h]
  | succ n ih => rw [way, ih]; rfl

theorem way_succ {info : TypeInfo} (h : t.find? name = some info)
    (hsuper : info.superclass = some parent) (n : Nat) : t.way name (n + 1) = t.way parent n := by
  induction n with
  | zero =>
    have hname : t.superclassOf name = some parent := by rw [superclassOf, h, Option.bind_some, hsuper]
    have hnext : t.way name (0 + 1) = ((t.way name 0).bind t.superclassOf).filter t.contains := rfl
    rw [hnext, way_zero h, Option.bind_some, hname, way]
  | succ n ih => rw [way, ih, way]

theorem way_succ_eq_none {info : TypeInfo} (h : t.find? name = some info)
    (hsuper : info.superclass = none) (n : Nat) : t.way name (n + 1) = none := by
  induction n with
  | zero =>
    rw [way, way_zero h, Option.bind_some, superclassOf, h, Option.bind_some, hsuper]
    rfl
  | succ n ih => rw [way, ih]; rfl

/-! ## What a climb comes to -/

/-- The types that a climb has still to visit are those of the table, but for the ones of the names
that it has seen. -/
def Left (t : Table) (seen : List String) (unvisited : List TypeInfo) : Prop :=
  ∀ name, findType unvisited name = if name ∈ seen then none else t.find? name

theorem left_types (t : Table) : t.Left [] t.types := fun _ => rfl

theorem Left.drop (h : t.Left seen unvisited) (name : String) :
    t.Left (name :: seen) (dropType unvisited name) := by
  intro other
  rw [findType_dropType, h other]
  by_cases hname : other = name
  · simp [hname]
  · simp [hname]

theorem Left.find? (h : t.Left seen unvisited) {info : TypeInfo}
    (hfind : findType unvisited name = some info) : name ∉ seen ∧ t.find? name = some info := by
  rw [h name] at hfind
  split at hfind
  · cases hfind
  · exact ⟨‹_›, hfind⟩

theorem Left.mem_or_find? (h : t.Left seen unvisited) (hfind : findType unvisited name = none) :
    name ∈ seen ∨ t.find? name = none := by
  rw [h name] at hfind
  split at hfind
  · exact .inl ‹_›
  · exact .inr hfind

/-- The names that a climb comes to when it has seen some others. It stops where the way ends, or
where it comes to a name again. -/
structure Climbed (t : Table) (seen : List String) (name : String) (names : List String) :
    Prop extends t.Begins name names where
  fresh : ∀ s ∈ names, s ∉ seen
  ends : ∀ s, t.way name names.length = some s → s ∈ seen ∨ s ∈ names

theorem climbed_climb (h : t.Left seen unvisited) :
    t.Climbed seen name ((climb unvisited name).map TypeInfo.name) := by
  fun_induction climb unvisited name generalizing seen with
  | case1 unvisited name hnone =>
    refine ⟨⟨.nil, fun i hi => absurd hi (Nat.not_lt_zero i)⟩, List.forall_mem_nil _,
      fun s hs => .inl ?_⟩
    rcases h.mem_or_find? hnone with hseen | hnone
    · obtain ⟨hsame, -⟩ := Option.filter_eq_some_iff.1 hs
      cases hsame
      exact hseen
    · cases (way_eq_none hnone 0).symm.trans hs
  | case2 unvisited name info hfind hsuper =>
    obtain ⟨hfresh, hknown⟩ := h.find? hfind
    rw [List.map_singleton, (mem_of_findType hfind).2]
    refine ⟨⟨List.nodup_singleton name, ?_⟩, List.forall_mem_singleton.2 hfresh, fun s hs => ?_⟩
    · intro i hi
      obtain rfl : i = 0 := Nat.lt_one_iff.1 hi
      exact way_zero hknown
    · cases (way_succ_eq_none hknown hsuper 0).symm.trans hs
  | case3 unvisited name info hfind parent hsuper ih =>
    obtain ⟨hfresh, hknown⟩ := h.find? hfind
    obtain ⟨⟨hnodup, halong⟩, hrest, hends⟩ := ih (h.drop name)
    rw [List.map_cons, (mem_of_findType hfind).2]
    refine ⟨⟨List.nodup_cons.2 ⟨fun hmem => hrest name hmem List.mem_cons_self, hnodup⟩, ?_⟩, ?_, ?_⟩
    · intro i hi
      cases i with
      | zero => exact way_zero hknown
      | succ i =>
        rw [way_succ hknown hsuper, List.getElem?_cons_succ]
        exact halong i (Nat.lt_of_succ_lt_succ hi)
    · refine List.forall_mem_cons.2 ⟨hfresh, fun s hs hseen => ?_⟩
      exact hrest s hs (List.mem_cons_of_mem _ hseen)
    · intro s hs
      rw [List.length_cons, way_succ hknown hsuper] at hs
      rcases hends s hs with hmem | hmem
      · rcases List.mem_cons.1 hmem with rfl | hmem
        · exact .inr List.mem_cons_self
        · exact .inl hmem
      · exact .inr (List.mem_cons_of_mem _ hmem)

/-- A climb comes to a name again if the way goes on behind the types that the climb comes to. -/
theorem revisits_eq (h : t.Left seen unvisited) :
    t.revisits unvisited name = (t.way name (climb unvisited name).length).isSome := by
  fun_induction climb unvisited name generalizing seen with
  | case1 unvisited name hnone =>
    rw [revisits]
    split
    · rw [List.length_nil, way]
      cases hknown : t.contains name with
      | true => rw [Option.filter_some_pos hknown]; rfl
      | false => rw [Option.filter_some_neg (by simp [hknown])]; rfl
    · rename_i hsome
      cases hnone.symm.trans hsome
  | case2 unvisited name info hfind hsuper =>
    rw [List.length_singleton, way_succ_eq_none (h.find? hfind).2 hsuper, revisits]
    split
    · rename_i hnone
      cases hfind.symm.trans hnone
    · rename_i info' hfind'
      cases hfind.symm.trans hfind'
      rw [hsuper]
      rfl
  | case3 unvisited name info hfind parent hsuper ih =>
    rw [List.length_cons, way_succ (h.find? hfind).2 hsuper, ← ih (h.drop name), revisits]
    split
    · rename_i hnone
      cases hfind.symm.trans hnone
    · rename_i info' hfind'
      cases hfind.symm.trans hfind'
      rw [hsuper]

/-! ## Loops -/

/-- One round of a loop that collects the types on the way up: it ends where there is no type, or one
whose name was collected before. -/
def collectRound (t : Table) : List TypeInfo × Option TypeInfo → Option (List TypeInfo × Option TypeInfo)
  | (_, none) => none
  | (chain, some info) =>
    if info.name ∈ chain.map TypeInfo.name then none
    else some (chain ++ [info], info.superclass.bind t.find?)

/-- One round of a loop that follows the names on the way up: it ends where there is no name, or one
that was seen before. A name is seen even if it is not in the table. -/
def followRound (t : Table) : List String × Option String → Option (List String × Option String)
  | (_, none) => none
  | (seen, some name) => if name ∈ seen then none else some (name :: seen, t.superclassOf name)

theorem collectRound_fresh {chain : List TypeInfo} {info : TypeInfo}
    (hfind : t.find? name = some info) (hfresh : name ∉ chain.map TypeInfo.name) :
    t.collectRound (chain, t.find? name) =
      some (chain ++ [info], info.superclass.bind t.find?) := by
  rw [← (mem_of_findType hfind).2] at hfresh
  rw [hfind, collectRound, if_neg hfresh]

/-- The loop that collects ends, and it collects the types of a climb. -/
theorem collectRound_ends {chain : List TypeInfo} (h : t.Left seen unvisited)
    (hseen : ∀ s, s ∈ chain.map TypeInfo.name ↔ s ∈ seen) :
    ∃ last, (chain ++ climb unvisited name, last) ∈
      StateTransition.eval t.collectRound (chain, t.find? name) := by
  fun_induction climb unvisited name generalizing seen chain with
  | case1 unvisited name hnone =>
    rw [List.append_nil]
    refine ⟨t.find? name, StateTransition.mem_eval.2 ⟨.refl, ?_⟩⟩
    cases hfind : t.find? name with
    | none => rfl
    | some info =>
      have hmem : name ∈ seen := (h.mem_or_find? hnone).resolve_right (by simp [hfind])
      exact if_pos ((hseen _).2 ((mem_of_findType hfind).2 ▸ hmem))
  | case2 unvisited name info hfind hsuper =>
    obtain ⟨hfresh, hknown⟩ := h.find? hfind
    have hround := collectRound_fresh hknown (mt (hseen name).1 hfresh)
    rw [hsuper] at hround
    exact ⟨none, StateTransition.mem_eval.2 ⟨.single hround, rfl⟩⟩
  | case3 unvisited name info hfind parent hsuper ih =>
    obtain ⟨hfresh, hknown⟩ := h.find? hfind
    have hround := collectRound_fresh hknown (mt (hseen name).1 hfresh)
    rw [hsuper, Option.bind_some] at hround
    obtain ⟨last, hlast⟩ := @ih (name :: seen) (chain ++ [info]) (h.drop name) fun s => by
      rw [List.map_append, List.mem_append, hseen s, List.map_singleton, List.mem_singleton,
        (mem_of_findType hfind).2, List.mem_cons, or_comm]
    rw [List.append_assoc, List.singleton_append] at hlast
    rw [← StateTransition.reaches_eval (.single hround)] at hlast
    exact ⟨last, hlast⟩

theorem followRound_fresh (t : Table) (hfresh : name ∉ seen) :
    t.followRound (seen, some name) = some (name :: seen, t.superclassOf name) :=
  if_neg hfresh

/-- The loop that follows names ends, and there is a name left exactly if a climb comes to a name
again. -/
theorem followRound_ends (h : t.Left seen unvisited) (hknown : ∀ s ∈ seen, t.contains s = true) :
    ∃ visited last, (visited, last) ∈ StateTransition.eval t.followRound (seen, some name) ∧
      t.revisits unvisited name = last.isSome := by
  fun_induction revisits t unvisited name generalizing seen with
  | case1 unvisited name hnone =>
    by_cases hmem : name ∈ seen
    · exact ⟨seen, some name, StateTransition.mem_eval.2 ⟨.refl, if_pos hmem⟩, hknown name hmem⟩
    · have hfind : t.find? name = none := (h.mem_or_find? hnone).resolve_left hmem
      have hround := followRound_fresh t hmem
      rw [superclassOf, hfind] at hround
      refine ⟨name :: seen, none, StateTransition.mem_eval.2 ⟨.single hround, rfl⟩, ?_⟩
      rw [contains, hfind]
      rfl
  | case2 unvisited name info hfind hsuper =>
    obtain ⟨hfresh, hinfo⟩ := h.find? hfind
    have hround := followRound_fresh t hfresh
    rw [superclassOf, hinfo, Option.bind_some, hsuper] at hround
    exact ⟨name :: seen, none, StateTransition.mem_eval.2 ⟨.single hround, rfl⟩, rfl⟩
  | case3 unvisited name info hfind parent hsuper ih =>
    obtain ⟨hfresh, hinfo⟩ := h.find? hfind
    have hround := followRound_fresh t hfresh
    rw [superclassOf, hinfo, Option.bind_some, hsuper] at hround
    have hcontains : t.contains name = true := by rw [contains, hinfo]; rfl
    obtain ⟨visited, last, hlast, heq⟩ :=
      ih (h.drop name) (List.forall_mem_cons.2 ⟨hcontains, hknown⟩)
    rw [← StateTransition.reaches_eval (.single hround)] at hlast
    exact ⟨visited, last, hlast, heq⟩

/-! ## The types of a climb and the whole way -/

theorem climbed_ancestors (t : Table) (name : String) :
    t.Climbed [] name ((t.ancestors name).map TypeInfo.name) :=
  climbed_climb t.left_types

/-- The names of a climb are as many as can be had without repetition. -/
theorem Climbed.longest {names names' : List String} (h : t.Climbed [] name names)
    (h' : t.Begins name names') : names' <+: names := by
  have hlength : names'.length ≤ names.length := by
    refine Nat.le_of_not_lt fun hlt => ?_
    -- the name behind those of the climb is one of them
    have hnext := h'.along names.length hlt
    rw [List.getElem?_eq_getElem hlt] at hnext
    obtain ⟨i, hi, hname⟩ := List.getElem_of_mem ((h.ends _ hnext).resolve_left List.not_mem_nil)
    have hi' : i < names'.length := Nat.lt_trans hi hlt
    have hsame := (h.along i hi).symm.trans (h'.along i hi')
    rw [List.getElem?_eq_getElem hi, List.getElem?_eq_getElem hi', hname] at hsame
    have heq := (List.Nodup.getElem_inj_iff h'.nodup).1 (Option.some.inj hsame)
    omega
  rw [List.prefix_iff_getElem?]
  intro i hi
  have hi' : i < names.length := Nat.lt_of_lt_of_le hi hlength
  rw [← h.along i hi', h'.along i hi, List.getElem?_eq_getElem hi]

/-- Every name on a way stands among those of the climb, at the same place or before. -/
theorem Climbed.exists_le {names : List String} (h : t.Climbed [] name names) {n : Nat} {s : String}
    (hs : t.way name n = some s) : ∃ i ≤ n, names[i]? = some s := by
  have hplace : ∀ {n s}, t.way name n = some s → n ≤ names.length → ∃ i ≤ n, names[i]? = some s := by
    intro n s hs hn
    rcases Nat.lt_or_eq_of_le hn with hlt | rfl
    · exact ⟨n, Nat.le_refl n, (h.along n hlt).symm.trans hs⟩
    · obtain ⟨i, hi, rfl⟩ := List.getElem_of_mem ((h.ends s hs).resolve_left List.not_mem_nil)
      exact ⟨i, Nat.le_of_lt hi, List.getElem?_eq_getElem hi⟩
  induction n generalizing s with
  | zero => exact hplace hs (Nat.zero_le _)
  | succ n ih =>
    obtain ⟨below, hbelow, -⟩ : ∃ below, t.way name n = some below ∧ t.superclassOf below = some s := by
      obtain ⟨hsome, -⟩ := Option.filter_eq_some_iff.1 hs
      exact Option.bind_eq_some_iff.1 hsome
    obtain ⟨i, hi, hfirst⟩ := ih hbelow
    have hlt : i < names.length := (List.getElem?_eq_some_iff.1 hfirst).1
    have hagain : t.way name (i + 1) = some s := by
      rw [← hs, way, way, hbelow, h.along i hlt, hfirst]
    obtain ⟨j, hj, hj'⟩ := hplace hagain hlt
    exact ⟨j, by omega, hj'⟩

/-- A climb comes to a name again exactly if a name is on the way twice. -/
theorem Climbed.isSome_iff {names : List String} (h : t.Climbed [] name names) :
    (t.way name names.length).isSome = true ↔
      ∃ i j s, i < j ∧ t.way name i = some s ∧ t.way name j = some s := by
  constructor
  · intro hsome
    obtain ⟨s, hs⟩ := Option.isSome_iff_exists.1 hsome
    obtain ⟨i, hi, rfl⟩ := List.getElem_of_mem ((h.ends s hs).resolve_left List.not_mem_nil)
    exact ⟨i, names.length, _, hi, (h.along i hi).trans (List.getElem?_eq_getElem hi), hs⟩
  · rintro ⟨i, j, s, hlt, hi, hj⟩
    have hended : ∀ n m, n ≤ m → t.way name n = none → t.way name m = none := by
      intro n m hle hnone
      induction hle with
      | refl => exact hnone
      | step _ ih => rw [way, ih]; rfl
    refine Option.isSome_iff_ne_none.2 fun hnone => ?_
    have hj' : j < names.length := by
      refine Nat.lt_of_not_le fun hle => ?_
      cases (hended _ j hle hnone).symm.trans hj
    rw [h.along i (Nat.lt_trans hlt hj')] at hi
    rw [h.along j hj'] at hj
    obtain ⟨hi', hi⟩ := List.getElem?_eq_some_iff.1 hi
    obtain ⟨hj', hj⟩ := List.getElem?_eq_some_iff.1 hj
    have heq := (List.Nodup.getElem_inj_iff h.nodup).1 (hi.trans hj.symm)
    omega

theorem typeOn_eq {i : Nat} (hi : i < (t.ancestors name).length) :
    t.typeOn name i = (t.ancestors name)[i]? := by
  have halong := (climbed_ancestors t name).along i (by rwa [List.length_map])
  rw [List.getElem?_map, List.getElem?_eq_getElem hi] at halong
  rw [typeOn, halong, List.getElem?_eq_getElem hi]
  exact find?_of_mem_ancestors (List.getElem_mem hi)

/-- Every type on a way stands among the types of the climb, at the same place or before. -/
theorem exists_ancestor_le {n : Nat} {info : TypeInfo} (h : t.typeOn name n = some info) :
    ∃ i ≤ n, (t.ancestors name)[i]? = some info := by
  obtain ⟨s, hs, hfind⟩ := Option.bind_eq_some_iff.1 h
  obtain ⟨i, hi, hplace⟩ := (climbed_ancestors t name).exists_le hs
  rw [List.getElem?_map] at hplace
  obtain ⟨info', hinfo', rfl⟩ := Option.map_eq_some_iff.1 hplace
  cases (find?_of_mem_ancestors (List.mem_of_getElem? hinfo')).symm.trans hfind
  exact ⟨i, hi, hinfo'⟩

theorem mem_ancestors_iff_typeOn {info : TypeInfo} :
    info ∈ t.ancestors name ↔ ∃ n, t.typeOn name n = some info := by
  constructor
  · intro hmem
    obtain ⟨i, hi, rfl⟩ := List.getElem_of_mem hmem
    exact ⟨i, (typeOn_eq hi).trans (List.getElem?_eq_getElem hi)⟩
  · rintro ⟨n, hn⟩
    obtain ⟨i, -, hi⟩ := exists_ancestor_le hn
    exact List.mem_of_getElem? hi

/-! ## Lookups -/

/-- On the way up from a name, a type is the nearest one with a property. -/
def Nearest (t : Table) (name : String) (Fits : TypeInfo → Prop) (owner : TypeInfo) : Prop :=
  ∃ n, t.typeOn name n = some owner ∧ Fits owner ∧
    ∀ i < n, ∀ o, t.typeOn name i = some o → ¬ Fits o

theorem nearest_iff {Fits : TypeInfo → Prop} {owner : TypeInfo} :
    t.Nearest name Fits owner ↔ ∃ nearer farther, t.ancestors name = nearer ++ owner :: farther ∧
      Fits owner ∧ ∀ o ∈ nearer, ¬ Fits o := by
  constructor
  · rintro ⟨n, hn, hfits, hnearer⟩
    obtain ⟨i, hle, hi⟩ := exists_ancestor_le hn
    obtain ⟨hlt, howner⟩ := List.getElem?_eq_some_iff.1 hi
    -- before its place the owner would be a nearer one
    obtain rfl : i = n := by
      refine Nat.le_antisymm hle (Nat.le_of_not_lt fun hbefore => ?_)
      exact hnearer i hbefore owner ((typeOn_eq hlt).trans hi) hfits
    refine ⟨(t.ancestors name).take i, (t.ancestors name).drop (i + 1), ?_, hfits, fun o ho => ?_⟩
    · rw [← howner, ← List.drop_eq_getElem_cons hlt, List.take_append_drop]
    · obtain ⟨j, hj, rfl⟩ := List.getElem_of_mem ho
      rw [List.length_take] at hj
      have hj' : j < (t.ancestors name).length := by omega
      rw [List.getElem_take]
      exact hnearer j (by omega) _ ((typeOn_eq hj').trans (List.getElem?_eq_getElem hj'))
  · rintro ⟨nearer, farther, heq, hfits, hnearer⟩
    have hlength : nearer.length < (t.ancestors name).length := by simp [heq]
    refine ⟨nearer.length, ?_, hfits, fun i hi o ho => hnearer o ?_⟩
    · rw [typeOn_eq hlength, heq, List.getElem?_append_right (Nat.le_refl _), Nat.sub_self]
      rfl
    · rw [typeOn_eq (Nat.lt_trans hi hlength), heq, List.getElem?_append_left hi] at ho
      exact List.mem_of_getElem? ho

/-- The property that is found is the one of the nearest type that has one. -/
theorem findProperty_eq_some_iff {property : String} {owner : TypeInfo} {found : PropertyInfo} :
    t.findProperty name property = some (owner, found) ↔
      owner.properties.find? property = some found ∧
        t.Nearest name (fun o => o.properties.contains property = true) owner := by
  have hfits : ∀ o : TypeInfo, ¬ o.properties.contains property = true ↔
      (o.properties.find? property).map (fun p => (o, p)) = none := by
    simp [Dictionary.contains]
  rw [findProperty, List.findSome?_eq_some_iff, nearest_iff]
  constructor
  · rintro ⟨nearer, o, farther, heq, hfound, hnearer⟩
    obtain ⟨p, hp, hpair⟩ := Option.map_eq_some_iff.1 hfound
    cases hpair
    refine ⟨hp, nearer, farther, heq, ?_, fun o ho => (hfits o).2 (hnearer o ho)⟩
    rw [Dictionary.contains, hp]
    rfl
  · rintro ⟨hp, nearer, farther, heq, -, hnearer⟩
    refine ⟨nearer, owner, farther, heq, ?_, fun o ho => (hfits o).1 (hnearer o ho)⟩
    rw [hp]
    rfl

theorem isSubtype_iff_typeOn {sup : String} : t.isSubtype name sup = true ↔
    ∃ n info, t.typeOn name n = some info ∧ (info.name = sup ∨ info.interface = some sup) := by
  simp only [isSubtype, List.any_eq_true, mem_ancestors_iff_typeOn, Bool.or_eq_true, beq_iff_eq]
  constructor
  · rintro ⟨info, ⟨n, hn⟩, h⟩
    exact ⟨n, info, hn, h⟩
  · rintro ⟨n, info, hn, h⟩
    exact ⟨info, ⟨n, hn⟩, h⟩

/-- The methods that are found are the ones of the nearest types that offer their keys, and one is
found for each key that is offered on the way. -/
theorem found_methodsNamed (t : Table) (name method : String) :
    (∀ f ∈ t.methodsNamed name method, f.1.Offers method f.2 ∧
      t.Nearest name (fun o => ∃ m, o.Offers method m ∧ m.signature = f.2.signature) f.1) ∧
      ∀ n o m, t.typeOn name n = some o → o.Offers method m →
        ∃ f ∈ t.methodsNamed name method, f.2.signature = m.signature := by
  obtain ⟨hsound, hcomplete⟩ := found_foldl_addMethods method (t.ancestors name)
  refine ⟨fun f hf => ?_, fun n o m ho hm => hcomplete o (mem_ancestors_iff_typeOn.2 ⟨n, ho⟩) m hm⟩
  obtain ⟨hoffers, nearer, farther, heq, hnearer⟩ := hsound f hf
  refine ⟨hoffers, nearest_iff.2 ⟨nearer, farther, heq, ⟨f.2, hoffers, rfl⟩, ?_⟩⟩
  rintro o ho ⟨m, hm, hkey⟩
  exact hnearer o ho m hm hkey

/-! ## Every table -/

/-- A climb visits at most as many types as there are names in the table. -/
theorem length_ancestors_le (t : Table) (name : String) :
    (t.ancestors name).length ≤ (t.types.map TypeInfo.name).dedup.length := by
  rw [← List.length_map TypeInfo.name]
  refine ((climbed_ancestors t name).nodup.subperm fun s hs => ?_).length_le
  obtain ⟨info, hinfo, rfl⟩ := List.mem_map.1 hs
  exact List.mem_dedup.2 (List.mem_map_of_mem (mem_of_mem_climb hinfo))

/-- How the climbs from a name end, and what is found by them. -/
structure Climb (t : Table) (name : String) : Prop where
  collects : ∃ last, (t.ancestors name, last) ∈
    StateTransition.eval t.collectRound ([], t.find? name)
  few : (t.ancestors name).length ≤ (t.types.map TypeInfo.name).dedup.length
  known : ∀ info ∈ t.ancestors name, t.find? info.name = some info
  begins : t.Begins name ((t.ancestors name).map TypeInfo.name)
  longest : ∀ names, t.Begins name names → names <+: (t.ancestors name).map TypeInfo.name
  follows : ∃ visited last, (visited, last) ∈
    StateTransition.eval t.followRound ([], some name) ∧ t.hasCycle name = last.isSome
  cyclic_iff : t.hasCycle name = true ↔
    ∃ i j s, i < j ∧ t.way name i = some s ∧ t.way name j = some s
  property_iff : ∀ property owner found, t.findProperty name property = some (owner, found) ↔
    owner.properties.find? property = some found ∧
      t.Nearest name (fun o => o.properties.contains property = true) owner
  methods : ∀ method, (∀ f ∈ t.methodsNamed name method, f.1.Offers method f.2 ∧
    t.Nearest name (fun o => ∃ m, o.Offers method m ∧ m.signature = f.2.signature) f.1) ∧
      ∀ n o m, t.typeOn name n = some o → o.Offers method m →
        ∃ f ∈ t.methodsNamed name method, f.2.signature = m.signature
  subtype_iff : ∀ sup, t.isSubtype name sup = true ↔
    ∃ n info, t.typeOn name n = some info ∧ (info.name = sup ∨ info.interface = some sup)

/-- On every table, with cycles or without, climbs from every name end. They come to the names of the
way up to the first repetition, and a cycle is reported exactly if there is one. -/
theorem climb_ends (t : Table) (name : String) : t.Climb name where
  collects := collectRound_ends t.left_types fun _ => Iff.rfl
  few := t.length_ancestors_le name
  known _ hinfo := find?_of_mem_ancestors hinfo
  begins := (climbed_ancestors t name).toBegins
  longest _ h := (climbed_ancestors t name).longest h
  follows := followRound_ends t.left_types nofun
  cyclic_iff := by
    have hlength : (t.ancestors name).length = ((t.ancestors name).map TypeInfo.name).length :=
      (List.length_map _).symm
    have hrevisits : t.hasCycle name = (t.way name (t.ancestors name).length).isSome :=
      revisits_eq t.left_types
    rw [hrevisits, hlength, (climbed_ancestors t name).isSome_iff]
  property_iff _ _ _ := findProperty_eq_some_iff
  methods method := t.found_methodsNamed name method
  subtype_iff _ := isSubtype_iff_typeOn

/-- A class below a cycle of two classes. -/
example : (Table.mk [{ TypeInfo.bare "A" .class_ with superclass := some "B" },
    { TypeInfo.bare "B" .class_ with superclass := some "A" },
    { TypeInfo.bare "C" .class_ with superclass := some "A" }]).hasCycle "C" = true := by
  decide +kernel

end Table

end Javelet.Types
