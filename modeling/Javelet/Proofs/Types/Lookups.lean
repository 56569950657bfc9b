import Javelet.Proofs.Types.Names

/-!
# Tables as maps

A table is used by the names of its types only. Two tables that know the same types under the same
names answer every request alike, whatever the order of their types.
-/
namespace Javelet.Types

/-! ## Climbing -/

theorem findType_dropType (types : List TypeInfo) (name other : String) :
    findType (dropType types name) other = if other = name then none else findType types other := by
  induction types with
  | nil => simp [dropType, findType]
  | cons info rest ih =>
    simp only [findType, dropType] at ih ⊢
    by_cases hinfo : info.name = name
    · rw [List.filter_cons_of_neg (by simp [hinfo]), ih, List.find?_cons]
      split
      · rfl
      · rename_i hother
        have hne : (info.name == other) = false := by
          rw [hinfo, beq_eq_false_iff_ne]
          exact Ne.symm hother
        rw [hne]
    · rw [List.filter_cons_of_pos (by simp [hinfo]), List.find?_cons, List.find?_cons]
      split
      · rename_i hfound
        rw [beq_iff_eq] at hfound
        rw [if_neg (hfound ▸ hinfo)]
      · exact ih

/-- Every type on the way up is the one that its name stands for. -/
theorem findType_of_mem_climb {unvisited : List TypeInfo} {name : String} {info : TypeInfo}
    (h : info ∈ climb unvisited name) : findType unvisited info.name = some info := by
  fun_induction climb unvisited name with
  | case1 => cases h
  | case2 unvisited name t hfind hsuper =>
    cases List.mem_singleton.1 h
    rw [(mem_of_findType hfind).2]
    exact hfind
  | case3 unvisited name t hfind parent hsuper ih =>
    rcases List.mem_cons.1 h with rfl | h
    · rw [(mem_of_findType hfind).2]
      exact hfind
    · have hrest := ih h
      rw [findType_dropType] at hrest
      split at hrest
      · cases hrest
      · exact hrest

theorem climb_congr {types types' : List TypeInfo} {name : String}
    (h : ∀ other, findType types other = findType types' other) :
    climb types name = climb types' name := by
  fun_induction climb types name generalizing types' with
  | case1 types name hnone =>
    rw [climb]
    split
    · rfl
    · rename_i hsome
      cases (h name ▸ hnone).symm.trans hsome
  | case2 types name t hfind hsuper =>
    rw [climb]
    split
    · rename_i hnone
      cases hnone.symm.trans (h name ▸ hfind)
    · rename_i t' hsome
      cases (h name ▸ hfind).symm.trans hsome
      rw [hsuper]
  | case3 types name t hfind parent hsuper ih =>
    have hdrop : ∀ other, findType (dropType types name) other =
        findType (dropType types' name) other := by
      intro other
      rw [findType_dropType, findType_dropType, h other]
    rw [ih hdrop]
    conv => rhs; rw [climb]
    split
    · rename_i hnone
      cases hnone.symm.trans (h name ▸ hfind)
    · rename_i t' hsome
      cases (h name ▸ hfind).symm.trans hsome
      rw [hsuper]

namespace Table

theorem find?_of_mem_ancestors {t : Table} {name : String} {info : TypeInfo}
    (h : info ∈ t.ancestors name) : t.find? info.name = some info :=
  findType_of_mem_climb h

theorem lookup_eq_ok {t : Table} {name : String} {info : TypeInfo} :
    t.lookup name = .ok info ↔ t.find? name = some info := by
  unfold lookup
  split <;> simp_all

/-! ## Alike tables -/

/-- Tables that know the same types under the same names. -/
def Same (t t' : Table) : Prop := ∀ name, t.find? name = t'.find? name

namespace Same

variable {t t' : Table}

theorem refl (t : Table) : t.Same t := fun _ => rfl

theorem ancestors (h : t.Same t') : t.ancestors = t'.ancestors :=
  funext fun _ => climb_congr h

theorem contains (h : t.Same t') : t.contains = t'.contains := by
  funext name
  rw [Table.contains, Table.contains, h name]

theorem lookup (h : t.Same t') : t.lookup = t'.lookup := by
  funext name
  rw [Table.lookup, Table.lookup, h name]

theorem resolve (h : t.Same t') : t.resolve = t'.resolve := by
  funext ty
  rw [Table.resolve, Table.resolve, h.contains]

theorem extendsItself (h : t.Same t') : t.extendsItself = t'.extendsItself := by
  funext name
  rw [Table.extendsItself, Table.extendsItself, h name, h.ancestors]

theorem findProperty (h : t.Same t') : t.findProperty = t'.findProperty := by
  funext className name
  rw [Table.findProperty, Table.findProperty, h.ancestors]

theorem methodsNamed (h : t.Same t') : t.methodsNamed = t'.methodsNamed := by
  funext type name
  rw [Table.methodsNamed, Table.methodsNamed, h.ancestors]

theorem isAssignable (h : t.Same t') : t.isAssignable = t'.isAssignable := by
  funext source target
  simp only [Table.isAssignable, Table.isSubtype, h.ancestors]

theorem accepts (h : t.Same t') : t.accepts = t'.accepts := by
  funext params args
  simp only [Table.accepts, h.isAssignable]

theorem resolveMethod (h : t.Same t') : t.resolveMethod = t'.resolveMethod := by
  funext type name args
  simp only [Table.resolveMethod, h.methodsNamed, h.accepts]

theorem resolveConstructor (h : t.Same t') : t.resolveConstructor = t'.resolveConstructor := by
  funext className args
  simp only [Table.resolveConstructor, h className, h.accepts]

end Same

/-! ## Changing one type -/

theorem find?_modify (t : Table) (name other : String) {change : TypeInfo → TypeInfo}
    (hkeep : ∀ info, (change info).name = info.name) :
    (t.modify name change).find? other =
      if other = name then (t.find? other).map change else t.find? other := by
  obtain ⟨types⟩ := t
  simp only [modify, Table.find?, findType]
  induction types with
  | nil => simp
  | cons info rest ih =>
    rw [List.map_cons, List.find?_cons, List.find?_cons]
    have hname : (if info.name = name then change info else info).name = info.name := by
      split
      · exact hkeep info
      · rfl
    rw [hname]
    by_cases hfound : info.name = other
    · subst hfound
      simp only [beq_self_eq_true, Option.map_some]
      split <;> rfl
    · rw [beq_eq_false_iff_ne.2 hfound]
      exact ih

end Table

end Javelet.Types
