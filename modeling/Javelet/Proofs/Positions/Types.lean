import Javelet.Proofs.Syntax.Marks
import Javelet.Types.Collect
import Mathlib.Data.List.Basic

/-!
# Types and marks

The table of a program does not depend on the marks of its tree, and neither do the faults in the
declared types: they stand where the new marks are.
-/
namespace Javelet

namespace Types.Collected

variable (m : Marks)

/-- The table so far, and the faults so far at new positions. -/
def marked (c : Collected) : Collected := ⟨c.table, c.faults.map (Located.marked m)⟩

@[simp] theorem table_marked (c : Collected) : (c.marked m).table = c.table := rfl

theorem report_marked (c : Collected) (fault : Fault) (p : Position) :
    (c.marked m).report fault (m.position p) = (c.report fault p).marked m := by
  simp only [marked, report, Array.map_push]
  rfl

theorem modify_marked (c : Collected) (name : String) (change : TypeInfo → TypeInfo) :
    (c.marked m).modify name change = (c.modify name change).marked m := rfl

theorem ite_marked {p : Prop} [Decidable p] {x y x' y' : Collected} (hx : x' = x.marked m)
    (hy : y' = y.marked m) : (if p then x' else y') = (if p then x else y).marked m := by
  rw [hx, hy, apply_ite (marked m)]

/-- Steps that go along with new marks make a run that does. -/
theorem foldl_marked {α : Type} {f : Collected → α → Collected} {mark : α → α}
    (h : ∀ c a, f (c.marked m) (mark a) = (f c a).marked m) (l : List α) (c : Collected) :
    (l.map mark).foldl f (c.marked m) = (l.foldl f c).marked m := by
  rw [List.foldl_map]
  exact List.foldl_hom (marked m) h

/-! ## Names and supertypes -/

theorem register_marked (c : Collected) (decl : TypeDecl) :
    (c.marked m).register (decl.marked m) =
      ((c.register decl).1.marked m, (c.register decl).2) := by
  cases decl <;>
  · simp only [register, TypeDecl.marked, TypeDecl.name, TypeDecl.position, ClassDecl.marked,
      InterfaceDecl.marked, table_marked, report_marked]
    cases c.table.declare _ <;> rfl

theorem registerAll_marked (c : Collected) (decls : List TypeDecl) :
    (c.marked m).registerAll (decls.map (TypeDecl.marked m)) =
      ((c.registerAll decls).1.marked m, (c.registerAll decls).2.map (TypeDecl.marked m)) := by
  induction decls generalizing c with
  | nil => rfl
  | cons decl rest ih =>
    simp only [List.map_cons, registerAll, register_marked, ih]
    split <;> rfl

theorem supertype_marked (c : Collected) (category : Category) (p : Position)
    (name : Option String) : (c.marked m).supertype category (m.position p) name =
      ((c.supertype category p name).1.marked m, (c.supertype category p name).2) := by
  unfold supertype
  cases name with
  | none => rfl
  | some name =>
    dsimp only
    rw [table_marked]
    cases c.table.lookup name with
    | error fault => exact congrArg (·, none) (report_marked m c _ _)
    | ok info =>
      dsimp only
      split
      · rfl
      · exact congrArg (·, none) (report_marked m c _ _)

theorem linkSupertypes_marked (c : Collected) (decl : ClassDecl) :
    (c.marked m).linkSupertypes (decl.marked m) = (c.linkSupertypes decl).marked m := by
  simp only [linkSupertypes, ClassDecl.marked, supertype_marked, modify_marked]

theorem cutCycles_marked (c : Collected) (classes : List ClassDecl) :
    (c.marked m).cutCycles (classes.map (ClassDecl.marked m)) = (c.cutCycles classes).marked m := by
  have hcyclic : (classes.map (ClassDecl.marked m)).filter
        (fun decl => c.table.extendsItself decl.name) =
      (classes.filter fun decl => c.table.extendsItself decl.name).map (ClassDecl.marked m) := by
    rw [List.filter_map]
    rfl
  simp only [cutCycles, table_marked, hcyclic]
  rw [foldl_marked m fun c decl => report_marked m c _ _,
    foldl_marked m fun c decl => modify_marked m c _ _]

/-! ## Members -/

theorem paramTypes_marked (c : Collected) (params : List Parameter) :
    (c.marked m).paramTypes (params.map (Parameter.marked m)) =
      ((c.paramTypes params).1.marked m, (c.paramTypes params).2) := by
  induction params generalizing c with
  | nil => rfl
  | cons param rest ih =>
    simp only [List.map_cons, paramTypes, Parameter.marked, table_marked]
    cases c.table.resolve param.type with
    | ok ty => simp only [ih]
    | error fault => simp only [report_marked, ih]

theorem methodInfo_marked (c : Collected) (header : Signature) :
    (c.marked m).methodInfo (header.marked m) =
      ((c.methodInfo header).1.marked m, (c.methodInfo header).2) := by
  simp only [methodInfo, Signature.marked, table_marked, List.length_map]
  cases c.table.resolveReturn header.returns with
  | ok ty => simp only [paramTypes_marked]
  | error fault => simp only [report_marked, paramTypes_marked]

theorem addMethod_marked (c : Collected) (owner : String) (method : MethodInfo) (p : Position) :
    (c.marked m).addMethod owner method (m.position p) = (c.addMethod owner method p).marked m := by
  unfold addMethod
  rw [table_marked]
  cases c.table.find? owner with
  | none => rfl
  | some info =>
    exact ite_marked m (report_marked m c _ _) (modify_marked m c _ _)

theorem collectMethod_marked (owner : String) (c : Collected) (header : Signature) :
    collectMethod owner (c.marked m) (header.marked m) = (collectMethod owner c header).marked m := by
  unfold collectMethod
  rw [methodInfo_marked]
  cases c.methodInfo header with
  | mk c method =>
    cases method with
    | none => rfl
    | some method => exact addMethod_marked m c owner method _

theorem collectInterface_marked (c : Collected) (decl : InterfaceDecl) :
    (c.marked m).collectInterface (decl.marked m) = (c.collectInterface decl).marked m :=
  foldl_marked m (collectMethod_marked m decl.name) decl.methods c

theorem collectProperty_marked (className : String) (c : Collected) (property : Property) :
    collectProperty className (c.marked m) (property.marked m) =
      (collectProperty className c property).marked m := by
  simp only [collectProperty, Property.marked, Variable.marked, table_marked]
  cases c.table.resolve property.variable_.type with
  | error fault => exact report_marked m c _ _
  | ok ty =>
    cases c.table.find? className with
    | none => rfl
    | some info =>
      exact ite_marked m (report_marked m c _ _) (modify_marked m c _ _)

theorem collectNamedMethod_marked (className : String) (c : Collected) (header : Signature) :
    collectNamedMethod className (c.marked m) (header.marked m) =
      (collectNamedMethod className c header).marked m := by
  exact ite_marked m (report_marked m c _ _) (collectMethod_marked m className c header)

theorem collectClass_marked (c : Collected) (decl : ClassDecl) :
    (c.marked m).collectClass (decl.marked m) = (c.collectClass decl).marked m := by
  have hconstructors : (decl.constructors.map (Method.marked m)).map Method.signature =
      (decl.constructors.map Method.signature).map (Signature.marked m) := by
    rw [List.map_map, List.map_map]
    rfl
  have hmethods : (decl.methods.map (Method.marked m) ++
        (decl.main.map (Method.marked m)).toList).map Method.signature =
      ((decl.methods ++ decl.main.toList).map Method.signature).map (Signature.marked m) := by
    rw [List.map_map, List.map_append, List.map_append, List.map_map]
    cases decl.main <;> rfl
  simp only [collectClass, ClassDecl.marked, hconstructors, hmethods]
  rw [foldl_marked m (collectProperty_marked m decl.name),
    foldl_marked m (collectMethod_marked m decl.name),
    foldl_marked m (collectNamedMethod_marked m decl.name), modify_marked]

theorem checkInterface_marked (c : Collected) (decl : ClassDecl) :
    (c.marked m).checkInterface (decl.marked m) = (c.checkInterface decl).marked m := by
  unfold checkInterface
  simp only [table_marked, ClassDecl.marked]
  cases c.table.find? decl.name with
  | none => rfl
  | some info =>
    dsimp only
    cases info.interface.bind c.table.find? with
    | none => rfl
    | some interface => exact List.foldl_hom (marked m) fun c key => report_marked m c _ _

end Types.Collected

/-- The types of a program are collected alike whatever the marks of its tree. -/
theorem Types.collect_marked (m : Marks) (p : Program) :
    collect (p.marked m) = (collect p).marked m := by
  have hstart : Collected.marked m ⟨.initial, #[]⟩ = ⟨.initial, #[]⟩ :=
    congrArg (Collected.mk _) Array.map_empty
  have hall := Collected.registerAll_marked m ⟨.initial, #[]⟩ p.declarations
  rw [hstart] at hall
  have hclasses : ∀ kept : List TypeDecl, (kept.map (TypeDecl.marked m)).filterMap TypeDecl.class? =
      (kept.filterMap TypeDecl.class?).map (ClassDecl.marked m) := by
    intro kept
    rw [List.filterMap_map, List.map_filterMap]
    refine List.filterMap_congr fun decl _ => ?_
    cases decl <;> rfl
  have hinterfaces : ∀ kept : List TypeDecl,
      (kept.map (TypeDecl.marked m)).filterMap TypeDecl.interface? =
        (kept.filterMap TypeDecl.interface?).map (InterfaceDecl.marked m) := by
    intro kept
    rw [List.filterMap_map, List.map_filterMap]
    refine List.filterMap_congr fun decl _ => ?_
    cases decl <;> rfl
  unfold collect
  rw [Program.marked, hall]
  dsimp only
  rw [hclasses, hinterfaces, Collected.foldl_marked m (Collected.linkSupertypes_marked m),
    Collected.cutCycles_marked, Collected.foldl_marked m (Collected.collectInterface_marked m)]
  refine Collected.foldl_marked m (fun c decl => ?_) _ _
  rw [Collected.collectClass_marked, Collected.checkInterface_marked]

end Javelet
