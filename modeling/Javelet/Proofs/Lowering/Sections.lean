import Javelet.Proofs.Lowering.CodeBlocks
import Javelet.Proofs.Lowering.References
import Javelet.Proofs.Types.Declared

/-!
# What a section holds

The section of a class holds a field for each property and a block for each constructor, method and
entry point of its declaration, with the header that is declared. The block of a constructor starts
with the call of a constructor of the superclass. Every other reference to a member in a block is
made from what the table answers, or stores the initial value of a property.
-/
namespace Javelet

namespace Assembly

/-- The name of the type that a section is about. -/
def Section.name : Section → String
  | class_ c => c.name
  | interface i => i.name

/-- The field of a property. -/
def Field.ofProperty (p : Property) : Field := ⟨p.access, p.variable_.name, p.variable_.type⟩

/-- The header of a constructor. -/
def Header.init (access : Access) (params : List Ty) : Header :=
  ⟨access, false, "<init>", params, .void⟩

/-- The header of a method or of the entry point. -/
def Header.ofMethod (m : Method) : Header :=
  match m.signature.kind with
  | .main => ⟨.public_, true, "main", [.arrayOf .string], .void⟩
  | _ => ⟨m.signature.access, false, m.signature.name, m.signature.paramTypes,
      m.signature.returns⟩

/-- The code with which every constructor starts. -/
def superCall (superclass : String) : Segment :=
  [.op .loadThis, .op (.invokeConstructor superclass [])]

theorem EachOp.imp {P Q : Instruction → Prop} {code : Segment} (h : EachOp P code)
    (hpq : ∀ i, P i → Q i) : EachOp Q code :=
  fun i hi => hpq i (h i hi)

theorem EachOp.written {P : Instruction → Prop} {code : Segment} (h : EachOp P code) :
    EachOp P (written code) :=
  fun i hi => h i (List.mem_filter.1 hi).1

end Assembly

open Assembly

/-- The headers of the blocks of a class, in order. -/
def ClassDecl.blockHeaders (d : ClassDecl) : List Header :=
  d.constructors.map (fun m => .init m.signature.access m.signature.paramTypes) ++
    (d.methods ++ d.main.toList).map .ofMethod ++
    if d.constructors.isEmpty then [.init .public_ []] else []

namespace Lowering

/-- A section holds what a class declares. -/
structure Holds (d : ClassDecl) (c : ClassSection) : Prop where
  name : c.name = d.name
  superclass : c.superclass = d.superclass.getD objectClass
  interface : c.interface = d.interface
  fields : c.fields = d.properties.map .ofProperty
  headers : c.methods.map MethodCode.header = d.blockHeaders

variable {env : Env} {first next : Label} {d : ClassDecl} {c : ClassSection}

theorem yields_mapM_map_eq {α β γ : Type} {f : α → Lower β} {xs : List α} {ys : List β}
    {g : β → γ} {k : α → γ} (hf : ∀ x ∈ xs, ∀ {first y next}, Yields (f x) first y next → g y = k x)
    (h : Yields (xs.mapM f) first ys next) : ys.map g = xs.map k := by
  induction xs generalizing first ys with
  | nil =>
    obtain ⟨-, rfl⟩ := yields_mapM_nil.1 h
    rfl
  | cons x xs ih =>
    obtain ⟨y, rest, middle, hy, hrest, rfl⟩ := yields_mapM_cons.1 h
    rw [List.forall_mem_cons] at hf
    rw [List.map_cons, List.map_cons, hf.1 hy, ih hf.2 hrest]

theorem class_holds (hinfo : env.table.lookup d.name = .ok (.ofClass d))
    (h : Yields (class_ env d) first c next) : Holds d c := by
  obtain ⟨info, constructors, methods, default_, middle, middle', hlookup, hc, hm, hd, rfl⟩ :=
    yields_class_iff.1 h
  cases hinfo.symm.trans hlookup
  have hconstructors : constructors.map MethodCode.header =
      d.constructors.map fun m => .init m.signature.access m.signature.paramTypes := by
    refine yields_mapM_map_eq ?_ hc
    intro m _ first mc next hy
    obtain ⟨before, middle, -, hcode⟩ := yields_constructor.1 hy
    obtain ⟨body, -, rfl⟩ := yields_methodCode.1 hcode
    rfl
  have hmethods : methods.map MethodCode.header = (d.methods ++ d.main.toList).map .ofMethod := by
    refine yields_mapM_map_eq ?_ hm
    intro m _ first mc next hy
    obtain ⟨body, -, rfl⟩ := yields_methodCode.1 hy
    rfl
  have hdefault : default_.map MethodCode.header =
      if d.constructors.isEmpty then [.init .public_ []] else [] := by
    rcases yields_defaultConstructors.1 hd with ⟨hnil, mc, hmc, rfl⟩ | ⟨hne, rfl, rfl⟩
    · simp only [defaultConstructor, yields_bind, yields_pure] at hmc
      obtain ⟨before, _, -, rfl, rfl⟩ := hmc
      rw [hnil]
      rfl
    · rw [if_neg (mt List.isEmpty_iff.1 hne)]
      rfl
  refine ⟨rfl, ?_, Types.interface_ofClass d, rfl, ?_⟩
  · rw [Types.superclass_ofClass]
  · rw [List.map_append, List.map_append, hconstructors, hmethods, hdefault]
    rfl

/-! ## The references in blocks -/

/-- A reference to a member in the code of a class: made from what the table answers, or the store
of an initial value. -/
def ReferenceIn (t : Types.Table) (d : ClassDecl) (i : Instruction) : Prop :=
  Emitted t i ∨ ∃ p ∈ d.properties, i = .putField d.name p.variable_.name p.variable_.type

theorem initializer_refers (henv : env.WellNamed) {p : Property} {code : Segment}
    (hp : p.WellNamed) (hmem : p ∈ d.properties) (hname : env.className = d.name)
    (h : Yields (initializer env p) first code next) :
    EachOp (ReferenceIn env.table d) code := by
  have hthis : ReferenceIn env.table d .loadThis := .inl (.plain rfl)
  have hput : ReferenceIn env.table d
      (.putField env.className p.variable_.name p.variable_.type) :=
    .inr ⟨p, hmem, by rw [hname]⟩
  rcases yields_initializer h with ⟨-, -, rfl⟩ | ⟨e, v, he, hv, rfl⟩
  · have hpush : ReferenceIn env.table d (.pushDefault p.variable_.type) :=
      .inl (.plain (namesMember_pushDefault _))
    simp [hthis, hput, hpush]
  · have hvalue : EachOp (ReferenceIn env.table d) v.code :=
      (expr_refers henv (hp.variable_.value e he) hv).imp fun i hi => .inl hi
    simp [hthis, hput, hvalue]

theorem prologue_refers (henv : env.WellNamed) (hd : d.WellNamed) {superclass : String}
    {code : Segment} (hname : env.className = d.name)
    (h : Yields (prologue env superclass d.properties) first code next) :
    ∃ rest, code = superCall superclass ++ rest ∧ EachOp (ReferenceIn env.table d) rest := by
  obtain ⟨values, hv, rfl⟩ := yields_prologue.1 h
  refine ⟨values.flatten, rfl, .flatten ?_⟩
  intro value hvalue
  obtain ⟨p, hp, first, next, hy⟩ := yields_mapM_of_mem hv hvalue
  exact initializer_refers henv (hd.properties p hp) hp hname hy

theorem body_refers (henv : env.WellNamed) {m : Method} {body : Segment} (hm : m.WellNamed)
    (h : Yields (block (env.enter m.signature.id) m.body) first body next) :
    EachOp (ReferenceIn env.table d) body := by
  have hbody := block_refers (henv.enter m.signature.id)
    (fun s hs => statement_refers (hm.body s hs)) h
  exact hbody.imp fun i hi => .inl hi

/-- What is shown of the code of every block: the call of the superclass in a constructor, and
behind it references that are answered. -/
def BlockRefers (t : Types.Table) (d : ClassDecl) (superclass : String) (mc : MethodCode) : Prop :=
  ∃ rest, mc.code = (if mc.header.name = "<init>" then superCall superclass else []) ++ rest ∧
    EachOp (ReferenceIn t d) rest

theorem constructor_refers (henv : env.WellNamed) (hd : d.WellNamed) {superclass : String}
    {m : Method} {mc : MethodCode} (hname : env.className = d.name) (hm : m.WellNamed)
    (h : Yields (constructor env superclass d.properties m) first mc next) :
    BlockRefers env.table d superclass mc := by
  obtain ⟨before, middle, hp, hcode⟩ := yields_constructor.1 h
  obtain ⟨body, hbody, rfl⟩ := yields_methodCode.1 hcode
  obtain ⟨rest, rfl, hrest⟩ := prologue_refers henv hd hname hp
  exact ⟨rest ++ body, List.append_assoc .., eachOp_append.2 ⟨hrest, body_refers henv hm hbody⟩⟩

theorem init_notPlain : ¬ PlainName "<init>" := by
  intro h
  exact h.not_mem (c := '<') rfl (by decide)

theorem name_ofMethod_ne {m : Method} (hm : m.WellNamed) : (Header.ofMethod m).name ≠ "<init>" := by
  unfold Header.ofMethod
  split
  · decide
  · intro h
    exact init_notPlain (h ▸ hm.signature.name)

theorem method_refers (henv : env.WellNamed) {superclass : String} {m : Method} {mc : MethodCode}
    (hm : m.WellNamed) (h : Yields (method env m) first mc next) :
    BlockRefers env.table d superclass mc := by
  obtain ⟨body, hbody, rfl⟩ := yields_methodCode.1 h
  refine ⟨body, ?_, body_refers henv hm hbody⟩
  change [] ++ body = (if (Header.ofMethod m).name = "<init>" then _ else []) ++ body
  rw [if_neg (name_ofMethod_ne hm)]

theorem class_refers (henv : (classEnv env d).WellNamed) (hd : d.WellNamed)
    (h : Yields (class_ env d) first c next) :
    ∀ mc ∈ c.methods, BlockRefers env.table d c.superclass mc := by
  obtain ⟨info, constructors, methods, default_, middle, middle', hlookup, hc, hm, hdefault, rfl⟩ :=
    yields_class_iff.1 h
  intro mc hmc
  rw [List.mem_append, List.mem_append] at hmc
  rcases hmc with (hmc | hmc) | hmc
  · obtain ⟨m, hmem, _, _, hy⟩ := yields_mapM_of_mem hc hmc
    exact constructor_refers henv hd rfl
      (hd.methods m (List.mem_append_left _ (List.mem_append_left _ hmem))) hy
  · obtain ⟨m, hmem, _, _, hy⟩ := yields_mapM_of_mem hm hmc
    have hmem' := List.mem_append_right d.constructors hmem
    rw [← List.append_assoc] at hmem'
    exact method_refers henv (hd.methods m hmem') hy
  · rcases yields_defaultConstructors.1 hdefault with ⟨-, mc', hmc', rfl⟩ | ⟨-, rfl, -⟩
    · cases List.mem_singleton.1 hmc
      simp only [defaultConstructor, yields_bind, yields_pure] at hmc'
      obtain ⟨before, _, hp, rfl, rfl⟩ := hmc'
      exact prologue_refers henv hd rfl hp
    · cases hmc

/-- The block of a method is what is printed of its code, and perhaps a return. -/
theorem BlockRefers.block {t : Types.Table} {superclass : String} {mc : MethodCode}
    (h : BlockRefers t d superclass mc) :
    ∃ rest, mc.block = (if mc.header.name = "<init>" then superCall superclass else []) ++ rest ∧
      EachOp (ReferenceIn t d) rest := by
  obtain ⟨rest, hcode, hrest⟩ := h
  obtain ⟨tail, htail, hprinted⟩ := printed_listing mc.code
  have hstart : written (if mc.header.name = "<init>" then superCall superclass else []) =
      if mc.header.name = "<init>" then superCall superclass else [] := by
    split <;> rfl
  have htailOps : EachOp (ReferenceIn t d) tail := by
    rcases htail with rfl | rfl
    · exact eachOp_nil
    · exact eachOp_op.2 ⟨.inl (.plain rfl), eachOp_nil⟩
  refine ⟨written (rest ++ tail), ?_, (eachOp_append.2 ⟨hrest, htailOps⟩).written⟩
  rw [MethodCode.block, hprinted, hcode, List.append_assoc, written_append, hstart]

end Lowering

end Javelet
