import Mathlib.Data.List.Forall2
import Javelet.Compile
import Javelet.Proofs.Lowering.Sites

/-!
# The methods of an accepted program

An accepted source text has a tree, types, scopes and sections. Every method in a section comes
from a constructor, a method or the entry point of a class, or it is the constructor of a class
that declares none. The statements of a method lie inside the site of its body.
-/
namespace Javelet.Lowering

open Assembly

/-- What the stages make of a source text that is accepted. -/
structure Accepted (source : String) (program : Program) (analysis : Analysis)
    (sections : List Section) : Prop where
  parsed : parseSource source = .ok program
  analyzed : analyze program = .ok analysis
  lowered : Lowering.program analysis.table analysis.arena program = .ok sections

theorem mapError_eq_ok {ε ε' α : Type} {f : ε → ε'} {x : Except ε α} {a : α} :
    x.mapError f = .ok a ↔ x = .ok a := by
  cases x with
  | error e => constructor <;> rintro ⟨⟩
  | ok b => constructor <;> (rintro ⟨⟩; rfl)

theorem except_bind_eq_ok {ε α β : Type} {x : Except ε α} {f : α → Except ε β} {b : β} :
    (x >>= f) = .ok b ↔ ∃ a, x = .ok a ∧ f a = .ok b := by
  cases x <;> simp [bind, Except.bind]

theorem exists_ok_of_any {ε α : Type} {x : Except ε α} {p : α → Bool}
    (h : x.toOption.any p = true) : ∃ a, x = .ok a ∧ p a = true := by
  cases x with
  | error _ => cases h
  | ok a => exact ⟨a, rfl, h⟩

theorem exists_ok_of_isOk {ε α : Type} {x : Except ε α} (h : x.isOk = true) : ∃ a, x = .ok a := by
  cases x with
  | error _ => cases h
  | ok a => exact ⟨a, rfl⟩

theorem parseSource_eq_ok_iff {source : String} {program : Program} :
    parseSource source = .ok program ↔
      ∃ tokens, tokenize source = .ok tokens ∧ parse tokens = .ok program := by
  simp only [parseSource, except_bind_eq_ok, mapError_eq_ok]

theorem compile_eq_ok_iff {source text : String} : compile source = .ok text ↔
    ∃ program analysis sections, Accepted source program analysis sections ∧
      text = programText sections := by
  simp only [compile, except_bind_eq_ok, mapError_eq_ok]
  constructor
  · rintro ⟨program, hp, analysis, ha, hg⟩
    unfold generate at hg
    split at hg
    · rename_i sections hl
      cases hg
      exact ⟨program, analysis, sections, ⟨hp, ha, hl⟩, rfl⟩
    · cases hg
  · rintro ⟨program, analysis, sections, ⟨hp, ha, hl⟩, rfl⟩
    exact ⟨program, hp, analysis, ha, by simp [generate, hl]⟩

theorem Accepted.compile_eq {source : String} {program : Program} {analysis : Analysis}
    {sections : List Section} (ha : Accepted source program analysis sections) :
    compile source = .ok (programText sections) :=
  compile_eq_ok_iff.2 ⟨_, _, _, ha, rfl⟩

/-- A source text is accepted if the stages have results that pass a check. -/
theorem exists_accepted_of_any {source : String} {p : Program → Analysis → List Section → Bool}
    (h : ((parseSource source).toOption.any fun program =>
      (analyze program).toOption.any fun (analysis : Analysis) =>
        (Lowering.program analysis.table analysis.arena program).toOption.any
          (p program analysis)) = true) :
    ∃ program analysis sections, Accepted source program analysis sections ∧
      p program analysis sections = true := by
  obtain ⟨program, hparse, h⟩ := exists_ok_of_any h
  obtain ⟨analysis, hanalyze, h⟩ := exists_ok_of_any h
  obtain ⟨sections, hlower, h⟩ := exists_ok_of_any h
  exact ⟨program, analysis, sections, ⟨hparse, hanalyze, hlower⟩, h⟩

/-! ## Lists of lowerings -/

section MapM

variable {α β : Type} {f : α → Lower β} {xs : List α} {ys : List β} {first next : Label}

theorem yields_mapM_nil : Yields ([].mapM f) first ys next ↔ next = first ∧ ys = [] := by
  simp [and_comm]

theorem yields_mapM_cons {x : α} : Yields ((x :: xs).mapM f) first ys next ↔
    ∃ y rest middle, Yields (f x) first y middle ∧ Yields (xs.mapM f) middle rest next ∧
      ys = y :: rest := by
  simp only [List.mapM_cons, yields_bind, yields_pure]
  constructor
  · rintro ⟨y, middle, hy, rest, _, hrest, rfl, rfl⟩
    exact ⟨y, rest, middle, hy, hrest, rfl⟩
  · rintro ⟨y, rest, middle, hy, hrest, rfl⟩
    exact ⟨y, middle, hy, rest, next, hrest, rfl, rfl⟩

theorem forall₂_mapM {R : α → β → Prop}
    (hf : ∀ x ∈ xs, ∀ {first y next}, Yields (f x) first y next → R x y)
    (h : Yields (xs.mapM f) first ys next) : List.Forall₂ R xs ys := by
  induction xs generalizing first ys with
  | nil =>
    obtain ⟨-, rfl⟩ := yields_mapM_nil.1 h
    exact .nil
  | cons x xs ih =>
    obtain ⟨y, rest, middle, hy, hrest, rfl⟩ := yields_mapM_cons.1 h
    rw [List.forall_mem_cons] at hf
    exact .cons (hf.1 hy) (ih hf.2 hrest)

/-- Every result of a list of lowerings comes from one of them. -/
theorem yields_mapM_of_mem (h : Yields (xs.mapM f) first ys next) {y : β} (hy : y ∈ ys) :
    ∃ x ∈ xs, ∃ first next, Yields (f x) first y next := by
  induction xs generalizing first ys with
  | nil =>
    obtain ⟨-, rfl⟩ := yields_mapM_nil.1 h
    cases hy
  | cons x xs ih =>
    obtain ⟨y', rest, middle, hx, hrest, rfl⟩ := yields_mapM_cons.1 h
    rcases List.mem_cons.1 hy with rfl | hy
    · exact ⟨x, List.mem_cons_self .., _, _, hx⟩
    · obtain ⟨x', hx', hres⟩ := ih hrest hy
      exact ⟨x', List.mem_cons_of_mem _ hx', hres⟩

/-- Every lowering of a list has a result. -/
theorem yields_mapM_of_mem_source (h : Yields (xs.mapM f) first ys next) {x : α} (hx : x ∈ xs) :
    ∃ y ∈ ys, ∃ first next, Yields (f x) first y next := by
  induction xs generalizing first ys with
  | nil => cases hx
  | cons x' xs ih =>
    obtain ⟨y, rest, middle, hy, hrest, rfl⟩ := yields_mapM_cons.1 h
    rcases List.mem_cons.1 hx with rfl | hx
    · exact ⟨y, List.mem_cons_self .., _, _, hy⟩
    · obtain ⟨y', hy', hres⟩ := ih hrest hx
      exact ⟨y', List.mem_cons_of_mem _ hy', hres⟩

theorem length_of_yields_mapM (h : Yields (xs.mapM f) first ys next) : ys.length = xs.length :=
  (forall₂_mapM (R := fun _ _ => True) (fun _ _ _ _ _ _ => trivial) h).length_eq.symm

/-- If the labels of each result are drawn while it is lowered, so are those of all results. -/
theorem mapM_labelled {code : β → Segment}
    (hf : ∀ x ∈ xs, ∀ {first y next}, Yields (f x) first y next → Labelled first next (code y))
    (h : Yields (xs.mapM f) first ys next) : Labelled first next (ys.flatMap code) := by
  induction xs generalizing first ys with
  | nil =>
    obtain ⟨rfl, rfl⟩ := yields_mapM_nil.1 h
    exact .of_labelsOf_eq_nil rfl
  | cons x xs ih =>
    obtain ⟨y, rest, middle, hy, hrest, rfl⟩ := yields_mapM_cons.1 h
    rw [List.forall_mem_cons] at hf
    exact (hf.1 hy).append (ih hf.2 hrest)

end MapM

/-! ## Classes -/

variable {env : Env} {first next : Label}

theorem yields_program {table : Types.Table} {arena : Arena} {p : Program}
    {sections : List Section} (h : program table arena p = .ok sections) :
    ∃ next, Yields (p.declarations.mapM (typeDecl (.outermost table arena))) 0 sections next := by
  unfold program StateT.run' at h
  cases hrun : (p.declarations.mapM (typeDecl (.outermost table arena))) 0 with
  | error fault =>
    rw [hrun] at h
    cases h
  | ok result =>
    rw [hrun] at h
    cases h
    exact ⟨result.2, hrun⟩

theorem program_of_yields {table : Types.Table} {arena : Arena} {p : Program}
    {sections : List Section}
    (h : Yields (p.declarations.mapM (typeDecl (.outermost table arena))) 0 sections next) :
    program table arena p = .ok sections := by
  have hrun : (p.declarations.mapM (typeDecl (.outermost table arena))) 0 =
      .ok (sections, next) := h
  rw [program, StateT.run', hrun]
  rfl

theorem yields_typeDecl_class {decl : ClassDecl} {s : Section} :
    Yields (typeDecl env (.class_ decl)) first s next ↔
      ∃ c, Yields (class_ env decl) first c next ∧ s = .class_ c := by
  simp only [typeDecl, yields_map]

/-- The constructor that a class without constructors gets. -/
def defaultConstructors (env : Env) (superclass : String) (decl : ClassDecl) :
    Lower (List MethodCode) :=
  if decl.constructors.isEmpty then
    List.singleton <$> defaultConstructor env superclass decl.properties
  else pure []

theorem yields_defaultConstructors {superclass : String} {decl : ClassDecl}
    {default_ : List MethodCode} :
    Yields (defaultConstructors env superclass decl) first default_ next ↔
      (decl.constructors = [] ∧ ∃ mc, Yields (defaultConstructor env superclass decl.properties)
        first mc next ∧ default_ = [mc]) ∨
      (decl.constructors ≠ [] ∧ default_ = [] ∧ next = first) := by
  rw [defaultConstructors, yields_ite, yields_map, yields_pure, List.isEmpty_iff]
  rfl

/-- The section of a class, with all that it holds. -/
theorem yields_class_iff {decl : ClassDecl} {c : ClassSection} :
    Yields (class_ env decl) first c next ↔
      ∃ info constructors methods default_ middle middle', env.table.lookup decl.name = .ok info ∧
        Yields (decl.constructors.mapM (constructor (classEnv env decl)
          (info.superclass.getD objectClass) decl.properties)) first constructors middle ∧
        Yields ((decl.methods ++ decl.main.toList).mapM (method (classEnv env decl))) middle methods
          middle' ∧
        Yields (defaultConstructors (classEnv env decl) (info.superclass.getD objectClass) decl)
          middle' default_ next ∧
        c = ⟨decl.name, info.superclass.getD objectClass, info.interface,
          decl.properties.map fun p => ⟨p.access, p.variable_.name, p.variable_.type⟩,
          constructors ++ methods ++ default_⟩ := by
  cases hinfo : env.table.lookup decl.name with
  | error fault => simp [class_, hinfo]
  | ok info =>
    simp only [class_, hinfo, yields_defaultConstructors, yields_bind, yields_pure, yields_ite,
      yields_map, List.isEmpty_iff]
    constructor
    · rintro ⟨_, _, ⟨rfl, rfl⟩, constructors, middle, hc, methods, middle', hm, h⟩
      rcases h with ⟨he, _, _, ⟨mc, hmc, rfl⟩, rfl, rfl⟩ | ⟨he, _, _, ⟨rfl, rfl⟩, rfl, rfl⟩
      · exact ⟨_, constructors, methods, _, middle, middle', rfl, hc, hm,
          .inl ⟨he, mc, hmc, rfl⟩, rfl⟩
      · exact ⟨_, constructors, methods, _, middle, _, rfl, hc, hm, .inr ⟨he, rfl, rfl⟩, rfl⟩
    · rintro ⟨_, constructors, methods, _, middle, middle', ⟨⟩, hc, hm, h, rfl⟩
      refine ⟨_, _, ⟨rfl, rfl⟩, constructors, middle, hc, methods, middle', hm, ?_⟩
      rcases h with ⟨he, mc, hmc, rfl⟩ | ⟨he, rfl, rfl⟩
      · exact .inl ⟨he, _, _, ⟨mc, hmc, rfl⟩, rfl, rfl⟩
      · exact .inr ⟨he, _, _, ⟨rfl, rfl⟩, rfl, rfl⟩

theorem yields_class {decl : ClassDecl} {c : ClassSection}
    (h : Yields (class_ env decl) first c next) :
    ∃ constructors methods default_ middle middle',
      Yields (decl.constructors.mapM (constructor (classEnv env decl) c.superclass decl.properties))
        first constructors middle ∧
      Yields ((decl.methods ++ decl.main.toList).mapM (method (classEnv env decl))) middle methods
        middle' ∧
      ((decl.constructors = [] ∧ ∃ mc, default_ = [mc] ∧
          Yields (defaultConstructor (classEnv env decl) c.superclass decl.properties) middle' mc
            next) ∨
        decl.constructors ≠ [] ∧ default_ = [] ∧ next = middle') ∧
      c.methods = constructors ++ methods ++ default_ ∧
      ∃ info, env.table.lookup decl.name = .ok info ∧
        c.superclass = info.superclass.getD objectClass := by
  obtain ⟨info, constructors, methods, default_, middle, middle', hinfo, hc, hm, hd, rfl⟩ :=
    yields_class_iff.1 h
  refine ⟨constructors, methods, default_, middle, middle', hc, hm, ?_, rfl, info, hinfo, rfl⟩
  rcases yields_defaultConstructors.1 hd with ⟨he, mc, hmc, rfl⟩ | ⟨he, rfl, rfl⟩
  · exact .inl ⟨he, mc, rfl, hmc⟩
  · exact .inr ⟨he, rfl, rfl⟩

theorem yields_methodCode {header : Header} {before : Segment} {m : Method} {mc : MethodCode} :
    Yields (methodCode env header before m) first mc next ↔
      ∃ body, Yields (block (env.enter m.signature.id) m.body) first body next ∧
        mc = ⟨header, (env.arena.localsOf m.signature.id).getD 1, before ++ body⟩ := by
  simp only [methodCode, yields_bind, yields_pure]
  constructor
  · rintro ⟨body, _, hb, rfl, rfl⟩
    exact ⟨body, hb, rfl⟩
  · rintro ⟨body, hb, rfl⟩
    exact ⟨body, _, hb, rfl, rfl⟩

theorem yields_constructor {superclass : String} {properties : List Property} {m : Method}
    {mc : MethodCode} :
    Yields (constructor env superclass properties m) first mc next ↔
      ∃ before middle, Yields (prologue env superclass properties) first before middle ∧
        Yields (methodCode env ⟨m.signature.access, false, "<init>", m.signature.paramTypes, .void⟩
          before m) middle mc next := by
  simp only [constructor, yields_bind]

theorem yields_prologue {superclass : String} {properties : List Property} {code : Segment} :
    Yields (prologue env superclass properties) first code next ↔
      ∃ values, Yields (properties.mapM (initializer env)) first values next ∧
        code = ops [.loadThis, .invokeConstructor superclass []] ++ values.flatten := by
  simp only [prologue, yields_bind, yields_pure]
  constructor
  · rintro ⟨values, _, hv, rfl, rfl⟩
    exact ⟨values, hv, rfl⟩
  · rintro ⟨values, hv, rfl⟩
    exact ⟨values, _, hv, rfl, rfl⟩

theorem yields_initializer {p : Property} {code : Segment}
    (h : Yields (initializer env p) first code next) :
    (p.variable_.value = none ∧ next = first ∧
      code = .op .loadThis :: ops [.pushDefault p.variable_.type] ++
        ops [.putField env.className p.variable_.name p.variable_.type]) ∨
    ∃ e v, p.variable_.value = some e ∧ Yields (expr env e) first v next ∧
      code = .op .loadThis :: v.code ++
        ops [.putField env.className p.variable_.name p.variable_.type] := by
  simp only [initializer] at h
  split at h
  · rename_i e he
    simp only [yields_bind, yields_map, yields_pure] at h
    obtain ⟨_, _, ⟨v, hv, rfl⟩, rfl, rfl⟩ := h
    exact .inr ⟨e, v, he, hv, rfl⟩
  · rename_i hnone
    simp only [yields_bind, yields_pure] at h
    obtain ⟨_, _, ⟨rfl, rfl⟩, rfl, rfl⟩ := h
    exact .inl ⟨hnone, rfl, rfl⟩

theorem initializer_labelled {p : Property} {code : Segment}
    (h : Yields (initializer env p) first code next) : Labelled first next code := by
  rcases yields_initializer h with ⟨-, rfl, rfl⟩ | ⟨e, v, -, hv, rfl⟩
  · exact .of_labelsOf_eq_nil (by simp)
  · exact (expr_labelled e hv).congr (by simp)

theorem prologue_labelled {superclass : String} {properties : List Property} {code : Segment}
    (h : Yields (prologue env superclass properties) first code next) :
    Labelled first next code := by
  obtain ⟨values, hv, rfl⟩ := yields_prologue.1 h
  have hvalues := mapM_labelled (fun _ _ {_ _ _} hp => initializer_labelled hp) hv
  exact hvalues.congr (by simp)

theorem methodCode_labelled {header : Header} {before : Segment} {m : Method} {mc : MethodCode}
    {start : Nat} (hb : Labelled start first before)
    (h : Yields (methodCode env header before m) first mc next) : Labelled start next mc.code := by
  obtain ⟨body, hbody, rfl⟩ := yields_methodCode.1 h
  exact hb.append (block_labelled (fun s _ => statement_labelled s) hbody)

theorem constructor_labelled {superclass : String} {properties : List Property} {m : Method}
    {mc : MethodCode} (h : Yields (constructor env superclass properties m) first mc next) :
    Labelled first next mc.code := by
  obtain ⟨before, _, hp, hcode⟩ := yields_constructor.1 h
  exact methodCode_labelled (prologue_labelled hp) hcode

theorem defaultConstructor_labelled {superclass : String} {properties : List Property}
    {mc : MethodCode} (h : Yields (defaultConstructor env superclass properties) first mc next) :
    Labelled first next mc.code := by
  simp only [defaultConstructor, yields_bind, yields_pure] at h
  obtain ⟨before, _, hp, rfl, rfl⟩ := h
  exact prologue_labelled hp

/-- The labels of different methods of a class are different, too. -/
theorem class_labelled {decl : ClassDecl} {c : ClassSection}
    (h : Yields (class_ env decl) first c next) :
    Labelled first next (c.methods.flatMap MethodCode.code) := by
  obtain ⟨constructors, methods, default_, middle, middle', hc, hm, hdefault, hall, -⟩ :=
    yields_class h
  have hc := mapM_labelled (fun _ _ {_ _ _} hy => constructor_labelled hy) hc
  have hm := mapM_labelled
    (fun _ _ {_ _ _} hy => methodCode_labelled (.of_labelsOf_eq_nil rfl) hy) hm
  rw [hall, List.flatMap_append, List.flatMap_append]
  refine (hc.append hm).append ?_
  rcases hdefault with ⟨-, mc, rfl, hy⟩ | ⟨-, rfl, rfl⟩
  · rw [List.flatMap_singleton]
    exact defaultConstructor_labelled hy
  · exact .of_labelsOf_eq_nil rfl

/-- All labels of a method are different. -/
theorem nodup_labels_of_yields_class {decl : ClassDecl} {c : ClassSection}
    (h : Yields (class_ env decl) first c next) : ∀ mc ∈ c.methods, (labelsOf mc.code).Nodup := by
  intro mc hmc
  have hsub : (labelsOf mc.code).Sublist (labelsOf (c.methods.flatMap MethodCode.code)) :=
    (List.sublist_flatten_of_mem (List.mem_map_of_mem hmc)).filterMap _
  exact (class_labelled h).nodup.sublist hsub

/-! ## Bodies -/

/-- The site of the body of a method whose code is `mc`. -/
inductive BodySite (env : Env) (superclass : String) (decl : ClassDecl) (mc : MethodCode) :
    Site → Prop
  | method {m : Method} {first next : Label} : m ∈ decl.methods ++ decl.main.toList →
      Yields (method env m) first mc next →
      BodySite env superclass decl mc ⟨env.enter m.signature.id, none, .block m.body, first, []⟩
  | constructor {m : Method} {first middle next : Label} {before : Segment} :
      m ∈ decl.constructors →
      Yields (prologue env superclass decl.properties) first before middle →
      Yields (constructor env superclass decl.properties m) first mc next →
      BodySite env superclass decl mc
        ⟨env.enter m.signature.id, none, .block m.body, middle, before⟩

/-- The body of a method holds the rest of its code, and all labels of the method are
different. -/
theorem BodySite.fits {superclass : String} {decl : ClassDecl} {mc : MethodCode} {site : Site}
    (h : BodySite env superclass decl mc site) (ht : env.targets = []) :
    site.Bounded ∧ (labelsOf mc.code).Nodup ∧ ∃ code next, site.Fits mc.code code [] next := by
  have hbelow : ∀ n id, (env.enter id).Below n := by
    intro n id t hmem
    rw [show (env.enter id).targets = env.targets from rfl, ht] at hmem
    cases hmem
  cases h with
  | method _ hy =>
    have hlab := methodCode_labelled (.of_labelsOf_eq_nil rfl) hy
    obtain ⟨body, hbody, rfl⟩ := yields_methodCode.1 hy
    exact ⟨⟨hbelow _ _, by simp⟩, hlab.nodup, body, _, by rw [statement]; exact hbody, by simp⟩
  | constructor _ hp hy =>
    obtain ⟨before, middle, hp', hm⟩ := yields_constructor.1 hy
    obtain ⟨rfl, rfl⟩ := hp.unique hp'
    have hlab := methodCode_labelled (prologue_labelled hp) hm
    obtain ⟨body, hbody, rfl⟩ := yields_methodCode.1 hm
    exact ⟨⟨hbelow _ _, by simp⟩, hlab.nodup, body, _, by rw [statement]; exact hbody, by simp⟩

/-- Every method and every constructor of a lowered class has code, and its body a site. -/
theorem exists_bodySite {decl : ClassDecl} {c : ClassSection} {m : Method}
    (h : Yields (class_ env decl) first c next)
    (hm : m ∈ decl.constructors ∨ m ∈ decl.methods ++ decl.main.toList) :
    ∃ mc ∈ c.methods, ∃ site, BodySite (classEnv env decl) c.superclass decl mc site ∧
      site.statement = .block m.body ∧ site.env = (classEnv env decl).enter m.signature.id := by
  obtain ⟨constructors, methods, default_, middle, middle', hc, hms, -, hall, -⟩ := yields_class h
  rcases hm with hm | hm
  · obtain ⟨mc, hmc, first, next, hy⟩ := yields_mapM_of_mem_source hc hm
    obtain ⟨before, middle, hp, -⟩ := yields_constructor.1 hy
    exact ⟨mc, by simp [hall, hmc], _, .constructor hm hp hy, rfl, rfl⟩
  · obtain ⟨mc, hmc, first, next, hy⟩ := yields_mapM_of_mem_source hms hm
    exact ⟨mc, by simp [hall, hmc], _, .method hm hy, rfl, rfl⟩

/-- A method that is compiled from a source text, and a statement inside of it. -/
structure InMethod (source : String) (mc : MethodCode) (site : Site) : Prop where
  intro ::
  found : ∃ program analysis sections decl c body, Accepted source program analysis sections ∧
    .class_ decl ∈ program.declarations ∧ .class_ c ∈ sections ∧ mc ∈ c.methods ∧
    BodySite (classEnv (.outermost analysis.table analysis.arena) decl) c.superclass decl mc body ∧
    Inside body site

theorem InMethod.fits {source : String} {mc : MethodCode} {site : Site}
    (h : InMethod source mc site) :
    site.Bounded ∧ (labelsOf mc.code).Nodup ∧
      ∃ code after next, site.Fits mc.code code after next := by
  obtain ⟨program, analysis, sections, decl, c, body, -, -, -, -, hbody, hin⟩ := h.found
  obtain ⟨hb, hn, code, next, hf⟩ := hbody.fits rfl
  exact ⟨hin.bounded hb, hn, hin.fits hf⟩

/-- The body of every method of an accepted program is at a site. -/
theorem exists_inMethod {source : String} {program : Program} {analysis : Analysis}
    {sections : List Section} {decl : ClassDecl} {m : Method}
    (ha : Accepted source program analysis sections)
    (hd : .class_ decl ∈ program.declarations)
    (hm : m ∈ decl.constructors ∨ m ∈ decl.methods ++ decl.main.toList) :
    ∃ mc site, InMethod source mc site ∧ site.statement = .block m.body ∧
      site.env = (classEnv (.outermost analysis.table analysis.arena) decl).enter
        m.signature.id := by
  obtain ⟨next, hy⟩ := yields_program ha.lowered
  obtain ⟨section_, hsec, first, next, hy⟩ := yields_mapM_of_mem_source hy hd
  obtain ⟨c, hc, rfl⟩ := yields_typeDecl_class.1 hy
  obtain ⟨mc, hmc, site, hbody, hs, he⟩ := exists_bodySite hc hm
  exact ⟨mc, site, ⟨program, analysis, sections, decl, c, site, ha, hd, hsec, hmc, hbody, .refl⟩,
    hs, he⟩

/-- Every statement inside of a statement of a method is at a site of the method. -/
theorem InMethod.inner {source : String} {mc : MethodCode} {site : Site} {s : Statement}
    (h : InMethod source mc site) (hs : s ∈ site.statement.inner) :
    ∃ site', InMethod source mc site' ∧ site'.statement = s := by
  obtain ⟨-, -, code, after, next, hf⟩ := h.fits
  obtain ⟨site', hp, he⟩ := exists_part hf hs
  obtain ⟨program, analysis, sections, decl, c, body, ha, hd, hsec, hmc, hbody, hin⟩ := h.found
  exact ⟨site', ⟨program, analysis, sections, decl, c, body, ha, hd, hsec, hmc, hbody,
    hin.step hp⟩, he⟩

end Javelet.Lowering
