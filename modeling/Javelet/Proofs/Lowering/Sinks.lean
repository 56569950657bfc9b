import Javelet.Proofs.Assembly.Assigned
import Javelet.Proofs.Lowering.FallThrough
import Javelet.Proofs.Lowering.Returns
import Javelet.Proofs.Lowering.Sections
import Javelet.Proofs.Lowering.SiteVisits
import Javelet.Proofs.Lowering.Slots

/-!
# Where values go

A declaration, a plain assignment, a return statement and the initial value of a property hand a
value over: to a variable, to a field, to an element of an array or to the caller. The instruction
that takes it is chosen by the declared type of the target, and a return by the type of the value.
Whether the value may be stored there is not asked: where it may, the instruction fits both types.
-/
namespace Javelet

/-- Values that may be stored where a type is declared are held like those of the type. -/
theorem Types.Table.isInteger_of_isAssignable {t : Table} {source target : Ty}
    (h : t.isAssignable source target = true) : source.isInteger = target.isInteger := by
  unfold isAssignable at h
  by_cases heq : source = target
  · rw [heq]
  rw [if_neg heq] at h
  by_cases hnull : source.isNull = true
  · rw [if_pos hnull] at h
    simp only [Ty.isNull, Bool.and_eq_true, beq_iff_eq] at hnull
    simp only [Ty.isReference, Bool.and_eq_true, Bool.not_eq_true'] at h
    rw [h.1, Ty.isInteger, hnull.1]
    simp
  rw [if_neg hnull] at h
  by_cases harray : (source.isArray || target.isArray) = true
  · rw [if_pos harray] at h
    cases h
  rw [if_neg harray] at h
  by_cases hchar : (source.name == "char" && target.name == "int") = true
  · simp only [Bool.or_eq_true, not_or, Bool.not_eq_true] at harray
    simp only [Bool.and_eq_true, beq_iff_eq] at hchar
    simp [Ty.isInteger, harray, hchar]
  rw [if_neg hchar] at h
  by_cases hint : (source.isInteger || target.isInteger) = true
  · rw [if_pos hint] at h
    cases h
  simp only [Bool.or_eq_true, not_or, Bool.not_eq_true] at hint
  rw [hint.1, hint.2]

/-- The expression whose value a statement hands over. A compound assignment combines the value
with an old one. -/
def Statement.given? : Statement → Option Expr
  | declaration x => x.value
  | action (.assignment ⟨.plain, _, value⟩) => some value
  | jump _ (.return_ value) => value
  | _ => none

namespace Lowering

open Assembly

/-- Where a value goes: into a variable, into a field of an object, into an element of an array, or
to the caller of a method. -/
inductive Sink where
  | slot (l : Local)
  | field (owner name : String) (type : Ty)
  | element (type : Ty)
  | result (type : Ty)

namespace Sink

/-- The type that is declared for what goes there. -/
def type : Sink → Ty
  | slot l => l.type
  | field _ _ type => type
  | element type => type
  | result type => type

/-- The instruction that takes a value of a type. -/
def take (value : Ty) : Sink → Instruction
  | slot l => l.store
  | field owner name type => .putField owner name type
  | element type => .arrayStore (.ofTy type)
  | result _ => if value.isInteger then .returnInt else .returnReference

/-- The instruction looks at the value only to tell integers from references. -/
theorem take_congr {value value' : Ty} (h : value.isInteger = value'.isInteger) (sink : Sink) :
    sink.take value = sink.take value' := by
  cases sink with
  | result type => rw [take, take, h]
  | _ => rfl

end Sink

/-- Where the value that a statement gives goes, in a method with the given type of results. -/
inductive Feeds (env : Env) (returns : Ty) : Statement → Sink → Prop
  | declaration {x : Variable} {l : Local} : env.local? x.name = some l → l.type = x.type →
      Feeds env returns (.declaration x) (.slot l)
  | name {p : Position} {name : String} {value : Expr} {l : Local} : env.local? name = some l →
      Feeds env returns (.action (.assignment ⟨.plain, .mk (.name p name) [], value⟩)) (.slot l)
  | property {p : Position} {name : String} {value : Expr} {owner : Types.TypeInfo}
      {info : Types.PropertyInfo} : env.local? name = none →
      env.table.findProperty env.className name = some (owner, info) →
      Feeds env returns (.action (.assignment ⟨.plain, .mk (.name p name) [], value⟩))
        (.field owner.name name info.type)
  | field {h : Head} {ls : List Link} {p : Position} {name : String} {value : Expr}
      {start reached : Reached} {first middle next : Label} {object : Ty} {owner : Types.TypeInfo}
      {info : Types.PropertyInfo} : Yields (head env h) first start middle →
      Yields (links env start ls) middle reached next → reached.receiver = .value object →
      env.table.findProperty object.name name = some (owner, info) →
      Feeds env returns (.action (.assignment ⟨.plain, .mk h (ls ++ [.field p name]), value⟩))
        (.field owner.name name info.type)
  | element {h : Head} {ls : List Link} {p : Position} {i value : Expr} {start reached : Reached}
      {first middle next : Label} {array : Ty} : Yields (head env h) first start middle →
      Yields (links env start ls) middle reached next → reached.receiver = .value array →
      array.isArray = true →
      Feeds env returns (.action (.assignment ⟨.plain, .mk h (ls ++ [.index p i]), value⟩))
        (.element array.element)
  | result {p : Position} {value : Expr} :
      Feeds env returns (.jump p (.return_ (some value))) (.result returns)

/-- Code hands the value of an expression over: behind the code of the expression stands the
instruction that takes the value. If the value may be stored in its target, then the instruction is
the one for values of the declared type, and such values are held alike. -/
def HandsOver (env : Env) (code : Segment) (sink : Sink) (e : Expr) : Prop :=
  ∃ v before first next, Yields (expr env e) first v next ∧ v.type.IsValue ∧
    code = before ++ v.code ++ [.op (sink.take v.type)] ∧
    (env.table.isAssignable v.type sink.type = true →
      sink.take v.type = sink.take sink.type ∧ Cell.ofTy v.type = Cell.ofTy sink.type)

variable {env : Env} {first next : Label} {code : Segment} {returns : Ty} {e : Expr}

theorem handsOver_of_yields (henv : env.WellNamed) (he : e.WellNamed) {v : Typed} (sink : Sink)
    (before : Segment) (hv : Yields (expr env e) first v next) :
    HandsOver env (before ++ v.code ++ [Item.op (sink.take v.type)]) sink e := by
  refine ⟨v, before, first, next, hv, (expr_flow henv he hv).1, rfl, ?_⟩
  intro hassign
  have hsame := Types.Table.isInteger_of_isAssignable hassign
  exact ⟨Sink.take_congr hsame sink, by rw [Cell.ofTy, Cell.ofTy, hsame]⟩

/-- Code in front of the code that computes a value. -/
theorem HandsOver.behind {sink : Sink} (h : HandsOver env code sink e) (front : Segment) :
    HandsOver env (front ++ code) sink e := by
  obtain ⟨v, before, first, next, hv, hvalue, rfl, hfit⟩ := h
  exact ⟨v, front ++ before, first, next, hv, hvalue, by simp, hfit⟩

theorem assigning_plain (old : List Instruction) (value : Segment) (store : Instruction) :
    assigning .plain old value store = [] ++ value ++ [Item.op store] := by
  simp [assigning, oldValue, combination, ops]

theorem variable_handsOver (henv : env.WellNamed) {x : Variable} (he : e.WellNamed)
    (hvalue : x.value = some e) (hdeclared : ∀ l, env.local? x.name = some l → l.type = x.type)
    (h : Yields (variable_ env x) first code next) :
    ∃ sink, Feeds env returns (.declaration x) sink ∧ HandsOver env code sink e := by
  obtain ⟨l, hl, ⟨hnone, -⟩ | ⟨e', v, hsome, hv, rfl⟩⟩ := yields_variable.1 h
  · cases hnone.symm.trans hvalue
  · cases hsome.symm.trans hvalue
    exact ⟨.slot l, .declaration hl (hdeclared l hl), handsOver_of_yields henv he (.slot l) [] hv⟩

theorem assignName_handsOver (henv : env.WellNamed) {p q : Position} {name : String}
    (he : e.WellNamed) (h : Yields (assignName env name q .plain e) first code next) :
    ∃ sink, Feeds env returns (.action (.assignment ⟨.plain, .mk (.name p name) [], e⟩)) sink ∧
      HandsOver env code sink e := by
  obtain ⟨v, hv, ⟨l, hl, rfl⟩ | ⟨owner, info, hnone, hp, rfl⟩⟩ := yields_assignName h
  · rw [assigning_plain]
    exact ⟨.slot l, .name hl, handsOver_of_yields henv he (.slot l) [] hv⟩
  · rw [assigning_plain]
    have hcode := handsOver_of_yields henv he (.field owner.name name info.type) [] hv
    exact ⟨.field owner.name name info.type, .property hnone hp, hcode.behind [.op .loadThis]⟩

theorem assignment_handsOver (henv : env.WellNamed) {target : Chain} (he : e.WellNamed)
    (h : Yields (assignment env ⟨.plain, target, e⟩) first code next) :
    ∃ sink, Feeds env returns (.action (.assignment ⟨.plain, target, e⟩)) sink ∧
      HandsOver env code sink e := by
  rcases yields_assignment h with ⟨p, name, rfl, h⟩ |
    ⟨head, ls, last, start, reached, middle, middle', tail, rfl, hhead, hlinks, hlast, rfl⟩
  · exact assignName_handsOver henv he h
  · rcases yields_assignLink hlast with
      ⟨p, name, object, owner, info, v, rfl, hobject, -, hp, hv, rfl⟩ |
      ⟨p, i, array, place, v, _, rfl, harray, his, -, hv, rfl⟩
    · rw [assigning_plain]
      have hcode := handsOver_of_yields henv he (.field owner.name name info.type) [] hv
      exact ⟨_, .field hhead hlinks hobject hp, hcode.behind reached.code⟩
    · rw [assigning_plain]
      have hcode := handsOver_of_yields henv he (.element array.element) [] hv
      exact ⟨_, .element hhead hlinks harray his, (hcode.behind place.code).behind reached.code⟩

theorem jump_handsOver (henv : env.WellNamed) {p q : Position} (he : e.WellNamed)
    (h : Yields (jump env q (.return_ (some e))) first code next) :
    ∃ sink, Feeds env returns (.jump p (.return_ (some e))) sink ∧ HandsOver env code sink e := by
  obtain ⟨v, hv, rfl⟩ := yields_jump_value.1 h
  exact ⟨.result returns, .result, handsOver_of_yields henv he (.result returns) [] hv⟩

/-- The code of a statement that is given an expression hands its value over. -/
theorem statement_handsOver (henv : env.WellNamed) {s : Statement} (hs : s.WellNamed)
    {join : Option Label}
    (hdeclared : ∀ x, s = .declaration x → ∀ l, env.local? x.name = some l → l.type = x.type)
    (he : s.given? = some e) (h : Yields (statement env join s) first code next) :
    ∃ sink, Feeds env returns s sink ∧ HandsOver env code sink e := by
  unfold Statement.given? at he
  split at he
  · rename_i x
    cases hs with
    | declaration hx =>
      rw [statement] at h
      exact variable_handsOver henv (hx.value e he) he (hdeclared x rfl) h
  · cases he
    cases hs with
    | action ha =>
      rw [statement] at h
      exact assignment_handsOver henv ha.value h
  · subst he
    cases hs with
    | jump hj =>
      rw [statement] at h
      exact jump_handsOver henv (hj e rfl) h
  · cases he

/-! ## Initial values -/

/-- Code stores the initial value of a property into the receiver: the value that the property is
given, or the default of its type. -/
def StoresInitial (env : Env) (d : ClassDecl) (x : Property) (code : Segment) : Prop :=
  (x.variable_.value = none ∧
    code = ops [.loadThis, .pushDefault x.variable_.type,
      .putField d.name x.variable_.name x.variable_.type]) ∨
  ∃ e, x.variable_.value = some e ∧
    HandsOver env code (.field d.name x.variable_.name x.variable_.type) e

/-- Code calls the constructor of the superclass and stores the initial values of all properties of
a class, in their order. -/
def StoresValues (env : Env) (superclass : String) (d : ClassDecl) (code : Segment) : Prop :=
  ∃ values, code = superCall superclass ++ values.flatten ∧
    List.Forall₂ (StoresInitial env d) d.properties values

variable {d : ClassDecl} {superclass : String}

theorem initializer_storesInitial (henv : (classEnv env d).WellNamed) {x : Property}
    (hx : x.WellNamed) (h : Yields (initializer (classEnv env d) x) first code next) :
    StoresInitial (classEnv env d) d x code := by
  rcases yields_initializer h with ⟨hnone, -, rfl⟩ | ⟨e, v, hsome, hv, rfl⟩
  · exact .inl ⟨hnone, rfl⟩
  · exact .inr ⟨e, hsome, handsOver_of_yields henv (hx.variable_.value e hsome)
      (.field d.name x.variable_.name x.variable_.type) [.op .loadThis] hv⟩

theorem prologue_storesValues (henv : (classEnv env d).WellNamed) (hd : d.WellNamed)
    (h : Yields (prologue (classEnv env d) superclass d.properties) first code next) :
    StoresValues (classEnv env d) superclass d code := by
  obtain ⟨values, hvalues, rfl⟩ := yields_prologue.1 h
  exact ⟨values, rfl, forall₂_mapM
    (fun x hx _ _ _ hy => initializer_storesInitial henv (hd.properties x hx) hy) hvalues⟩

/-! ## Bodies -/

/-- If the statement of a site is given an expression, its part of the code of the method hands the
value over. -/
def HandedOver (mc : MethodCode) (site : Site) : Prop :=
  ∀ e, site.statement.given? = some e → ∃ sink code after next,
    Feeds site.env mc.header.returns site.statement sink ∧ site.Fits mc.code code after next ∧
      HandsOver site.env code sink e

theorem BodySite.handedOver {mc : MethodCode} {root site : Site}
    (h : BodySite (classEnv env d) superclass d mc root) (henv : (classEnv env d).WellNamed)
    (ht : env.targets = []) (hsuper : PlainName superclass) (hd : d.WellNamed)
    (htypes : DeclaresTypes (classEnv env d) d) (hin : Inside root site) : HandedOver mc site := by
  intro e he
  obtain ⟨-, -, _, _, hroot⟩ := h.fits ht
  obtain ⟨code, after, next, hf⟩ := hin.fits hroot
  obtain ⟨hsite, hs, -⟩ := hin.level (h.level henv hsuper hd)
  obtain ⟨sink, hfeeds, hcode⟩ := statement_handsOver hsite hs
    (fun x hx l hl => h.type_of_declaration htypes hin hx hl) he hf.1
  exact ⟨sink, code, after, next, hfeeds, hf, hcode⟩

/-- Every statement inside of the statement of a site has a site, too. -/
theorem exists_inside {whole after : Segment} {root site : Site}
    (hf : root.Fits whole code after next) (hin : Inside root site) {w : Statement}
    (hw : site.statement.Contains w) : ∃ site, Inside root site ∧ site.statement = w := by
  generalize hs : site.statement = s at hw
  induction hw generalizing site with
  | self => exact ⟨site, hin, hs⟩
  | inner hinner _ ih =>
    obtain ⟨_, _, _, hsite⟩ := hin.fits hf
    obtain ⟨site', hpart, hs'⟩ := exists_part hsite (hs ▸ hinner)
    exact ih (hin.step hpart) hs'

/-- The body of a method is lowered at the site `root`, behind all other code of the method. Every
statement in it has a site, where the value that it is given is handed over. -/
structure BodySinks (m : Method) (mc : MethodCode) (root : Site) : Prop where
  statement : root.statement = .block m.body
  fits : ∃ code next, root.Fits mc.code code [] next
  reached : ∀ w, (Statement.block m.body).Contains w →
    ∃ site, Inside root site ∧ site.statement = w
  handed : ∀ site, Inside root site → HandedOver mc site
  left : LeftBy m.body.places mc

/-- The code of a method or of the entry point is that of its body. -/
structure MethodSinks (m : Method) (mc : MethodCode) : Prop where
  header : mc.header = .ofMethod m
  body : ∃ root, root.before = [] ∧ BodySinks m mc root

/-- A constructor stores the initial values of the properties before its body. It returns nothing. -/
structure ConstructorSinks (env : Env) (superclass : String) (d : ClassDecl) (m : Method)
    (mc : MethodCode) : Prop where
  returns : mc.header.returns = .void
  body : ∃ root, StoresValues env superclass d root.before ∧ BodySinks m mc root

/-- The constructor of a class that declares none only stores the initial values. -/
structure DefaultSinks (env : Env) (superclass : String) (d : ClassDecl) (mc : MethodCode) :
    Prop where
  returns : mc.header.returns = .void
  code : StoresValues env superclass d mc.code
  left : LeftBy [] mc

/-- The constructors of a class, its methods and its entry point, and the constructor of a class that
declares none. -/
structure ClassSinks (env : Env) (d : ClassDecl) (c : ClassSection) : Prop where
  methods : ∃ constructors methods default_, c.methods = constructors ++ methods ++ default_ ∧
    List.Forall₂ (ConstructorSinks env c.superclass d) d.constructors constructors ∧
    List.Forall₂ MethodSinks (d.methods ++ d.main.toList) methods ∧
    ((d.constructors = [] ∧ ∃ mc, default_ = [mc] ∧ DefaultSinks env c.superclass d mc) ∨
      d.constructors ≠ [] ∧ default_ = [])

section Class

variable (henv : (classEnv env d).WellNamed) (ht : env.targets = []) (hsuper : PlainName superclass)
  (hd : d.WellNamed) (htypes : DeclaresTypes (classEnv env d) d)

include henv ht hsuper hd htypes

theorem bodySinks_of_bodySite {m : Method} {mc : MethodCode} {root : Site}
    (h : BodySite (classEnv env d) superclass d mc root) (hm : root.statement = .block m.body)
    (hleft : LeftBy m.body.places mc) : BodySinks m mc root := by
  obtain ⟨-, -, code, next, hf⟩ := h.fits ht
  exact ⟨hm, ⟨code, next, hf⟩, fun w hw => exists_inside hf .refl (hm ▸ hw),
    fun site => h.handedOver henv ht hsuper hd htypes, hleft⟩

theorem constructor_sinks {m : Method} (hm : m ∈ d.constructors) {mc : MethodCode}
    (h : Yields (constructor (classEnv env d) superclass d.properties m) first mc next) :
    ConstructorSinks (classEnv env d) superclass d m mc := by
  obtain ⟨before, middle, hp, hcode⟩ := yields_constructor.1 h
  have hbody := bodySinks_of_bodySite henv ht hsuper hd htypes (.constructor hm hp h) rfl
    (methodCode_leftBy (prologue_stays hp) hcode)
  refine ⟨?_, _, prologue_storesValues henv hd hp, hbody⟩
  obtain ⟨body, -, rfl⟩ := yields_methodCode.1 hcode
  rfl

theorem method_sinks {m : Method} (hm : m ∈ d.methods ++ d.main.toList) {mc : MethodCode}
    (h : Yields (method (classEnv env d) m) first mc next) : MethodSinks m mc := by
  have hbody := bodySinks_of_bodySite henv ht hsuper hd htypes (.method hm h) rfl
    (methodCode_leftBy (readings_nil _) h)
  refine ⟨?_, _, rfl, hbody⟩
  obtain ⟨body, -, rfl⟩ := yields_methodCode.1 h
  rfl

end Class

theorem defaultConstructor_sinks (henv : (classEnv env d).WellNamed) (hd : d.WellNamed)
    {mc : MethodCode}
    (h : Yields (defaultConstructor (classEnv env d) superclass d.properties) first mc next) :
    DefaultSinks (classEnv env d) superclass d mc := by
  simp only [defaultConstructor, yields_bind, yields_pure] at h
  obtain ⟨before, _, hp, rfl, rfl⟩ := h
  exact ⟨rfl, prologue_storesValues henv hd hp, leftBy_of_code (prologue_stays hp)⟩

theorem class_sinks {c : ClassSection} (henv : (classEnv env d).WellNamed)
    (ht : env.targets = []) (hd : d.WellNamed) (htypes : DeclaresTypes (classEnv env d) d)
    (h : Yields (class_ env d) first c next) : ClassSinks (classEnv env d) d c := by
  have hsuper := (class_flow henv ht hd h).1
  obtain ⟨constructors, methods, default_, middle, middle', hc, hm, hdefault, hall, -⟩ :=
    yields_class h
  refine ⟨constructors, methods, default_, hall, forall₂_mapM ?_ hc, forall₂_mapM ?_ hm, ?_⟩
  · exact fun m hm _ _ _ hy => constructor_sinks henv ht hsuper hd htypes hm hy
  · exact fun m hm _ _ _ hy => method_sinks henv ht hsuper hd htypes hm hy
  · rcases hdefault with ⟨hnone, mc, hmc, hy⟩ | ⟨hsome, hnil, -⟩
    · exact .inl ⟨hnone, mc, hmc, defaultConstructor_sinks henv hd hy⟩
    · exact .inr ⟨hsome, hnil⟩

/-! ## Accepted programs -/

/-- Values of all kinds of sinks, and a method that may end without a value. -/
def manySinks : String :=
  "class A \x7b int p = 1; A o; int f(int[] t) \x7b int x = p; x = 2; o = this; o.p = 3; " ++
    "t[0] = x; if (x > 1) return x; \x7d void g() \x7b return; \x7d \x7d"

/-- A text goes into an integer variable, a method without a result returns a value, and a method
with a result ends without one. -/
def mistyped : String :=
  "class A \x7b int f() \x7b int x = \"a\"; \x7d void g() \x7b return 1; \x7d \x7d"

/-- The text that a declaration of an integer variable gives. -/
def textForInteger? : Statement → Option String
  | .declaration ⟨_, type, _, some (.literal _ (.string value))⟩ =>
    if type = .int then some value else none
  | _ => none

/-- Texts cannot be stored in integer variables. -/
theorem textForInteger_mistyped {s : Statement} (hs : (textForInteger? s).isSome = true) (env : Env)
    (first : Label) : ∃ x e v, s = .declaration x ∧ x.value = some e ∧
      Yields (expr env e) first v first ∧ env.table.isAssignable v.type x.type = false := by
  unfold textForInteger? at hs
  split at hs
  · rename_i p type name q value
    split at hs
    · rename_i hint
      refine ⟨_, _, literal (.string value), rfl, rfl, ?_, ?_⟩
      · rw [expr]
        exact yields_pure.2 ⟨rfl, rfl⟩
      · rw [hint]
        rfl
    · cases hs
  · cases hs

/-- The code of the method that ends without its result. -/
def mistypedCode : Segment := [.op (.pushString "a"), .op (.store .int 1), .op .returnVoid]

/-- Nothing keeps a run from the return behind the store. -/
theorem run_mistypedCode : Run mistypedCode 2 [1] :=
  .step (.step .start (.next rfl rfl rfl)) (.next rfl rfl rfl)

end Lowering

end Javelet
