import Javelet.Lowering.Declaration

/-!
# What a lowering yields

Lowering is a computation with a label counter that may stop with a fault. `Yields` says that
it does not stop and what it gives. The lemmas below take a lowering apart into the parts that
it runs, one lemma for each way of putting computations together and then one for each
operator, so that later proofs never unfold the monad or the lowering functions.
-/
namespace Javelet.Lowering

open Assembly

/-- `x` succeeds when the first free label is `first`, gives `a`, and leaves `next` as the
first free label. -/
def Yields {α : Type} (x : Lower α) (first : Label) (a : α) (next : Label) : Prop :=
  x.run first = .ok (a, next)

theorem Yields.unique {α : Type} {x : Lower α} {first next next' : Label} {a a' : α}
    (h : Yields x first a next) (h' : Yields x first a' next') : a = a' ∧ next = next' := by
  have he : Except.ok (a, next) = Except.ok (a', next') := h.symm.trans h'
  cases he
  exact ⟨rfl, rfl⟩

section Monad

variable {α β : Type} {first next : Label}

@[simp] theorem yields_pure {a b : α} :
    Yields (pure a) first b next ↔ b = a ∧ next = first := by
  simp only [Yields, StateT.run_pure]
  constructor
  · intro h
    cases h
    exact ⟨rfl, rfl⟩
  · rintro ⟨rfl, rfl⟩
    rfl

@[simp] theorem yields_bind {x : Lower α} {f : α → Lower β} {b : β} :
    Yields (x >>= f) first b next ↔
      ∃ a middle, Yields x first a middle ∧ Yields (f a) middle b next := by
  simp only [Yields, StateT.run_bind]
  constructor
  · intro h
    cases hx : x.run first with
    | error fault => simp [hx, bind, Except.bind] at h
    | ok p => exact ⟨p.1, p.2, rfl, by simpa [hx, bind, Except.bind] using h⟩
  · rintro ⟨a, middle, hx, hf⟩
    simpa [hx, bind, Except.bind] using hf

@[simp] theorem yields_map {x : Lower α} {f : α → β} {b : β} :
    Yields (f <$> x) first b next ↔ ∃ a, Yields x first a next ∧ b = f a := by
  rw [← bind_pure_comp, yields_bind]
  constructor
  · rintro ⟨a, middle, hx, hb⟩
    obtain ⟨rfl, rfl⟩ := yields_pure.1 hb
    exact ⟨a, hx, rfl⟩
  · rintro ⟨a, hx, rfl⟩
    exact ⟨a, next, hx, yields_pure.2 ⟨rfl, rfl⟩⟩

@[simp] theorem yields_refuse {fault : Fault} {p : Position} {a : α} :
    ¬ Yields (refuse fault p) first a next := by
  intro h
  cases h

@[simp] theorem yields_require {x : Option α} {fault : Fault} {p : Position} {a : α} :
    Yields (require x fault p) first a next ↔ x = some a ∧ next = first := by
  cases x with
  | none => simp [require]
  | some b => simp [require, eq_comm]

@[simp] theorem yields_freshLabels {count : Nat} {l : Label} :
    Yields (freshLabels count) first l next ↔ l = first ∧ next = first + count := by
  constructor
  · intro h
    cases h
    exact ⟨rfl, rfl⟩
  · rintro ⟨rfl, rfl⟩
    rfl

@[simp] theorem yields_freshLabel {l : Label} :
    Yields freshLabel first l next ↔ l = first ∧ next = first + 1 :=
  yields_freshLabels

theorem yields_ite {c : Prop} [Decidable c] {x y : Lower α} {a : α} :
    Yields (if c then x else y) first a next ↔
      (c ∧ Yields x first a next) ∨ (¬ c ∧ Yields y first a next) := by
  split <;> simp_all

end Monad

variable {env : Env} {first next : Label} {p : Position}

/-! ## Operators -/

theorem yields_asCondition {x : Lower Typed} {code : Segment} :
    Yields (asCondition p x) first code next ↔
      ∃ v, Yields x first v next ∧ v.type = .boolean ∧ code = v.code := by
  simp only [asCondition, yields_bind, yields_ite, yields_pure, yields_refuse, and_false,
    or_false]
  constructor
  · rintro ⟨v, middle, hx, hty, rfl, rfl⟩
    exact ⟨v, hx, hty, rfl⟩
  · rintro ⟨v, hx, hty, rfl⟩
    exact ⟨v, next, hx, hty, rfl, rfl⟩

theorem yields_arithmetic {op : BinaryOp} {left right : Lower Typed} {v : Typed} :
    Yields (arithmetic op p left right) first v next ↔
      ∃ l r middle i, Yields left first l middle ∧ Yields right middle r next ∧
        op = .arithmetic i ∧ l.type.isInteger = true ∧ r.type.isInteger = true ∧
        v = ⟨l.code ++ r.code ++ ops [.arithmetic i], .int⟩ := by
  simp only [arithmetic, yields_bind]
  constructor
  · rintro ⟨l, middle, hl, r, _, hr, h⟩
    cases op with
    | arithmetic i =>
      simp only [BinaryOp.arithmetic?, yields_ite, yields_pure, yields_refuse, and_false,
        or_false, Bool.and_eq_true] at h
      obtain ⟨⟨hil, hir⟩, rfl, rfl⟩ := h
      exact ⟨l, r, middle, i, hl, hr, rfl, hil, hir, rfl⟩
    | relation _ => simp [BinaryOp.arithmetic?] at h
    | connective _ => simp [BinaryOp.arithmetic?] at h
  · rintro ⟨l, r, middle, i, hl, hr, rfl, hil, hir, rfl⟩
    refine ⟨l, middle, hl, r, next, hr, ?_⟩
    simp [BinaryOp.arithmetic?, hil, hir]

theorem yields_comparison {op : BinaryOp} {left right : Lower Typed} {v : Typed} :
    Yields (comparison op p left right) first v next ↔
      ∃ l r middle yes jump, Yields left first l middle ∧ Yields right middle r yes ∧
        comparisonJump? op l.type r.type yes = some jump ∧ next = yes + 2 ∧
        v = ⟨l.code ++ r.code ++ .op jump :: choice false yes (yes + 1), .boolean⟩ := by
  simp only [comparison, yields_bind, yields_freshLabel, yields_require, yields_pure]
  constructor
  · rintro ⟨l, middle, hl, r, _, hr, yes, _, ⟨rfl, rfl⟩, _, _, ⟨rfl, rfl⟩, jump, _, ⟨hj, rfl⟩,
      rfl, rfl⟩
    exact ⟨l, r, middle, yes, jump, hl, hr, hj, rfl, rfl⟩
  · rintro ⟨l, r, middle, yes, jump, hl, hr, hj, rfl, rfl⟩
    exact ⟨l, middle, hl, r, yes, hr, yes, _, ⟨rfl, rfl⟩, yes + 1, _, ⟨rfl, rfl⟩, jump, _,
      ⟨hj, rfl⟩, rfl, rfl⟩

/-- The jump of a connective past its other operand. -/
def shortcut : Connective → Label → Instruction
  | .and, decided => .jumpZero decided
  | .or, decided => .jumpNonzero decided

theorem yields_connective {c : Connective} {left right : Lower Segment} {v : Typed} :
    Yields (connective (.connective c) left right) first v next ↔
      ∃ l r middle, Yields left (first + 2) l middle ∧ Yields right middle r next ∧
        v = ⟨l ++ .op (shortcut c first) :: r ++ .op (shortcut c first) ::
          choice (decide (c = .and)) first (first + 1), .boolean⟩ := by
  have hskip : (if decide (BinaryOp.connective c = .connective .and) = true
      then Instruction.jumpZero first else .jumpNonzero first) = shortcut c first := by
    cases c <;> rfl
  simp only [connective, yields_bind, yields_freshLabel, yields_pure]
  constructor
  · rintro ⟨_, _, ⟨rfl, rfl⟩, _, _, ⟨rfl, rfl⟩, l, middle, hl, r, _, hr, rfl, rfl⟩
    exact ⟨l, r, middle, hl, hr, by rw [hskip]; simp⟩
  · rintro ⟨l, r, middle, hl, hr, rfl⟩
    exact ⟨first, _, ⟨rfl, rfl⟩, first + 1, _, ⟨rfl, rfl⟩, l, middle, hl, r, next, hr,
      by rw [hskip]; simp, rfl⟩

/-! ## Members -/

/-- The call of a method of a type. -/
def invocation (owner : Types.TypeInfo) (name : String) (m : Types.MethodInfo) : Instruction :=
  if owner.isInterface then .invokeInterface owner.name name m.params m.returns
  else .invokeVirtual owner.name name m.params m.returns

theorem yields_call {receiver : Ty} {name : String} {args : Arguments} {r : Reached} :
    Yields (call env receiver name p args) first r next ↔
      ∃ owner m, env.table.resolveMethod receiver.name name args.types = some (owner, m) ∧
        m.isStatic = false ∧ args.types.length ≤ argumentLimit ∧ next = first ∧
        r = ⟨args.code ++ ops [invocation owner name m], .value m.returns⟩ := by
  simp only [call, checkCount, yields_bind, yields_require, yields_ite, yields_pure,
    yields_refuse]
  constructor
  · rintro ⟨⟨owner, m⟩, _, ⟨hm, rfl⟩, h⟩
    rcases h with ⟨_, h⟩ | ⟨hs, h⟩
    · simp at h
    · obtain ⟨_, _, hc | hc, rfl, rfl⟩ := h
      · exact ⟨owner, m, hm, by simpa using hs, hc.1, hc.2.2, rfl⟩
      · exact hc.2.elim
  · rintro ⟨owner, m, hm, hs, hc, rfl, rfl⟩
    refine ⟨⟨owner, m⟩, _, ⟨hm, rfl⟩, ?_⟩
    simp [hs, hc, invocation]

theorem yields_construct {className : String} {args : Arguments} {v : Typed} :
    Yields (construct env className p args) first v next ↔
      ∃ m, env.table.resolveConstructor className args.types = some m ∧
        args.types.length ≤ argumentLimit ∧ next = first ∧
        v = ⟨ops [.new className, .dup] ++ args.code ++
          ops [.invokeConstructor className m.params], .plain className⟩ := by
  simp only [construct, checkCount, yields_bind, yields_require, yields_ite, yields_pure,
    yields_refuse, and_false, or_false]
  constructor
  · rintro ⟨m, _, ⟨hm, rfl⟩, _, _, ⟨hc, _, rfl⟩, rfl, rfl⟩
    exact ⟨m, hm, hc, rfl, rfl⟩
  · rintro ⟨m, hm, hc, rfl, rfl⟩
    exact ⟨m, _, ⟨hm, rfl⟩, (), _, ⟨hc, trivial, rfl⟩, rfl, rfl⟩

theorem yields_constructArray {element : String} {length v : Typed} :
    Yields (constructArray element p length) first v next ↔
      length.type.isInteger = true ∧ next = first ∧
        v = ⟨length.code ++ ops [.newArray (.ofTy (.plain element)) (internalName element)],
          Ty.arrayOf (.plain element)⟩ := by
  simp only [constructArray, yields_ite, yields_pure, yields_refuse, and_false, or_false]
  rw [and_comm (a := next = first)]

theorem yields_asIndex {value : Typed} {code : Segment} :
    Yields (asIndex p value) first code next ↔
      value.type.isInteger = true ∧ code = value.code ∧ next = first := by
  simp [asIndex, yields_ite]

theorem yields_property {className name : String} {found : String × Ty} :
    Yields (property env className name p) first found next ↔
      ∃ owner info, env.table.findProperty className name = some (owner, info) ∧
        next = first ∧ found = (owner.name, info.type) := by
  unfold property
  split <;> rename_i h
  · rename_i owner info
    simp only [yields_pure, h, Option.some.injEq, Prod.mk.injEq]
    constructor
    · rintro ⟨rfl, rfl⟩
      exact ⟨owner, info, ⟨rfl, rfl⟩, rfl, rfl⟩
    · rintro ⟨_, _, ⟨rfl, rfl⟩, rfl, rfl⟩
      exact ⟨rfl, rfl⟩
  · simp [h]

/-- The head of a chain that is a name: what it may stand for, in the order of preference. -/
theorem yields_nameHead {name : String} {r : Reached}
    (h : Yields (nameHead env name p) first r next) : next = first ∧
      ((∃ l, env.local? name = some l ∧ r = ⟨ops [l.load], .value l.type⟩) ∨
       (∃ owner info, env.table.findProperty env.className name = some (owner, info) ∧
         r = ⟨ops [.loadThis, .getField owner.name name info.type], .value info.type⟩) ∨
       r = ⟨[], .system⟩) := by
  unfold nameHead at h
  split at h
  · rename_i l hl
    obtain ⟨rfl, rfl⟩ := yields_pure.1 h
    exact ⟨rfl, .inl ⟨l, hl, rfl⟩⟩
  · split at h
    · rename_i owner info hp
      obtain ⟨rfl, rfl⟩ := yields_pure.1 h
      exact ⟨rfl, .inr (.inl ⟨owner, info, hp, rfl⟩)⟩
    · simp only [yields_ite, yields_pure, yields_refuse, and_false, or_false] at h
      obtain ⟨_, rfl, rfl⟩ := h
      exact ⟨rfl, .inr (.inr rfl)⟩

/-- The field step of a chain: the print stream, the length of an array or a property. -/
theorem yields_fieldStep {receiver : Receiver} {name : String} {r : Reached}
    (h : Yields (fieldStep env receiver name p) first r next) : next = first ∧
      ((receiver = .system ∧ r = ⟨ops [.getPrintStream], .printStream⟩) ∨
       (∃ ty, receiver = .value ty ∧ ty.isArray = true ∧
         r = ⟨ops [.arrayLength], .value .int⟩) ∨
       (∃ ty owner info, receiver = .value ty ∧ ty.isReference = true ∧
         env.table.findProperty ty.name name = some (owner, info) ∧
         r = ⟨ops [.getField owner.name name info.type], .value info.type⟩)) := by
  cases receiver with
  | system =>
    simp only [fieldStep, yields_ite, yields_pure, yields_refuse, and_false, or_false] at h
    obtain ⟨_, rfl, rfl⟩ := h
    exact ⟨rfl, .inl ⟨rfl, rfl⟩⟩
  | printStream => simp [fieldStep] at h
  | value ty =>
    simp only [fieldStep, yields_ite, yields_bind, yields_property, yields_pure, yields_refuse,
      and_false, or_false] at h
    rcases h with ⟨hlen, rfl, rfl⟩ | ⟨_, hobj, _, _, ⟨owner, info, hp, rfl, rfl⟩, rfl, rfl⟩
    · simp only [Bool.and_eq_true] at hlen
      exact ⟨rfl, .inr (.inl ⟨ty, rfl, hlen.1, rfl⟩)⟩
    · simp only [Bool.and_eq_true] at hobj
      exact ⟨rfl, .inr (.inr ⟨ty, owner, info, rfl, hobj.2, hp, rfl⟩)⟩

/-! ## Expressions -/

attribute [local simp] expr arguments chain head links link

theorem yields_expr_arithmetic {op : Arithmetic} {left right : Expr} {v : Typed} :
    Yields (expr env (.binary (.arithmetic op) left right)) first v next ↔
      ∃ l r middle, Yields (expr env left) first l middle ∧ Yields (expr env right) middle r next ∧
        l.type.isInteger = true ∧ r.type.isInteger = true ∧
        v = ⟨l.code ++ r.code ++ ops [.arithmetic op], .int⟩ := by
  rw [expr, yields_arithmetic]
  constructor
  · rintro ⟨l, r, middle, i, hl, hr, hop, hil, hir, rfl⟩
    cases hop
    exact ⟨l, r, middle, hl, hr, hil, hir, rfl⟩
  · rintro ⟨l, r, middle, hl, hr, hil, hir, rfl⟩
    exact ⟨l, r, middle, op, hl, hr, rfl, hil, hir, rfl⟩

theorem yields_expr_relation {op : Relation} {left right : Expr} {v : Typed} :
    Yields (expr env (.binary (.relation op) left right)) first v next ↔
      ∃ l r middle yes jump, Yields (expr env left) first l middle ∧
        Yields (expr env right) middle r yes ∧
        comparisonJump? (.relation op) l.type r.type yes = some jump ∧ next = yes + 2 ∧
        v = ⟨l.code ++ r.code ++ .op jump :: choice false yes (yes + 1), .boolean⟩ := by
  rw [expr, yields_comparison]

theorem yields_expr_connective {op : Connective} {left right : Expr} {v : Typed} :
    Yields (expr env (.binary (.connective op) left right)) first v next ↔
      ∃ l r middle, Yields (expr env left) (first + 2) l middle ∧ l.type = .boolean ∧
        Yields (expr env right) middle r next ∧ r.type = .boolean ∧
        v = ⟨l.code ++ .op (shortcut op first) :: r.code ++ .op (shortcut op first) ::
          choice (decide (op = .and)) first (first + 1), .boolean⟩ := by
  rw [expr, yields_connective]
  simp only [yields_asCondition]
  constructor
  · rintro ⟨_, _, middle, ⟨l, hl, htl, rfl⟩, ⟨r, hr, htr, rfl⟩, rfl⟩
    exact ⟨l, r, middle, hl, htl, hr, htr, rfl⟩
  · rintro ⟨l, r, middle, hl, htl, hr, htr, rfl⟩
    exact ⟨_, _, middle, ⟨l, hl, htl, rfl⟩, ⟨r, hr, htr, rfl⟩, rfl⟩

theorem yields_expr_access {c : Chain} {v : Typed} :
    Yields (expr env (.access c)) first v next ↔
      Yields (chain env c) first v next ∧ v.type.isVoid = false := by
  simp only [expr, yields_bind, yields_ite, yields_pure, yields_refuse]
  constructor
  · rintro ⟨a, middle, hc, ⟨_, h⟩ | ⟨ha, rfl, rfl⟩⟩
    · simp at h
    · exact ⟨hc, by simpa using ha⟩
  · rintro ⟨hc, hv⟩
    exact ⟨v, next, hc, .inr ⟨by simp [hv], rfl, rfl⟩⟩

theorem yields_expr_newObject {className : String} {args : List Expr} {v : Typed} :
    Yields (expr env (.newObject p className args)) first v next ↔
      ∃ as middle, Yields (arguments env args) first as middle ∧
        Yields (construct env className p as) middle v next := by
  simp only [expr, yields_bind]

theorem yields_expr_newArray {element : String} {length : Expr} {v : Typed} :
    Yields (expr env (.newArray p element length)) first v next ↔
      ∃ n middle, Yields (expr env length) first n middle ∧
        Yields (constructArray element p n) middle v next := by
  simp only [expr, yields_bind]

theorem yields_arguments_cons {e : Expr} {rest : List Expr} {as : Arguments} :
    Yields (arguments env (e :: rest)) first as next ↔
      ∃ v vs middle, Yields (expr env e) first v middle ∧
        Yields (arguments env rest) middle vs next ∧
        as = ⟨v.code ++ vs.code, v.type :: vs.types⟩ := by
  simp only [arguments, yields_bind, yields_pure]
  constructor
  · rintro ⟨v, middle, hv, vs, _, hvs, rfl, rfl⟩
    exact ⟨v, vs, middle, hv, hvs, rfl⟩
  · rintro ⟨v, vs, middle, hv, hvs, rfl⟩
    exact ⟨v, middle, hv, vs, next, hvs, rfl, rfl⟩

theorem yields_chain {h : Head} {ls : List Link} {v : Typed} :
    Yields (chain env (.mk h ls)) first v next ↔
      ∃ start r middle, Yields (head env h) first start middle ∧
        Yields (links env start ls) middle r next ∧
        r.receiver = .value v.type ∧ v.code = r.code := by
  simp only [chain, yields_bind]
  constructor
  · rintro ⟨start, middle, hs, r, _, hr, h⟩
    split at h
    · rename_i ty hty
      obtain ⟨rfl, rfl⟩ := yields_pure.1 h
      exact ⟨start, r, middle, hs, hr, hty, rfl⟩
    · exact (yields_refuse h).elim
  · rintro ⟨start, r, middle, hs, hr, hty, hc⟩
    refine ⟨start, middle, hs, r, next, hr, ?_⟩
    rw [hty]
    exact yields_pure.2 ⟨by rw [← hc], rfl⟩

theorem yields_head_call {name : String} {args : List Expr} {r : Reached} :
    Yields (head env (.call p name args)) first r next ↔
      ∃ as result middle, Yields (arguments env args) first as middle ∧
        Yields (call env env.thisType name p as) middle result next ∧
        r = ⟨.op .loadThis :: result.code, result.receiver⟩ := by
  simp only [head, yields_bind, yields_pure]
  constructor
  · rintro ⟨as, middle, ha, result, _, hr, rfl, rfl⟩
    exact ⟨as, result, middle, ha, hr, rfl⟩
  · rintro ⟨as, result, middle, ha, hr, rfl⟩
    exact ⟨as, middle, ha, result, next, hr, rfl, rfl⟩

/-- The call step of a chain: a print method of the print stream, or a method of a value. -/
theorem yields_link_call {receiver : Receiver} {name : String} {args : List Expr} {r : Reached}
    (h : Yields (link env receiver (.call p name args)) first r next) :
    (∃ line as, receiver = .printStream ∧ printMethod? name args.length = some line ∧
      Yields (arguments env args) first as next ∧
      r = ⟨as.code ++ ops [.print line as.types.head?], .value .void⟩) ∨
    (∃ ty as middle, receiver = .value ty ∧ ty.isReference = true ∧
      Yields (arguments env args) first as middle ∧
      Yields (call env ty name p as) middle r next) := by
  cases receiver with
  | system => simp at h
  | printStream =>
    simp only [link, yields_bind, yields_require, yields_pure] at h
    obtain ⟨line, _, ⟨hp, rfl⟩, as, _, ha, rfl, rfl⟩ := h
    exact .inl ⟨line, as, rfl, hp, ha, rfl⟩
  | value ty =>
    simp only [link, yields_ite, yields_bind, yields_refuse, and_false, or_false] at h
    obtain ⟨hty, as, middle, ha, hc⟩ := h
    simp only [Bool.and_eq_true] at hty
    exact .inr ⟨ty, as, middle, rfl, hty.2, ha, hc⟩

theorem yields_link_index {receiver : Receiver} {i : Expr} {r : Reached}
    (h : Yields (link env receiver (.index p i)) first r next) :
    ∃ ty v, receiver = .value ty ∧ ty.isArray = true ∧ Yields (expr env i) first v next ∧
      v.type.isInteger = true ∧
        r = ⟨v.code ++ ops [.arrayLoad (.ofTy ty.element)], .value ty.element⟩ := by
  cases receiver with
  | system => simp at h
  | printStream => simp at h
  | value ty =>
    simp only [link, yields_ite, yields_bind, yields_asIndex, yields_pure, yields_refuse,
      and_false, or_false] at h
    obtain ⟨hty, v, _, hv, _, _, ⟨hint, rfl, rfl⟩, rfl, rfl⟩ := h
    exact ⟨ty, v, rfl, hty, hv, hint, rfl⟩

theorem yields_links_cons {start : Reached} {l : Link} {rest : List Link} {r : Reached} :
    Yields (links env start (l :: rest)) first r next ↔
      ∃ step middle, Yields (link env start.receiver l) first step middle ∧
        Yields (links env ⟨start.code ++ step.code, step.receiver⟩ rest) middle r next := by
  simp only [links, yields_bind]

end Javelet.Lowering
