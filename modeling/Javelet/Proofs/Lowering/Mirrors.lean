import Javelet.Proofs.Assembly.Relabel
import Javelet.Proofs.Lowering.Methods
import Javelet.Proofs.Scope.Alone

/-!
# Lowerings in step

What is lowered draws its labels from a counter. If the counter starts at another number, or names
are looked up in another arena in which they mean the same, the code is the same but for the numbers
of its labels. `Mirrors` compares two lowerings that draw labels in step. It has one rule for each
way of putting computations together, so that the proofs follow the text of the lowering functions.
-/
namespace Javelet.Lowering

open Assembly

/-- As many labels as told, from `first` on, get consecutive numbers from `first'` on. -/
def Shifts (ρ : Label → Label) (first first' count : Nat) : Prop :=
  ∀ k < count, ρ (first + k) = first' + k

namespace Shifts

variable {ρ : Label → Label} {first first' n m : Nat}

theorem zero (ρ : Label → Label) (first first' : Nat) : Shifts ρ first first' 0 :=
  fun k hk => absurd hk (Nat.not_lt_zero k)

theorem left (h : Shifts ρ first first' (n + m)) : Shifts ρ first first' n :=
  fun k hk => h k (Nat.lt_add_right m hk)

theorem right (h : Shifts ρ first first' (n + m)) : Shifts ρ (first + n) (first' + n) m := by
  intro k hk
  rw [Nat.add_assoc, Nat.add_assoc]
  exact h (n + k) (Nat.add_lt_add_left hk n)

theorem head (h : Shifts ρ first first' (n + 1)) : ρ first = first' := h 0 (Nat.succ_pos n)

theorem tail (h : Shifts ρ first first' (n + 1)) : Shifts ρ (first + 1) (first' + 1) n := by
  rw [Nat.add_comm n] at h
  exact h.right

end Shifts

/-- Whenever `x` succeeds, `y` does and draws as many labels. If `ρ` takes the labels that `x` draws
to those that `y` draws, the result of `y` is told by `f`. -/
def Mirrors {α β : Type} (ρ : Label → Label) (f : α → β) (x : Lower α) (y : Lower β) : Prop :=
  ∀ (first : Nat) a (next : Nat), Yields x first a next → ∃ count, next = first + count ∧
    ∀ first', Shifts ρ first first' count → Yields y first' (f a) (first' + count)

namespace Mirrors

variable {α β γ δ : Type} {ρ : Label → Label} {f : α → β} {g : γ → δ} {x : Lower α} {y : Lower β}

theorem yields {first first' n : Nat} {a : α} (h : Mirrors ρ f x y)
    (hx : Yields x first a (first + n)) (hρ : Shifts ρ first first' n) :
    Yields y first' (f a) (first' + n) := by
  obtain ⟨count, hcount, hy⟩ := h first a _ hx
  obtain rfl := Nat.add_left_cancel hcount
  exact hy first' hρ

theorem pure {a : α} {b : β} (h : b = f a) : Mirrors ρ f (Pure.pure a) (Pure.pure b) := by
  intro first a' next hy
  obtain ⟨rfl, rfl⟩ := yields_pure.1 hy
  exact ⟨0, rfl, fun first' _ => yields_pure.2 ⟨h.symm, rfl⟩⟩

theorem bind {k : α → Lower γ} {k' : β → Lower δ} (hx : Mirrors ρ f x y)
    (hk : ∀ a, Mirrors ρ g (k a) (k' (f a))) : Mirrors ρ g (x >>= k) (y >>= k') := by
  intro first c next hy
  obtain ⟨a, middle, ha, hc⟩ := yields_bind.1 hy
  obtain ⟨n, rfl, hx⟩ := hx first a middle ha
  obtain ⟨m, rfl, hk⟩ := hk a _ c next hc
  refine ⟨n + m, Nat.add_assoc .., ?_⟩
  intro first' hρ
  rw [← Nat.add_assoc]
  exact yields_bind.2 ⟨f a, _, hx first' hρ.left, hk _ hρ.right⟩

theorem refuse {fault : Fault} {p : Position} : Mirrors ρ f (refuse fault p) y :=
  fun _ _ _ hy => (yields_refuse hy).elim

theorem refuse_bind {fault : Fault} {p : Position} {k : γ → Lower α} :
    Mirrors ρ f (Lowering.refuse fault p >>= k) y := by
  intro first a next hy
  obtain ⟨c, middle, hc, -⟩ := yields_bind.1 hy
  exact (yields_refuse hc).elim

theorem require {a : Option α} {b : Option β} {fault fault' : Fault} {p p' : Position}
    (h : b = a.map f) : Mirrors ρ f (require a fault p) (require b fault' p') := by
  cases a with
  | none => exact refuse
  | some a =>
    rw [h]
    exact pure rfl

/-- Lowerings that draw no labels. -/
theorem steady (h : ∀ first a next, Yields x first a next →
    next = first ∧ ∀ first', Yields y first' (f a) first') : Mirrors ρ f x y := by
  intro first a next hy
  obtain ⟨rfl, hy'⟩ := h first a next hy
  exact ⟨0, rfl, fun first' _ => hy' first'⟩

/-- A fresh label is one of those that are renumbered. -/
theorem freshLabel : Mirrors ρ ρ freshLabel freshLabel := by
  intro first l next hy
  obtain ⟨rfl, rfl⟩ := yields_freshLabel.1 hy
  exact ⟨1, rfl, fun first' hρ => yields_freshLabel.2 ⟨hρ.head, rfl⟩⟩

/-- A label that is drawn in some cases only. -/
theorem freshOr {c : Prop} [Decidable c] {l : Label} {k k' : Label → Lower β} {g : β → β}
    (hk : ∀ next, Mirrors ρ g (k next) (k' (ρ next))) :
    Mirrors ρ g (if c then Lowering.freshLabel >>= k else Pure.pure l >>= k)
      (if c then Lowering.freshLabel >>= k' else Pure.pure (ρ l) >>= k') := by
  split
  · exact freshLabel.bind hk
  · exact (pure rfl).bind hk

theorem map {k : α → γ} {k' : β → δ} (hx : Mirrors ρ f x y) (h : ∀ a, k' (f a) = g (k a)) :
    Mirrors ρ g (k <$> x) (k' <$> y) := by
  rw [← bind_pure_comp, ← bind_pure_comp]
  exact hx.bind fun a => pure (h a)

theorem mapM {ι : Type} {xs : List ι} {k : ι → Lower α} {k' : ι → Lower β}
    (h : ∀ i ∈ xs, Mirrors ρ f (k i) (k' i)) :
    Mirrors ρ (List.map f) (xs.mapM k) (xs.mapM k') := by
  induction xs with
  | nil => exact pure rfl
  | cons i xs ih =>
    rw [List.forall_mem_cons] at h
    rw [List.mapM_cons, List.mapM_cons]
    exact h.1.bind fun a => (ih h.2).bind fun as => pure rfl

end Mirrors

/-! ## Results under other labels -/

/-- The same value in code with other labels. -/
@[simps] def Typed.relabel (ρ : Label → Label) (v : Typed) : Typed :=
  ⟨Assembly.relabel ρ v.code, v.type⟩

@[simps] def Arguments.relabel (ρ : Label → Label) (as : Arguments) : Arguments :=
  ⟨Assembly.relabel ρ as.code, as.types⟩

@[simps] def Reached.relabel (ρ : Label → Label) (r : Reached) : Reached :=
  ⟨Assembly.relabel ρ r.code, r.receiver⟩

/-! ## Code without labels -/

section Plain

variable (ρ : Label → Label)

@[simp] theorem relabel_ops (is : List Instruction) :
    relabel ρ (ops is) = ops (is.map (Instruction.relabel ρ)) := by
  simp [relabel, ops, Function.comp_def]

@[simp] theorem relabel_load (l : Local) : l.load.relabel ρ = l.load := rfl

@[simp] theorem relabel_store (l : Local) : l.store.relabel ρ = l.store := rfl

@[simp] theorem relabel_pushDefault (ty : Ty) :
    (Instruction.pushDefault ty).relabel ρ = .pushDefault ty := by
  unfold Instruction.pushDefault
  split <;> rfl

@[simp] theorem relabel_oldValue (op : AssignOp) (is : List Instruction) :
    relabel ρ (oldValue op is) = oldValue op (is.map (Instruction.relabel ρ)) := by
  cases op with
  | plain => rfl
  | compound op => exact relabel_ops ρ is

@[simp] theorem relabel_invocation (owner : Types.TypeInfo) (name : String) (m : Types.MethodInfo) :
    (invocation owner name m).relabel ρ = invocation owner name m := by
  unfold invocation
  split <;> rfl

@[simp] theorem relabel_literal (value : Literal) :
    relabel ρ (literal value).code = (literal value).code := by
  cases value <;> rfl

@[simp] theorem relabel_choice (first : Bool) (other finish : Label) :
    relabel ρ (choice first other finish) = choice first (ρ other) (ρ finish) := rfl

end Plain

/-! ## Members -/

/-- Surroundings in which expressions mean the same. -/
structure Env.Sees (env env' : Env) : Prop where
  table : env.table.Same env'.table
  className : env'.className = env.className
  lookup : env'.arena.lookup env'.scope = env.arena.lookup env.scope

variable {env env' : Env} {ρ : Label → Label} (h : env.Sees env')

section Members

include h

theorem Env.Sees.local? (name : String) : env'.local? name = env.local? name := by
  rw [Env.local?, Env.local?, h.lookup]

theorem Env.Sees.thisType : env'.thisType = env.thisType := by
  rw [Env.thisType, Env.thisType, h.className]

theorem property_mirrors (className name : String) (p : Position) :
    Mirrors ρ id (property env className name p) (property env' className name p) := by
  unfold property
  rw [h.table.findProperty]
  split
  · exact .pure rfl
  · exact .refuse

theorem nameHead_mirrors (name : String) (p : Position) :
    Mirrors ρ (Reached.relabel ρ) (nameHead env name p) (nameHead env' name p) := by
  unfold nameHead
  rw [h.local?, h.table.findProperty, h.className]
  split
  · exact .pure rfl
  · split
    · exact .pure rfl
    · split
      · exact .pure rfl
      · exact .refuse

theorem fieldStep_mirrors (receiver : Receiver) (name : String) (p : Position) :
    Mirrors ρ (Reached.relabel ρ) (fieldStep env receiver name p)
      (fieldStep env' receiver name p) := by
  unfold fieldStep
  cases receiver with
  | system =>
    dsimp only
    split
    · exact .pure rfl
    · exact .refuse
  | printStream => exact .refuse
  | value ty =>
    dsimp only
    split
    · exact .pure rfl
    · split
      · exact (property_mirrors h ty.name name p).bind fun found => .pure rfl
      · exact .refuse

theorem call_mirrors (receiver : Ty) (name : String) (p : Position) (args : Arguments) :
    Mirrors ρ (Reached.relabel ρ) (call env receiver name p args)
      (call env' receiver name p (args.relabel ρ)) := by
  refine .steady fun first r next hy => ?_
  obtain ⟨owner, m, hm, hstatic, hcount, rfl, rfl⟩ := yields_call.1 hy
  refine ⟨rfl, fun first' => yields_call.2 ⟨owner, m, ?_, hstatic, hcount, rfl, ?_⟩⟩
  · rw [← h.table.resolveMethod]
    exact hm
  · simp [Reached.relabel]

theorem construct_mirrors (className : String) (p : Position) (args : Arguments) :
    Mirrors ρ (Typed.relabel ρ) (construct env className p args)
      (construct env' className p (args.relabel ρ)) := by
  refine .steady fun first v next hy => ?_
  obtain ⟨m, hm, hcount, rfl, rfl⟩ := yields_construct.1 hy
  refine ⟨rfl, fun first' => yields_construct.2 ⟨m, ?_, hcount, rfl, ?_⟩⟩
  · rw [← h.table.resolveConstructor]
    exact hm
  · simp [Typed.relabel, Instruction.relabel]

end Members

theorem constructArray_mirrors (element : String) (p : Position) (length : Typed) :
    Mirrors ρ (Typed.relabel ρ) (constructArray element p length)
      (constructArray element p (length.relabel ρ)) := by
  refine .steady fun first v next hy => ?_
  obtain ⟨hint, rfl, rfl⟩ := yields_constructArray.1 hy
  refine ⟨rfl, fun first' => yields_constructArray.2 ⟨hint, rfl, ?_⟩⟩
  simp [Typed.relabel, Instruction.relabel]

theorem asIndex_mirrors (p : Position) (value : Typed) :
    Mirrors ρ (relabel ρ) (asIndex p value) (asIndex p (value.relabel ρ)) := by
  refine .steady fun first code next hy => ?_
  obtain ⟨hint, rfl, rfl⟩ := yields_asIndex.1 hy
  exact ⟨rfl, fun first' => yields_asIndex.2 ⟨hint, rfl, rfl⟩⟩

/-! ## Operators -/

section Operators

variable {left left' right right' : Lower Typed} {p : Position}

theorem arithmetic_mirrors (op : BinaryOp) (hl : Mirrors ρ (Typed.relabel ρ) left left')
    (hr : Mirrors ρ (Typed.relabel ρ) right right') :
    Mirrors ρ (Typed.relabel ρ) (arithmetic op p left right) (arithmetic op p left' right') := by
  unfold arithmetic
  refine hl.bind fun l => hr.bind fun r => ?_
  rw [Typed.relabel_type, Typed.relabel_type]
  split
  · split
    · exact .pure (by simp [Typed.relabel, Instruction.relabel])
    · exact .refuse
  · exact .refuse

theorem comparisonJump?_relabel (op : BinaryOp) (l r : Ty) (target : Label) :
    comparisonJump? op l r (ρ target) =
      (comparisonJump? op l r target).map (Instruction.relabel ρ) := by
  unfold comparisonJump?
  split
  · rfl
  · split
    · split <;> rfl
    · rfl

theorem comparison_mirrors (op : BinaryOp) (hl : Mirrors ρ (Typed.relabel ρ) left left')
    (hr : Mirrors ρ (Typed.relabel ρ) right right') :
    Mirrors ρ (Typed.relabel ρ) (comparison op p left right) (comparison op p left' right') := by
  unfold comparison
  refine hl.bind fun l => hr.bind fun r => Mirrors.freshLabel.bind fun yes =>
    Mirrors.freshLabel.bind fun finish => ?_
  refine (Mirrors.require (comparisonJump?_relabel op l.type r.type yes)).bind fun jump => ?_
  exact .pure (by simp [Typed.relabel])

theorem asCondition_mirrors (hl : Mirrors ρ (Typed.relabel ρ) left left') :
    Mirrors ρ (relabel ρ) (asCondition p left) (asCondition p left') := by
  unfold asCondition
  refine hl.bind fun v => ?_
  rw [Typed.relabel_type]
  split
  · exact .pure rfl
  · exact .refuse

theorem connective_mirrors (op : BinaryOp) {left left' right right' : Lower Segment}
    (hl : Mirrors ρ (relabel ρ) left left') (hr : Mirrors ρ (relabel ρ) right right') :
    Mirrors ρ (Typed.relabel ρ) (connective op left right) (connective op left' right') := by
  unfold connective
  refine Mirrors.freshLabel.bind fun decided => Mirrors.freshLabel.bind fun finish =>
    hl.bind fun l => hr.bind fun r => .pure ?_
  split <;> simp [Typed.relabel, Instruction.relabel]

end Operators

/-! ## Expressions -/

include h

omit h in
theorem arguments_mirrors {args : List Expr}
    (ih : ∀ e ∈ args, Mirrors ρ (Typed.relabel ρ) (expr env e) (expr env' e)) :
    Mirrors ρ (Arguments.relabel ρ) (arguments env args) (arguments env' args) := by
  induction args with
  | nil =>
    rw [arguments, arguments]
    exact .pure rfl
  | cons e rest ihrest =>
    rw [List.forall_mem_cons] at ih
    rw [arguments, arguments]
    refine ih.1.bind fun v => (ihrest ih.2).bind fun vs => .pure ?_
    simp [Arguments.relabel]

theorem head_mirrors {head : Head}
    (ih : ∀ e ∈ head.operands, Mirrors ρ (Typed.relabel ρ) (expr env e) (expr env' e)) :
    Mirrors ρ (Reached.relabel ρ) (Lowering.head env head) (Lowering.head env' head) := by
  cases head with
  | this p =>
    rw [Lowering.head, Lowering.head, h.thisType]
    exact .pure rfl
  | name p name =>
    rw [Lowering.head, Lowering.head]
    exact nameHead_mirrors h name p
  | call p name args =>
    rw [Lowering.head, Lowering.head, h.thisType]
    refine (arguments_mirrors ih).bind fun as => (call_mirrors h _ name p as).bind fun result => ?_
    exact .pure rfl

theorem link_mirrors (receiver : Receiver) {link : Link}
    (ih : ∀ e ∈ link.operands, Mirrors ρ (Typed.relabel ρ) (expr env e) (expr env' e)) :
    Mirrors ρ (Reached.relabel ρ) (Lowering.link env receiver link)
      (Lowering.link env' receiver link) := by
  cases link with
  | field p name =>
    rw [Lowering.link, Lowering.link]
    exact fieldStep_mirrors h receiver name p
  | call p name args =>
    cases receiver with
    | system =>
      rw [Lowering.link, Lowering.link]
      exact .refuse
    | printStream =>
      rw [Lowering.link, Lowering.link]
      refine Mirrors.bind (f := id) (.require (by simp)) fun line => ?_
      refine (arguments_mirrors ih).bind fun as => .pure ?_
      simp [Reached.relabel, Instruction.relabel]
    | value ty =>
      rw [Lowering.link, Lowering.link]
      split
      · exact (arguments_mirrors ih).bind fun as => call_mirrors h ty name p as
      · exact .refuse
  | index p i =>
    cases receiver with
    | value ty =>
      rw [Lowering.link, Lowering.link]
      split
      · refine (ih i (List.mem_singleton.2 rfl)).bind fun v => ?_
        refine (asIndex_mirrors i.position v).bind fun code => .pure ?_
        simp [Reached.relabel, Instruction.relabel]
      · exact .refuse
    | system =>
      rw [Lowering.link]
      · exact .refuse
      · intro ty hvalue
        cases hvalue
    | printStream =>
      rw [Lowering.link]
      · exact .refuse
      · intro ty hvalue
        cases hvalue

theorem links_mirrors {links : List Link} (start : Reached)
    (ih : ∀ l ∈ links, ∀ e ∈ Link.operands l,
      Mirrors ρ (Typed.relabel ρ) (expr env e) (expr env' e)) :
    Mirrors ρ (Reached.relabel ρ) (Lowering.links env start links)
      (Lowering.links env' (start.relabel ρ) links) := by
  induction links generalizing start with
  | nil =>
    rw [Lowering.links, Lowering.links]
    exact .pure rfl
  | cons link links ihlinks =>
    rw [List.forall_mem_cons] at ih
    rw [Lowering.links, Lowering.links]
    refine (link_mirrors h start.receiver ih.1).bind fun next => ?_
    have hrest := ihlinks ⟨start.code ++ next.code, next.receiver⟩ ih.2
    rw [Reached.relabel, relabel_append] at hrest
    exact hrest

theorem chain_mirrors_of {head : Head} {links : List Link}
    (ihh : ∀ e ∈ head.operands, Mirrors ρ (Typed.relabel ρ) (expr env e) (expr env' e))
    (ihl : ∀ l ∈ links, ∀ e ∈ Link.operands l,
      Mirrors ρ (Typed.relabel ρ) (expr env e) (expr env' e)) :
    Mirrors ρ (Typed.relabel ρ) (chain env (.mk head links)) (chain env' (.mk head links)) := by
  rw [chain, chain]
  refine (head_mirrors h ihh).bind fun start => (links_mirrors h start ihl).bind fun reached => ?_
  rw [Reached.relabel_receiver]
  split
  · exact .pure rfl
  · exact .refuse

theorem expr_mirrors (e : Expr) : Mirrors ρ (Typed.relabel ρ) (expr env e) (expr env' e) := by
  induction e using Expr.induction with
  | literal p value =>
    rw [expr, expr]
    exact .pure (by simp [Typed.relabel])
  | binary op left right ihl ihr =>
    cases op with
    | arithmetic op =>
      rw [expr, expr]
      exact arithmetic_mirrors _ ihl ihr
    | relation op =>
      rw [expr, expr]
      exact comparison_mirrors _ ihl ihr
    | connective op =>
      rw [expr, expr]
      exact connective_mirrors _ (asCondition_mirrors ihl) (asCondition_mirrors ihr)
  | access head links ihh ihl =>
    rw [expr, expr]
    refine (chain_mirrors_of h ihh ihl).bind fun v => ?_
    rw [Typed.relabel_type]
    split
    · exact .refuse_bind
    · exact .pure rfl
  | newObject p className args ih =>
    rw [expr, expr]
    exact (arguments_mirrors ih).bind fun as => construct_mirrors h className p as
  | newArray p element length ih =>
    rw [expr, expr]
    exact ih.bind fun n => constructArray_mirrors element p n

theorem chain_mirrors (c : Chain) : Mirrors ρ (Typed.relabel ρ) (chain env c) (chain env' c) := by
  obtain ⟨head, links⟩ := c
  exact chain_mirrors_of h (fun e _ => expr_mirrors h e) fun _ _ e _ => expr_mirrors h e

end Javelet.Lowering
