import Javelet.Syntax.Statement

/-!
# Induction over the syntax

Expressions and statements are nested: they hold lists of expressions, cases and blocks, which
hold expressions and statements again. Each of the two principles below has one motive. For the
parts that stand in lists they give the induction hypothesis of every member.
-/
namespace Javelet

/-- The expressions right below the head of a chain. -/
def Head.operands : Head → List Expr
  | this _ => []
  | name _ _ => []
  | call _ _ args => args

/-- The expressions right below a link of a chain. -/
def Link.operands : Link → List Expr
  | field _ _ => []
  | call _ _ args => args
  | index _ e => [e]

/-- The first part of a for loop as a statement. -/
def ForInit.asStatement : ForInit → Statement
  | declaration v => .declaration v
  | assignment a => .action (.assignment a)

/-- The statements right inside of a statement. The bodies of a switch count as blocks, and the
first part and the update of a for loop as statements. -/
def Statement.inner : Statement → List Statement
  | block b => b.statements
  | conditional _ _ body otherwise => body :: otherwise.toList
  | whileLoop _ _ body => [body]
  | forLoop _ _ init _ update body =>
    init.toList.map ForInit.asStatement ++ update.toList.map .action ++ [body]
  | switch _ _ _ cases default_ => (cases.map Case.body ++ default_.toList).map .block
  | jump _ _ => []
  | action _ => []
  | declaration _ => []

@[elab_as_elim]
theorem Expr.induction {P : Expr → Prop}
    (literal : ∀ p value, P (.literal p value))
    (binary : ∀ op left right, P left → P right → P (.binary op left right))
    (access : ∀ head links, (∀ e ∈ head.operands, P e) →
      (∀ l ∈ links, ∀ e ∈ Link.operands l, P e) → P (.access (.mk head links)))
    (newObject : ∀ p className args, (∀ e ∈ args, P e) → P (.newObject p className args))
    (newArray : ∀ p element length, P length → P (.newArray p element length))
    (e : Expr) : P e := by
  refine @Expr.rec P (fun c => P (.access c)) (fun h => ∀ e ∈ h.operands, P e)
    (fun l => ∀ e ∈ l.operands, P e) (fun es => ∀ e ∈ es, P e)
    (fun ls => ∀ l ∈ ls, ∀ e ∈ l.operands, P e) literal binary (fun _ h => h) newObject newArray
    access ?_ ?_ (fun _ _ _ h => h) ?_ (fun _ _ _ h => h) ?_ ?_ ?_ ?_ ?_ e
  · intro _ x hx
    cases hx
  · intro _ _ x hx
    cases hx
  · intro _ _ x hx
    cases hx
  · intro _ i hi x hx
    rw [List.mem_singleton.1 hx]
    exact hi
  · intro x hx
    cases hx
  · exact fun _ _ h hs => List.forall_mem_cons.2 ⟨h, hs⟩
  · intro x hx
    cases hx
  · exact fun _ _ h hs => List.forall_mem_cons.2 ⟨h, hs⟩

@[elab_as_elim]
theorem Statement.induction {P : Statement → Prop}
    (block : ∀ b, (∀ s ∈ Block.statements b, P s) → P (.block b))
    (conditional : ∀ p e body otherwise, P body → (∀ s ∈ otherwise, P s) →
      P (.conditional p e body otherwise))
    (whileLoop : ∀ p e body, P body → P (.whileLoop p e body))
    (forLoop : ∀ p id init e update body, P body → P (.forLoop p id init e update body))
    (switch : ∀ p id e cases default_, (∀ c ∈ cases, ∀ s ∈ (Case.body c).statements, P s) →
      (∀ b ∈ default_, ∀ s ∈ Block.statements b, P s) → P (.switch p id e cases default_))
    (jump : ∀ p j, P (.jump p j))
    (action : ∀ a, P (.action a))
    (declaration : ∀ v, P (.declaration v))
    (s : Statement) : P s := by
  refine @Statement.rec P (fun b => ∀ s ∈ b.statements, P s)
    (fun c => ∀ s ∈ c.body.statements, P s) (fun o => ∀ s ∈ o, P s)
    (fun cs => ∀ c ∈ cs, ∀ s ∈ c.body.statements, P s)
    (fun o => ∀ b ∈ o, ∀ s ∈ b.statements, P s) (fun ss => ∀ s ∈ ss, P s) block conditional
    whileLoop forLoop switch jump action declaration (fun _ _ _ h => h) (fun _ _ _ _ h => h)
    ?_ ?_ ?_ ?_ ?_ ?_ ?_ ?_ s
  · intro x hx
    cases hx
  · intro s hs x hx
    rw [← Option.mem_some_iff.1 hx]
    exact hs
  · intro x hx
    cases hx
  · exact fun _ _ h hs => List.forall_mem_cons.2 ⟨h, hs⟩
  · intro x hx
    cases hx
  · intro b hb x hx
    rw [← Option.mem_some_iff.1 hx]
    exact hb
  · intro x hx
    cases hx
  · exact fun _ _ h hs => List.forall_mem_cons.2 ⟨h, hs⟩

end Javelet
