import Javelet.Grammar.Expr
import Javelet.Proofs.Positions.Outcomes

/-!
# Expressions and positions

From the same words at new positions the readers of expressions give the same expressions with these
positions.
-/
namespace Javelet.Grammar

variable (f : Position → Position)

/-! ## Literals and operators -/

theorem acceptOperator_moved (level : Level) (ts : List Token) :
    (acceptOperator level ts = none ∧ acceptOperator level (movedTokens f ts) = none) ∨
      ∃ op rest hlt hlt', acceptOperator level ts = some ⟨op, rest, hlt⟩ ∧
        acceptOperator level (movedTokens f ts) = some ⟨op, movedTokens f rest, hlt'⟩ := by
  cases ts with
  | nil => exact .inl ⟨rfl, rfl⟩
  | cons t rest =>
    obtain ⟨kind, text, p⟩ := t
    cases kind with
    | symbol s =>
      cases hop : level.operator? s with
      | none =>
        refine .inl ⟨?_, ?_⟩
        · exact congrArg (Option.map _) hop
        · exact congrArg (Option.map _) hop
      | some op =>
        refine .inr ⟨op, rest, shorter_cons _ _, shorter_cons _ _, ?_, ?_⟩
        · exact congrArg (Option.map _) hop
        · exact congrArg (Option.map _) hop
    | _ => exact .inl ⟨rfl, rfl⟩

variable {f}

theorem integerLiteral_moves {ts : List Token} {finish : Position} (p : Option Position)
    (negative : Bool) : Moves f (Expr.marked (.moved f)) (integerLiteral finish p negative ts)
      (integerLiteral (f finish) (p.map f) negative (movedTokens f ts)) := by
  unfold integerLiteral
  rcases accept_moved f ts (fun t => t.kind == .integer) fun _ => rfl with
    ⟨e, e'⟩ | ⟨t, rest, _, _, e, e'⟩
  · rw [e, e']
    exact .refuse
  · rw [e, e']
    simp only [Token.moved]
    cases integerValue t.text negative with
    | ok value =>
      refine .ok ?_ rfl
      cases p <;> rfl
    | error reason => exact .fault

variable (f) in
@[simp] theorem atNegativeInteger_moved (ts : List Token) :
    atNegativeInteger (movedTokens f ts) = atNegativeInteger ts := by
  rw [atNegativeInteger, atNegativeInteger, atSymbol_moved, tail_moved,
    any_head?_moved f ts.tail _ fun _ => rfl]

/-! ## Expressions -/

theorem marked_binary {m : Marks} {op : BinaryOp} {left right : Expr} :
    Expr.binary op (left.marked m) (right.marked m) = (Expr.binary op left right).marked m := by
  rw [Expr.marked]

/-- The links of a chain are read from left to right, the latest first. -/
theorem marked_links {m : Marks} {head : Head} {done : List Link} :
    Chain.mk (head.marked m) (done.map (Link.marked m)).reverse =
      (Chain.mk head done.reverse).marked m := by
  rw [Chain.marked, markedLinks_eq, List.map_reverse]

mutual

theorem binary_moves (finish : Position) (level : Level) (ts : List Token) :
    Moves f (Expr.marked (.moved f)) (binary finish level ts)
      (binary (f finish) level (movedTokens f ts)) := by
  rw [binary, binary]
  refine .bind (operand_moves finish level ts) fun left rest hlt hlt' => ?_
  exact operators_moves finish level ts.length _ left rest hlt hlt'
termination_by 12 * ts.length + 2 * level.rank + 1
decreasing_by
  · omega
  · have := level.rank_pos
    omega

theorem operand_moves (finish : Position) (level : Level) (ts : List Token) :
    Moves f (Expr.marked (.moved f)) (operand finish level ts)
      (operand (f finish) level (movedTokens f ts)) := by
  rw [operand, operand]
  split
  · exact binary_moves finish _ ts
  · exact primary_moves finish ts
termination_by 12 * ts.length + 2 * level.rank
decreasing_by
  · have := Level.rank_tighter ‹_›
    omega
  · have := level.rank_pos
    omega

theorem operators_moves (finish : Position) (level : Level) (bound bound' : Nat) (left : Expr)
    (ts : List Token) (hlt : ts.length < bound) (hlt' : (movedTokens f ts).length < bound') :
    Moves f (Expr.marked (.moved f)) (operators finish level bound left ts hlt)
      (operators (f finish) level bound' (left.marked (.moved f)) (movedTokens f ts) hlt') := by
  rw [operators, operators]
  rcases acceptOperator_moved f level ts with ⟨e, e'⟩ | ⟨op, rest, hrest, hrest', e, e'⟩
  · rw [e, e']
    exact .ok rfl rfl
  · rw [e, e']
    refine .bind (operand_moves finish level rest).within fun right more hmore hmore' => ?_
    simp only [marked_binary]
    exact .ite (operators_moves finish level bound bound' _ more _ _) (.ok rfl rfl)
termination_by 12 * ts.length
decreasing_by
  · have : level.rank ≤ 5 := by cases level <;> decide
    omega
  · omega

theorem primary_moves (finish : Position) (ts : List Token) :
    Moves f (Expr.marked (.moved f)) (primary finish ts)
      (primary (f finish) (movedTokens f ts)) := by
  match ts with
  | [] =>
    rw [movedTokens, List.map_nil, primary, primary]
    exact .refuse
  | t :: rest =>
    have hnegative := atNegativeInteger_moved f (t :: rest)
    have hliteral : literalOf? (t.moved f) = literalOf? t := rfl
    have hkeyword : ∀ word, (t.moved f).isKeyword word = t.isKeyword word := fun _ => rfl
    rw [movedTokens, List.map_cons] at hnegative ⊢
    rw [primary, primary, hnegative, hliteral, hkeyword, hkeyword]
    cases literalOf? t with
    | some value =>
      refine .ok ?_ rfl
      rw [Expr.marked]
      rfl
    | none =>
      refine .ite (integerLiteral_moves none false) (.ite ?_ (.ite .fault (.ite ?_ (.ite ?_ ?_))))
      · exact (integerLiteral_moves (some t.position) true).within
      · refine .bind (binary_moves finish .disjunction rest).within fun value more _ _ => ?_
        exact .bind (expectSymbol_moves _ _).within fun _ _ _ _ => .ok rfl rfl
      · exact creation_moves finish (t :: rest)
      · refine .ite ?_ .refuse
        refine .bind (chain_moves finish (t :: rest)) fun c more _ _ => .ok ?_ rfl
        rw [Expr.marked]
termination_by 12 * ts.length + 1
decreasing_by
  all_goals
    simp only [Level.rank, List.length_cons]
    omega

theorem creation_moves (finish : Position) (ts : List Token) :
    Moves f (Expr.marked (.moved f)) (creation finish ts)
      (creation (f finish) (movedTokens f ts)) := by
  rw [creation, creation]
  refine .bind (expectKeyword_moves _ _) fun _ rest hlt _ => ?_
  refine .bind (typeName_moves _).within fun name more hlt _ => ?_
  dsimp only
  simp only [atSymbol_moved, tail_moved, here_moved]
  refine .ite .fault ?_
  rcases acceptSymbol_moved f more .leftBracket with ⟨e, e'⟩ | ⟨_, inner, _, _, e, e'⟩
  · rw [e, e']
    refine .ite ?_ .refuse
    refine .bind (arguments_moves finish more).within fun args last _ _ => ?_
    refine .ok ?_ rfl
    rw [Expr.marked, markedExprs_eq]
    rfl
  · rw [e, e']
    refine .bind (binary_moves finish .disjunction inner).within fun length last _ _ => ?_
    refine .bind (expectSymbol_moves _ _).within fun _ _ _ _ => ?_
    refine .ok ?_ rfl
    rw [Expr.marked]
    rfl
termination_by 12 * ts.length
decreasing_by
  all_goals
    have rank : Level.disjunction.rank = 5 := rfl
    omega

theorem chain_moves (finish : Position) (ts : List Token) :
    Moves f (Chain.marked (.moved f)) (chain finish ts)
      (chain (f finish) (movedTokens f ts)) := by
  rw [chain, chain]
  dsimp only
  rw [here_moved]
  rcases acceptKeyword_moved f ts "this" with ⟨e, e'⟩ | ⟨_, rest, _, _, e, e'⟩
  · rw [e, e']
    refine .bind (expectName_moves _) fun name rest hlt hlt' => ?_
    dsimp only
    rw [atSymbol_moved]
    refine .ite ?_ ?_
    · refine .bind (arguments_moves finish rest).within fun args more hlt hlt' => ?_
      have hlinks := links_moves finish ts.length (movedTokens f ts).length
        (.call (here finish ts) name args) [] more hlt hlt'
      rwa [Head.marked, markedExprs_eq] at hlinks
    · have hlinks := links_moves finish ts.length (movedTokens f ts).length
        (.name (here finish ts) name) [] rest hlt hlt'
      rwa [Head.marked] at hlinks
  · rw [e, e']
    have hlinks := links_moves finish ts.length (movedTokens f ts).length
        (.this (here finish ts)) [] rest ‹_› ‹_›
    rwa [Head.marked] at hlinks
termination_by 12 * ts.length
decreasing_by all_goals omega

theorem links_moves (finish : Position) (bound bound' : Nat) (head : Head) (done : List Link)
    (ts : List Token) (hlt : ts.length < bound) (hlt' : (movedTokens f ts).length < bound') :
    Moves f (Chain.marked (.moved f)) (links finish bound head done ts hlt)
      (links (f finish) bound' (head.marked (.moved f)) (done.map (Link.marked (.moved f)))
        (movedTokens f ts) hlt') := by
  rw [links, links]
  dsimp only
  rw [here_moved]
  rcases acceptSymbol_moved f ts .dot with ⟨e, e'⟩ | ⟨_, rest, _, _, e, e'⟩
  · rw [e, e']
    rcases acceptSymbol_moved f ts .leftBracket with ⟨e, e'⟩ | ⟨_, rest, _, _, e, e'⟩
    · rw [e, e']
      exact .ok marked_links rfl
    · rw [e, e']
      refine .bind (binary_moves finish .disjunction rest).within fun index more _ _ => ?_
      refine .bind (expectSymbol_moves _ _).within fun _ last _ _ => ?_
      have hlinks := links_moves finish bound bound' head (.index (here finish ts) index :: done)
        last (shorter_bound ‹_› hlt) (shorter_bound ‹_› hlt')
      rwa [List.map_cons, Link.marked] at hlinks
  · rw [e, e']
    refine .bind (expectName_moves _).within fun name more _ _ => ?_
    dsimp only
    rw [atSymbol_moved]
    refine .ite ?_ ?_
    · refine .bind (arguments_moves finish more).within fun args last _ _ => ?_
      have hlinks := links_moves finish bound bound' head
        (.call (here finish ts) name args :: done) last (shorter_bound ‹_› hlt)
        (shorter_bound ‹_› hlt')
      rwa [List.map_cons, Link.marked, markedExprs_eq] at hlinks
    · have hlinks := links_moves finish bound bound' head (.field (here finish ts) name :: done)
        more (shorter_bound ‹_› hlt) (shorter_bound ‹_› hlt')
      rwa [List.map_cons, Link.marked] at hlinks
termination_by 12 * ts.length
decreasing_by
  all_goals
    have rank : Level.disjunction.rank = 5 := rfl
    omega

theorem arguments_moves (finish : Position) (ts : List Token) :
    Moves f (List.map (Expr.marked (.moved f))) (arguments finish ts)
      (arguments (f finish) (movedTokens f ts)) := by
  rw [arguments, arguments]
  refine .bind (expectSymbol_moves _ _) fun _ rest hlt hlt' => ?_
  dsimp only
  rcases acceptSymbol_moved f rest .rightParen with ⟨e, e'⟩ | ⟨_, more, _, _, e, e'⟩
  · rw [e, e']
    exact moreArguments_moves finish _ _ [] rest hlt hlt'
  · rw [e, e']
    exact .ok rfl rfl
termination_by 12 * ts.length + 1
decreasing_by omega

theorem moreArguments_moves (finish : Position) (bound bound' : Nat) (done : List Expr)
    (ts : List Token) (hlt : ts.length < bound) (hlt' : (movedTokens f ts).length < bound') :
    Moves f (List.map (Expr.marked (.moved f))) (moreArguments finish bound done ts hlt)
      (moreArguments (f finish) bound' (done.map (Expr.marked (.moved f))) (movedTokens f ts)
        hlt') := by
  rw [moreArguments, moreArguments]
  refine .bind (binary_moves finish .disjunction ts) fun arg rest hrest hrest' => ?_
  dsimp only
  rcases acceptSymbol_moved f rest .comma with ⟨e, e'⟩ | ⟨_, more, hmore, hmore', e, e'⟩
  · rw [e, e']
    refine .bind (expectSymbol_moves _ _).within fun _ _ _ _ => ?_
    refine .ok ?_ rfl
    rw [← List.map_cons, List.map_reverse]
  · rw [e, e']
    exact moreArguments_moves finish _ _ (arg :: done) more _ _
termination_by 12 * ts.length + 12
decreasing_by
  all_goals
    have rank : Level.disjunction.rank = 5 := rfl
    omega

end

theorem expression_moves {finish : Position} {ts : List Token} :
    Moves f (Expr.marked (.moved f)) (expression finish ts)
      (expression (f finish) (movedTokens f ts)) :=
  binary_moves finish .disjunction ts

end Javelet.Grammar
