import Javelet.Grammar.Statement
import Javelet.Proofs.Positions.Expressions

/-!
# Statements and positions

From the same words at new positions the readers of statements give the same statements, with the
same numbers, with these positions.
-/
namespace Javelet.Grammar

variable {f : Position → Position} {finish : Position} {ts : List Token}

/-! ## Simple statements -/

theorem variableDeclaration_moves : Moves f (Variable.marked (.moved f))
    (variableDeclaration finish ts) (variableDeclaration (f finish) (movedTokens f ts)) := by
  unfold variableDeclaration
  rw [here_moved]
  refine .bind type_moves fun ty rest _ _ => ?_
  refine .bind (expectName_moves _).within fun name more _ _ => ?_
  dsimp only
  rcases acceptSymbol_moved f more .assign with ⟨e, e'⟩ | ⟨_, last, _, _, e, e'⟩
  · rw [e, e']
    exact .ok rfl rfl
  · rw [e, e']
    exact .bind expression_moves.within fun value _ _ _ => .ok rfl rfl

theorem acceptAssignOp_moved (f : Position → Position) (ts : List Token) :
    (acceptAssignOp ts = none ∧ acceptAssignOp (movedTokens f ts) = none) ∨
      ∃ op rest hlt hlt', acceptAssignOp ts = some ⟨op, rest, hlt⟩ ∧
        acceptAssignOp (movedTokens f ts) = some ⟨op, movedTokens f rest, hlt'⟩ := by
  cases ts with
  | nil => exact .inl ⟨rfl, rfl⟩
  | cons t rest =>
    obtain ⟨kind, text, p⟩ := t
    cases kind with
    | symbol s =>
      cases hop : assignOp? s with
      | none =>
        refine .inl ⟨?_, ?_⟩
        · exact congrArg (Option.map _) hop
        · exact congrArg (Option.map _) hop
      | some op =>
        refine .inr ⟨op, rest, shorter_cons _ _, shorter_cons _ _, ?_, ?_⟩
        · exact congrArg (Option.map _) hop
        · exact congrArg (Option.map _) hop
    | _ => exact .inl ⟨rfl, rfl⟩

theorem assignmentRest_moves {target : Chain} : Moves f (Assignment.marked (.moved f))
    (assignmentRest finish target ts)
    (assignmentRest (f finish) (target.marked (.moved f)) (movedTokens f ts)) := by
  unfold assignmentRest
  rcases acceptAssignOp_moved f ts with ⟨e, e'⟩ | ⟨op, rest, _, _, e, e'⟩
  · rw [e, e']
    exact .refuse
  · rw [e, e', Chain.isAssignable_marked, here_moved]
    exact .ite (.bind expression_moves.within fun value _ _ _ => .ok rfl rfl) .fault

theorem assignment_moves : Moves f (Assignment.marked (.moved f)) (assignment finish ts)
    (assignment (f finish) (movedTokens f ts)) := by
  unfold assignment
  exact .bind (chain_moves finish ts) fun _ _ _ _ => assignmentRest_moves.within

theorem action_moves : Moves f (Action.marked (.moved f)) (action finish ts)
    (action (f finish) (movedTokens f ts)) := by
  unfold action
  refine .bind (chain_moves finish ts) fun target rest _ _ => ?_
  have hop : (acceptAssignOp (movedTokens f rest)).isSome = (acceptAssignOp rest).isSome := by
    rcases acceptAssignOp_moved f rest with ⟨e, e'⟩ | ⟨_, _, _, _, e, e'⟩ <;>
      rw [e, e'] <;> rfl
  dsimp only
  rw [hop, Chain.isCall_marked]
  refine .ite ?_ (.ite (.ok rfl rfl) .refuse)
  exact .bind assignmentRest_moves.within fun a _ _ _ => .ok rfl rfl

theorem closeJump_moves {p : Position} {j : Jump} : Moves f (Statement.marked (.moved f))
    (closeJump finish p j ts)
    (closeJump (f finish) (f p) (j.marked (.moved f)) (movedTokens f ts)) := by
  unfold closeJump
  refine .bind (expectSymbol_moves _ _) fun _ _ _ _ => .ok ?_ rfl
  rw [Statement.marked]
  rfl

theorem jump_moves (around : Surroundings) : Moves f (Statement.marked (.moved f))
    (jump finish around ts) (jump (f finish) around (movedTokens f ts)) := by
  unfold jump
  dsimp only
  rw [here_moved]
  rcases acceptKeyword_moved f ts "return" with ⟨e, e'⟩ | ⟨_, rest, _, _, e, e'⟩
  · rw [e, e']
    rcases acceptKeyword_moved f ts "break" with ⟨e, e'⟩ | ⟨_, rest, _, _, e, e'⟩
    · rw [e, e']
      rcases acceptKeyword_moved f ts "continue" with ⟨e, e'⟩ | ⟨_, rest, _, _, e, e'⟩
      · rw [e, e']
        exact .refuse
      · rw [e, e']
        exact .ite (closeJump_moves (j := .continue_)).within .fault
    · rw [e, e']
      exact .ite (closeJump_moves (j := .break_)).within .fault
  · rw [e, e']
    dsimp only
    rw [atSymbol_moved]
    refine .ite (closeJump_moves (j := .return_ none)).within ?_
    refine .bind expression_moves.within fun value _ _ _ => ?_
    exact (closeJump_moves (j := .return_ (some value))).within

/-! ## Parts of statements -/

theorem condition_moves (word : String) : Moves f (Expr.marked (.moved f))
    (condition finish word ts) (condition (f finish) word (movedTokens f ts)) := by
  unfold condition
  refine .bind (expectSymbol_moves _ _) fun _ _ _ _ => ?_
  refine .bind expression_moves.within fun _ _ _ _ => ?_
  exact .bind (expectSymbol_moves _ _).within fun _ _ _ _ => .ok rfl rfl

theorem closeInit_moves (init : Option ForInit) : Moves f (Option.map (ForInit.marked (.moved f)))
    (closeInit finish init ts)
    (closeInit (f finish) (init.map (ForInit.marked (.moved f))) (movedTokens f ts)) := by
  unfold closeInit
  exact .bind (expectSymbol_moves _ _) fun _ _ _ _ => .ok rfl rfl

theorem forInit_moves : Moves f (Option.map (ForInit.marked (.moved f))) (forInit finish ts)
    (forInit (f finish) (movedTokens f ts)) := by
  unfold forInit
  rw [atSymbol_moved, atDeclaration_moved]
  refine .ite (closeInit_moves none) (.ite ?_ ?_)
  · refine .bind variableDeclaration_moves fun v _ _ _ => ?_
    exact (closeInit_moves (some (.declaration v))).within
  · refine .bind assignment_moves fun a _ _ _ => ?_
    exact (closeInit_moves (some (.assignment a))).within

theorem forCondition_moves : Moves f (Option.map (Expr.marked (.moved f))) (forCondition finish ts)
    (forCondition (f finish) (movedTokens f ts)) := by
  unfold forCondition
  dsimp only
  rw [atSymbol_moved]
  refine .ite ?_ ?_
  · exact .bind (expectSymbol_moves _ _) fun _ _ _ _ => .ok rfl rfl
  · refine .bind expression_moves fun value _ _ _ => ?_
    exact .bind (expectSymbol_moves _ _).within fun _ _ _ _ => .ok rfl rfl

theorem forUpdate_moves : Moves f (Option.map (Action.marked (.moved f))) (forUpdate finish ts)
    (forUpdate (f finish) (movedTokens f ts)) := by
  unfold forUpdate
  dsimp only
  rw [atSymbol_moved]
  refine .ite ?_ ?_
  · exact .bind (expectSymbol_moves _ _) fun _ _ _ _ => .ok rfl rfl
  · refine .bind action_moves fun a _ _ _ => ?_
    exact .bind (expectSymbol_moves _ _).within fun _ _ _ _ => .ok rfl rfl

theorem caseLabel_moves : Moves f (Prod.map f id) (caseLabel finish ts)
    (caseLabel (f finish) (movedTokens f ts)) := by
  have hfirst := any_head?_moved f ts
    (fun t => t.kind == .integer || t.kind == .character || t.kind == .boolean) fun _ => rfl
  unfold caseLabel
  dsimp only
  rw [hfirst, atNegativeInteger_moved, here_moved]
  refine .ite ?_ .refuse
  refine .bind (primary_moves finish ts) fun value _ _ _ => ?_
  cases value with
  | literal p label =>
    rw [Expr.marked]
    exact .ok rfl rfl
  | _ =>
    rw [Expr.marked]
    exact .refuse

variable (f) in
@[simp] theorem atCaseEnd_moved (ts : List Token) : atCaseEnd (movedTokens f ts) = atCaseEnd ts := by
  rw [atCaseEnd, atCaseEnd, atKeyword_moved, atKeyword_moved, atSymbol_moved]

/-! ## Statements -/

/-- The arms of a switch with other marks. -/
def Arms.marked (m : Marks) (a : Arms) : Arms :=
  ⟨a.cases.map (Case.marked m), a.default_.map (Block.marked m)⟩

mutual

theorem statement_moves (finish : Position) (around : Surroundings) (id : NodeId)
    (ts : List Token) : Moves f (numbered (Statement.marked (.moved f)))
      (statement finish around id ts)
      (statement (f finish) around id (movedTokens f ts)) := by
  match ts with
  | [] =>
    rw [movedTokens, List.map_nil, statement, statement]
    exact .refuse
  | t :: rest =>
    have hkeyword : ∀ word, (t.moved f).isKeyword word = t.isKeyword word := fun _ => rfl
    have hdeclaration := atDeclaration_moved f (t :: rest)
    rw [movedTokens, List.map_cons] at hdeclaration ⊢
    rw [statement, statement]
    simp only [List.head?_cons, hkeyword, hdeclaration]
    refine .ite ?_ (.ite ?_ (.ite ?_ (.ite ?_ (.ite ?_ (.ite ?_ (.ite ?_ (.ite ?_ .refuse)))))))
    · refine .bind_numbered (block_moves finish around id (t :: rest)) fun body next _ _ _ => ?_
      refine .ok_numbered ?_
      rw [Statement.marked]
    · exact conditional_moves finish around id (t :: rest)
    · exact whileLoop_moves finish id (t :: rest)
    · exact forLoop_moves finish id (t :: rest)
    · exact switch_moves finish around id (t :: rest)
    · exact .bind (jump_moves around) fun _ _ _ _ => .ok_numbered rfl
    · refine .bind variableDeclaration_moves fun v _ _ _ => ?_
      refine .bind (expectSymbol_moves _ _).within fun _ _ _ _ => .ok_numbered ?_
      rw [Statement.marked]
    · refine .bind action_moves fun a _ _ _ => ?_
      refine .bind (expectSymbol_moves _ _).within fun _ _ _ _ => .ok_numbered ?_
      rw [Statement.marked]
termination_by 4 * ts.length + 1
decreasing_by all_goals simp only [List.length_cons]; omega

theorem block_moves (finish : Position) (around : Surroundings) (id : NodeId) (ts : List Token) :
    Moves f (numbered (Block.marked (.moved f))) (block finish around id ts)
      (block (f finish) around id (movedTokens f ts)) := by
  rw [block, block]
  dsimp only
  rw [here_moved]
  refine .bind (expectSymbol_moves _ _) fun _ rest hlt hlt' => ?_
  refine .bind_numbered (statements_moves finish around (atSymbol .rightBrace)
    (fun us => atSymbol_moved f us _) ts.length _ [] (id + 1) rest hlt hlt') ?_
  intro body next more _ _
  refine .bind (expectSymbol_moves _ _).within fun _ _ _ _ => .ok_numbered ?_
  rw [Block.marked, markedStatements_eq]
  rfl
termination_by 4 * ts.length
decreasing_by omega

theorem statements_moves (finish : Position) (around : Surroundings) (stop : List Token → Bool)
    (hstop : ∀ us, stop (movedTokens f us) = stop us) (bound bound' : Nat)
    (done : List Statement) (id : NodeId) (ts : List Token) (hlt : ts.length < bound)
    (hlt' : (movedTokens f ts).length < bound') :
    Moves f (numbered (List.map (Statement.marked (.moved f))))
      (statements finish around stop bound done id ts hlt)
      (statements (f finish) around stop bound' (done.map (Statement.marked (.moved f))) id
        (movedTokens f ts) hlt') := by
  rw [statements, statements, hstop, isEmpty_moved]
  refine .ite (.ok_numbered ?_) (.ite .refuse ?_)
  · rw [List.map_reverse]
  · refine .bind_numbered (statement_moves finish around id ts) fun s next rest _ _ => ?_
    exact statements_moves finish around stop hstop bound bound' (s :: done) next rest _ _
termination_by 4 * ts.length + 2
decreasing_by all_goals omega

theorem conditional_moves (finish : Position) (around : Surroundings) (id : NodeId)
    (ts : List Token) : Moves f (numbered (Statement.marked (.moved f)))
      (conditional finish around id ts)
      (conditional (f finish) around id (movedTokens f ts)) := by
  rw [conditional, conditional]
  dsimp only
  rw [here_moved]
  refine .bind (expectKeyword_moves _ _) fun _ rest hlt _ => ?_
  refine .bind (condition_moves _).within fun test rest hlt _ => ?_
  refine .bind_numbered (statement_moves finish around id rest).within fun body next rest hlt _ => ?_
  dsimp only
  rcases acceptKeyword_moved f rest "else" with ⟨e, e'⟩ | ⟨_, more, _, _, e, e'⟩
  · rw [e, e']
    refine .ok_numbered ?_
    rw [Statement.marked, markedOtherwise]
    rfl
  · rw [e, e']
    refine .bind_numbered (statement_moves finish around next more).within ?_
    intro otherwise last _ _ _
    refine .ok_numbered ?_
    rw [Statement.marked, markedOtherwise]
    rfl
termination_by 4 * ts.length
decreasing_by all_goals omega

theorem whileLoop_moves (finish : Position) (id : NodeId) (ts : List Token) :
    Moves f (numbered (Statement.marked (.moved f))) (whileLoop finish id ts)
      (whileLoop (f finish) id (movedTokens f ts)) := by
  rw [whileLoop, whileLoop]
  dsimp only
  rw [here_moved]
  refine .bind (expectKeyword_moves _ _) fun _ rest hlt _ => ?_
  refine .bind (condition_moves _).within fun test rest hlt _ => ?_
  refine .bind_numbered (statement_moves finish .inLoop id rest).within fun body next _ _ _ => ?_
  refine .ok_numbered ?_
  rw [Statement.marked]
  rfl
termination_by 4 * ts.length
decreasing_by omega

theorem forLoop_moves (finish : Position) (id : NodeId) (ts : List Token) :
    Moves f (numbered (Statement.marked (.moved f))) (forLoop finish id ts)
      (forLoop (f finish) id (movedTokens f ts)) := by
  rw [forLoop, forLoop]
  dsimp only
  rw [here_moved]
  refine .bind (expectKeyword_moves _ _) fun _ rest hlt _ => ?_
  refine .bind (expectSymbol_moves _ _).within fun _ rest hlt _ => ?_
  refine .bind forInit_moves.within fun init rest hlt _ => ?_
  refine .bind forCondition_moves.within fun test rest hlt _ => ?_
  refine .bind forUpdate_moves.within fun update rest hlt _ => ?_
  refine .bind_numbered (statement_moves finish .inLoop (id + 1) rest).within ?_
  intro body next _ _ _
  refine .ok_numbered ?_
  rw [Statement.marked]
  rfl
termination_by 4 * ts.length
decreasing_by omega

theorem switch_moves (finish : Position) (around : Surroundings) (id : NodeId) (ts : List Token) :
    Moves f (numbered (Statement.marked (.moved f))) (switch finish around id ts)
      (switch (f finish) around id (movedTokens f ts)) := by
  rw [switch, switch]
  dsimp only
  rw [here_moved]
  refine .bind (expectKeyword_moves _ _) fun _ rest hlt _ => ?_
  refine .bind (condition_moves _).within fun test rest hlt _ => ?_
  refine .bind (expectSymbol_moves _ _).within fun _ rest hlt hlt' => ?_
  refine .bind_numbered (arms_moves finish around.inSwitch ts.length _ ⟨[], none⟩ (id + 1) rest hlt
    hlt') fun found next _ _ _ => ?_
  refine .ok_numbered ?_
  rw [Statement.marked, markedCases_eq, markedDefault_eq, List.map_reverse]
  rfl
termination_by 4 * ts.length
decreasing_by omega

theorem arms_moves (finish : Position) (around : Surroundings) (bound bound' : Nat) (done : Arms)
    (id : NodeId) (ts : List Token) (hlt : ts.length < bound)
    (hlt' : (movedTokens f ts).length < bound') : Moves f (numbered (Arms.marked (.moved f)))
      (arms finish around bound done id ts hlt)
      (arms (f finish) around bound' (done.marked (.moved f)) id (movedTokens f ts) hlt') := by
  rw [arms, arms]
  dsimp only
  rw [here_moved]
  rcases acceptSymbol_moved f ts .rightBrace with ⟨e, e'⟩ | ⟨_, rest, _, _, e, e'⟩
  · rw [e, e']
    rcases acceptKeyword_moved f ts "case" with ⟨e, e'⟩ | ⟨_, rest, hrestlt, _, e, e'⟩
    · rw [e, e']
      rcases acceptKeyword_moved f ts "default" with ⟨e, e'⟩ | ⟨_, rest, hrestlt, _, e, e'⟩
      · rw [e, e']
        exact .refuse
      · rw [e, e', Arms.marked, Option.isSome_map]
        refine .ite .fault ?_
        refine .bind (expectSymbol_moves _ _).within fun _ rest hrestlt _ => ?_
        refine .bind_numbered (caseBody_moves finish around id rest).optionalWithin ?_
        intro body next more hmore hmore'
        exact arms_moves finish around bound bound' { done with default_ := some body } next more
          (shorter_bound hmore hlt) (shorter_bound hmore' hlt')
    · rw [e, e']
      refine .bind caseLabel_moves.within fun ⟨p, label⟩ rest hrestlt _ => ?_
      refine .bind (expectSymbol_moves _ _).within fun _ rest hrestlt _ => ?_
      refine .bind_numbered (caseBody_moves finish around id rest).optionalWithin ?_
      intro body next more hmore hmore'
      have harms := arms_moves finish around bound bound'
        { done with cases := .mk (here finish ts) p label body :: done.cases } next more
        (shorter_bound hmore hlt) (shorter_bound hmore' hlt')
      rwa [Arms.marked, List.map_cons, Case.marked] at harms
  · rw [e, e']
    exact .ok_numbered rfl
termination_by 4 * ts.length
decreasing_by all_goals omega

theorem caseBody_moves (finish : Position) (around : Surroundings) (id : NodeId)
    (ts : List Token) : Moves f (numbered (Block.marked (.moved f)))
      (caseBody finish around id ts)
      (caseBody (f finish) around id (movedTokens f ts)) := by
  rw [caseBody, caseBody, here_moved]
  refine .bind_numbered (statements_moves finish around atCaseEnd (atCaseEnd_moved f)
    (ts.length + 1) _ [] (id + 1) ts _ _) fun body next _ _ _ => ?_
  refine .ok_numbered ?_
  rw [Block.marked, markedStatements_eq]
  rfl
termination_by 4 * ts.length + 3
decreasing_by omega

end

end Javelet.Grammar
