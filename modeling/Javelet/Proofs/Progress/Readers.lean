import Javelet.Proofs.Progress.Runs

/-!
# Following the readers

A loop hands its bound on when it is gone through again, while `reading` takes a bound of its own at
each call. So it is told first that the bound does not matter for what a loop gives. Behind that
each reader follows its script, token by token and call by call. Where it may call another one on
the same tokens, as in front of a part that may be missing, the other one has a lower rank.
-/
namespace Javelet.Grammar

variable {finish : Position} {ts : List Token}

/-! ## Bounds -/

theorem plain_bind {α β : Type} {bound inner inner' : Nat} {o : Outcome β bound}
    {f : Parsed β bound → Outcome α inner} {g : Parsed β bound → Outcome α inner'}
    (h : ∀ value rest hrest, (f ⟨value, rest, hrest⟩).plain = (g ⟨value, rest, hrest⟩).plain) :
    Outcome.plain (o >>= f) = Outcome.plain (o >>= g) := by
  cases o with
  | error fault => rfl
  | ok p => exact h p.value p.rest p.shorter

theorem operators_bound (finish : Position) (level : Level) (bound bound' : Nat) (left : Expr)
    (ts : List Token) (h : ts.length < bound) (h' : ts.length < bound') :
    (operators finish level bound left ts h).plain =
      (operators finish level bound' left ts h').plain := by
  rw [operators, operators]
  split
  · rfl
  · refine plain_bind fun right rest hrest => ?_
    dsimp only
    split
    · exact operators_bound finish level bound bound' _ rest _ _
    · rfl
termination_by ts.length

theorem links_bound (finish : Position) (bound bound' : Nat) (head : Head) (done : List Link)
    (ts : List Token) (h : ts.length < bound) (h' : ts.length < bound') :
    (links finish bound head done ts h).plain = (links finish bound' head done ts h').plain := by
  rw [links, links]
  dsimp only
  split
  · refine plain_bind fun name rest hrest => ?_
    dsimp only
    split
    · refine plain_bind fun args rest hrest => ?_
      exact links_bound finish bound bound' head _ rest _ _
    · exact links_bound finish bound bound' head _ rest _ _
  · split
    · refine plain_bind fun index rest hrest => plain_bind fun _ rest hrest => ?_
      exact links_bound finish bound bound' head _ rest _ _
    · rfl
termination_by ts.length

theorem moreArguments_bound (finish : Position) (bound bound' : Nat) (done : List Expr)
    (ts : List Token) (h : ts.length < bound) (h' : ts.length < bound') :
    (moreArguments finish bound done ts h).plain =
      (moreArguments finish bound' done ts h').plain := by
  rw [moreArguments, moreArguments]
  refine plain_bind fun arg rest hrest => ?_
  dsimp only
  split
  · exact moreArguments_bound finish bound bound' _ _ _ _
  · exact plain_bind fun _ _ _ => rfl
termination_by ts.length

theorem statements_bound (finish : Position) (around : Surroundings) (stop : List Token → Bool)
    (bound bound' : Nat) (done : List Statement) (id : NodeId) (ts : List Token)
    (h : ts.length < bound) (h' : ts.length < bound') :
    (statements finish around stop bound done id ts h).plain =
      (statements finish around stop bound' done id ts h').plain := by
  rw [statements, statements]
  split
  · rfl
  · split
    · rfl
    · refine plain_bind ?_
      rintro ⟨statement, next⟩ rest hrest
      exact statements_bound finish around stop bound bound' _ _ rest _ _
termination_by ts.length

theorem arms_bound (finish : Position) (around : Surroundings) (bound bound' : Nat) (done : Arms)
    (id : NodeId) (ts : List Token) (h : ts.length < bound) (h' : ts.length < bound') :
    (arms finish around bound done id ts h).plain =
      (arms finish around bound' done id ts h').plain := by
  rw [arms, arms]
  dsimp only
  split
  · rfl
  · split
    · refine plain_bind ?_
      rintro ⟨p, label⟩ rest hrest
      refine plain_bind fun _ rest hrest => ?_
      refine plain_bind ?_
      rintro ⟨body, next⟩ rest hrest
      exact arms_bound finish around bound bound' _ _ rest _ _
    · split
      · split
        · rfl
        · refine plain_bind fun _ rest hrest => ?_
          refine plain_bind ?_
          rintro ⟨body, next⟩ rest hrest
          exact arms_bound finish around bound bound' _ _ rest _ _
      · rfl
termination_by ts.length

theorem moreParameters_bound (finish : Position) (bound bound' : Nat) (done : List Parameter)
    (ts : List Token) (h : ts.length < bound) (h' : ts.length < bound') :
    (moreParameters finish bound done ts h).plain =
      (moreParameters finish bound' done ts h').plain := by
  rw [moreParameters, moreParameters]
  refine plain_bind fun type rest hrest => plain_bind fun name rest hrest => ?_
  dsimp only
  split
  · exact moreParameters_bound finish bound bound' _ _ _ _
  · exact plain_bind fun _ _ _ => rfl
termination_by ts.length

theorem members_bound (finish : Position) (className : String) (bound bound' : Nat)
    (done : Members) (id : NodeId) (ts : List Token) (h : ts.length < bound)
    (h' : ts.length < bound') :
    (members finish className bound done id ts h).plain =
      (members finish className bound' done id ts h').plain := by
  rw [members, members]
  split
  · rfl
  · split
    · rfl
    · refine plain_bind ?_
      rintro ⟨done, next⟩ rest hrest
      exact members_bound finish className bound bound' _ _ rest _ _
termination_by ts.length

theorem interfaceMethods_bound (finish : Position) (bound bound' : Nat) (done : List Signature)
    (id : NodeId) (ts : List Token) (h : ts.length < bound) (h' : ts.length < bound') :
    (interfaceMethods finish bound done id ts h).plain =
      (interfaceMethods finish bound' done id ts h').plain := by
  rw [interfaceMethods, interfaceMethods]
  split
  · rfl
  · refine plain_bind fun type rest hrest => plain_bind fun name rest hrest => ?_
    refine plain_bind fun params rest hrest => plain_bind fun _ rest hrest => ?_
    exact interfaceMethods_bound finish bound bound' _ _ rest _ _
termination_by ts.length

/-! ## Types and expressions -/

theorem typeName_follows (what : String) (ts : List Token) :
    Follows finish (weight .typeName ts) (Script.typeName finish what) ts
      (typeName finish what ts).plain := by
  rw [typeName_eq]
  exact Follows.expect.bind fun t rest h => .give

theorem type_follows (ts : List Token) :
    Follows finish (weight .type ts) (Script.type finish) ts (type finish ts).plain := by
  refine .bind (.ask_same (by decide)) fun name rest h => ?_
  refine .acceptSymbol_bind (fun t rest' h' e => ?_) fun e => ?_
  · simp only [e]
    exact .bind (.within .expectSymbol) fun _ _ _ => .give
  · simp only [e]
    exact .give

theorem returnType_follows (ts : List Token) :
    Follows finish (weight .returnType ts) Script.returnType ts (returnType finish ts).plain := by
  unfold returnType
  refine .acceptKeyword_bind (fun t rest h e => ?_) fun e => ?_
  · simp only [e]
    exact .give
  · simp only [e]
    exact .ask_same (by decide)

theorem accessModifier_follows (ts : List Token) :
    Follows finish (weight .accessModifier ts) Script.accessModifier ts
      (.ok ((accessModifier ts).value, (accessModifier ts).rest)) := by
  unfold accessModifier
  refine .accept_bind (fun t rest h e => ?_) fun e => ?_
  · simp only [e]
    exact .give
  · simp only [e]
    exact .give

theorem integerLiteral_follows (p : Option Position) (negative : Bool) (ts : List Token) :
    Follows finish (weight .integerLiteral ts) (Script.integerLiteral finish p negative) ts
      (integerLiteral finish p negative ts).plain := by
  rw [integerLiteral_eq]
  refine Follows.expect.bind fun t rest h => ?_
  cases hvalue : integerValue t.text negative with
  | ok value =>
    simp only [hvalue]
    exact .give
  | error fault =>
    simp only [hvalue]
    exact .fail

theorem binary_follows (level : Level) (ts : List Token) :
    Follows finish (weight (.binary level) ts) (Script.binary level) ts
      (binary finish level ts).plain := by
  rw [binary]
  refine .bind (.ask_same (Nat.lt_succ_self _)) fun left rest h => ?_
  exact .loop_behind h (operators_bound ..)

theorem operand_follows (level : Level) (ts : List Token) :
    Follows finish (weight (.operand level) ts) (Script.operand level) ts
      (operand finish level ts).plain := by
  rw [operand]
  split
  · -- The tighter level has a lower rank, so it may be read on the same tokens.
    rename_i tighter h
    have hlt : (Reader.binary tighter).rank < (Reader.operand level).rank := by
      have := Level.rank_tighter h
      rw [Reader.rank_binary, Reader.rank_operand]
      omega
    simp only [Script.operand, h]
    exact .ask_same hlt
  · rename_i h
    have hlt : Reader.primary.rank < (Reader.operand level).rank := by
      have := level.rank_pos
      rw [Reader.rank_operand]
      show 1 < _
      omega
    simp only [Script.operand, h]
    exact .ask_same hlt

theorem operators_follows (level : Level) (left : Expr) (ts : List Token) :
    Follows finish (weight (.operators level) ts) (Script.operators level left) ts
      (operators finish level (ts.length + 1) left ts (shorter_succ ts)).plain := by
  rw [operators]
  refine .acceptOperator_bind (fun op rest h e => ?_) fun e => ?_
  · simp only [e]
    refine .bind (.within (.ask_behind h)) fun right rest' h' => ?_
    refine .ite (fun _ => ?_) fun _ => .give
    exact .loop_behind h' (operators_bound ..)
  · simp only [e]
    exact .give

theorem primary_follows (ts : List Token) :
    Follows finish (weight .primary ts) (Script.primary finish) ts (primary finish ts).plain := by
  refine .ahead_bind ?_
  cases ts with
  | nil =>
    rw [primary]
    exact .refuse
  | cons t rest =>
    have hrest := shorter_cons t rest
    rw [primary]
    cases hliteral : literalOf? t with
    | some value =>
      simp only [hliteral]
      exact .skip_bind .give
    | none =>
      simp only [hliteral]
      refine .ite (fun _ => .ask_same (by decide)) fun _ => ?_
      refine .ite (fun _ => .skip_bind (.within (.ask_behind hrest))) fun _ => ?_
      refine .ite (fun _ => .fail) fun _ => ?_
      refine .ite (fun _ => ?_) fun _ => ?_
      · refine .skip_bind (.bind (.within (.ask_behind hrest)) fun e more h => ?_)
        exact .bind (.within .expectSymbol) fun _ _ _ => .give
      · refine .ite (fun _ => .ask_same (by decide)) fun _ => ?_
        refine .ite (fun _ => ?_) fun _ => .refuse
        exact .bind (.ask_same (by decide)) fun _ _ _ => .give

theorem creation_follows (ts : List Token) :
    Follows finish (weight .creation ts) (Script.creation finish) ts
      (creation finish ts).plain := by
  rw [creation]
  refine .place_bind (.bind .expectKeyword fun _ rest h => ?_)
  refine .bind (.within (.ask_behind h)) fun name rest h => ?_
  refine .ahead_bind (.ite (fun _ => .fail) fun _ => ?_)
  refine .acceptSymbol_bind (fun _ rest' h' e => ?_) fun e => ?_
  · simp only [e]
    refine .bind (.within (.ask_behind (shorter_trans h' h))) fun length rest h => ?_
    exact .bind (.within .expectSymbol) fun _ _ _ => .give
  · simp only [e]
    refine .ite (fun _ => ?_) fun _ => .refuse
    exact .bind (.within (.ask_behind h)) fun _ _ _ => .give

theorem chain_follows (ts : List Token) :
    Follows finish (weight .chain ts) (Script.chain finish) ts (chain finish ts).plain := by
  rw [chain]
  refine .place_bind (.acceptKeyword_bind (fun _ rest h e => ?_) fun e => ?_)
  · simp only [e]
    exact .loop_behind h (links_bound ..)
  · simp only [e]
    refine .bind .expectName fun name rest h => .ahead_bind (.ite (fun _ => ?_) fun _ => ?_)
    · refine .bind (.within (.ask_behind h)) fun args rest h => ?_
      exact .loop_behind h (links_bound ..)
    · exact .loop_behind h (links_bound ..)

theorem links_follows (head : Head) (done : List Link) (ts : List Token) :
    Follows finish (weight .links ts) (Script.links finish head done) ts
      (links finish (ts.length + 1) head done ts (shorter_succ ts)).plain := by
  rw [links]
  refine .place_bind (.acceptSymbol_bind (fun _ rest h e => ?_) fun e => ?_)
  · simp only [e]
    refine .bind (.within .expectName) fun name rest h => ?_
    refine .ahead_bind (.ite (fun _ => ?_) fun _ => ?_)
    · refine .bind (.within (.ask_behind h)) fun args rest h => ?_
      exact .loop_behind h (links_bound ..)
    · exact .loop_behind h (links_bound ..)
  · simp only [e]
    refine .acceptSymbol_bind (fun _ rest h e => ?_) fun e => ?_
    · simp only [e]
      refine .bind (.within (.ask_behind h)) fun index rest h => ?_
      refine .bind (.within .expectSymbol) fun _ rest h => ?_
      exact .loop_behind h (links_bound ..)
    · simp only [e]
      exact .give

theorem arguments_follows (ts : List Token) :
    Follows finish (weight .arguments ts) (Script.arguments finish) ts
      (arguments finish ts).plain := by
  rw [arguments]
  refine .bind .expectSymbol fun _ rest h => ?_
  refine .acceptSymbol_bind (fun _ rest' h' e => ?_) fun e => ?_
  · simp only [e]
    exact .give
  · simp only [e]
    exact .loop_behind h (moreArguments_bound ..)

theorem moreArguments_follows (done : List Expr) (ts : List Token) :
    Follows finish (weight .moreArguments ts) (Script.moreArguments finish done) ts
      (moreArguments finish (ts.length + 1) done ts (shorter_succ ts)).plain := by
  rw [moreArguments]
  refine .bind (.ask_same (by decide)) fun arg rest h => ?_
  refine .acceptSymbol_bind (fun _ rest' h' e => ?_) fun e => ?_
  · simp only [e]
    exact .loop_behind (shorter_trans h' h) (moreArguments_bound ..)
  · simp only [e]
    exact .bind (.within .expectSymbol) fun _ _ _ => .give

theorem expression_follows (ts : List Token) :
    Follows finish (weight .expression ts) Script.expression ts (expression finish ts).plain :=
  .ask_same (by decide)

/-! ## Simple statements -/

theorem variableDeclaration_follows (ts : List Token) :
    Follows finish (weight .variableDeclaration ts) (Script.variableDeclaration finish) ts
      (variableDeclaration finish ts).plain := by
  unfold variableDeclaration
  refine .place_bind (.bind (.ask_same (by decide)) fun type rest h => ?_)
  refine .bind (.within .expectName) fun name rest h => ?_
  refine .acceptSymbol_bind (fun _ rest' h' e => ?_) fun e => ?_
  · simp only [e]
    exact .bind (.within (.ask_behind (shorter_trans h' h))) fun _ _ _ => .give
  · simp only [e]
    exact .give

theorem assignmentRest_follows (target : Chain) (ts : List Token) :
    Follows finish (weight .assignmentRest ts) (Script.assignmentRest finish target) ts
      (assignmentRest finish target ts).plain := by
  unfold assignmentRest
  refine .place_bind (.acceptAssignOp_bind (fun op rest h e => ?_) fun e => ?_)
  · simp only [e]
    refine .ite (fun _ => ?_) fun _ => .fail
    exact .bind (.within (.ask_behind h)) fun _ _ _ => .give
  · simp only [e]
    exact .refuse

theorem assignment_follows (ts : List Token) :
    Follows finish (weight .assignment ts) Script.assignment ts (assignment finish ts).plain := by
  unfold assignment
  exact .bind (.ask_same (by decide)) fun target rest h => .within (.ask_behind h)

theorem action_follows (ts : List Token) :
    Follows finish (weight .action ts) (Script.action finish) ts (action finish ts).plain := by
  unfold action
  refine .bind (.ask_same (by decide)) fun target rest h => .ahead_bind ?_
  refine .ite (fun _ => ?_) fun _ => .ite (fun _ => .give) fun _ => .refuse
  exact .bind (.within (.ask_behind h)) fun _ _ _ => .give

theorem closeJump_follows (p : Position) (jump : Jump) (ts : List Token) :
    Follows finish (weight .closeJump ts) (Script.closeJump finish p jump) ts
      (closeJump finish p jump ts).plain :=
  .bind .expectSymbol fun _ _ _ => .give

theorem jump_follows (around : Surroundings) (ts : List Token) :
    Follows finish (weight .jump ts) (Script.jump finish around) ts
      (jump finish around ts).plain := by
  unfold jump
  refine .place_bind (.acceptKeyword_bind (fun _ rest h e => ?_) fun e => ?_)
  · simp only [e]
    refine .ahead_bind (.ite (fun _ => .within (.ask_behind h)) fun _ => ?_)
    exact .bind (.within (.ask_behind h)) fun value rest h => .within (.ask_behind h)
  · simp only [e]
    refine .acceptKeyword_bind (fun _ rest h e => ?_) fun e => ?_
    · simp only [e]
      exact .ite (fun _ => .within (.ask_behind h)) fun _ => .fail
    · simp only [e]
      refine .acceptKeyword_bind (fun _ rest h e => ?_) fun e => ?_
      · simp only [e]
        exact .ite (fun _ => .within (.ask_behind h)) fun _ => .fail
      · simp only [e]
        exact .refuse

theorem condition_follows (word : String) (ts : List Token) :
    Follows finish (weight .condition ts) (Script.condition finish word) ts
      (condition finish word ts).plain := by
  unfold condition
  refine .bind .expectSymbol fun _ rest h => .bind (.within (.ask_behind h)) fun value rest h => ?_
  exact .bind (.within .expectSymbol) fun _ _ _ => .give

theorem closeInit_follows (init : Option ForInit) (ts : List Token) :
    Follows finish (weight .closeInit ts) (Script.closeInit finish init) ts
      (closeInit finish init ts).plain :=
  .bind .expectSymbol fun _ _ _ => .give

theorem forInit_follows (ts : List Token) :
    Follows finish (weight .forInit ts) Script.forInit ts (forInit finish ts).plain := by
  unfold forInit
  refine .ahead_bind (.ite (fun _ => .ask_same (by decide)) fun _ => .ite (fun _ => ?_) fun _ => ?_)
  · exact .bind (.ask_same (by decide)) fun _ rest h => .within (.ask_behind h)
  · exact .bind (.ask_same (by decide)) fun _ rest h => .within (.ask_behind h)

theorem forCondition_follows (ts : List Token) :
    Follows finish (weight .forCondition ts) (Script.forCondition finish) ts
      (forCondition finish ts).plain := by
  unfold forCondition
  refine .ahead_bind (.ite (fun _ => .bind .expectSymbol fun _ _ _ => .give) fun _ => ?_)
  refine .bind (.ask_same (by decide)) fun value rest h => ?_
  exact .bind (.within .expectSymbol) fun _ _ _ => .give

theorem forUpdate_follows (ts : List Token) :
    Follows finish (weight .forUpdate ts) (Script.forUpdate finish) ts
      (forUpdate finish ts).plain := by
  unfold forUpdate
  refine .ahead_bind (.ite (fun _ => .bind .expectSymbol fun _ _ _ => .give) fun _ => ?_)
  refine .bind (.ask_same (by decide)) fun update rest h => ?_
  exact .bind (.within .expectSymbol) fun _ _ _ => .give

theorem caseLabel_follows (ts : List Token) :
    Follows finish (weight .caseLabel ts) (Script.caseLabel finish) ts
      (caseLabel finish ts).plain := by
  unfold caseLabel
  refine .ahead_bind (.ite (fun _ => ?_) fun _ => .fail)
  refine .bind (.ask_same (by decide)) fun value rest h => ?_
  cases value with
  | literal p label => exact .give
  | _ => exact .fail

/-! ## Statements -/

theorem statement_follows (around : Surroundings) (id : NodeId) (ts : List Token) :
    Follows finish (weight .statement ts) (Script.statement finish around id) ts
      (statement finish around id ts).plain := by
  rw [statement]
  refine .ahead_bind ?_
  cases hhead : ts.head? with
  | none => exact .refuse
  | some t =>
    dsimp only
    refine .ite (fun _ => ?_) fun _ => ?_
    · exact .bind (.ask_same (by decide)) fun _ _ _ => .give
    refine .ite (fun _ => .ask_same (by decide)) fun _ => ?_
    refine .ite (fun _ => .ask_same (by decide)) fun _ => ?_
    refine .ite (fun _ => .ask_same (by decide)) fun _ => ?_
    refine .ite (fun _ => .ask_same (by decide)) fun _ => ?_
    refine .ite (fun _ => ?_) fun _ => ?_
    · exact .bind (.ask_same (by decide)) fun _ _ _ => .give
    refine .ite (fun _ => ?_) fun _ => .ite (fun _ => ?_) fun _ => .refuse
    · refine .bind (.ask_same (by decide)) fun variable_ rest h => ?_
      exact .bind (.within .expectSymbol) fun _ _ _ => .give
    · refine .bind (.ask_same (by decide)) fun action rest h => ?_
      exact .bind (.within .expectSymbol) fun _ _ _ => .give

theorem block_follows (around : Surroundings) (id : NodeId) (ts : List Token) :
    Follows finish (weight .block ts) (Script.block finish around id) ts
      (block finish around id ts).plain := by
  rw [block]
  refine .place_bind (.bind .expectSymbol fun _ rest h => ?_)
  refine .bind (.loop_behind h (statements_bound ..)) fun r rest h => ?_
  exact .bind (.within .expectSymbol) fun _ _ _ => .give

theorem statements_follows (around : Surroundings) (stop : List Token → Bool)
    (done : List Statement) (id : NodeId) (ts : List Token) :
    Follows finish (weight .statements ts) (Script.statements finish around stop done id) ts
      (statements finish around stop (ts.length + 1) done id ts (shorter_succ ts)).plain := by
  rw [statements]
  refine .ahead_bind (.ite (fun _ => .give) fun _ => .ite (fun _ => .refuse) fun _ => ?_)
  refine .bind (.ask_same (by decide)) fun r rest h => ?_
  exact .loop_behind h (statements_bound ..)

theorem conditional_follows (around : Surroundings) (id : NodeId) (ts : List Token) :
    Follows finish (weight .conditional ts) (Script.conditional finish around id) ts
      (conditional finish around id ts).plain := by
  rw [conditional]
  refine .place_bind (.bind .expectKeyword fun _ rest h => ?_)
  refine .bind (.within (.ask_behind h)) fun test rest h => ?_
  refine .bind (.within (.ask_behind h)) fun r rest h => ?_
  refine .acceptKeyword_bind (fun _ rest' h' e => ?_) fun e => ?_
  · simp only [e]
    exact .bind (.within (.ask_behind (shorter_trans h' h))) fun _ _ _ => .give
  · simp only [e]
    exact .give

theorem whileLoop_follows (id : NodeId) (ts : List Token) :
    Follows finish (weight .whileLoop ts) (Script.whileLoop finish id) ts
      (whileLoop finish id ts).plain := by
  rw [whileLoop]
  refine .place_bind (.bind .expectKeyword fun _ rest h => ?_)
  refine .bind (.within (.ask_behind h)) fun test rest h => ?_
  exact .bind (.within (.ask_behind h)) fun _ _ _ => .give

theorem forLoop_follows (id : NodeId) (ts : List Token) :
    Follows finish (weight .forLoop ts) (Script.forLoop finish id) ts
      (forLoop finish id ts).plain := by
  rw [forLoop]
  refine .place_bind (.bind .expectKeyword fun _ rest h => ?_)
  refine .bind (.within .expectSymbol) fun _ rest h => ?_
  refine .bind (.within (.ask_behind h)) fun init rest h => ?_
  refine .bind (.within (.ask_behind h)) fun test rest h => ?_
  refine .bind (.within (.ask_behind h)) fun update rest h => ?_
  exact .bind (.within (.ask_behind h)) fun _ _ _ => .give

theorem switch_follows (around : Surroundings) (id : NodeId) (ts : List Token) :
    Follows finish (weight .switch ts) (Script.switch finish around id) ts
      (switch finish around id ts).plain := by
  rw [switch]
  refine .place_bind (.bind .expectKeyword fun _ rest h => ?_)
  refine .bind (.within (.ask_behind h)) fun selector rest h => ?_
  refine .bind (.within .expectSymbol) fun _ rest h => ?_
  exact .bind (.loop_behind h (arms_bound ..)) fun _ _ _ => .give

theorem arms_follows (around : Surroundings) (done : Arms) (id : NodeId) (ts : List Token) :
    Follows finish (weight .arms ts) (Script.arms finish around done id) ts
      (arms finish around (ts.length + 1) done id ts (shorter_succ ts)).plain := by
  rw [arms]
  refine .place_bind (.acceptSymbol_bind (fun _ rest h e => ?_) fun e => ?_)
  · simp only [e]
    exact .give
  · simp only [e]
    refine .acceptKeyword_bind (fun _ rest h e => ?_) fun e => ?_
    · simp only [e]
      refine .bind (.within (.ask_behind h)) fun label rest h => ?_
      refine .bind (.within .expectSymbol) fun _ rest h => ?_
      refine .bind (.optionalWithin (.ask_behind h)) fun r rest h => ?_
      exact .loop_behind h (arms_bound ..)
    · simp only [e]
      refine .acceptKeyword_bind (fun _ rest h e => ?_) fun e => ?_
      · simp only [e]
        refine .ite (fun _ => .fail) fun _ => ?_
        refine .bind (.within .expectSymbol) fun _ rest h => ?_
        refine .bind (.optionalWithin (.ask_behind h)) fun r rest h => ?_
        exact .loop_behind h (arms_bound ..)
      · simp only [e]
        exact .refuse

theorem caseBody_follows (around : Surroundings) (id : NodeId) (ts : List Token) :
    Follows finish (weight .caseBody ts) (Script.caseBody finish around id) ts
      (caseBody finish around id ts).plain := by
  rw [caseBody]
  refine .place_bind (.bind (.ask_same (by decide)) fun r rest h => ?_)
  exact .give

/-! ## Members -/

theorem moreParameters_follows (done : List Parameter) (ts : List Token) :
    Follows finish (weight .moreParameters ts) (Script.moreParameters finish done) ts
      (moreParameters finish (ts.length + 1) done ts (shorter_succ ts)).plain := by
  rw [moreParameters]
  refine .place_bind (.bind (.ask_same (by decide)) fun type rest h => ?_)
  refine .bind (.within .expectName) fun name rest h => ?_
  refine .acceptSymbol_bind (fun _ rest' h' e => ?_) fun e => ?_
  · simp only [e]
    exact .loop_behind (shorter_trans h' h) (moreParameters_bound ..)
  · simp only [e]
    exact .bind (.within .expectSymbol) fun _ _ _ => .give

theorem parameters_follows (ts : List Token) :
    Follows finish (weight .parameters ts) (Script.parameters finish) ts
      (parameters finish ts).plain := by
  unfold parameters
  refine .bind .expectSymbol fun _ rest h => ?_
  refine .acceptSymbol_bind (fun _ rest' h' e => ?_) fun e => ?_
  · simp only [e]
    exact .give
  · simp only [e]
    exact .loop_behind h (moreParameters_bound ..)

theorem methodRest_follows (header : Signature) (ts : List Token) :
    Follows finish (weight .methodRest ts) (Script.methodRest header) ts
      (methodRest finish header ts).plain := by
  unfold methodRest
  refine .bind (.ask_same (by decide)) fun params rest h => ?_
  exact .bind (.within (.ask_behind h)) fun _ _ _ => .give

theorem mainMethod_follows (p : Position) (access : Option Access) (id : NodeId)
    (ts : List Token) :
    Follows finish (weight .mainMethod ts) (Script.mainMethod finish p access id) ts
      (mainMethod finish p access id ts).plain := by
  unfold mainMethod
  refine .ite (fun _ => .fail) fun _ => .place_bind ?_
  refine .acceptKeyword_bind (fun _ rest h e => ?_) fun e => ?_
  · simp only [e]
    refine .place_bind (.accept_bind (fun _ rest' h' e => ?_) fun e => ?_)
    · simp only [e]
      have hbehind := shorter_trans h' h
      refine .place_bind (.bind (.within (.ask_behind hbehind)) fun params rest h => ?_)
      refine .ite (fun _ => .fail) fun _ => ?_
      exact .bind (.within (.ask_behind h)) fun _ _ _ => .give
    · simp only [e]
      exact .fail
  · simp only [e]
    exact .fail

theorem initialValue_follows (ts : List Token) :
    Follows finish (weight .initialValue ts) Script.initialValue ts
      (initialValue finish ts).plain := by
  unfold initialValue
  refine .acceptSymbol_bind (fun _ rest h e => ?_) fun e => ?_
  · simp only [e]
    exact .bind (.within (.ask_behind h)) fun _ _ _ => .give
  · simp only [e]
    exact .give

theorem typedMember_follows (p : Position) (access : Access) (done : Members) (id : NodeId)
    (ts : List Token) :
    Follows finish (weight .typedMember ts) (Script.typedMember finish p access done id) ts
      (typedMember finish p access done id ts).plain := by
  unfold typedMember
  refine .bind (.ask_same (by decide)) fun type rest h => ?_
  refine .bind (.within .expectName) fun name rest h => ?_
  refine .ahead_bind (.ite (fun _ => ?_) fun _ => .ite (fun _ => .refuse) fun _ => ?_)
  · exact .bind (.within (.ask_behind h)) fun _ _ _ => .give
  · refine .bind (.optionalWithin (.ask_behind h)) fun value rest h => ?_
    exact .bind (.within .expectSymbol) fun _ _ _ => .give

theorem constructorMember_follows (p : Position) (className : String) (access : Access)
    (done : Members) (id : NodeId) (ts : List Token) :
    Follows finish (weight .constructorMember ts)
      (Script.constructorMember finish p className access done id) ts
      (constructorMember finish p className access done id ts).plain := by
  unfold constructorMember
  refine .bind .expectName fun _ rest h => ?_
  exact .bind (.within (.ask_behind h)) fun _ _ _ => .give

theorem member_follows (className : String) (done : Members) (id : NodeId) (ts : List Token) :
    Follows finish (weight .member ts) (Script.member finish className done id) ts
      (member finish className done id ts).plain := by
  have hread : reading finish .accessModifier () ts =
      .ok ((accessModifier ts).value, (accessModifier ts).rest) := rfl
  unfold member
  refine .place_bind (.ask_bind (weight_lt_of_rank (by decide) (Nat.le_refl _)) hread ?_)
  have h := (accessModifier ts).shorter
  refine .acceptKeyword_bind (fun _ rest h' e => ?_) fun e => ?_
  · simp only [e]
    refine .bind (.behind (.within (.ask_behind (by omega)))) fun main rest h => ?_
    exact .ite (fun _ => .fail) fun _ => .give
  · simp only [e]
    refine .ahead_bind (.ite (fun _ => ?_) fun _ => ?_)
    · exact .behind (.ask_optional (by decide) h)
    · exact .behind (.ask_optional (by decide) h)

theorem members_follows (className : String) (done : Members) (id : NodeId) (ts : List Token) :
    Follows finish (weight .members ts) (Script.members finish className done id) ts
      (members finish className (ts.length + 1) done id ts (shorter_succ ts)).plain := by
  rw [members]
  refine .acceptSymbol_bind (fun _ rest h e => ?_) fun e => ?_
  · simp only [e]
    exact .give
  · simp only [e]
    refine .ahead_bind (.ite (fun _ => .refuse) fun _ => ?_)
    refine .bind (.ask_same (by decide)) fun r rest h => ?_
    exact .loop_behind h (members_bound ..)

/-! ## Declarations -/

theorem supertype_follows (word what : String) (ts : List Token) :
    Follows finish (weight .supertype ts) (Script.supertype word what) ts
      (supertype finish word what ts).plain := by
  unfold supertype
  refine .acceptKeyword_bind (fun _ rest h e => ?_) fun e => ?_
  · simp only [e]
    exact .bind (.within (.ask_behind h)) fun _ _ _ => .give
  · simp only [e]
    exact .give

theorem classRest_follows (p : Position) (id : NodeId) (ts : List Token) :
    Follows finish (weight .classRest ts) (Script.classRest finish p id) ts
      (classRest finish p id ts).plain := by
  unfold classRest
  refine .bind .expectName fun name rest h => ?_
  refine .bind (.optionalWithin (.ask_behind h)) fun superclass rest h => ?_
  refine .bind (.optionalWithin (.ask_behind h)) fun interface rest h => ?_
  refine .bind (.within .expectSymbol) fun _ rest h => ?_
  exact .bind (.loop_behind h (members_bound ..)) fun _ _ _ => .give

theorem interfaceMethods_follows (done : List Signature) (id : NodeId) (ts : List Token) :
    Follows finish (weight .interfaceMethods ts) (Script.interfaceMethods finish done id) ts
      (interfaceMethods finish (ts.length + 1) done id ts (shorter_succ ts)).plain := by
  have hread : reading finish .accessModifier () ts =
      .ok ((accessModifier ts).value, (accessModifier ts).rest) := rfl
  rw [interfaceMethods]
  refine .acceptSymbol_bind (fun _ rest h e => ?_) fun e => ?_
  · simp only [e]
    exact .give
  · simp only [e]
    refine .place_bind (.ask_bind (weight_lt_of_rank (by decide) (Nat.le_refl _)) hread ?_)
    have h := (accessModifier ts).shorter
    refine .bind (.behind (.ask_optional (by decide) h)) fun type rest h => ?_
    refine .bind (.within .expectName) fun name rest h => ?_
    refine .bind (.within (.ask_behind h)) fun params rest h => ?_
    refine .bind (.within .expectSymbol) fun _ rest h => ?_
    exact .loop_behind h (interfaceMethods_bound ..)

theorem interfaceRest_follows (p : Position) (id : NodeId) (ts : List Token) :
    Follows finish (weight .interfaceRest ts) (Script.interfaceRest finish p id) ts
      (interfaceRest finish p id ts).plain := by
  unfold interfaceRest
  refine .bind .expectName fun name rest h => ?_
  refine .bind (.within .expectSymbol) fun _ rest h => ?_
  exact .bind (.loop_behind h (interfaceMethods_bound ..)) fun _ _ _ => .give

theorem typeDeclarationRest_follows (p : Position) (id : NodeId) (ts : List Token) :
    Follows finish (weight .typeDeclarationRest ts) (Script.typeDeclarationRest finish p id) ts
      (typeDeclarationRest finish p id ts).plain := by
  unfold typeDeclarationRest
  refine .acceptKeyword_bind (fun _ rest h e => ?_) fun e => ?_
  · simp only [e]
    exact .bind (.within (.ask_behind h)) fun _ _ _ => .give
  · simp only [e]
    refine .acceptKeyword_bind (fun _ rest h e => ?_) fun e => ?_
    · simp only [e]
      exact .bind (.within (.ask_behind h)) fun _ _ _ => .give
    · simp only [e]
      exact .refuse

theorem typeDeclaration_follows (id : NodeId) (ts : List Token) :
    Follows finish (weight .typeDeclaration ts) (Script.typeDeclaration finish id) ts
      (typeDeclaration finish id ts).plain := by
  unfold typeDeclaration
  refine .place_bind (.acceptKeyword_bind (fun _ rest h e => ?_) fun e => ?_)
  · simp only [e]
    exact .within (.ask_behind h)
  · simp only [e]
    exact .ask_same (by decide)

theorem finished_bind {α β : Type} {bound : Nat} {o : Outcome β bound}
    {f : Parsed β bound → Except (Located Fault) α} :
    finished (o >>= f) = o >>= fun p => finished (f p) := by
  cases o with
  | error fault => rfl
  | ok p => rfl

theorem declarations_follows (done : List TypeDecl) (id : NodeId) (ts : List Token) :
    Follows finish (weight .declarations ts) (Script.declarations done id) ts
      (finished (declarations finish done id ts)).plain := by
  rw [declarations]
  refine .ahead_bind ?_
  cases ts with
  | nil => exact .give
  | cons t us =>
    simp only [List.isEmpty_cons, Bool.false_eq_true, ↓reduceIte]
    rw [finished_bind]
    exact .bind (.ask_same (by decide)) fun r rest h => .ask_behind h

/-! ## All readers -/

/-- Every reader follows its script, and the calls that it makes weigh less than it does. -/
theorem follows (finish : Position) : ∀ {σ α : Type} (r : Reader σ α) (input : σ)
    (ts : List Token), Follows finish (weight r ts) (Script.body finish r input) ts
      (reading finish r input ts)
  | _, _, .typeName, what, ts => typeName_follows what ts
  | _, _, .type, (), ts => type_follows ts
  | _, _, .returnType, (), ts => returnType_follows ts
  | _, _, .accessModifier, (), ts => accessModifier_follows ts
  | _, _, .integerLiteral, (p, negative), ts => integerLiteral_follows p negative ts
  | _, _, .binary level, (), ts => binary_follows level ts
  | _, _, .operand level, (), ts => operand_follows level ts
  | _, _, .operators level, left, ts => operators_follows level left ts
  | _, _, .primary, (), ts => primary_follows ts
  | _, _, .creation, (), ts => creation_follows ts
  | _, _, .chain, (), ts => chain_follows ts
  | _, _, .links, (head, done), ts => links_follows head done ts
  | _, _, .arguments, (), ts => arguments_follows ts
  | _, _, .moreArguments, done, ts => moreArguments_follows done ts
  | _, _, .expression, (), ts => expression_follows ts
  | _, _, .variableDeclaration, (), ts => variableDeclaration_follows ts
  | _, _, .assignmentRest, target, ts => assignmentRest_follows target ts
  | _, _, .assignment, (), ts => assignment_follows ts
  | _, _, .action, (), ts => action_follows ts
  | _, _, .closeJump, (p, jump), ts => closeJump_follows p jump ts
  | _, _, .jump, around, ts => jump_follows around ts
  | _, _, .condition, word, ts => condition_follows word ts
  | _, _, .closeInit, init, ts => closeInit_follows init ts
  | _, _, .forInit, (), ts => forInit_follows ts
  | _, _, .forCondition, (), ts => forCondition_follows ts
  | _, _, .forUpdate, (), ts => forUpdate_follows ts
  | _, _, .caseLabel, (), ts => caseLabel_follows ts
  | _, _, .statement, (around, id), ts => statement_follows around id ts
  | _, _, .block, (around, id), ts => block_follows around id ts
  | _, _, .statements, (around, stop, done, id), ts => statements_follows around stop done id ts
  | _, _, .conditional, (around, id), ts => conditional_follows around id ts
  | _, _, .whileLoop, id, ts => whileLoop_follows id ts
  | _, _, .forLoop, id, ts => forLoop_follows id ts
  | _, _, .switch, (around, id), ts => switch_follows around id ts
  | _, _, .arms, (around, done, id), ts => arms_follows around done id ts
  | _, _, .caseBody, (around, id), ts => caseBody_follows around id ts
  | _, _, .moreParameters, done, ts => moreParameters_follows done ts
  | _, _, .parameters, (), ts => parameters_follows ts
  | _, _, .methodRest, header, ts => methodRest_follows header ts
  | _, _, .mainMethod, (p, access, id), ts => mainMethod_follows p access id ts
  | _, _, .initialValue, (), ts => initialValue_follows ts
  | _, _, .typedMember, (p, access, done, id), ts => typedMember_follows p access done id ts
  | _, _, .constructorMember, (p, className, access, done, id), ts =>
    constructorMember_follows p className access done id ts
  | _, _, .member, (className, done, id), ts => member_follows className done id ts
  | _, _, .members, (className, done, id), ts => members_follows className done id ts
  | _, _, .supertype, (word, what), ts => supertype_follows word what ts
  | _, _, .classRest, (p, id), ts => classRest_follows p id ts
  | _, _, .interfaceMethods, (done, id), ts => interfaceMethods_follows done id ts
  | _, _, .interfaceRest, (p, id), ts => interfaceRest_follows p id ts
  | _, _, .typeDeclarationRest, (p, id), ts => typeDeclarationRest_follows p id ts
  | _, _, .typeDeclaration, id, ts => typeDeclaration_follows id ts
  | _, _, .declarations, (done, id), ts => declarations_follows done id ts

end Javelet.Grammar
