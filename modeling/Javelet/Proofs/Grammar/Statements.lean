import Javelet.Grammar.Statement
import Javelet.Proofs.Grammar.Expressions

/-!
# What readers of statements give

The readers of statements give well-named statements, as long as the identifiers among the tokens
are plain names.
-/
namespace Javelet.Grammar

variable {ts : List Token} {finish : Position}

/-! ## Simple statements -/

theorem type_gives (hts : NamesPlain ts) :
    Gives (type finish ts) fun t rest => t.IsValue ∧ NamesPlain rest := by
  unfold type
  refine .bind (typeName_gives hts) fun name rest h hname => ?_
  dsimp only
  split
  · exact .ok ⟨hname.1, hname.2⟩
  · rename_i t more h' hp
    refine .bind (expectSymbol_gives (namesPlain_accept hname.2 hp)).within fun _ _ _ hrest => ?_
    exact .ok ⟨hname.1, hrest⟩

theorem expression_gives (hts : NamesPlain ts) :
    Gives (expression finish ts) fun e rest => e.WellNamed ∧ NamesPlain rest :=
  binary_gives finish .disjunction ts hts

theorem variableDeclaration_gives (hts : NamesPlain ts) :
    Gives (variableDeclaration finish ts) fun v rest => v.WellNamed ∧ NamesPlain rest := by
  unfold variableDeclaration
  refine .bind (type_gives hts) fun t rest h ht => ?_
  refine .bind (expectName_gives ht.2).within fun name rest' h' hname => ?_
  dsimp only
  split
  · rename_i u more h'' hp
    refine .bind (expression_gives (namesPlain_accept hname.2 hp)).within fun e _ _ he => ?_
    exact .ok ⟨⟨ht.1, by simpa using he.1⟩, he.2⟩
  · exact .ok ⟨⟨ht.1, by simp⟩, hname.2⟩

theorem namesPlain_acceptAssignOp {op : AssignOp} {rest : List Token}
    {h : rest.length < ts.length} (hts : NamesPlain ts)
    (hop : acceptAssignOp ts = some ⟨op, rest, h⟩) : NamesPlain rest := by
  cases ts with
  | nil => cases hop
  | cons t more =>
    simp only [acceptAssignOp] at hop
    split at hop
    · simp only [Option.map_eq_some_iff] at hop
      obtain ⟨_, -, he⟩ := hop
      cases he
      exact hts.tail
    · cases hop

theorem assignmentRest_gives {target : Chain} (htarget : target.WellNamed) (hts : NamesPlain ts) :
    Gives (assignmentRest finish target ts) fun a rest => a.WellNamed ∧ NamesPlain rest := by
  unfold assignmentRest
  split
  · exact .error
  · rename_i op rest h hop
    split
    · refine .bind (expression_gives (namesPlain_acceptAssignOp hts hop)).within fun e _ _ he => ?_
      exact .ok ⟨⟨htarget, he.1⟩, he.2⟩
    · exact .error

theorem assignment_gives (hts : NamesPlain ts) :
    Gives (assignment finish ts) fun a rest => a.WellNamed ∧ NamesPlain rest := by
  unfold assignment
  refine .bind (chain_gives finish ts hts) fun target rest h htarget => ?_
  exact (assignmentRest_gives htarget.1 htarget.2).within

theorem action_gives (hts : NamesPlain ts) :
    Gives (action finish ts) fun a rest => a.WellNamed ∧ NamesPlain rest := by
  unfold action
  refine .bind (chain_gives finish ts hts) fun target rest h htarget => ?_
  dsimp only
  split
  · refine .bind (assignmentRest_gives htarget.1 htarget.2).within fun a _ _ ha => ?_
    exact .ok ha
  · split
    · exact .ok htarget
    · exact .error

theorem closeJump_gives {p : Position} {j : Jump} (hj : j.WellNamed) (hts : NamesPlain ts) :
    Gives (closeJump finish p j ts) fun s rest =>
      s.WellNamed ∧ NamesPlain rest := by
  unfold closeJump
  refine .bind (expectSymbol_gives hts) fun _ _ _ hrest => ?_
  exact .ok ⟨.jump hj, hrest⟩

theorem jump_gives {around : Surroundings} (hts : NamesPlain ts) :
    Gives (jump finish around ts) fun s rest =>
      s.WellNamed ∧ NamesPlain rest := by
  unfold jump
  dsimp only
  split
  · rename_i t rest h hp
    have hrest := namesPlain_accept hts hp
    split
    · exact (closeJump_gives (j := .return_ none) (by simp [Jump.WellNamed]) hrest).within
    · refine .bind (expression_gives hrest).within fun e _ _ he => ?_
      exact (closeJump_gives (j := .return_ (some e)) (by simpa [Jump.WellNamed] using he.1)
        he.2).within
  · split
    · rename_i t rest h hp
      split
      · exact (closeJump_gives (j := .break_) trivial (namesPlain_accept hts hp)).within
      · exact .error
    · split
      · rename_i t rest h hp
        split
        · exact (closeJump_gives (j := .continue_) trivial (namesPlain_accept hts hp)).within
        · exact .error
      · exact .error

theorem condition_gives {word : String} (hts : NamesPlain ts) :
    Gives (condition finish word ts) fun e rest => e.WellNamed ∧ NamesPlain rest := by
  unfold condition
  refine .bind (expectSymbol_gives hts) fun _ rest h hrest => ?_
  refine .bind (expression_gives hrest).within fun e _ _ he => ?_
  refine .bind (expectSymbol_gives he.2).within fun _ _ _ hlast => ?_
  exact .ok ⟨he.1, hlast⟩

theorem closeInit_gives {init : Option ForInit} (hts : NamesPlain ts) :
    Gives (closeInit finish init ts) fun i rest => i = init ∧ NamesPlain rest := by
  unfold closeInit
  refine .bind (expectSymbol_gives hts) fun _ _ _ hrest => ?_
  exact .ok ⟨rfl, hrest⟩

theorem forInit_gives (hts : NamesPlain ts) :
    Gives (forInit finish ts) fun init rest => (∀ i ∈ init, i.WellNamed) ∧ NamesPlain rest := by
  have hclose : ∀ {init : Option ForInit} {ts : List Token}, (∀ i ∈ init, i.WellNamed) →
      NamesPlain ts → Gives (closeInit finish init ts)
        fun init rest => (∀ i ∈ init, i.WellNamed) ∧ NamesPlain rest := by
    intro init ts hinit hts p hp
    obtain ⟨he, hrest⟩ := closeInit_gives hts p hp
    exact ⟨he ▸ hinit, hrest⟩
  unfold forInit
  split
  · exact hclose nofun hts
  · split
    · refine .bind (variableDeclaration_gives hts) fun v _ _ hv => ?_
      exact (hclose (by simpa [ForInit.WellNamed] using hv.1) hv.2).within
    · refine .bind (assignment_gives hts) fun a _ _ ha => ?_
      exact (hclose (by simpa [ForInit.WellNamed] using ha.1) ha.2).within

theorem forCondition_gives (hts : NamesPlain ts) :
    Gives (forCondition finish ts) fun e rest => (∀ e' ∈ e, e'.WellNamed) ∧ NamesPlain rest := by
  unfold forCondition
  dsimp only
  split
  · refine .bind (expectSymbol_gives hts) fun _ _ _ hrest => ?_
    exact .ok ⟨nofun, hrest⟩
  · refine .bind (expression_gives hts) fun e _ _ he => ?_
    refine .bind (expectSymbol_gives he.2).within fun _ _ _ hrest => ?_
    exact .ok ⟨by simpa using he.1, hrest⟩

theorem forUpdate_gives (hts : NamesPlain ts) :
    Gives (forUpdate finish ts) fun a rest => (∀ a' ∈ a, a'.WellNamed) ∧ NamesPlain rest := by
  unfold forUpdate
  dsimp only
  split
  · refine .bind (expectSymbol_gives hts) fun _ _ _ hrest => ?_
    exact .ok ⟨nofun, hrest⟩
  · refine .bind (action_gives hts) fun a _ _ ha => ?_
    refine .bind (expectSymbol_gives ha.2).within fun _ _ _ hrest => ?_
    exact .ok ⟨by simpa using ha.1, hrest⟩

theorem caseLabel_gives (hts : NamesPlain ts) :
    Gives (caseLabel finish ts) fun _ rest => NamesPlain rest := by
  unfold caseLabel
  dsimp only
  split
  · refine .bind (primary_gives finish ts hts) fun e rest h he => ?_
    dsimp only
    split
    · exact .ok he.2
    · exact .error
  · exact .error

/-! ## Statements -/

/-- What a reader of numbered nodes gives: a well-named value. -/
structure Reads {α : Type} (wellNamed : α → Prop) (r : α × NodeId) (rest : List Token) : Prop where
  named : wellNamed r.1
  rest : NamesPlain rest

abbrev ReadsStatement := Reads Statement.WellNamed

abbrev ReadsBlock := Reads Block.WellNamed

/-- What a reader of statements gives behind those it has read. -/
def ReadsStatements (done : List Statement) (r : List Statement × NodeId) (rest : List Token) :
    Prop :=
  ∃ new, r.1 = done.reverse ++ new ∧
    Reads (fun ss => ∀ s ∈ ss, Statement.WellNamed s) (new, r.2) rest

structure Arms.WellNamed (a : Arms) : Prop where
  cases : ∀ c ∈ a.cases, c.body.WellNamed
  default_ : ∀ b ∈ a.default_, b.WellNamed

abbrev ReadsArms := Reads Arms.WellNamed

mutual

theorem statement_gives (finish : Position) (around : Surroundings) (id : NodeId)
    (ts : List Token) (hts : NamesPlain ts) :
    Gives (statement finish around id ts) ReadsStatement := by
  rw [statement]
  split
  · exact .error
  · split
    · refine .bind (block_gives finish around id ts hts) ?_
      rintro ⟨body, next⟩ rest h hb
      exact .ok ⟨.block hb.named, hb.rest⟩
    · split
      · exact conditional_gives finish around id ts hts
      · split
        · exact whileLoop_gives finish id ts hts
        · split
          · exact forLoop_gives finish id ts hts
          · split
            · exact switch_gives finish around id ts hts
            · split
              · refine .bind (jump_gives hts) fun s rest h hs => ?_
                exact .ok ⟨hs.1, hs.2⟩
              · split
                · refine .bind (variableDeclaration_gives hts) fun v rest h hv => ?_
                  refine .bind (expectSymbol_gives hv.2).within fun _ _ _ hrest => ?_
                  exact .ok ⟨.declaration hv.1, hrest⟩
                · split
                  · refine .bind (action_gives hts) fun a rest h ha => ?_
                    refine .bind (expectSymbol_gives ha.2).within fun _ _ _ hrest => ?_
                    exact .ok ⟨.action ha.1, hrest⟩
                  · exact .error
termination_by 4 * ts.length + 1
decreasing_by all_goals omega

theorem block_gives (finish : Position) (around : Surroundings) (id : NodeId) (ts : List Token)
    (hts : NamesPlain ts) : Gives (block finish around id ts) ReadsBlock := by
  rw [block]
  refine .bind (expectSymbol_gives hts) fun _ rest h hrest => ?_
  refine .bind (statements_gives finish around (atSymbol .rightBrace) ts.length [] (id + 1) rest h
    hrest) ?_
  rintro ⟨ss, next⟩ rest' h' ⟨new, hss, hnew⟩
  cases hss
  refine .bind (expectSymbol_gives hnew.rest).within fun _ _ _ hlast => ?_
  exact .ok ⟨hnew.named, hlast⟩
termination_by 4 * ts.length
decreasing_by omega

theorem statements_gives (finish : Position) (around : Surroundings) (stop : List Token → Bool)
    (bound : Nat) (done : List Statement) (id : NodeId) (ts : List Token) (h : ts.length < bound)
    (hts : NamesPlain ts) :
    Gives (statements finish around stop bound done id ts h) (ReadsStatements done) := by
  rw [statements]
  split
  · exact .ok ⟨[], by simp, nofun, hts⟩
  · split
    · exact .error
    · refine .bind (statement_gives finish around id ts hts) ?_
      rintro ⟨s, middle⟩ rest h' hs
      intro p hp
      obtain ⟨new, hnew, hr⟩ := statements_gives finish around stop bound (s :: done) middle rest
        (shorter_bound h' h) hs.rest p hp
      exact ⟨s :: new, by simp [hnew], List.forall_mem_cons.2 ⟨hs.named, hr.named⟩, hr.rest⟩
termination_by 4 * ts.length + 2
decreasing_by all_goals omega

theorem conditional_gives (finish : Position) (around : Surroundings) (id : NodeId)
    (ts : List Token) (hts : NamesPlain ts) :
    Gives (conditional finish around id ts) ReadsStatement := by
  rw [conditional]
  refine .bind (expectKeyword_gives hts) fun _ rest h hrest => ?_
  refine .bind (condition_gives hrest).within fun e rest' h' he => ?_
  refine .bind (statement_gives finish around id rest' he.2).within ?_
  rintro ⟨body, middle⟩ rest'' h'' hbody
  dsimp only
  split
  · rename_i t more h3 hp
    have hmore := namesPlain_accept hbody.rest hp
    refine .bind (statement_gives finish around middle more hmore).within ?_
    rintro ⟨otherwise, next⟩ last h4 hother
    exact .ok ⟨.conditional he.1 hbody.named (by simpa using hother.named), hother.rest⟩
  · exact .ok ⟨.conditional he.1 hbody.named nofun, hbody.rest⟩
termination_by 4 * ts.length
decreasing_by all_goals omega

theorem whileLoop_gives (finish : Position) (id : NodeId) (ts : List Token)
    (hts : NamesPlain ts) : Gives (whileLoop finish id ts) ReadsStatement := by
  rw [whileLoop]
  refine .bind (expectKeyword_gives hts) fun _ rest h hrest => ?_
  refine .bind (condition_gives hrest).within fun e rest' h' he => ?_
  refine .bind (statement_gives finish .inLoop id rest' he.2).within ?_
  rintro ⟨body, next⟩ rest'' h'' hbody
  exact .ok ⟨.whileLoop he.1 hbody.named, hbody.rest⟩
termination_by 4 * ts.length
decreasing_by omega

theorem forLoop_gives (finish : Position) (id : NodeId) (ts : List Token)
    (hts : NamesPlain ts) : Gives (forLoop finish id ts) ReadsStatement := by
  rw [forLoop]
  refine .bind (expectKeyword_gives hts) fun _ rest h hrest => ?_
  refine .bind (expectSymbol_gives hrest).within fun _ rest1 h1 hrest1 => ?_
  refine .bind (forInit_gives hrest1).within fun init rest2 h2 hinit => ?_
  refine .bind (forCondition_gives hinit.2).within fun e rest3 h3 he => ?_
  refine .bind (forUpdate_gives he.2).within fun update rest4 h4 hupdate => ?_
  refine .bind (statement_gives finish .inLoop (id + 1) rest4 hupdate.2).within ?_
  rintro ⟨body, next⟩ rest5 h5 hbody
  exact .ok ⟨.forLoop hinit.1 he.1 hupdate.1 hbody.named, hbody.rest⟩
termination_by 4 * ts.length
decreasing_by omega

theorem switch_gives (finish : Position) (around : Surroundings) (id : NodeId) (ts : List Token)
    (hts : NamesPlain ts) : Gives (switch finish around id ts) ReadsStatement := by
  rw [switch]
  refine .bind (expectKeyword_gives hts) fun _ rest h hrest => ?_
  refine .bind (condition_gives hrest).within fun e rest1 h1 he => ?_
  refine .bind (expectSymbol_gives he.2).within fun _ rest2 h2 hrest2 => ?_
  refine .bind (arms_gives finish around.inSwitch ts.length ⟨[], none⟩ (id + 1) rest2 h2
    ⟨List.forall_mem_nil _, by simp⟩ hrest2) ?_
  rintro ⟨arms, next⟩ rest3 h3 harms
  refine .ok ⟨.switch he.1 ?_ harms.named.default_, harms.rest⟩
  intro c hc
  exact harms.named.cases c (List.mem_reverse.1 hc)
termination_by 4 * ts.length
decreasing_by omega

theorem arms_gives (finish : Position) (around : Surroundings) (bound : Nat) (done : Arms)
    (id : NodeId) (ts : List Token) (h : ts.length < bound) (hdone : done.WellNamed)
    (hts : NamesPlain ts) : Gives (arms finish around bound done id ts h) ReadsArms := by
  rw [arms]
  dsimp only
  split
  · rename_i t rest h' hp
    exact .ok ⟨hdone, namesPlain_accept hts hp⟩
  · split
    · rename_i t rest h' hp
      refine .bind (caseLabel_gives (namesPlain_accept hts hp)).within ?_
      rintro ⟨labelPosition, label⟩ rest1 h1 hrest1
      refine .bind (expectSymbol_gives hrest1).within fun _ rest2 h2 hrest2 => ?_
      refine .bind (caseBody_gives finish around id rest2 hrest2).optionalWithin ?_
      rintro ⟨body, middle⟩ rest3 h3 hbody p hp
      dsimp only at hp
      have hcases : ∀ c ∈ Case.mk (here finish ts) labelPosition label body :: done.cases,
          c.body.WellNamed :=
        List.forall_mem_cons.2 ⟨hbody.named, hdone.cases⟩
      exact arms_gives finish around bound ⟨_, done.default_⟩ middle rest3 _
        ⟨hcases, hdone.default_⟩ hbody.rest p hp
    · split
      · rename_i t rest h' hp
        split
        · exact .error
        · refine .bind (expectSymbol_gives (namesPlain_accept hts hp)).within ?_
          intro _ rest2 h2 hrest2
          refine .bind (caseBody_gives finish around id rest2 hrest2).optionalWithin ?_
          rintro ⟨body, middle⟩ rest3 h3 hbody p hp
          dsimp only at hp
          have hnamed : ∀ b ∈ some body, b.WellNamed := by simpa using hbody.named
          exact arms_gives finish around bound ⟨done.cases, some body⟩ middle rest3 _
            ⟨hdone.cases, hnamed⟩ hbody.rest p hp
      · exact .error
termination_by 4 * ts.length
decreasing_by all_goals omega

theorem caseBody_gives (finish : Position) (around : Surroundings) (id : NodeId)
    (ts : List Token) (hts : NamesPlain ts) :
    Gives (caseBody finish around id ts) ReadsBlock := by
  rw [caseBody]
  refine .bind (statements_gives finish around atCaseEnd (ts.length + 1) [] (id + 1) ts
    (shorter_succ ts) hts) ?_
  rintro ⟨ss, next⟩ rest h ⟨new, hss, hnew⟩
  cases hss
  exact .ok ⟨hnew.named, hnew.rest⟩
termination_by 4 * ts.length + 3
decreasing_by omega

end

end Javelet.Grammar
