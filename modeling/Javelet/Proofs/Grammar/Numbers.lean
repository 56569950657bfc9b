import Javelet.Grammar.Declaration
import Javelet.Proofs.Grammar.Expressions
import Javelet.Proofs.Syntax.Nodes

/-!
# The numbers that readers hand out

One counter numbers the nodes of a program while it is read. A reader numbers the nodes in what it
gives from the number it is given up to the one it returns, without a gap, and it uses up a token for
each number. The members of a class and the arms of a switch are regrouped when they are read, so the
numbers stand in the tree in another order than they are handed out.
-/
namespace Javelet.Grammar

variable {ts rest rest' : List Token} {finish : Position} {earlier found own later : List NodeId}
  {id middle next budget budget' : Nat}

/-- What a reader hands out behind the numbers `earlier`: those from `id` up to `next`, and no more
of them than it uses up of a number of tokens. -/
structure Draws (earlier : List NodeId) (id budget : Nat) (found : List NodeId) (next : Nat)
    (rest : List Token) : Prop where
  numbered : ∃ new, found.Perm (earlier ++ new) ∧ Numbered id next new
  paid : next + rest.length ≤ id + budget

namespace Draws

theorem none (h : rest.length ≤ budget) : Draws earlier id budget earlier id rest :=
  ⟨⟨[], by simp, .nil⟩, Nat.add_le_add_left h id⟩

/-- The tokens behind are used up as well. -/
theorem followed (h : Draws earlier id budget found next rest) (hrest : rest'.length < rest.length) :
    Draws earlier id budget found next rest' :=
  ⟨h.numbered, by have := h.paid; omega⟩

/-- Tokens in front are used up as well. -/
theorem preceded (h : Draws earlier id budget found next rest) (hbudget : budget ≤ budget') :
    Draws earlier id budget' found next rest :=
  ⟨h.numbered, by have := h.paid; omega⟩

theorem trans (h : Draws earlier id budget found middle rest)
    (h' : Draws found middle rest.length later next rest') :
    Draws earlier id budget later next rest' := by
  obtain ⟨⟨new, hperm, hnew⟩, hpaid⟩ := h
  obtain ⟨⟨more, hperm', hmore⟩, hpaid'⟩ := h'
  refine ⟨⟨new ++ more, ?_, hnew.append hmore⟩, by omega⟩
  rw [← List.append_assoc]
  exact hperm'.trans (hperm.append_right more)

/-- The numbers in a part join those that are there. -/
theorem join (h : Draws [] id budget own next rest) (hperm : found.Perm (earlier ++ own)) :
    Draws earlier id budget found next rest := by
  obtain ⟨⟨new, hnew, hnumbered⟩, hpaid⟩ := h
  exact ⟨⟨own, hperm, hnumbered.perm hnew.symm⟩, hpaid⟩

/-- A node takes the first number, and a token is used up for it. -/
theorem cons (h : Draws [] (id + 1) budget own next rest) (hbudget : budget < budget') :
    Draws [] id budget' (id :: own) next rest := by
  obtain ⟨⟨new, hnew, hnumbered⟩, hpaid⟩ := h
  exact ⟨⟨id :: own, .refl _, (hnumbered.perm hnew.symm).cons⟩, by omega⟩

end Draws

theorem Gives.shorter {α : Type} {bound : Nat} (o : Outcome α bound) :
    Gives o fun _ rest => rest.length < bound :=
  fun p _ => p.shorter

/-! ## Statements -/

theorem jump_nodes {around : Surroundings} :
    Gives (jump finish around ts) fun s _ => s.nodes = [] := by
  have hclose : ∀ {p : Position} {j : Jump} {ts : List Token},
      Gives (closeJump finish p j ts) fun s _ => s.nodes = [] := by
    intro p j ts
    unfold closeJump
    exact .bind (.shorter _) fun _ _ _ _ => .ok (by rw [Statement.nodes])
  unfold jump
  dsimp only
  split
  · split
    · exact hclose.within
    · exact .bind (.shorter _) fun _ _ _ _ => hclose.within
  · split
    · split
      · exact hclose.within
      · exact .error
    · split
      · split
        · exact hclose.within
        · exact .error
      · exact .error

theorem statementNodes_append (ss ss' : List Statement) :
    statementNodes (ss ++ ss') = statementNodes ss ++ statementNodes ss' := by
  induction ss with
  | nil => rfl
  | cons s ss ih => rw [List.cons_append, statementNodes, ih, statementNodes, List.append_assoc]

def Arms.nodes (a : Arms) : List NodeId := caseNodes a.cases.reverse ++ defaultNodes a.default_

/-- What a reader of a statement hands out, with a token for each number. -/
abbrev DrawsStatement (id budget : Nat) (r : Statement × NodeId) (rest : List Token) : Prop :=
  Draws [] id budget r.1.nodes r.2 rest

abbrev DrawsBlock (id budget : Nat) (r : Block × NodeId) (rest : List Token) : Prop :=
  Draws [] id budget r.1.nodes r.2 rest

mutual

theorem statement_draws (finish : Position) (around : Surroundings) (id : NodeId)
    (ts : List Token) : Gives (statement finish around id ts) (DrawsStatement id ts.length) := by
  rw [statement]
  split
  · exact .error
  · split
    · refine .bind (block_draws finish around id ts) ?_
      rintro ⟨body, next⟩ rest h hb
      refine .ok ?_
      rw [DrawsStatement, Statement.nodes]
      exact hb
    · split
      · exact conditional_draws finish around id ts
      · split
        · exact whileLoop_draws finish id ts
        · split
          · exact forLoop_draws finish id ts
          · split
            · exact switch_draws finish around id ts
            · split
              · refine .bind jump_nodes fun s rest h hs => .ok ?_
                rw [DrawsStatement, hs]
                exact .none (Nat.le_of_lt h)
              · split
                · refine .bind (.shorter _) fun v rest h _ => ?_
                  refine .bind (Gives.shorter _).within fun _ rest' h' _ => .ok ?_
                  rw [DrawsStatement, Statement.nodes]
                  exact .none (Nat.le_of_lt h')
                · split
                  · refine .bind (.shorter _) fun a rest h _ => ?_
                    refine .bind (Gives.shorter _).within fun _ rest' h' _ => .ok ?_
                    rw [DrawsStatement, Statement.nodes]
                    exact .none (Nat.le_of_lt h')
                  · exact .error
termination_by 4 * ts.length + 1
decreasing_by all_goals omega

theorem block_draws (finish : Position) (around : Surroundings) (id : NodeId) (ts : List Token) :
    Gives (block finish around id ts) (DrawsBlock id ts.length) := by
  rw [block]
  refine .bind (.shorter _) fun _ rest h _ => ?_
  refine .bind (statements_draws finish around (atSymbol .rightBrace) ts.length [] (id + 1) rest h)
    ?_
  rintro ⟨ss, next⟩ rest' h' hss
  refine .bind (Gives.shorter _).within fun _ rest'' _ hlast => .ok ?_
  rw [DrawsBlock, Block.nodes]
  exact (hss.cons h).followed hlast
termination_by 4 * ts.length
decreasing_by omega

theorem statements_draws (finish : Position) (around : Surroundings) (stop : List Token → Bool)
    (bound : Nat) (done : List Statement) (id : NodeId) (ts : List Token) (h : ts.length < bound) :
    Gives (statements finish around stop bound done id ts h) fun r rest =>
      Draws (statementNodes done.reverse) id ts.length (statementNodes r.1) r.2 rest := by
  rw [statements]
  split
  · exact .ok (.none (Nat.le_refl _))
  · split
    · exact .error
    · refine .bind (statement_draws finish around id ts) ?_
      rintro ⟨s, middle⟩ rest h' hs p hp
      have hmore := statements_draws finish around stop bound (s :: done) middle rest
        (shorter_bound h' h) p hp
      rw [List.reverse_cons, statementNodes_append] at hmore
      refine (hs.join ?_).trans hmore
      rw [statementNodes, statementNodes, List.append_nil]
termination_by 4 * ts.length + 2
decreasing_by all_goals omega

theorem conditional_draws (finish : Position) (around : Surroundings) (id : NodeId)
    (ts : List Token) : Gives (conditional finish around id ts) (DrawsStatement id ts.length) := by
  rw [conditional]
  refine .bind (.shorter _) fun _ rest h _ => ?_
  refine .bind (Gives.shorter _).within fun e rest1 h1 _ => ?_
  refine .bind (statement_draws finish around id rest1).within ?_
  rintro ⟨body, middle⟩ rest2 h2 hbody
  dsimp only
  split
  · rename_i t more h3 hp
    refine .bind (statement_draws finish around middle more).within ?_
    rintro ⟨otherwise, next⟩ rest4 h4 hother
    refine .ok ?_
    rw [DrawsStatement, Statement.nodes, otherwiseNodes]
    exact (hbody.preceded (Nat.le_of_lt h1)).trans
      ((hother.preceded (Nat.le_of_lt h3)).join (.refl _))
  · refine .ok ?_
    rw [DrawsStatement, Statement.nodes, otherwiseNodes, List.append_nil]
    exact hbody.preceded (Nat.le_of_lt h1)
termination_by 4 * ts.length
decreasing_by all_goals omega

theorem whileLoop_draws (finish : Position) (id : NodeId) (ts : List Token) :
    Gives (whileLoop finish id ts) (DrawsStatement id ts.length) := by
  rw [whileLoop]
  refine .bind (.shorter _) fun _ rest h _ => ?_
  refine .bind (Gives.shorter _).within fun e rest1 h1 _ => ?_
  refine .bind (statement_draws finish .inLoop id rest1).within ?_
  rintro ⟨body, next⟩ rest2 h2 hbody
  refine .ok ?_
  rw [DrawsStatement, Statement.nodes]
  exact hbody.preceded (Nat.le_of_lt h1)
termination_by 4 * ts.length
decreasing_by omega

theorem forLoop_draws (finish : Position) (id : NodeId) (ts : List Token) :
    Gives (forLoop finish id ts) (DrawsStatement id ts.length) := by
  rw [forLoop]
  refine .bind (.shorter _) fun _ rest h _ => ?_
  refine .bind (Gives.shorter _).within fun _ rest1 h1 _ => ?_
  refine .bind (Gives.shorter _).within fun init rest2 h2 _ => ?_
  refine .bind (Gives.shorter _).within fun e rest3 h3 _ => ?_
  refine .bind (Gives.shorter _).within fun update rest4 h4 _ => ?_
  refine .bind (statement_draws finish .inLoop (id + 1) rest4).within ?_
  rintro ⟨body, next⟩ rest5 h5 hbody
  refine .ok ?_
  rw [DrawsStatement, Statement.nodes]
  exact hbody.cons h4
termination_by 4 * ts.length
decreasing_by omega

theorem switch_draws (finish : Position) (around : Surroundings) (id : NodeId) (ts : List Token) :
    Gives (switch finish around id ts) (DrawsStatement id ts.length) := by
  rw [switch]
  refine .bind (.shorter _) fun _ rest h _ => ?_
  refine .bind (Gives.shorter _).within fun e rest1 h1 _ => ?_
  refine .bind (Gives.shorter _).within fun _ rest2 h2 _ => ?_
  refine .bind (arms_draws finish around.inSwitch ts.length ⟨[], none⟩ (id + 1) rest2 h2) ?_
  rintro ⟨arms, next⟩ rest3 h3 harms
  refine .ok ?_
  rw [DrawsStatement, Statement.nodes]
  exact harms.cons h2
termination_by 4 * ts.length
decreasing_by omega

theorem arms_draws (finish : Position) (around : Surroundings) (bound : Nat) (done : Arms)
    (id : NodeId) (ts : List Token) (h : ts.length < bound) :
    Gives (arms finish around bound done id ts h) fun r rest =>
      Draws done.nodes id ts.length r.1.nodes r.2 rest := by
  rw [arms]
  dsimp only
  split
  · rename_i t rest h' hp
    exact .ok (.none (Nat.le_of_lt h'))
  · split
    · rename_i t rest h' hp
      refine .bind (Gives.shorter _).within ?_
      rintro ⟨labelPosition, label⟩ rest1 h1 _
      refine .bind (Gives.shorter _).within fun _ rest2 h2 _ => ?_
      refine .bind (caseBody_draws finish around id rest2).optionalWithin ?_
      rintro ⟨body, middle⟩ rest3 h3 hbody p hp
      refine ((hbody.preceded h2).join ?_).trans (arms_draws finish around bound _ middle rest3 _ p hp)
      simp only [Arms.nodes, List.reverse_cons, caseNodes_append, caseNodes, List.append_nil,
        List.append_assoc]
      exact List.perm_append_comm.append_left _
    · split
      · rename_i t rest h' hp
        split
        · exact .error
        · rename_i hnone
          refine .bind (Gives.shorter _).within fun _ rest2 h2 _ => ?_
          refine .bind (caseBody_draws finish around id rest2).optionalWithin ?_
          rintro ⟨body, middle⟩ rest3 h3 hbody p hp
          refine ((hbody.preceded h2).join ?_).trans
            (arms_draws finish around bound _ middle rest3 _ p hp)
          have hdefault : done.default_ = none := by simpa using hnone
          simp [Arms.nodes, defaultNodes, hdefault]
      · exact .error
termination_by 4 * ts.length
decreasing_by all_goals omega

/-- The keyword in front of the body pays for its number. -/
theorem caseBody_draws (finish : Position) (around : Surroundings) (id : NodeId)
    (ts : List Token) : Gives (caseBody finish around id ts) (DrawsBlock id (ts.length + 1)) := by
  rw [caseBody]
  refine .bind (statements_draws finish around atCaseEnd (ts.length + 1) [] (id + 1) ts
    (shorter_succ ts)) ?_
  rintro ⟨ss, next⟩ rest h hss
  refine .ok ?_
  rw [DrawsBlock, Block.nodes]
  exact hss.cons (Nat.lt_succ_self _)
termination_by 4 * ts.length + 3
decreasing_by omega

end

/-! ## Members -/

abbrev DrawsMethod (id budget : Nat) (r : Method × NodeId) (rest : List Token) : Prop :=
  Draws [] id budget r.1.nodes r.2 rest

/-- The token in front of the parameters pays for the number of the header. -/
theorem methodRest_draws {header : Signature} :
    Gives (methodRest finish header ts) (DrawsMethod header.id (ts.length + 1)) := by
  unfold methodRest
  refine .bind (.shorter _) fun ps rest h _ => ?_
  refine .bind (block_draws finish .none (header.id + 1) rest).within ?_
  rintro ⟨body, next⟩ rest' h' hbody
  exact .ok (hbody.cons (Nat.lt_succ_of_lt h))

theorem mainMethod_draws {p : Position} {access : Option Access} :
    Gives (mainMethod finish p access id ts) (DrawsMethod id ts.length) := by
  unfold mainMethod
  dsimp only
  split
  · exact .error_bind
  · split
    · exact .error
    · split
      · exact .error
      · rename_i u rest1 h1 hp1
        refine .bind (Gives.shorter _).within fun ps rest2 h2 _ => ?_
        dsimp only
        split
        · exact .error_bind
        · refine .bind (block_draws finish .none (id + 1) rest2).within ?_
          rintro ⟨body, next⟩ rest3 h3 hbody
          exact .ok (hbody.cons h2)

def Members.nodes (m : Members) : List NodeId :=
  (m.constructors ++ m.methods ++ m.main.toList).flatMap Method.nodes

/-- What a reader of members hands out behind those it has read. -/
abbrev DrawsMembers (done : Members) (id budget : Nat) (r : Members × NodeId)
    (rest : List Token) : Prop :=
  Draws done.nodes id budget r.1.nodes r.2 rest

/-- One more method, constructor or entry point. -/
theorem Draws.method {done after : Members} {m : Method} (h : DrawsMethod id budget (m, next) rest)
    (hperm : (after.constructors ++ after.methods ++ after.main.toList).Perm
      (m :: (done.constructors ++ done.methods ++ done.main.toList))) :
    DrawsMembers done id budget (after, next) rest := by
  have hnodes := hperm.flatMap_right Method.nodes
  rw [List.flatMap_cons] at hnodes
  exact h.join (hnodes.trans List.perm_append_comm)

theorem typedMember_draws {p : Position} {access : Access} {done : Members} :
    Gives (typedMember finish p access done id ts) (DrawsMembers done id ts.length) := by
  unfold typedMember
  refine .bind (.shorter _) fun t rest h _ => ?_
  refine .bind (Gives.shorter _).within fun name rest1 h1 _ => ?_
  dsimp only
  split
  · refine .bind methodRest_draws.within ?_
    rintro ⟨m, next⟩ rest2 h2 hm
    exact .ok (Draws.method (hm.preceded h1) (by simp [List.perm_middle]))
  · split
    · exact .error
    · refine .bind (Gives.shorter _).optionalWithin fun value rest2 h2 _ => ?_
      refine .bind (Gives.shorter _).within fun _ rest3 h3 _ => ?_
      exact .ok (.none (Nat.le_of_lt h3))

theorem constructorMember_draws {p : Position} {className : String} {access : Access}
    {done : Members} :
    Gives (constructorMember finish p className access done id ts)
      (DrawsMembers done id ts.length) := by
  unfold constructorMember
  refine .bind (.shorter _) fun _ rest h _ => ?_
  refine .bind methodRest_draws.within ?_
  rintro ⟨m, next⟩ rest1 h1 hm
  exact .ok (Draws.method (hm.preceded h) (by simp))

theorem member_draws {className : String} {done : Members} :
    Gives (member finish className done id ts) (DrawsMembers done id ts.length) := by
  have hle : (accessModifier ts).rest.length ≤ ts.length :=
    Nat.le_of_lt_succ (accessModifier ts).shorter
  unfold member
  dsimp only
  split
  · rename_i t more h hp
    refine .bind mainMethod_draws.within.behind ?_
    rintro ⟨m, next⟩ rest1 h1 hm
    dsimp only
    split
    · exact .error_bind
    · rename_i hnone
      have hmain : done.main = none := by simpa using hnone
      refine .ok (Draws.method (hm.preceded (Nat.le_of_lt (Nat.lt_of_lt_of_le h hle))) ?_)
      rw [hmain, Option.toList_none, List.append_nil]
      exact List.perm_append_singleton ..
  · have hpreceded : ∀ {o : Outcome (Members × NodeId) (accessModifier ts).rest.length},
        Gives o (DrawsMembers done id (accessModifier ts).rest.length) →
        Gives o (DrawsMembers done id ts.length) :=
      fun h => h.imp fun _ _ hd => hd.preceded hle
    split
    · exact (hpreceded constructorMember_draws).behind
    · exact (hpreceded typedMember_draws).behind

theorem members_draws (finish : Position) (className : String) (bound : Nat) (done : Members)
    (id : NodeId) (ts : List Token) (h : ts.length < bound) :
    Gives (members finish className bound done id ts h) (DrawsMembers done id ts.length) := by
  rw [members]
  split
  · rename_i t rest h' hp
    exact .ok (.none (Nat.le_of_lt h'))
  · split
    · exact .error
    · refine .bind member_draws ?_
      rintro ⟨more, middle⟩ rest h' hmore p hp
      exact hmore.trans (members_draws finish className bound more middle rest
        (shorter_bound h' h) p hp)
termination_by ts.length
decreasing_by omega

/-! ## Types -/

/-- The keyword in front of the name pays for the number of the class. -/
theorem classRest_draws {p : Position} :
    Gives (classRest finish p id ts) fun r rest =>
      Draws [] id ts.length r.1.nodes r.2 rest := by
  unfold classRest
  refine .bind (.shorter _) fun name rest h _ => ?_
  refine .bind (Gives.shorter _).optionalWithin fun superclass rest1 h1 _ => ?_
  refine .bind (Gives.shorter _).optionalWithin fun interface rest2 h2 _ => ?_
  refine .bind (Gives.shorter _).within fun _ rest3 h3 _ => ?_
  refine .bind (members_draws finish name ts.length ⟨[], [], [], none⟩ (id + 1) rest3 h3) ?_
  rintro ⟨found, next⟩ rest4 h4 hfound
  have hmethods : (found.constructors.reverse ++ found.methods.reverse ++ found.main.toList).Perm
      (found.constructors ++ found.methods ++ found.main.toList) :=
    ((List.reverse_perm _).append (List.reverse_perm _)).append_right _
  exact .ok ((hfound.cons h3).join ((hmethods.flatMap_right Method.nodes).cons id))

theorem interfaceMethods_draws (finish : Position) (bound : Nat) (done : List Signature)
    (id : NodeId) (ts : List Token) (h : ts.length < bound) :
    Gives (interfaceMethods finish bound done id ts h) fun r rest =>
      Draws (done.reverse.map Signature.id) id ts.length (r.1.map Signature.id) r.2 rest := by
  rw [interfaceMethods]
  split
  · rename_i t rest h' hp
    exact .ok (.none (Nat.le_of_lt h'))
  · dsimp only
    refine .bind (Gives.shorter _).behind fun t rest h' _ => ?_
    refine .bind (Gives.shorter _).within fun name rest1 h1 _ => ?_
    refine .bind (Gives.shorter _).within fun ps rest2 h2 _ => ?_
    refine .bind (Gives.shorter _).within fun _ rest3 h3 _ => ?_
    intro p hp
    have hmore := interfaceMethods_draws finish bound _ (id + 1) rest3 _ p hp
    rw [List.reverse_cons, List.map_append] at hmore
    have hown : Draws [] id ts.length [id] (id + 1) rest3 :=
      (Draws.none (Nat.le_refl _)).cons h3
    exact (hown.join (.refl _)).trans hmore
termination_by ts.length
decreasing_by omega

theorem interfaceRest_draws {p : Position} :
    Gives (interfaceRest finish p id ts) fun r rest =>
      Draws [] id ts.length r.1.nodes r.2 rest := by
  unfold interfaceRest
  refine .bind (.shorter _) fun name rest h _ => ?_
  refine .bind (Gives.shorter _).within fun _ rest1 h1 _ => ?_
  refine .bind (interfaceMethods_draws finish ts.length [] (id + 1) rest1 h1) ?_
  rintro ⟨methods, next⟩ rest2 h2 hmethods
  exact .ok (hmethods.cons h1)

theorem typeDeclarationRest_draws {p : Position} :
    Gives (typeDeclarationRest finish p id ts) fun r rest =>
      Draws [] id ts.length r.1.nodes r.2 rest := by
  unfold typeDeclarationRest
  split
  · rename_i t rest h hp
    refine .bind classRest_draws.within ?_
    rintro ⟨d, next⟩ rest1 h1 hd
    exact .ok (hd.preceded (Nat.le_of_lt h))
  · split
    · rename_i t rest h hp
      refine .bind interfaceRest_draws.within ?_
      rintro ⟨d, next⟩ rest1 h1 hd
      exact .ok (hd.preceded (Nat.le_of_lt h))
    · exact .error

theorem typeDeclaration_draws :
    Gives (typeDeclaration finish id ts) fun r rest =>
      Draws [] id ts.length r.1.nodes r.2 rest := by
  unfold typeDeclaration
  dsimp only
  split
  · rename_i t rest h hp
    exact (typeDeclarationRest_draws.imp fun _ _ hd => hd.preceded (Nat.le_of_lt h)).within
  · exact typeDeclarationRest_draws

theorem declarations_draws {ts : List Token} {done : List TypeDecl} {id next : NodeId}
    {program : Program} (h : declarations finish done id ts = .ok (program, next)) :
    Draws (done.reverse.flatMap TypeDecl.nodes) id ts.length program.nodes next [] := by
  rw [declarations] at h
  split at h
  · cases h
    exact .none (Nat.zero_le _)
  · cases hdecl : typeDeclaration finish id ts with
    | error fault =>
      rw [hdecl] at h
      cases h
    | ok p =>
      rw [hdecl] at h
      have hlt := p.shorter
      have hmore := declarations_draws h
      rw [List.reverse_cons, List.flatMap_append, List.flatMap_singleton] at hmore
      exact ((typeDeclaration_draws p hdecl).join (.refl _)).trans hmore
termination_by ts.length

end Javelet.Grammar

namespace Javelet

/-- A program that is read from tokens, with the last state of the counter. -/
theorem exists_draws {ts : List Token} {program : Program} (h : parse ts = .ok program) :
    ∃ k, Grammar.declarations (Grammar.finishOf ts) [] 0 ts = .ok (program, k) ∧
      Numbered 0 k program.nodes ∧ k ≤ ts.length := by
  unfold parse at h
  cases hd : Grammar.declarations (Grammar.finishOf ts) [] 0 ts with
  | error fault =>
    rw [hd] at h
    cases h
  | ok r =>
    rw [hd] at h
    cases h
    obtain ⟨⟨new, hperm, hnew⟩, hpaid⟩ := Grammar.declarations_draws hd
    refine ⟨r.2, rfl, hnew.perm hperm.symm, ?_⟩
    simpa using hpaid

/-- The nodes of a program that is read from a token list have different numbers, and these are the
numbers below the last state of the counter. There are at least as many tokens as numbers, so that a
counter of 32 bits does not wrap around in a list of fewer than 2^32 tokens. -/
theorem parse_numbers_nodes {ts : List Token} {program : Program} (h : parse ts = .ok program) :
    ∃ k, Grammar.declarations (Grammar.finishOf ts) [] 0 ts = .ok (program, k) ∧
      program.nodes.Nodup ∧ (∀ n, n ∈ program.nodes ↔ n < k) ∧ k ≤ ts.length := by
  obtain ⟨k, hk, hnumbered, hle⟩ := exists_draws h
  have hperm := hnumbered.perm_range
  refine ⟨k, hk, hnumbered.nodup, fun n => ?_, hle⟩
  rw [hperm.mem_iff, List.mem_range]

/-- Every kind of node that carries a number. The default of the switch stands in front of a case,
and the constructor behind the entry point. -/
def everyNode : String :=
  "interface I { void g(int n); } " ++
    "class A implements I \x7b public static void main(String[] a) { } " ++
    "void g(int n) \x7b for (int i = 0; i < n; i += 1) \x7b " ++
    "switch (i) { default: n = 1; case 1: { } } \x7d \x7d A() { } \x7d"

theorem everyNode_numbers : ∃ ts program k, tokenize everyNode = .ok ts ∧ parse ts = .ok program ∧
    program.nodes = [0, 1, 2, 13, 14, 5, 6, 7, 8, 9, 11, 12, 10, 3, 4] ∧
    Grammar.declarations (Grammar.finishOf ts) [] 0 ts = .ok (program, k) ∧
      program.nodes.Nodup ∧ (∀ n, n ∈ program.nodes ↔ n < k) ∧ k ≤ ts.length := by
  have hok : ((tokenize everyNode).toOption.bind fun ts => (parse ts).toOption.map Program.nodes) =
      some [0, 1, 2, 13, 14, 5, 6, 7, 8, 9, 11, 12, 10, 3, 4] := by
    rw [tokenize_ofList (s := everyNode)
      (Source.append_ofList (Source.append_ofList (Source.append_ofList rfl rfl) rfl) rfl)]
    decide +kernel
  cases hts : tokenize everyNode with
  | error fault =>
    rw [hts] at hok
    cases hok
  | ok ts =>
    rw [hts] at hok
    cases hp : parse ts with
    | error fault =>
      simp [Except.toOption, hp] at hok
    | ok program =>
      obtain ⟨k, hall⟩ := parse_numbers_nodes hp
      refine ⟨ts, program, k, rfl, hp, ?_, hall⟩
      simpa [Except.toOption, hp] using hok

end Javelet
