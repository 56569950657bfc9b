import Javelet.Proofs.Grammar.Numbers
import Javelet.Proofs.Progress.Readers
import Mathlib.Logic.Relation

/-!
# Calls of readers come to an end

Each reader ends as its script does, because the calls in a script weigh less than the reader whose
script it is. From the same weights it follows that a call of a reader inside another call of it has
fewer tokens left, through any number of other readers in between. The scripts say nothing of this:
they carry no bound, so that a run of them exists is what has to be shown.

How far a reader moves is told beside that. Most readers cannot succeed without a token. Loops that
go on with what they are given, and readers of parts that may be missing, can: then they leave all
tokens and find nothing of their own, and there is no third way.
-/
namespace Javelet.Grammar

variable {finish : Position} {ts us rest : List Token}

/-- Whether a reader has found something of its own. Most readers give nothing else. The others go
on with what they are given, or read a part that may be missing: operators and links behind what
stands in front of them, statements and declarations behind earlier ones, the statements of a case,
an access modifier, an initial value and a supertype. -/
def Reader.Finds : {σ α : Type} → Reader σ α → σ → α → Prop
  | _, _, .accessModifier, _, access => access ≠ none
  | _, _, .operators _, left, e => e ≠ left
  | _, _, .links, (head, done), c => c ≠ .mk head done.reverse
  | _, _, .statements, (_, _, done, _), (found, _) => found ≠ done.reverse
  | _, _, .caseBody, _, (body, _) => body.statements ≠ []
  | _, _, .initialValue, _, value => value ≠ none
  | _, _, .supertype, _, name => name ≠ none
  | _, _, .declarations, (done, _), (program, _) => program.declarations ≠ done.reverse
  | _, _, _, _, _ => True

/-! ## Loops -/

theorem shorter_of_stays {us rest : List Token} {p : Prop}
    (h : rest = us ∧ p ∨ rest.length < us.length) (hlt : us.length < ts.length) :
    rest.length < ts.length := by
  rcases h with ⟨rfl, -⟩ | h
  · exact hlt
  · exact shorter_trans h hlt

theorem operators_stays {finish : Position} {level : Level} {bound : Nat} {left : Expr}
    {ts : List Token} (h : ts.length < bound) :
    Gives (operators finish level bound left ts h) fun e rest =>
      rest = ts ∧ e = left ∨ rest.length < ts.length := by
  rw [operators]
  split
  · exact .ok (.inl ⟨rfl, rfl⟩)
  · refine .bind (.shorter _) fun right rest h' hlt => ?_
    dsimp only
    split
    · exact (operators_stays _).imp fun e more hmore =>
        .inr (shorter_of_stays hmore hlt)
    · exact .ok (.inr hlt)
termination_by ts.length

theorem links_stays {finish : Position} {bound : Nat} {head : Head} {done : List Link}
    {ts : List Token} (h : ts.length < bound) :
    Gives (links finish bound head done ts h) fun c rest =>
      rest = ts ∧ c = .mk head done.reverse ∨ rest.length < ts.length := by
  have hbehind : ∀ {done' : List Link} {rest : List Token} {h' : rest.length < bound},
      rest.length < ts.length → Gives (links finish bound head done' rest h') fun c more =>
        more = ts ∧ c = .mk head done.reverse ∨ more.length < ts.length := by
    intro done' rest h' hlt
    exact (links_stays h').imp fun c more hmore =>
      .inr (shorter_of_stays hmore hlt)
  rw [links]
  dsimp only
  split
  · refine .bind (.shorter _) fun name rest h' hlt => ?_
    dsimp only
    split
    · exact .bind (.shorter _) fun args rest h' hlt => hbehind hlt
    · exact hbehind hlt
  · split
    · exact .bind (.shorter _) fun index rest h' hlt =>
        .bind (.shorter _) fun _ rest h' hlt => hbehind hlt
    · exact .ok (.inl ⟨rfl, rfl⟩)
termination_by ts.length

theorem moreArguments_shorter {finish : Position} {bound : Nat} {done : List Expr}
    {ts : List Token} (h : ts.length < bound) :
    Gives (moreArguments finish bound done ts h) fun _ rest => rest.length < ts.length := by
  rw [moreArguments]
  refine .bind (.shorter _) fun arg rest h' hlt => ?_
  dsimp only
  split
  · rename_i more hmore e
    exact (moreArguments_shorter _).imp fun _ _ hrest =>
      shorter_trans hrest hmore
  · exact .bind (.shorter _) fun _ rest h' hlt => .ok hlt
termination_by ts.length

theorem statements_stays {finish : Position} {around : Surroundings} {stop : List Token → Bool}
    {bound : Nat} {done : List Statement} {id : NodeId} {ts : List Token} (h : ts.length < bound) :
    Gives (statements finish around stop bound done id ts h) fun r rest =>
      rest = ts ∧ r.1 = done.reverse ∨ rest.length < ts.length := by
  rw [statements]
  split
  · exact .ok (.inl ⟨rfl, rfl⟩)
  · split
    · exact .error
    · refine .bind (.shorter _) ?_
      rintro ⟨statement, next⟩ rest h' hlt
      exact (statements_stays _).imp fun r more hmore =>
        .inr (shorter_of_stays hmore hlt)
termination_by ts.length

theorem arms_shorter {finish : Position} {around : Surroundings} {bound : Nat} {done : Arms}
    {id : NodeId} {ts : List Token} (h : ts.length < bound) :
    Gives (arms finish around bound done id ts h) fun _ rest => rest.length < ts.length := by
  have hbehind : ∀ {done' : Arms} {next : NodeId} {rest : List Token} {h' : rest.length < bound},
      rest.length < ts.length →
        Gives (arms finish around bound done' next rest h') fun _ more =>
          more.length < ts.length := by
    intro done' next rest h' hlt
    exact (arms_shorter h').imp fun _ _ hmore =>
      shorter_trans hmore hlt
  rw [arms]
  dsimp only
  split
  · exact .ok ‹_›
  · split
    · refine .bind (.shorter _) fun label rest h' hlt => .bind (.shorter _) fun _ rest h' hlt => ?_
      exact .bind (.shorter _) fun body rest h' hlt => hbehind hlt
    · split
      · split
        · exact .error
        · refine .bind (.shorter _) fun _ rest h' hlt => ?_
          exact .bind (.shorter _) fun body rest h' hlt => hbehind hlt
      · exact .error
termination_by ts.length

theorem moreParameters_shorter {finish : Position} {bound : Nat} {done : List Parameter}
    {ts : List Token} (h : ts.length < bound) :
    Gives (moreParameters finish bound done ts h) fun _ rest => rest.length < ts.length := by
  rw [moreParameters]
  refine .bind (.shorter _) fun type rest h' hlt => .bind (.shorter _) fun name rest h' hlt => ?_
  dsimp only
  split
  · rename_i more hmore e
    exact (moreParameters_shorter _).imp fun _ _ hrest =>
      shorter_trans hrest hmore
  · exact .bind (.shorter _) fun _ rest h' hlt => .ok hlt
termination_by ts.length

theorem members_shorter {finish : Position} {className : String} {bound : Nat} {done : Members}
    {id : NodeId} {ts : List Token} (h : ts.length < bound) :
    Gives (members finish className bound done id ts h) fun _ rest => rest.length < ts.length := by
  rw [members]
  split
  · exact .ok ‹_›
  · split
    · exact .error
    · refine .bind (.shorter _) ?_
      rintro ⟨done, next⟩ rest h' hlt
      exact (members_shorter _).imp fun _ _ hmore =>
        shorter_trans hmore hlt
termination_by ts.length

theorem interfaceMethods_shorter {finish : Position} {bound : Nat} {done : List Signature}
    {id : NodeId} {ts : List Token} (h : ts.length < bound) :
    Gives (interfaceMethods finish bound done id ts h) fun _ rest => rest.length < ts.length := by
  rw [interfaceMethods]
  split
  · exact .ok ‹_›
  · refine .bind (.shorter _) fun type rest h' hlt => .bind (.shorter _) fun name rest h' hlt => ?_
    refine .bind (.shorter _) fun params rest h' hlt => .bind (.shorter _) fun _ rest h' hlt => ?_
    exact (interfaceMethods_shorter _).imp fun _ _ hmore =>
      shorter_trans hmore hlt
termination_by ts.length

/-! ## Parts that may be missing -/

theorem caseBody_stays {around : Surroundings} {id : NodeId} :
    Gives (caseBody finish around id ts) fun r rest =>
      rest = ts ∧ r.1.statements = [] ∨ rest.length < ts.length := by
  rw [caseBody]
  refine .bind (statements_stays _) fun r rest h' hstays => .ok ?_
  exact hstays

theorem initialValue_stays : Gives (initialValue finish ts) fun value rest =>
    rest = ts ∧ value = none ∨ rest.length < ts.length := by
  unfold initialValue
  split
  · rename_i more hmore e
    refine .bind (.shorter _) fun value rest h' hlt => .ok (.inr hlt)
  · exact .ok (.inl ⟨rfl, rfl⟩)

theorem supertype_stays {word what : String} :
    Gives (supertype finish word what ts) fun name rest =>
      rest = ts ∧ name = none ∨ rest.length < ts.length := by
  unfold supertype
  split
  · rename_i more hmore e
    refine .bind (.shorter _) fun value rest h' hlt => .ok (.inr hlt)
  · exact .ok (.inl ⟨rfl, rfl⟩)

theorem accessModifier_stays (ts : List Token) : (accessModifier ts).value = none ∨
    (accessModifier ts).rest.length < ts.length := by
  unfold accessModifier
  split
  · rename_i p e
    exact .inr p.shorter
  · exact .inl rfl

theorem declarations_stays {done : List TypeDecl} {id : NodeId} :
    Gives (finished (declarations finish done id ts)) fun r rest =>
      rest = ts ∧ r.1.declarations = done.reverse ∨ rest.length < ts.length := by
  cases ts with
  | nil =>
    rw [declarations]
    exact .ok (.inl ⟨rfl, rfl⟩)
  | cons t us =>
    intro p _
    exact .inr (Nat.lt_of_lt_of_le p.shorter (Nat.succ_le_succ (Nat.zero_le us.length)))

/-! ## All readers -/

theorem Gives.of_plain {α : Type} {bound : Nat} {o : Outcome α bound} {Q : α → List Token → Prop}
    {value : α} {rest : List Token} (ho : Gives o Q) (h : o.plain = .ok (value, rest)) :
    Q value rest := by
  cases o with
  | error fault => cases h
  | ok p =>
    cases h
    exact ho p rfl

/-- A reader that finds something uses up at least one token. -/
theorem Reader.Finds.shorter {σ α : Type} {r : Reader σ α} {input : σ} {value : α}
    {rest : List Token} (hfinds : r.Finds input value)
    (hread : reading finish r input ts = .ok (value, rest)) : rest.length < ts.length := by
  have hstays : ∀ {p : Prop}, ¬ p → rest = ts ∧ p ∨ rest.length < ts.length →
      rest.length < ts.length := by
    rintro p hp (⟨-, h⟩ | h)
    · exact absurd h hp
    · exact h
  cases r with
  | accessModifier =>
    cases hread
    exact (accessModifier_stays ts).resolve_left hfinds
  | operators level => exact hstays hfinds ((operators_stays _).of_plain hread)
  | links => exact hstays hfinds ((links_stays _).of_plain hread)
  | moreArguments => exact (moreArguments_shorter _).of_plain hread
  | statements => exact hstays hfinds ((statements_stays _).of_plain hread)
  | arms => exact (arms_shorter _).of_plain hread
  | caseBody => exact hstays hfinds (caseBody_stays.of_plain hread)
  | moreParameters => exact (moreParameters_shorter _).of_plain hread
  | initialValue => exact hstays hfinds (initialValue_stays.of_plain hread)
  | members => exact (members_shorter _).of_plain hread
  | supertype => exact hstays hfinds (supertype_stays.of_plain hread)
  | interfaceMethods => exact (interfaceMethods_shorter _).of_plain hread
  | declarations => exact hstays hfinds (declarations_stays.of_plain hread)
  | _ => exact (Gives.shorter _).of_plain hread

/-! ## Runs -/

/-- The script of a reader ends as the reader does. -/
theorem runs_reading {σ α : Type} (r : Reader σ α) (input : σ) (ts : List Token) :
    Runs finish (Script.body finish r input) ts (reading finish r input ts) := by
  -- By induction on the weight: all calls in the script weigh less than `r` does on `ts`.
  induction hn : weight r ts using Nat.strongRecOn generalizing σ α ts with
  | ind n ih =>
    subst hn
    exact (follows finish r input ts).runs fun r' input' us hlt => ih _ hlt r' input' us rfl

theorem runs_iff {σ α : Type} {r : Reader σ α} {input : σ} {o : Result α} :
    Runs finish (Script.body finish r input) ts o ↔ o = reading finish r input ts := by
  constructor
  · intro h
    exact h.unique (runs_reading r input ts)
  · rintro rfl
    exact runs_reading r input ts

/-- Reading a program ends as `parse` does, with no token left: the script itself goes up to there,
`parse` only gives the program. -/
theorem runs_parse (tokens : List Token) : Runs (finishOf tokens) Script.program tokens
    ((parse tokens).map fun program => (program, [])) := by
  have hrun : Runs (finishOf tokens) (Script.declarations [] 0) tokens
      (finished (declarations (finishOf tokens) [] 0 tokens)).plain :=
    runs_reading .declarations ([], 0) tokens
  unfold parse
  cases hread : declarations (finishOf tokens) [] 0 tokens with
  | error fault =>
    rw [hread] at hrun
    exact .callFails hrun
  | ok p =>
    rw [hread] at hrun
    exact .call hrun .give

theorem reading_suffix {σ α : Type} {r : Reader σ α} {input : σ} {value : α}
    (h : reading finish r input ts = .ok (value, rest)) : rest <:+ ts :=
  (runs_reading r input ts).suffix _ _ h

/-- A reader moves a cursor in a token list on, never back and never past the end, and it does move
if it finds something. -/
theorem reading_cursor {tokens : List Token} {σ α : Type} {r : Reader σ α} {input : σ}
    {cursor : Nat} {value : α} (hcursor : cursor ≤ tokens.length)
    (h : reading finish r input (tokens.drop cursor) = .ok (value, rest)) :
    ∃ cursor', rest = tokens.drop cursor' ∧ cursor ≤ cursor' ∧ cursor' ≤ tokens.length ∧
      (r.Finds input value → cursor < cursor') := by
  have hsuffix : rest <:+ tokens.drop cursor := reading_suffix h
  have hle := hsuffix.length_le
  rw [List.length_drop] at hle
  have hdrop : rest = tokens.drop (tokens.length - rest.length) :=
    List.suffix_iff_eq_drop.1 (hsuffix.trans (List.drop_suffix cursor tokens))
  refine ⟨tokens.length - rest.length, hdrop, by omega, Nat.sub_le .., fun hfinds => ?_⟩
  have hlt := hfinds.shorter h
  rw [List.length_drop] at hlt
  omega

/-! ## Nested calls -/

theorem Makes.weight_lt {c c' : Call} (h : Makes finish c c') :
    weight c'.reader c'.tokens < weight c.reader c.tokens :=
  (follows finish c.reader c.input c.tokens).weight_lt (fun r input us => runs_reading r input us) h

/-- The second call is made before the first one has ended. -/
def Encloses (finish : Position) : Call → Call → Prop := Relation.TransGen (Makes finish)

theorem Encloses.weight_lt {c c' : Call} (h : Encloses finish c c') :
    weight c'.reader c'.tokens < weight c.reader c.tokens := by
  induction h with
  | single h => exact h.weight_lt
  | tail _ h ih => exact Nat.lt_trans h.weight_lt ih

theorem Encloses.suffix {c c' : Call} (h : Encloses finish c c') : c'.tokens <:+ c.tokens := by
  induction h with
  | single h => exact Asks.suffix h
  | tail _ h ih => exact (Asks.suffix h).trans ih

theorem Encloses.shorter {σ α : Type} {r : Reader σ α} {input input' : σ}
    (h : Encloses finish ⟨r, input, ts⟩ ⟨r, input', us⟩) : us.length < ts.length := by
  have hlt := h.weight_lt
  unfold weight at hlt
  dsimp only at hlt
  omega

/-- The tokens of `f(x`. -/
def openCall : List Token :=
  [⟨.identifier, "f", ⟨1, 0⟩⟩, ⟨.symbol .leftParen, "(", ⟨1, 1⟩⟩, ⟨.identifier, "x", ⟨1, 2⟩⟩]

/-- An argument of a call inside an argument is reached through each level of operators, the chain
and the parenthesis, although the call is never closed. -/
theorem openCall_encloses : Encloses ⟨1, 3⟩ ⟨.moreArguments, [], openCall⟩
    ⟨.moreArguments, [], openCall.drop 2⟩ := by
  -- The argument and its five levels are read on the same tokens, two calls for each level.
  have hdown : Encloses ⟨1, 3⟩ ⟨.moreArguments, [], openCall⟩ ⟨.operand .product, (), openCall⟩ :=
    .tail (.tail (.tail (.tail (.tail (.tail (.tail (.tail (.tail (.single .call)
      .call) .call) .call) .call) .call) .call) .call) .call) .call
  have hprimary : Makes ⟨1, 3⟩ ⟨.operand .product, (), openCall⟩ ⟨.primary, (), openCall⟩ := .call
  have hchain : Makes ⟨1, 3⟩ ⟨.primary, (), openCall⟩ ⟨.chain, (), openCall⟩ := .look .call
  have harguments : Makes ⟨1, 3⟩ ⟨.chain, (), openCall⟩ ⟨.arguments, (), openCall.drop 1⟩ :=
    .look (.look (.look (.take (.look .call))))
  have hargument : Makes ⟨1, 3⟩ ⟨.arguments, (), openCall.drop 1⟩
      ⟨.moreArguments, [], openCall.drop 2⟩ :=
    .look (.take (.look .call))
  exact (((hdown.tail hprimary).tail hchain).tail harguments).tail hargument

end Javelet.Grammar

namespace Javelet

open Grammar

/-- Reading moves on. From any cursor in a token list a reader that succeeds stands at a later
cursor or at the same one, never past the end, and at a later one if it has found something. A call
inside another one looks at no more tokens, and at fewer if both are calls of the same reader; a
loop going through again is such a call. Every script has one run, which ends as its reader does, so
nothing is read forever; and reading a whole program ends as `parse` does and leaves no token when
it succeeds. -/
theorem parser_progress (tokens : List Token) :
    (∀ (finish : Position) {σ α : Type} (r : Reader σ α) (input : σ) (cursor : Nat) (value : α)
      (rest : List Token), cursor ≤ tokens.length →
        reading finish r input (tokens.drop cursor) = .ok (value, rest) →
          ∃ cursor', rest = tokens.drop cursor' ∧ cursor ≤ cursor' ∧ cursor' ≤ tokens.length ∧
            (r.Finds input value → cursor < cursor')) ∧
    (∀ (finish : Position) (c c' : Call), Encloses finish c c' → c'.tokens <:+ c.tokens) ∧
    (∀ (finish : Position) {σ α : Type} (r : Reader σ α) (input input' : σ) (ts us : List Token),
      Encloses finish ⟨r, input, ts⟩ ⟨r, input', us⟩ → us.length < ts.length) ∧
    (∀ (finish : Position) {σ α : Type} (r : Reader σ α) (input : σ) (ts : List Token)
      (o : Result α), Runs finish (Script.body finish r input) ts o ↔
        o = reading finish r input ts) ∧
    ∀ o, Runs (finishOf tokens) Script.program tokens o ↔
      o = (parse tokens).map fun program => (program, []) := by
  refine ⟨?_, ?_, ?_, ?_, ?_⟩
  · intro finish σ α r input cursor value rest hcursor h
    exact reading_cursor hcursor h
  · exact fun finish c c' h => h.suffix
  · exact fun finish σ α r input input' ts us h => h.shorter
  · exact fun finish σ α r input ts o => runs_iff
  · intro o
    constructor
    · intro h
      exact h.unique (runs_parse tokens)
    · rintro rfl
      exact runs_parse tokens

theorem parser_progress_openCall :
    (2 ≤ openCall.length ∧
      reading ⟨1, 3⟩ .typeName "Expected type" (openCall.drop 2) = .ok ("x", []) ∧
      ∃ cursor', [] = openCall.drop cursor' ∧ 2 < cursor' ∧ cursor' ≤ openCall.length) ∧
    Encloses ⟨1, 3⟩ ⟨.moreArguments, [], openCall⟩ ⟨.moreArguments, [], openCall.drop 2⟩ ∧
    (openCall.drop 2).length < openCall.length := by
  obtain ⟨hcursor, -, hshorter, -⟩ := parser_progress openCall
  have hread : reading ⟨1, 3⟩ .typeName "Expected type" (openCall.drop 2) = .ok ("x", []) := rfl
  obtain ⟨cursor', hrest, -, hend, hfinds⟩ :=
    hcursor ⟨1, 3⟩ .typeName "Expected type" 2 "x" [] (by decide) hread
  refine ⟨⟨by decide, hread, cursor', hrest, hfinds trivial, hend⟩, openCall_encloses, ?_⟩
  exact hshorter _ _ _ _ _ _ openCall_encloses

end Javelet
