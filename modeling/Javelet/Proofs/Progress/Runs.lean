import Javelet.Proofs.Progress.Scripts

/-!
# Running scripts

A call runs the script of its reader from where the caller stands, and the caller goes on behind it.
Running is a relation: if reading went on forever, there would be no run. The calls that are made on
the way are told apart from how the run ends, so a run that stops at a fault has its calls, too.

`Follows` runs a script with the readers themselves for its calls. It asks for a limit on the
weight of these calls: fewer tokens weigh less, and on the same tokens a reader weighs less that
has a lower rank. There is a rule for each way of putting scripts together, beside the way in which
readers are put together.
-/
namespace Javelet.Grammar

variable {α β σ : Type} {bound : Nat} {finish : Position} {ts us rest : List Token}

/-- What a reader gives and the tokens behind it, or its fault. -/
abbrev Result (α : Type) := Except (Located Fault) (α × List Token)

/-- An outcome without the bound on what is left. -/
def Outcome.plain (o : Outcome α bound) : Result α := o.map fun p => (p.value, p.rest)

/-- The outcome of a reader that stops only where no token is left. -/
def finished (o : Except (Located Fault) α) : Outcome α 1 :=
  o.map fun value => ⟨value, [], Nat.one_pos⟩

/-- What the readers give. A loop has a bound just above the tokens that are left; with any other
bound it gives the same. -/
def reading (finish : Position) : {σ α : Type} → Reader σ α → σ → List Token → Result α
  | _, _, .typeName, what, ts => (typeName finish what ts).plain
  | _, _, .type, (), ts => (type finish ts).plain
  | _, _, .returnType, (), ts => (returnType finish ts).plain
  | _, _, .accessModifier, (), ts => .ok ((accessModifier ts).value, (accessModifier ts).rest)
  | _, _, .integerLiteral, (p, negative), ts => (integerLiteral finish p negative ts).plain
  | _, _, .binary level, (), ts => (binary finish level ts).plain
  | _, _, .operand level, (), ts => (operand finish level ts).plain
  | _, _, .operators level, left, ts =>
    (operators finish level (ts.length + 1) left ts (shorter_succ ts)).plain
  | _, _, .primary, (), ts => (primary finish ts).plain
  | _, _, .creation, (), ts => (creation finish ts).plain
  | _, _, .chain, (), ts => (chain finish ts).plain
  | _, _, .links, (head, done), ts =>
    (links finish (ts.length + 1) head done ts (shorter_succ ts)).plain
  | _, _, .arguments, (), ts => (arguments finish ts).plain
  | _, _, .moreArguments, done, ts =>
    (moreArguments finish (ts.length + 1) done ts (shorter_succ ts)).plain
  | _, _, .expression, (), ts => (expression finish ts).plain
  | _, _, .variableDeclaration, (), ts => (variableDeclaration finish ts).plain
  | _, _, .assignmentRest, target, ts => (assignmentRest finish target ts).plain
  | _, _, .assignment, (), ts => (assignment finish ts).plain
  | _, _, .action, (), ts => (action finish ts).plain
  | _, _, .closeJump, (p, jump), ts => (closeJump finish p jump ts).plain
  | _, _, .jump, around, ts => (jump finish around ts).plain
  | _, _, .condition, word, ts => (condition finish word ts).plain
  | _, _, .closeInit, init, ts => (closeInit finish init ts).plain
  | _, _, .forInit, (), ts => (forInit finish ts).plain
  | _, _, .forCondition, (), ts => (forCondition finish ts).plain
  | _, _, .forUpdate, (), ts => (forUpdate finish ts).plain
  | _, _, .caseLabel, (), ts => (caseLabel finish ts).plain
  | _, _, .statement, (around, id), ts => (statement finish around id ts).plain
  | _, _, .block, (around, id), ts => (block finish around id ts).plain
  | _, _, .statements, (around, stop, done, id), ts =>
    (statements finish around stop (ts.length + 1) done id ts (shorter_succ ts)).plain
  | _, _, .conditional, (around, id), ts => (conditional finish around id ts).plain
  | _, _, .whileLoop, id, ts => (whileLoop finish id ts).plain
  | _, _, .forLoop, id, ts => (forLoop finish id ts).plain
  | _, _, .switch, (around, id), ts => (switch finish around id ts).plain
  | _, _, .arms, (around, done, id), ts =>
    (arms finish around (ts.length + 1) done id ts (shorter_succ ts)).plain
  | _, _, .caseBody, (around, id), ts => (caseBody finish around id ts).plain
  | _, _, .moreParameters, done, ts =>
    (moreParameters finish (ts.length + 1) done ts (shorter_succ ts)).plain
  | _, _, .parameters, (), ts => (parameters finish ts).plain
  | _, _, .methodRest, header, ts => (methodRest finish header ts).plain
  | _, _, .mainMethod, (p, access, id), ts => (mainMethod finish p access id ts).plain
  | _, _, .initialValue, (), ts => (initialValue finish ts).plain
  | _, _, .typedMember, (p, access, done, id), ts =>
    (typedMember finish p access done id ts).plain
  | _, _, .constructorMember, (p, className, access, done, id), ts =>
    (constructorMember finish p className access done id ts).plain
  | _, _, .member, (className, done, id), ts => (member finish className done id ts).plain
  | _, _, .members, (className, done, id), ts =>
    (members finish className (ts.length + 1) done id ts (shorter_succ ts)).plain
  | _, _, .supertype, (word, what), ts => (supertype finish word what ts).plain
  | _, _, .classRest, (p, id), ts => (classRest finish p id ts).plain
  | _, _, .interfaceMethods, (done, id), ts =>
    (interfaceMethods finish (ts.length + 1) done id ts (shorter_succ ts)).plain
  | _, _, .interfaceRest, (p, id), ts => (interfaceRest finish p id ts).plain
  | _, _, .typeDeclarationRest, (p, id), ts => (typeDeclarationRest finish p id ts).plain
  | _, _, .typeDeclaration, id, ts => (typeDeclaration finish id ts).plain
  | _, _, .declarations, (done, id), ts => (finished (declarations finish done id ts)).plain

/-- How a script ends that is run from the tokens that are left. It cannot move on behind a token
where none is left. -/
inductive Runs (finish : Position) : {α : Type} → Script α → List Token → Result α → Prop
  | give {α : Type} {value : α} {ts : List Token} :
      Runs finish (.give value) ts (.ok (value, ts))
  | fail {α : Type} {fault : Located Fault} {ts : List Token} :
      Runs finish (.fail fault : Script α) ts (.error fault)
  | look {α : Type} {next : List Token → Script α} {ts : List Token} {o : Result α} :
      Runs finish (next ts) ts o → Runs finish (.look next) ts o
  | take {α : Type} {next : Script α} {t : Token} {ts : List Token} {o : Result α} :
      Runs finish next ts o → Runs finish (.take next) (t :: ts) o
  | call {σ α β : Type} {reader : Reader σ β} {input : σ} {next : β → Script α} {value : β}
      {ts rest : List Token} {o : Result α} :
      Runs finish (Script.body finish reader input) ts (.ok (value, rest)) →
      Runs finish (next value) rest o → Runs finish (.call reader input next) ts o
  | callFails {σ α β : Type} {reader : Reader σ β} {input : σ} {next : β → Script α}
      {ts : List Token} {fault : Located Fault} :
      Runs finish (Script.body finish reader input) ts (.error fault) →
      Runs finish (.call reader input next) ts (.error fault)

/-- A script ends in one way only. -/
theorem Runs.unique {s : Script α} {o o' : Result α} (h : Runs finish s ts o)
    (h' : Runs finish s ts o') : o = o' := by
  induction h with
  | give =>
    cases h'
    rfl
  | fail =>
    cases h'
    rfl
  | look _ ih =>
    cases h' with
    | look h' => exact ih h'
  | take _ ih =>
    cases h' with
    | take h' => exact ih h'
  | call _ _ ihcall ihnext =>
    cases h' with
    | call hcall hnext =>
      cases ihcall hcall
      exact ihnext hnext
    | callFails hcall => cases ihcall hcall
  | callFails _ ihcall =>
    cases h' with
    | call hcall hnext => cases ihcall hcall
    | callFails hcall =>
      cases ihcall hcall
      rfl

/-- What is left behind a run is the end of what was there. -/
theorem Runs.suffix {s : Script α} {o : Result α} (h : Runs finish s ts o) :
    ∀ value rest, o = .ok (value, rest) → rest <:+ ts := by
  induction h with
  | give =>
    rintro value rest ⟨⟩
    exact List.suffix_rfl
  | fail => nofun
  | look _ ih => exact ih
  | take _ ih =>
    intro value rest h
    exact (ih value rest h).trans (List.suffix_cons ..)
  | call _ _ ihcall ihnext =>
    intro value rest h
    exact (ihnext value rest h).trans (ihcall _ _ rfl)
  | callFails _ _ => nofun

/-! ## Calls -/

/-- A call of a reader, with the tokens that are left when it is made. -/
structure Call where
  {given answer : Type}
  reader : Reader given answer
  input : given
  tokens : List Token

/-- The calls that a script makes itself when it is run. -/
inductive Asks (finish : Position) {α : Type} : Script α → List Token → Call → Prop
  | look {next : List Token → Script α} {ts : List Token} {c : Call} :
      Asks finish (next ts) ts c → Asks finish (.look next) ts c
  | take {next : Script α} {t : Token} {ts : List Token} {c : Call} :
      Asks finish next ts c → Asks finish (.take next) (t :: ts) c
  | call {σ β : Type} {reader : Reader σ β} {input : σ} {next : β → Script α} {ts : List Token} :
      Asks finish (.call reader input next) ts ⟨reader, input, ts⟩
  | behind {σ β : Type} {reader : Reader σ β} {input : σ} {next : β → Script α} {value : β}
      {ts rest : List Token} {c : Call} :
      Runs finish (Script.body finish reader input) ts (.ok (value, rest)) →
      Asks finish (next value) rest c → Asks finish (.call reader input next) ts c

/-- The first call makes the second one itself. -/
def Makes (finish : Position) (c c' : Call) : Prop :=
  Asks finish (Script.body finish c.reader c.input) c.tokens c'

theorem Asks.suffix {s : Script α} {c : Call} (h : Asks finish s ts c) : c.tokens <:+ ts := by
  induction h with
  | look _ ih => exact ih
  | take _ ih => exact ih.trans (List.suffix_cons ..)
  | call => exact List.suffix_rfl
  | behind hrun _ ih => exact ih.trans (hrun.suffix _ _ rfl)

/-! ## Weights -/

namespace Reader

/-- Where a reader stands among those that may be called on the same tokens: it calls only readers
of a lower rank there. -/
def rank : {σ α : Type} → Reader σ α → Nat
  | _, _, .type => 1
  | _, _, .returnType => 2
  | _, _, .primary => 1
  | _, _, .operand level => 2 * level.rank
  | _, _, .binary level => 2 * level.rank + 1
  | _, _, .expression => 12
  | _, _, .moreArguments => 12
  | _, _, .variableDeclaration => 2
  | _, _, .assignment => 1
  | _, _, .action => 1
  | _, _, .forInit => 3
  | _, _, .forCondition => 13
  | _, _, .forUpdate => 2
  | _, _, .caseLabel => 2
  | _, _, .statement => 3
  | _, _, .statements => 4
  | _, _, .caseBody => 5
  | _, _, .moreParameters => 2
  | _, _, .methodRest => 1
  | _, _, .typedMember => 3
  | _, _, .member => 4
  | _, _, .members => 5
  | _, _, .interfaceMethods => 3
  | _, _, .typeDeclaration => 1
  | _, _, .declarations => 2
  | _, _, _ => 0

theorem rank_binary (level : Level) : (binary level).rank = 2 * level.rank + 1 := rfl

theorem rank_operand (level : Level) : (operand level).rank = 2 * level.rank := rfl

theorem rank_lt {σ α : Type} (r : Reader σ α) : r.rank < 14 := by
  cases r with
  | binary level => cases level <;> decide
  | operand level => cases level <;> decide
  | operators level => exact Nat.zero_lt_succ 13
  | _ => decide

end Reader

/-- The tokens that are left weigh more than any rank. -/
def weight (r : Reader σ α) (ts : List Token) : Nat := 14 * ts.length + r.rank

theorem weight_lt_of_shorter {σ' α' : Type} {r : Reader σ α} {r' : Reader σ' α'}
    (h : us.length < ts.length) : weight r us < weight r' ts := by
  have := r.rank_lt
  unfold weight
  omega

theorem weight_lt_of_rank {σ' α' : Type} {r : Reader σ α} {r' : Reader σ' α'}
    (hrank : r.rank < r'.rank) (h : us.length ≤ ts.length) : weight r us < weight r' ts := by
  unfold weight
  omega

/-! ## Following scripts -/

/-- Running a script with the readers for its calls: how it ends. All calls weigh less than the
limit. -/
inductive Follows (finish : Position) (limit : Nat) {α : Type} :
    Script α → List Token → Result α → Prop
  | give {value : α} {ts : List Token} : Follows finish limit (.give value) ts (.ok (value, ts))
  | fail {fault : Located Fault} {ts : List Token} :
      Follows finish limit (.fail fault) ts (.error fault)
  | look {next : List Token → Script α} {ts : List Token} {o : Result α} :
      Follows finish limit (next ts) ts o → Follows finish limit (.look next) ts o
  | take {next : Script α} {t : Token} {ts : List Token} {o : Result α} :
      Follows finish limit next ts o → Follows finish limit (.take next) (t :: ts) o
  | call {σ β : Type} {reader : Reader σ β} {input : σ} {next : β → Script α} {value : β}
      {ts rest : List Token} {o : Result α} : weight reader ts < limit →
      reading finish reader input ts = .ok (value, rest) →
      Follows finish limit (next value) rest o → Follows finish limit (.call reader input next) ts o
  | callFails {σ β : Type} {reader : Reader σ β} {input : σ} {next : β → Script α}
      {ts : List Token} {fault : Located Fault} : weight reader ts < limit →
      reading finish reader input ts = .error fault →
      Follows finish limit (.call reader input next) ts (.error fault)

/-- Use up the first token if it stands for something. -/
def acceptedAs (meaning : Token → Option α) (ts : List Token) : Option (Parsed α ts.length) :=
  match ts with
  | [] => none
  | t :: rest => (meaning t).map fun value => ⟨value, rest, shorter_cons t rest⟩

theorem accept_eq (test : Token → Bool) (ts : List Token) :
    accept test ts = acceptedAs (Option.guard test) ts := by
  cases ts with
  | nil => rfl
  | cons t rest =>
    unfold accept acceptedAs Option.guard
    dsimp only
    split
    · rfl
    · rfl

theorem acceptOperator_eq (level : Level) (ts : List Token) :
    acceptOperator level ts = acceptedAs (Script.ofSymbol level.operator?) ts := by
  cases ts with
  | nil => rfl
  | cons t rest =>
    unfold acceptOperator acceptedAs Script.ofSymbol
    dsimp only
    cases t.kind <;> rfl

theorem acceptAssignOp_eq (ts : List Token) :
    acceptAssignOp ts = acceptedAs (Script.ofSymbol assignOp?) ts := by
  cases ts with
  | nil => rfl
  | cons t rest =>
    unfold acceptAssignOp acceptedAs Script.ofSymbol
    dsimp only
    cases t.kind <;> rfl

/-- Use up a token that must be there. -/
def expected (finish : Position) (test : Token → Bool) (code : Code) (what : String)
    (ts : List Token) : Outcome Token ts.length :=
  match accept test ts with
  | some parsed => .ok parsed
  | none => refuse finish code what none ts

section Expected

variable {what : String}

theorem expectSymbol_eq {symbol : Symbol} : expectSymbol finish symbol what ts =
    expected finish (fun t => t.kind == .symbol symbol) .unexpectedToken what ts :=
  rfl

theorem expectKeyword_eq {word : String} : expectKeyword finish word what ts =
    expected finish (fun t => t.isKeyword word) .unexpectedToken what ts :=
  rfl

theorem expectName_eq : expectName finish what ts = (do
    let ⟨t, rest, h⟩ ← expected finish (fun t => t.kind == .identifier) .expectedName what ts
    .ok ⟨t.text, rest, h⟩) := by
  unfold expectName expected
  cases accept (fun t => t.kind == .identifier) ts <;> rfl

theorem typeName_eq : typeName finish what ts = (do
    let ⟨t, rest, h⟩ ← expected finish isTypeName .expectedType what ts
    .ok ⟨t.text, rest, h⟩) := by
  unfold typeName expected
  cases accept isTypeName ts <;> rfl

theorem integerLiteral_eq {p : Option Position} {negative : Bool} :
    integerLiteral finish p negative ts = (do
      let ⟨t, rest, h⟩ ← expected finish (fun t => t.kind == .integer) .unexpectedToken
        "Expected integer literal" ts
      match integerValue t.text negative with
      | .ok value => .ok ⟨.literal (p.getD t.position) (.int value), rest, h⟩
      | .error fault => .error ⟨fault, t.position⟩) := by
  unfold integerLiteral expected
  cases accept (fun t => t.kind == .integer) ts <;> rfl

end Expected

namespace Follows

variable {limit : Nat} {s s' : Script α} {k : β → Script α} {o : Result α}

/-- If the calls are run as the readers read, the script is run. -/
theorem runs (h : Follows finish limit s ts o)
    (hread : ∀ {σ β : Type} (r : Reader σ β) (input : σ) (us : List Token), weight r us < limit →
      Runs finish (Script.body finish r input) us (reading finish r input us)) :
    Runs finish s ts o := by
  induction h with
  | give => exact .give
  | fail => exact .fail
  | look _ ih => exact .look ih
  | take _ ih => exact .take ih
  | call hlt hcall _ ih => exact .call (hcall ▸ hread _ _ _ hlt) ih
  | callFails hlt hcall => exact .callFails (hcall ▸ hread _ _ _ hlt)

theorem weight_lt (h : Follows finish limit s ts o)
    (hread : ∀ {σ β : Type} (r : Reader σ β) (input : σ) (us : List Token),
      Runs finish (Script.body finish r input) us (reading finish r input us)) {c : Call}
    (hc : Asks finish s ts c) : weight c.reader c.tokens < limit := by
  induction h with
  | give => cases hc
  | fail => cases hc
  | look _ ih =>
    cases hc with
    | look hc => exact ih hc
  | take _ ih =>
    cases hc with
    | take hc => exact ih hc
  | call hlt hcall _ ih =>
    cases hc with
    | call => exact hlt
    | behind hrun hc =>
      cases hcall.symm.trans ((hread _ _ _).unique hrun)
      exact ih hc
  | callFails hlt hcall =>
    cases hc with
    | call => exact hlt
    | behind hrun _ => cases hcall.symm.trans ((hread _ _ _).unique hrun)

theorem andThen {s : Script β} {first : Result β} (hs : Follows finish limit s ts first)
    (hok : ∀ value rest, first = .ok (value, rest) → Follows finish limit (k value) rest o)
    (herror : ∀ fault, first = .error fault → o = .error fault) :
    Follows finish limit (s >>= k) ts o := by
  induction hs with
  | give => exact hok _ _ rfl
  | fail =>
    rw [herror _ rfl]
    exact .fail
  | look _ ih => exact .look (ih hok herror)
  | take _ ih => exact .take (ih hok herror)
  | call hlt hcall _ ih => exact .call hlt hcall (ih hok herror)
  | callFails hlt hcall =>
    rw [herror _ rfl]
    exact .callFails hlt hcall

theorem bind {s : Script β} {inner : Nat} {first : Outcome β inner}
    {f : Parsed β inner → Outcome α bound} (hs : Follows finish limit s ts first.plain)
    (hk : ∀ value rest h, Follows finish limit (k value) rest (f ⟨value, rest, h⟩).plain) :
    Follows finish limit (s >>= k) ts (Outcome.plain (first >>= f)) := by
  apply hs.andThen
  · intro value rest h
    cases first with
    | error fault => cases h
    | ok p =>
      cases h
      exact hk p.value p.rest p.shorter
  · intro fault h
    cases first with
    | error fault =>
      cases h
      rfl
    | ok p => cases h

theorem ask {r : Reader σ α} {input : σ} (h : weight r ts < limit) :
    Follows finish limit (Script.ask r input) ts (reading finish r input ts) := by
  cases hread : reading finish r input ts with
  | ok p => exact .call h hread .give
  | error fault => exact .callFails h hread

/-- A reader may call one of a lower rank on the same tokens. -/
theorem ask_same {σ' α' : Type} {r : Reader σ α} {r' : Reader σ' α'} {input : σ}
    (hrank : r.rank < r'.rank) :
    Follows finish (weight r' ts) (Script.ask r input) ts (reading finish r input ts) :=
  ask (weight_lt_of_rank hrank (Nat.le_refl _))

/-- Any reader may be called where fewer tokens are left. -/
theorem ask_behind {σ' α' : Type} {r : Reader σ α} {r' : Reader σ' α'} {input : σ}
    (h : us.length < ts.length) :
    Follows finish (weight r' ts) (Script.ask r input) us (reading finish r input us) :=
  ask (weight_lt_of_shorter h)

/-- A reader may call one of a lower rank behind a part that may be missing. -/
theorem ask_optional {σ' α' : Type} {r : Reader σ α} {r' : Reader σ' α'} {input : σ}
    (hrank : r.rank < r'.rank) (h : us.length < ts.length + 1) :
    Follows finish (weight r' ts) (Script.ask r input) us (reading finish r input us) :=
  ask (weight_lt_of_rank hrank (Nat.le_of_lt_succ h))

/-- A part that may be missing never stops a reader. -/
theorem ask_bind {σ' α' : Type} {r : Reader σ β} {r' : Reader σ' α'} {input : σ} {value : β}
    (h : weight r us < weight r' ts) (hread : reading finish r input us = .ok (value, rest))
    (hk : Follows finish (weight r' ts) (k value) rest o) :
    Follows finish (weight r' ts) (Script.ask r input >>= k) us o :=
  .call h hread hk

/-- A loop is entered or gone through again with a bound that does not matter. -/
theorem loop_behind {σ' α' : Type} {r : Reader σ α} {r' : Reader σ' α'} {input : σ}
    (h : us.length < ts.length) (ho : reading finish r input us = o) :
    Follows finish (weight r' ts) (Script.ask r input) us o :=
  ho ▸ ask_behind h

theorem map {inner : Nat} {first : Outcome α inner} {f : Parsed α inner → Parsed α bound}
    (h : Follows finish limit s ts first.plain)
    (hf : ∀ p, (f p).value = p.value ∧ (f p).rest = p.rest) :
    Follows finish limit s ts (Outcome.plain (first.map f)) := by
  cases first with
  | error fault => exact h
  | ok p =>
    change Follows finish limit s ts (.ok ((f p).value, (f p).rest))
    rw [(hf p).1, (hf p).2]
    exact h

theorem within {h : us.length < bound} {first : Outcome α us.length}
    (hs : Follows finish limit s ts first.plain) :
    Follows finish limit s ts (within h first).plain :=
  hs.map fun _ => ⟨rfl, rfl⟩

theorem optionalWithin {h : us.length < bound} {first : Outcome α (us.length + 1)}
    (hs : Follows finish limit s ts first.plain) :
    Follows finish limit s ts (optionalWithin h first).plain :=
  hs.map fun _ => ⟨rfl, rfl⟩

theorem behind {h : rest.length < us.length + 1} {first : Outcome α rest.length}
    (hs : Follows finish limit s ts first.plain) :
    Follows finish limit s ts (behind h first).plain :=
  hs.map fun _ => ⟨rfl, rfl⟩

theorem ite {c : Prop} [Decidable c] {first second : Outcome α bound}
    (hpos : c → Follows finish limit s ts first.plain)
    (hneg : ¬ c → Follows finish limit s' ts second.plain) :
    Follows finish limit (if c then s else s') ts (if c then first else second).plain := by
  split
  · exact hpos ‹_›
  · exact hneg ‹_›

/-! ### Tokens -/

theorem place_bind {k : Position → Script α} (h : Follows finish limit (k (here finish ts)) ts o) :
    Follows finish limit (Script.place finish >>= k) ts o :=
  .look h

theorem ahead_bind {k : List Token → Script α} (h : Follows finish limit (k ts) ts o) :
    Follows finish limit (Script.ahead >>= k) ts o :=
  .look h

theorem skip_bind {t : Token} {k : Unit → Script α} (h : Follows finish limit (k ()) ts o) :
    Follows finish limit (Script.skip >>= k) (t :: ts) o :=
  .take h

theorem refuse {code : Code} {what : String} {hint : Option String} :
    Follows finish limit (Script.refuse finish code what hint : Script α) ts
      (refuse finish code what hint ts : Outcome α bound).plain :=
  .look .fail

theorem acceptAs_bind {meaning : Token → Option β} {k : Option β → Script α}
    (hsome : ∀ value rest h, acceptedAs meaning ts = some ⟨value, rest, h⟩ →
      Follows finish limit (k (some value)) rest o)
    (hnone : acceptedAs meaning ts = none → Follows finish limit (k none) ts o) :
    Follows finish limit (Script.acceptAs meaning >>= k) ts o := by
  change Follows finish limit (.look fun ts => Script.bind _ k) ts o
  apply Follows.look
  cases ts with
  | nil => exact hnone rfl
  | cons t rest =>
    cases hmeaning : meaning t with
    | some value =>
      simp only [List.head?_cons, Option.bind_some, hmeaning]
      refine .take (hsome value rest (shorter_cons t rest) ?_)
      rw [acceptedAs, hmeaning, Option.map_some]
    | none =>
      simp only [List.head?_cons, Option.bind_some, hmeaning]
      apply hnone
      rw [acceptedAs, hmeaning, Option.map_none]

theorem accept_bind {test : Token → Bool} {k : Option Token → Script α}
    (hsome : ∀ t rest h, accept test ts = some ⟨t, rest, h⟩ →
      Follows finish limit (k (some t)) rest o)
    (hnone : accept test ts = none → Follows finish limit (k none) ts o) :
    Follows finish limit (Script.accept test >>= k) ts o := by
  rw [accept_eq] at hsome hnone
  exact acceptAs_bind hsome hnone

theorem acceptSymbol_bind {symbol : Symbol} {k : Option Token → Script α}
    (hsome : ∀ t rest h, acceptSymbol symbol ts = some ⟨t, rest, h⟩ →
      Follows finish limit (k (some t)) rest o)
    (hnone : acceptSymbol symbol ts = none → Follows finish limit (k none) ts o) :
    Follows finish limit (Script.acceptSymbol symbol >>= k) ts o :=
  accept_bind hsome hnone

theorem acceptKeyword_bind {word : String} {k : Option Token → Script α}
    (hsome : ∀ t rest h, acceptKeyword word ts = some ⟨t, rest, h⟩ →
      Follows finish limit (k (some t)) rest o)
    (hnone : acceptKeyword word ts = none → Follows finish limit (k none) ts o) :
    Follows finish limit (Script.acceptKeyword word >>= k) ts o :=
  accept_bind hsome hnone

theorem acceptOperator_bind {level : Level} {k : Option BinaryOp → Script α}
    (hsome : ∀ op rest h, acceptOperator level ts = some ⟨op, rest, h⟩ →
      Follows finish limit (k (some op)) rest o)
    (hnone : acceptOperator level ts = none → Follows finish limit (k none) ts o) :
    Follows finish limit (Script.acceptOperator level >>= k) ts o := by
  rw [acceptOperator_eq] at hsome hnone
  exact acceptAs_bind hsome hnone

theorem acceptAssignOp_bind {k : Option AssignOp → Script α}
    (hsome : ∀ op rest h, acceptAssignOp ts = some ⟨op, rest, h⟩ →
      Follows finish limit (k (some op)) rest o)
    (hnone : acceptAssignOp ts = none → Follows finish limit (k none) ts o) :
    Follows finish limit (Script.acceptAssignOp >>= k) ts o := by
  rw [acceptAssignOp_eq] at hsome hnone
  exact acceptAs_bind hsome hnone

theorem expect {test : Token → Bool} {code : Code} {what : String} :
    Follows finish limit (Script.expect finish test code what) ts
      (expected finish test code what ts).plain := by
  unfold expected
  refine accept_bind (fun t rest h haccept => ?_) fun haccept => ?_
  · rw [haccept]
    exact .give
  · rw [haccept]
    exact .refuse

theorem expectSymbol {symbol : Symbol} {what : String} :
    Follows finish limit (Script.expectSymbol finish symbol what) ts
      (expectSymbol finish symbol what ts).plain :=
  expectSymbol_eq ▸ expect

theorem expectKeyword {word what : String} :
    Follows finish limit (Script.expectKeyword finish word what) ts
      (expectKeyword finish word what ts).plain :=
  expectKeyword_eq ▸ expect

theorem expectName {what : String} :
    Follows finish limit (Script.expectName finish what) ts (expectName finish what ts).plain := by
  rw [expectName_eq]
  exact expect.bind fun t rest h => .give

end Follows

end Javelet.Grammar
