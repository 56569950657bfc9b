import Javelet.Proofs.Phrases.Statement
import Javelet.Proofs.Phrases.Taken.Expression

/-!
# Readers of statements take phrases

What a reader of statements takes off the front of a token list is a phrase of the statement it
gives. The conditions of the grammar on the parts of a statement are what the readers have looked
for when they went on.
-/
namespace Javelet.Grammar

variable {ts : List Token} {finish : Position}

/-! ## Variables -/

theorem type_taken : Gives (type finish ts) (Taken SpellsType ts) := by
  unfold type
  refine .bind typeName_taken fun name rest h hname => ?_
  obtain ⟨t, hts, ht⟩ := hname
  dsimp only
  split
  · exact .ok ⟨[t], hts, .plain ht⟩
  · rename_i opening rest' h' hp
    obtain ⟨hrest, hopen⟩ := acceptSymbol_eq_some hp
    refine .bind expectSymbol_taken.within fun closing rest'' h'' hclose => ?_
    exact .ok ⟨[t, opening, closing], by simp [hts, hrest, hclose.1], .array ht hopen hclose.2⟩

theorem expression_taken : Gives (expression finish ts) fun e =>
    Taken SpellsExpr ts (e.marked .none) :=
  binary_taken finish .disjunction ts

theorem variableDeclaration_taken : Gives (variableDeclaration finish ts) fun v =>
    Taken SpellsVariable ts (v.marked .none) := by
  unfold variableDeclaration
  refine .bind type_taken fun type rest h htype => ?_
  obtain ⟨us, hts, htype⟩ := htype
  refine .bind expectName_taken.within fun name rest' h' hname => ?_
  obtain ⟨t, hrest, ht, rfl⟩ := hname
  dsimp only
  split
  · rename_i sign more h'' hp
    obtain ⟨hmore, hsign⟩ := acceptSymbol_eq_some hp
    refine .bind expression_taken.within fun value last h hvalue => ?_
    obtain ⟨vs, hlast, hvalue⟩ := hvalue
    exact .ok ⟨us ++ t :: sign :: vs, by simp [hts, hrest, hmore, hlast],
      by simpa using .mk htype ht (.some (.mk hsign hvalue))⟩
  · exact .ok ⟨us ++ [t], by simp [hts, hrest], by simpa using .mk htype ht .none⟩

/-! ## Assignments and calls -/

theorem writesAssign_of_assignOp? {s : Symbol} {op : AssignOp} (h : assignOp? s = some op) :
    WritesAssign s op := by
  unfold assignOp? at h
  split at h <;> cases h <;> constructor

theorem acceptAssignOp_eq_some {op : AssignOp} {rest : List Token}
    {h : rest.length < ts.length} (hp : acceptAssignOp ts = some ⟨op, rest, h⟩) :
    ∃ t s, ts = t :: rest ∧ t.kind = .symbol s ∧ WritesAssign s op := by
  cases ts with
  | nil => cases hp
  | cons t more =>
    simp only [acceptAssignOp] at hp
    split at hp
    · rename_i s hkind
      obtain ⟨op, hop, he⟩ := Option.map_eq_some_iff.1 hp
      cases he
      exact ⟨t, s, rfl, hkind, writesAssign_of_assignOp? hop⟩
    · cases hp

@[simp] theorem place_iff {c : Chain} : Place c ↔ c.isAssignable = true := by
  constructor
  · rintro (_ | _ | _) <;> simp [Chain.isAssignable, Chain.links, Chain.head]
  · intro h
    obtain ⟨head, links⟩ := c
    rcases links.eq_nil_or_concat with rfl | ⟨links, l, rfl⟩
    · cases head with
      | this p => cases h
      | name p name => exact .variable_
      | call p name args => cases h
    · rw [List.concat_eq_append] at h ⊢
      simp only [Chain.isAssignable, Chain.links, List.getLast?_concat] at h
      cases l with
      | field p name => exact .field
      | call p name args => cases h
      | index p e => exact .index

@[simp] theorem calls_iff {c : Chain} : Calls c ↔ c.isCall = true := by
  constructor
  · rintro (_ | _) <;> simp [Chain.isCall, Chain.links, Chain.head]
  · intro h
    obtain ⟨head, links⟩ := c
    rcases links.eq_nil_or_concat with rfl | ⟨links, l, rfl⟩
    · cases head with
      | this p => cases h
      | name p name => cases h
      | call p name args => exact .head
    · rw [List.concat_eq_append] at h ⊢
      simp only [Chain.isCall, Chain.links, List.getLast?_concat] at h
      cases l with
      | field p name => cases h
      | call p name args => exact .link
      | index p e => cases h

/-- The rest of an assignment goes on with the phrase of its target. -/
theorem assignmentRest_taken {target : Chain} {us : List Token}
    (htarget : SpellsChain us (target.marked .none)) :
    Gives (assignmentRest finish target ts) fun a =>
      Taken (fun used => SpellsAssignment (us ++ used)) ts (a.marked .none) := by
  unfold assignmentRest
  split
  · exact .error
  · rename_i op rest h hop
    obtain ⟨sign, s, hts, hkind, hwrites⟩ := acceptAssignOp_eq_some hop
    split
    · rename_i hplace
      refine .bind expression_taken.within fun value rest' h' hvalue => ?_
      obtain ⟨vs, hrest, hvalue⟩ := hvalue
      refine .ok ⟨sign :: vs, by simp [hts, hrest], .mk htarget ?_ hkind hwrites hvalue⟩
      simpa using hplace
    · exact .error

theorem assignment_taken : Gives (assignment finish ts) fun a =>
    Taken SpellsAssignment ts (a.marked .none) := by
  unfold assignment
  refine .bind (chain_taken finish ts) fun target rest h htarget => ?_
  obtain ⟨us, hts, htarget⟩ := htarget
  refine (assignmentRest_taken htarget).within.imp ?_
  rintro a last ⟨vs, hrest, ha⟩
  exact ⟨us ++ vs, by simp [hts, hrest], ha⟩

theorem action_taken : Gives (action finish ts) fun a =>
    Taken SpellsAction ts (a.marked .none) := by
  unfold action
  refine .bind (chain_taken finish ts) fun target rest h htarget => ?_
  obtain ⟨us, hts, htarget⟩ := htarget
  dsimp only
  split
  · refine .bind (assignmentRest_taken htarget).within fun a last h' ha => ?_
    obtain ⟨vs, hrest, ha⟩ := ha
    exact .ok ⟨us ++ vs, by simp [hts, hrest], .assignment ha⟩
  · split
    · rename_i hcall
      exact .ok ⟨us, hts, .call htarget (by simpa using hcall)⟩
    · exact .error

/-! ## Parts of statements -/

theorem closeJump_taken {p : Position} {j : Jump} :
    Gives (closeJump finish p j ts) fun s rest =>
      s = .jump p j ∧ ∃ t, ts = t :: rest ∧ t.kind = .symbol .semicolon := by
  unfold closeJump
  exact .bind expectSymbol_taken fun t rest h ht => .ok ⟨rfl, t, ht⟩

theorem jump_taken {around : Surroundings} : Gives (jump finish around ts) fun s rest =>
    Taken (SpellsStatement around) ts (s.marked .none) rest ∧ s.isOpen = false := by
  unfold jump
  dsimp only
  split
  · rename_i word rest h hp
    obtain ⟨hts, hword⟩ := acceptKeyword_eq_some hp
    split
    · refine closeJump_taken.within.imp ?_
      rintro s last ⟨rfl, t, hrest, ht⟩
      exact ⟨⟨[word] ++ [t], by simp [hts, hrest], .jump (.return_ hword .none) ht⟩, rfl⟩
    · refine .bind expression_taken.within fun value rest' h' hvalue => ?_
      obtain ⟨vs, hrest, hvalue⟩ := hvalue
      refine closeJump_taken.within.imp ?_
      rintro s last ⟨rfl, t, hrest', ht⟩
      obtain rfl : rest' = t :: last := hrest'
      exact ⟨⟨word :: vs ++ [t], by simp [hts, hrest], .jump (.return_ hword (.some hvalue)) ht⟩, rfl⟩
  · split
    · rename_i word rest h hp
      obtain ⟨hts, hword⟩ := acceptKeyword_eq_some hp
      split
      · refine closeJump_taken.within.imp ?_
        rintro s last ⟨rfl, t, hrest, ht⟩
        exact ⟨⟨[word] ++ [t], by simp [hts, hrest], .jump (.break_ hword ‹_›) ht⟩, rfl⟩
      · exact .error
    · split
      · rename_i word rest h hp
        obtain ⟨hts, hword⟩ := acceptKeyword_eq_some hp
        split
        · refine closeJump_taken.within.imp ?_
          rintro s last ⟨rfl, t, hrest, ht⟩
          exact ⟨⟨[word] ++ [t], by simp [hts, hrest], .jump (.continue_ hword ‹_›) ht⟩, rfl⟩
        · exact .error
      · exact .error

theorem condition_taken {word : String} : Gives (condition finish word ts) fun e =>
    Taken SpellsCondition ts (e.marked .none) := by
  unfold condition
  refine .bind expectSymbol_taken fun opening rest h hopen => ?_
  refine .bind expression_taken.within fun value rest' h' hvalue => ?_
  obtain ⟨vs, hrest, hvalue⟩ := hvalue
  refine .bind expectSymbol_taken.within fun closing last h'' hclose => ?_
  exact .ok ⟨opening :: (vs ++ [closing]), by simp [hopen.1, hrest, hclose.1],
    .mk hopen.2 hvalue hclose.2⟩

/-- A phrase that may be missing and the symbol behind it. -/
def TakenUpTo {α : Type} (Phrase : List Token → α → Prop) (s : Symbol) (ts : List Token)
    (value : Option α) (rest : List Token) : Prop :=
  ∃ used t, ts = used ++ t :: rest ∧ SpellsOptional Phrase used value ∧ t.kind = .symbol s

theorem TakenUpTo.none {α : Type} {Phrase : List Token → α → Prop} {s : Symbol} {t : Token}
    {rest : List Token} (ht : ts = t :: rest ∧ t.kind = .symbol s) :
    TakenUpTo Phrase s ts Option.none rest :=
  ⟨[], t, ht.1, .none, ht.2⟩

theorem Taken.upTo {α : Type} {Phrase : List Token → α → Prop} {s : Symbol} {t : Token} {value : α}
    {rest last : List Token} (h : Taken Phrase ts value rest)
    (ht : rest = t :: last ∧ t.kind = .symbol s) : TakenUpTo Phrase s ts (some value) last := by
  obtain ⟨used, hts, hvalue⟩ := h
  exact ⟨used, t, by rw [hts, ht.1], .some hvalue, ht.2⟩

theorem Taken.imp {α β : Type} {Phrase : List Token → α → Prop} {Phrase' : List Token → β → Prop}
    {value : α} {value' : β} {rest : List Token} (h : Taken Phrase ts value rest)
    (himp : ∀ used, Phrase used value → Phrase' used value') : Taken Phrase' ts value' rest := by
  obtain ⟨used, hts, hvalue⟩ := h
  exact ⟨used, hts, himp used hvalue⟩

/-- A phrase and the token behind it are a phrase. -/
theorem Taken.closed {α β : Type} {Phrase : List Token → α → Prop}
    {Phrase' : List Token → β → Prop} {s : Symbol} {t : Token} {value : α} {value' : β}
    {rest last : List Token} (h : Taken Phrase ts value rest)
    (ht : rest = t :: last ∧ t.kind = .symbol s)
    (himp : ∀ used, Phrase used value → Phrase' (used ++ [t]) value') :
    Taken Phrase' ts value' last := by
  obtain ⟨used, hts, hvalue⟩ := h
  exact ⟨used ++ [t], by simp [hts, ht.1], himp used hvalue⟩

theorem closeInit_taken {init : Option ForInit} :
    Gives (closeInit finish init ts) fun found rest =>
      found = init ∧ ∃ t, ts = t :: rest ∧ t.kind = .symbol .semicolon := by
  unfold closeInit
  exact .bind expectSymbol_taken fun t rest h ht => .ok ⟨rfl, t, ht⟩

theorem forInit_taken : Gives (forInit finish ts) fun init =>
    TakenUpTo SpellsForInit .semicolon ts (init.map (ForInit.marked .none)) := by
  unfold forInit
  split
  · refine closeInit_taken.imp ?_
    rintro init rest ⟨rfl, t, ht⟩
    exact .none ht
  · split
    · refine .bind variableDeclaration_taken fun v rest h hv => ?_
      refine closeInit_taken.within.imp ?_
      rintro init last ⟨rfl, t, ht⟩
      exact (hv.imp fun _ hv => .declaration hv).upTo ht
    · refine .bind assignment_taken fun a rest h ha => ?_
      refine closeInit_taken.within.imp ?_
      rintro init last ⟨rfl, t, ht⟩
      exact (ha.imp fun _ ha => .assignment ha).upTo ht

theorem forCondition_taken : Gives (forCondition finish ts) fun test =>
    TakenUpTo SpellsExpr .semicolon ts (test.map (Expr.marked .none)) := by
  unfold forCondition
  dsimp only
  split
  · exact .bind expectSymbol_taken fun t rest h ht => .ok (.none ht)
  · refine .bind expression_taken fun value rest h hvalue => ?_
    exact .bind expectSymbol_taken.within fun t last h' ht => .ok (hvalue.upTo ht)

theorem forUpdate_taken : Gives (forUpdate finish ts) fun update =>
    TakenUpTo SpellsAction .rightParen ts (update.map (Action.marked .none)) := by
  unfold forUpdate
  dsimp only
  split
  · exact .bind expectSymbol_taken fun t rest h ht => .ok (.none ht)
  · refine .bind action_taken fun update rest h hupdate => ?_
    exact .bind expectSymbol_taken.within fun t last h' ht => .ok (hupdate.upTo ht)

/-- A primary that starts with an integer, a character or a boolean is this literal. -/
theorem caseLabel_taken : Gives (caseLabel finish ts) fun label =>
    Taken (fun used value => SpellsLiteral used value ∧ LabelValue value) ts label.2 := by
  unfold caseLabel
  dsimp only
  split
  · rename_i hfits
    refine .bind (primary_taken finish ts) fun value rest h hvalue => ?_
    obtain ⟨used, rfl, hused⟩ := hvalue
    dsimp only
    split
    · rename_i p label
      cases hused with
      | literal hlabel =>
        refine .ok ⟨used, rfl, hlabel, ?_⟩
        cases hlabel with
        | integer h => exact .int
        | negative h => exact .int
        | character h => exact .char
        | boolean h => exact .boolean
        | string hkind => simp [hkind, atNegativeInteger, atSymbol] at hfits
        | null hkind => simp [hkind, atNegativeInteger, atSymbol] at hfits
      | parenthesized hopen => simp [hopen, atNegativeInteger, atSymbol] at hfits
    · exact .error
  · exact .error

/-! ## Statements -/

@[simp] theorem isOpen_marked (m : Marks) (s : Statement) : (s.marked m).isOpen = s.isOpen := by
  induction s using Statement.induction with
  | conditional p e body otherwise ihbody ih =>
    cases otherwise with
    | none => simp [Statement.isOpen]
    | some s => simpa [Statement.isOpen] using ih s rfl
  | whileLoop p e body ih => simpa [Statement.isOpen] using ih
  | forLoop p id init e update body ih => simpa [Statement.isOpen] using ih
  | block b => simp [Statement.isOpen]
  | switch p id e cases default_ => simp [Statement.isOpen]
  | jump p j => simp [Statement.isOpen]
  | action a => simp [Statement.isOpen]
  | declaration v => simp [Statement.isOpen]

/-- The tokens in front of the rest are a phrase of a statement, and where the statement is open no
`else` follows. -/
structure StatementTaken (around : Surroundings) (ts : List Token) (r : Statement × NodeId)
    (rest : List Token) : Prop where
  phrase : Taken (SpellsStatement around) ts (r.1.marked .none) rest
  closed : r.1.isOpen = true → acceptKeyword "else" rest = none

/-- The tokens in front of the rest are statements that follow those that are read already. -/
def StatementsTaken (around : Surroundings) (done : List Statement) (ts : List Token)
    (r : List Statement × NodeId) (rest : List Token) : Prop :=
  ∃ new, r.1 = done.reverse ++ new ∧
    Taken (SpellsStatements around) ts (new.map (Statement.marked .none)) rest

/-- The tokens in front of the rest are arms that follow those that are read already, and a closing
brace. -/
def ArmsTaken (around : Surroundings) (done : Arms) (ts : List Token) (r : Arms × NodeId)
    (rest : List Token) : Prop :=
  ∃ used closing cases default_, ts = used ++ closing :: rest ∧
    closing.kind = .symbol .rightBrace ∧ SpellsArms around used cases default_ ∧
    r.1.cases.reverse.map (Case.marked .none) =
      done.cases.reverse.map (Case.marked .none) ++ cases ∧
    (done.default_.isSome = true → default_ = none) ∧
    r.1.default_.map (Block.marked .none) = default_.or (done.default_.map (Block.marked .none))

/-- Statements that are no conditionals and no loops. -/
theorem StatementTaken.simple {around : Surroundings} {s : Statement} {id : NodeId}
    {rest : List Token} (h : Taken (SpellsStatement around) ts (s.marked .none) rest)
    (hs : s.isOpen = false) : StatementTaken around ts (s, id) rest :=
  ⟨h, fun hopen => by rw [hs] at hopen; cases hopen⟩

theorem ArmsTaken.case {around : Surroundings} {done : Arms} {c : Case} {label : Literal}
    {ss : List Statement} {word colon : Token} {ls bs last rest : List Token} {r : Arms × NodeId}
    (h : ArmsTaken around { done with cases := c :: done.cases } last r rest)
    (hts : ts = word :: (ls ++ colon :: (bs ++ last)))
    (hc : c.marked .none = .mk .start .start label (.mk 0 .start ss))
    (hword : word.isKeyword "case" = true) (hlabel : SpellsLiteral ls label)
    (hvalue : LabelValue label) (hcolon : colon.kind = .symbol .colon)
    (hbody : SpellsStatements around bs ss) : ArmsTaken around done ts r rest := by
  obtain ⟨used, closing, cases, default_, rfl, hclose, harms, hcases, honce, hdefault⟩ := h
  refine ⟨word :: (ls ++ colon :: (bs ++ used)), closing, c.marked .none :: cases, default_,
    by simp [hts], hclose, ?_, by simpa using hcases, honce, hdefault⟩
  rw [hc]
  exact .case hword hlabel hvalue hcolon hbody harms

theorem ArmsTaken.default_ {around : Surroundings} {done : Arms} {b : Block}
    {ss : List Statement} {word colon : Token} {bs last rest : List Token} {r : Arms × NodeId}
    (h : ArmsTaken around { done with default_ := some b } last r rest)
    (hts : ts = word :: colon :: (bs ++ last)) (hb : b.marked .none = .mk 0 .start ss)
    (hword : word.isKeyword "default" = true) (hcolon : colon.kind = .symbol .colon)
    (hbody : SpellsStatements around bs ss) (hnone : done.default_ = none) :
    ArmsTaken around done ts r rest := by
  obtain ⟨used, closing, cases, default_, rfl, hclose, harms, hcases, honce, hdefault⟩ := h
  obtain rfl := honce rfl
  refine ⟨word :: colon :: (bs ++ used), closing, cases, some (.mk 0 .start ss), by simp [hts],
    hclose, .default_ hword hcolon hbody harms, hcases, by simp [hnone], ?_⟩
  simp only [hdefault, Option.none_or, Option.map_some, hb, Option.some_or]

mutual

theorem statement_taken (finish : Position) (around : Surroundings) (id : NodeId)
    (ts : List Token) :
    Gives (statement finish around id ts) (StatementTaken around ts) := by
  rw [statement]
  split
  · exact .error
  · split
    · refine .bind (block_taken finish around id ts) ?_
      rintro ⟨body, next⟩ rest h hb
      exact .ok (.simple (hb.imp fun _ hb => .block hb) rfl)
    · split
      · exact conditional_taken finish around id ts
      · split
        · exact whileLoop_taken finish around id ts
        · split
          · exact forLoop_taken finish around id ts
          · split
            · exact switch_taken finish around id ts
            · split
              · refine .bind jump_taken fun s rest h hs => .ok ?_
                exact .simple hs.1 hs.2
              · split
                · refine .bind variableDeclaration_taken fun v rest h hv => ?_
                  refine .bind expectSymbol_taken.within fun t last _ ht => ?_
                  refine .ok (.simple (hv.closed ht fun _ hv => ?_) rfl)
                  exact .declaration hv ht.2
                · split
                  · refine .bind action_taken fun a rest h ha => ?_
                    refine .bind expectSymbol_taken.within fun t last _ ht => ?_
                    refine .ok (.simple (ha.closed ht fun _ ha => ?_) rfl)
                    exact .action ha ht.2
                  · exact .error
termination_by 4 * ts.length + 1
decreasing_by all_goals omega

theorem block_taken (finish : Position) (around : Surroundings) (id : NodeId)
    (ts : List Token) : Gives (block finish around id ts) fun r =>
      Taken (SpellsBlock around) ts (r.1.marked .none) := by
  rw [block]
  refine .bind expectSymbol_taken fun opening rest h hopen => ?_
  refine .bind (statements_taken finish around (atSymbol .rightBrace) ts.length [] (id + 1) rest h)
    ?_
  rintro ⟨ss, next⟩ rest' h' ⟨new, hss, used, hrest, hnew⟩
  cases hss
  refine .bind expectSymbol_taken.within fun closing last _ hclose => ?_
  obtain ⟨rfl, hclose⟩ := hclose
  exact .ok ⟨opening :: (used ++ [closing]), by simp [hopen.1, hrest],
    by simpa using .mk hopen.2 hnew hclose⟩
termination_by 4 * ts.length
decreasing_by omega

theorem statements_taken (finish : Position) (around : Surroundings) (stop : List Token → Bool)
    (bound : Nat) (done : List Statement) (id : NodeId) (ts : List Token) (h : ts.length < bound) :
    Gives (statements finish around stop bound done id ts h) (StatementsTaken around done ts) := by
  rw [statements]
  split
  · exact .ok ⟨[], by simp, [], rfl, .nil⟩
  · split
    · exact .error
    · refine .bind (statement_taken finish around id ts) ?_
      rintro ⟨s, middle⟩ rest h' hs
      obtain ⟨used, hts, hused⟩ := hs.phrase
      refine (statements_taken finish around stop bound (s :: done) middle rest
        (shorter_bound h' h)).imp ?_
      rintro r last ⟨new, hnew, more, rfl, hmore⟩
      exact ⟨s :: new, by simp [hnew], used ++ more, by simp [hts], .cons hused hmore⟩
termination_by 4 * ts.length + 2
decreasing_by all_goals omega

theorem conditional_taken (finish : Position) (around : Surroundings) (id : NodeId)
    (ts : List Token) : Gives (conditional finish around id ts) (StatementTaken around ts) := by
  rw [conditional]
  refine .bind expectKeyword_taken fun word rest h hword => ?_
  refine .bind condition_taken.within fun test rest' h' htest => ?_
  obtain ⟨cs, hrest, htest⟩ := htest
  refine .bind (statement_taken finish around id rest').within ?_
  rintro ⟨body, middle⟩ rest'' h'' hbody
  obtain ⟨bs, hrest', hbs⟩ := hbody.phrase
  dsimp only
  split
  · rename_i else_ more hlt hp
    obtain ⟨hmore, helse⟩ := acceptKeyword_eq_some hp
    have hclosed : body.isOpen = false := by
      rw [Bool.eq_false_iff]
      intro hopen
      cases hp.symm.trans (hbody.closed hopen)
    refine .bind (statement_taken finish around middle more).within ?_
    rintro ⟨otherwise, next⟩ last h₃ hotherwise
    obtain ⟨us, hlast, hus⟩ := hotherwise.phrase
    refine .ok ⟨⟨word :: (cs ++ (bs ++ else_ :: us)), ?_, ?_⟩, hotherwise.closed⟩
    · simp [hword.1, hrest, hrest', hmore, hlast]
    · simpa using .alternative hword.2 htest hbs (by simpa using hclosed) helse hus
  · rename_i hnone
    refine .ok ⟨⟨word :: (cs ++ bs), by simp [hword.1, hrest, hrest'], ?_⟩, fun _ => hnone⟩
    simpa using .conditional hword.2 htest hbs
termination_by 4 * ts.length
decreasing_by all_goals omega

theorem whileLoop_taken (finish : Position) (around : Surroundings) (id : NodeId)
    (ts : List Token) : Gives (whileLoop finish id ts) (StatementTaken around ts) := by
  rw [whileLoop]
  refine .bind expectKeyword_taken fun word rest h hword => ?_
  refine .bind condition_taken.within fun test rest' h' htest => ?_
  obtain ⟨cs, hrest, htest⟩ := htest
  refine .bind (statement_taken finish .inLoop id rest').within ?_
  rintro ⟨body, next⟩ last h'' hbody
  obtain ⟨bs, hrest', hbs⟩ := hbody.phrase
  refine .ok ⟨⟨word :: (cs ++ bs), by simp [hword.1, hrest, hrest'], ?_⟩, hbody.closed⟩
  simpa using .whileLoop hword.2 htest hbs
termination_by 4 * ts.length
decreasing_by omega

theorem forLoop_taken (finish : Position) (around : Surroundings) (id : NodeId)
    (ts : List Token) : Gives (forLoop finish id ts) (StatementTaken around ts) := by
  rw [forLoop]
  refine .bind expectKeyword_taken fun word rest h hword => ?_
  refine .bind expectSymbol_taken.within fun opening rest₁ h₁ hopen => ?_
  obtain ⟨rfl, hopen⟩ := hopen
  refine .bind forInit_taken.within fun init rest₂ h₂ hinit => ?_
  obtain ⟨is, first, rfl, hinit, hfirst⟩ := hinit
  refine .bind forCondition_taken.within fun test rest₃ h₃ htest => ?_
  obtain ⟨cs, second, rfl, htest, hsecond⟩ := htest
  refine .bind forUpdate_taken.within fun update rest₄ h₄ hupdate => ?_
  obtain ⟨us, closing, rfl, hupdate, hclose⟩ := hupdate
  refine .bind (statement_taken finish .inLoop (id + 1) rest₄).within ?_
  rintro ⟨body, next⟩ last h₅ hbody
  obtain ⟨bs, rfl, hbs⟩ := hbody.phrase
  refine .ok ⟨⟨word :: opening :: (is ++ first :: (cs ++ second :: (us ++ closing :: bs))), ?_, ?_⟩,
    hbody.closed⟩
  · simp [hword.1]
  · simpa using .forLoop hword.2 hopen hinit hfirst htest hsecond hupdate hclose hbs
termination_by 4 * ts.length
decreasing_by omega

theorem switch_taken (finish : Position) (around : Surroundings) (id : NodeId)
    (ts : List Token) : Gives (switch finish around id ts) (StatementTaken around ts) := by
  rw [switch]
  refine .bind expectKeyword_taken fun word rest h hword => ?_
  refine .bind condition_taken.within fun selector rest' h' hselector => ?_
  obtain ⟨cs, hrest, hselector⟩ := hselector
  refine .bind expectSymbol_taken.within fun opening rest'' h'' hopen => ?_
  refine .bind (arms_taken finish around.inSwitch ts.length ⟨[], none⟩ (id + 1) rest'' h'') ?_
  rintro ⟨found, next⟩ last h₃ harms
  obtain ⟨used, closing, cases, default_, hused, hclose, harms, hcases, -, hdefault⟩ := harms
  refine .ok (.simple ⟨word :: (cs ++ opening :: (used ++ [closing])), ?_, ?_⟩ rfl)
  · simp [hword.1, hrest, hopen.1, hused]
  · simp only [Statement.marked, markedCases_eq, markedDefault_eq, hcases, hdefault]
    simpa using .switch hword.2 hselector hopen.2 harms hclose
termination_by 4 * ts.length
decreasing_by omega

theorem arms_taken (finish : Position) (around : Surroundings) (bound : Nat) (done : Arms)
    (id : NodeId) (ts : List Token) (h : ts.length < bound) :
    Gives (arms finish around bound done id ts h) (ArmsTaken around done ts) := by
  rw [arms]
  dsimp only
  split
  · rename_i closing rest h' hp
    obtain ⟨hts, hclose⟩ := acceptSymbol_eq_some hp
    exact .ok ⟨[], closing, [], none, hts, hclose, .nil, by simp, by simp, by simp⟩
  · split
    · rename_i word rest h' hp
      obtain ⟨hts, hword⟩ := acceptKeyword_eq_some hp
      refine .bind caseLabel_taken.within ?_
      rintro ⟨p, label⟩ rest' h'' ⟨ls, hrest, hlabel, hvalue⟩
      refine .bind expectSymbol_taken.within fun colon rest'' _ hcolon => ?_
      obtain ⟨rfl, hcolon⟩ := hcolon
      refine .bind (caseBody_taken finish around id rest'').optionalWithin ?_
      rintro ⟨body, next⟩ last _ ⟨bs, ss, rfl, hbody, hbs⟩
      refine (arms_taken finish around bound _ next last _).imp fun r final hr => ?_
      refine ArmsTaken.case hr ?_ ?_ hword hlabel hvalue hcolon hbs
      · simp [hts, hrest]
      · simp [hbody]
    · split
      · rename_i word rest h' hp
        obtain ⟨hts, hword⟩ := acceptKeyword_eq_some hp
        split
        · exact .error
        · rename_i hnone
          refine .bind expectSymbol_taken.within fun colon rest' _ hcolon => ?_
          obtain ⟨rfl, hcolon⟩ := hcolon
          refine .bind (caseBody_taken finish around id rest').optionalWithin ?_
          rintro ⟨body, next⟩ last _ ⟨bs, ss, rfl, hbody, hbs⟩
          refine (arms_taken finish around bound _ next last _).imp fun r final hr => ?_
          exact ArmsTaken.default_ hr hts hbody hword hcolon hbs (by simpa using hnone)
      · exact .error
termination_by 4 * ts.length
decreasing_by all_goals omega

theorem caseBody_taken (finish : Position) (around : Surroundings) (id : NodeId)
    (ts : List Token) : Gives (caseBody finish around id ts) fun r rest =>
      ∃ used ss, ts = used ++ rest ∧ r.1.marked .none = .mk 0 .start ss ∧
        SpellsStatements around used ss := by
  rw [caseBody]
  refine .bind (statements_taken finish around atCaseEnd (ts.length + 1) [] (id + 1) ts
    (shorter_succ ts)) ?_
  rintro ⟨ss, next⟩ rest h ⟨new, hss, used, hts, hnew⟩
  cases hss
  exact .ok ⟨used, _, hts, by simp, hnew⟩
termination_by 4 * ts.length + 3
decreasing_by omega

end

end Javelet.Grammar
