import Javelet.Proofs.Phrases.Read.Expression
import Javelet.Proofs.Phrases.Taken.Statement

/-!
# Phrases of statements are read

A reader of statements reads every phrase in front of tokens that do not go on with it. Only open
statements can be gone on with, by an `else`. Whether a statement is a declaration is seen from at
most three tokens: a chain never starts with two names, nor with a name and empty brackets.
-/
namespace Javelet.Grammar

variable {ts rest input : List Token} {finish : Position}

/-! ## What stands behind phrases -/

theorem ends_of_atSymbol {levels : Nat} {s : Symbol} (h : atSymbol s ts = true)
    (hs : s ∈ expressionEnds) : Ends levels ts := by
  cases ts with
  | nil => cases h
  | cons t rest => exact ends_of_mem (atSymbol_cons.1 h) hs

/-- A semicolon or a closing parenthesis, as behind variables, assignments and calls. -/
def Closes (ts : List Token) : Prop := atSymbol .semicolon ts = true ∨ atSymbol .rightParen ts = true

theorem closes_semicolon {t : Token} (h : t.kind = .symbol .semicolon) : Closes (t :: ts) :=
  .inl (atSymbol_cons.2 h)

theorem closes_rightParen {t : Token} (h : t.kind = .symbol .rightParen) : Closes (t :: ts) :=
  .inr (atSymbol_cons.2 h)

theorem Closes.ends {levels : Nat} (h : Closes ts) : Ends levels ts := by
  rcases h with h | h
  · exact ends_of_atSymbol h (by decide)
  · exact ends_of_atSymbol h (by decide)

theorem Closes.atSymbol {s : Symbol} (h : Closes ts) (hsemicolon : s ≠ .semicolon)
    (hparen : s ≠ .rightParen) : atSymbol s ts = false := by
  rcases h with h | h
  · exact atSymbol_of_ne h hsemicolon.symm
  · exact atSymbol_of_ne h hparen.symm

theorem acceptAssignOp_cons {t : Token} {s : Symbol} {op : AssignOp}
    (hkind : t.kind = .symbol s) (h : WritesAssign s op) :
    acceptAssignOp (t :: ts) = some ⟨op, ts, shorter_cons t ts⟩ := by
  cases h <;> simp [acceptAssignOp, hkind, assignOp?]

theorem ends_of_writesAssign {levels : Nat} {t : Token} {s : Symbol} {op : AssignOp}
    (hkind : t.kind = .symbol s) (h : WritesAssign s op) : Ends levels (t :: ts) :=
  ends_of_mem hkind (by cases h <;> decide)

theorem Closes.acceptAssignOp (h : Closes ts) : acceptAssignOp ts = none := by
  cases ts with
  | nil => rfl
  | cons t rest =>
    rcases h with h | h
    · simp [Grammar.acceptAssignOp, atSymbol_cons.1 h, assignOp?]
    · simp [Grammar.acceptAssignOp, atSymbol_cons.1 h, assignOp?]

/-! ## Variables -/

theorem acceptSymbol_of_identifier {t : Token} {s : Symbol} (h : t.kind = .identifier) :
    acceptSymbol s (t :: ts) = none :=
  acceptSymbol_cons_of_ne (by simp [h])

theorem SpellsType.reads {type_ : Ty} (h : SpellsType ts type_) :
    IsRead (type finish) (acceptSymbol .leftBracket · = none) ts (· = type_) := by
  rintro rest input rfl hrest
  cases h with
  | @plain t name hname =>
    show Succeeds (type finish (t :: rest)) _ rest
    unfold type
    refine .bind (typeName_reads hname) fun _ _ hvalue => ?_
    simp only [hrest, hvalue]
    exact .ok rfl
  | @array t opening closing name hname hopen hclose =>
    show Succeeds (type finish (t :: opening :: closing :: rest)) _ rest
    unfold type
    refine .bind (typeName_reads hname) fun _ _ hvalue => ?_
    simp only [acceptSymbol_cons hopen, hvalue]
    exact .bind (expectSymbol_reads hclose).within fun _ _ _ => .ok rfl

theorem SpellsExpr.reads {e : Expr} (h : SpellsExpr ts e) :
    IsRead (expression finish) (Ends 5) ts (·.marked .none = e) :=
  (Spells.reads h).1 finish

theorem SpellsVariable.reads {v : Variable} (h : SpellsVariable ts v) :
    IsRead (variableDeclaration finish) Closes ts (·.marked .none = v) := by
  intro rest input hinput hrest
  obtain ⟨htype, ht, hvalue⟩ := h
  rename_i us vs type_ t value
  obtain rfl : input = us ++ t :: (vs ++ rest) := by simp [hinput]
  unfold variableDeclaration
  refine .bind (htype.reads rfl (acceptSymbol_of_identifier ht)) fun _ _ htype => ?_
  refine .bind (expectName_reads ht).within fun _ _ hname => ?_
  cases hvalue with
  | none =>
    have hassign : acceptSymbol .assign ([] ++ rest) = none :=
      acceptSymbol_of_atSymbol_eq_false (hrest.atSymbol nofun nofun)
    simp only [hassign]
    exact .ok (by simp [htype, hname])
  | some hvalue =>
    obtain ⟨hsign, he⟩ := hvalue
    simp only [List.cons_append, acceptSymbol_cons hsign]
    refine .bind (he.reads rfl hrest.ends).within fun _ _ hvalue => ?_
    exact .ok (by simp [htype, hname, hvalue])

/-! ## Assignments and calls -/

theorem assignmentRest_reads {target : Chain} {sign : Token} {s : Symbol} {op : AssignOp}
    {value : Expr} (hplace : target.isAssignable = true) (hsign : sign.kind = .symbol s)
    (hwrites : WritesAssign s op) (hvalue : SpellsExpr ts value) (hrest : Closes rest) :
    Succeeds (assignmentRest finish target (sign :: (ts ++ rest)))
      (·.marked .none = ⟨op, target.marked .none, value⟩) rest := by
  unfold assignmentRest
  simp only [acceptAssignOp_cons hsign hwrites, hplace, ↓reduceIte]
  exact .bind (hvalue.reads rfl hrest.ends).within fun _ _ hvalue => .ok (by simp [hvalue])

theorem SpellsAssignment.reads {a : Assignment} (h : SpellsAssignment ts a) :
    IsRead (assignment finish) Closes ts (·.marked .none = a) := by
  intro rest input hinput hrest
  obtain ⟨htarget, hplace, hsign, hwrites, hvalue⟩ := h
  rename_i us vs target sign s op value
  obtain rfl : input = us ++ sign :: (vs ++ rest) := by simp [hinput]
  unfold assignment
  refine .bind (htarget.reads finish rfl (ends_of_writesAssign hsign hwrites)) ?_
  rintro target' h rfl
  refine (assignmentRest_reads ?_ hsign hwrites hvalue hrest).within
  simpa using hplace

theorem SpellsAction.reads {a : Action} (h : SpellsAction ts a) :
    IsRead (action finish) Closes ts (·.marked .none = a) := by
  intro rest input hinput hrest
  unfold action
  cases h with
  | assignment h =>
    obtain ⟨htarget, hplace, hsign, hwrites, hvalue⟩ := h
    rename_i us vs target sign s op value
    obtain rfl : input = us ++ sign :: (vs ++ rest) := by simp [hinput]
    refine .bind (htarget.reads finish rfl (ends_of_writesAssign hsign hwrites)) ?_
    rintro target' h rfl
    simp only [acceptAssignOp_cons hsign hwrites, Option.isSome_some, ↓reduceIte]
    refine .bind (assignmentRest_reads ?_ hsign hwrites hvalue hrest).within fun _ _ ha => ?_
    · simpa using hplace
    · exact .ok (congrArg Action.assignment ha)
  | call htarget hcall =>
    refine .bind (htarget.reads finish hinput hrest.ends) ?_
    rintro target' h rfl
    have hcall' : target'.isCall = true := by simpa using hcall
    simp only [hrest.acceptAssignOp, Option.isSome_none, Bool.false_eq_true, hcall', ↓reduceIte]
    exact .ok rfl

/-! ## First tokens -/

/-- The words that variables, assignments and calls may start with. -/
def simpleWords : List String := ["this", "int", "char", "boolean"]

/-- The first token of a variable, an assignment or a call. -/
def StartsSimple (t : Token) : Prop :=
  t.kind = .identifier ∨ ∃ word ∈ simpleWords, t.isKeyword word = true

theorem StartsSimple.kind {t : Token} (h : StartsSimple t) (s : Symbol) : t.kind ≠ .symbol s := by
  rcases h with h | ⟨word, -, h⟩
  · simp [h]
  · simp [kind_of_isKeyword h]

theorem StartsSimple.isKeyword {t : Token} {word : String} (h : StartsSimple t)
    (hword : word ∉ simpleWords) : t.isKeyword word = false := by
  rcases h with h | ⟨word', hmem, h⟩
  · exact isKeyword_of_kind (by simp [h])
  · refine isKeyword_of_ne h ?_
    rintro rfl
    exact hword hmem

/-- No other kind of statement starts so. -/
theorem StartsSimple.words {t : Token} (h : StartsSimple t) :
    t.isKeyword "if" = false ∧ t.isKeyword "while" = false ∧ t.isKeyword "for" = false ∧
      t.isKeyword "switch" = false ∧ t.isKeyword "return" = false ∧ t.isKeyword "break" = false ∧
      t.isKeyword "continue" = false :=
  ⟨h.isKeyword (by decide), h.isKeyword (by decide), h.isKeyword (by decide),
    h.isKeyword (by decide), h.isKeyword (by decide), h.isKeyword (by decide),
    h.isKeyword (by decide)⟩

theorem SpellsTypeName.startsSimple {t : Token} {name : String} (h : SpellsTypeName t name) :
    StartsSimple t := by
  cases h with
  | identifier h => exact .inl h
  | int h => exact .inr ⟨"int", by decide, h⟩
  | char h => exact .inr ⟨"char", by decide, h⟩
  | boolean h => exact .inr ⟨"boolean", by decide, h⟩

theorem SpellsVariable.starts {v : Variable} (h : SpellsVariable ts v) :
    ∃ t more, ts = t :: more ∧ StartsSimple t := by
  obtain ⟨htype, -, -⟩ := h
  cases htype with
  | plain h => exact ⟨_, _, rfl, h.startsSimple⟩
  | array h _ _ => exact ⟨_, _, rfl, h.startsSimple⟩

theorem SpellsAssignment.starts {a : Assignment} (h : SpellsAssignment ts a) :
    ∃ t more, ts = t :: more ∧ (t.isKeyword "this" = true ∨ t.kind = .identifier) := by
  obtain ⟨htarget, -, -, -, -⟩ := h
  obtain ⟨t, more, rfl, ht⟩ := htarget.starts
  exact ⟨t, _, rfl, ht⟩

theorem SpellsAction.starts {a : Action} (h : SpellsAction ts a) :
    ∃ t more, ts = t :: more ∧ (t.isKeyword "this" = true ∨ t.kind = .identifier) := by
  cases h with
  | assignment h => exact h.starts
  | call h _ => exact h.starts

theorem startsSimple_of_this {t : Token} (h : t.isKeyword "this" = true ∨ t.kind = .identifier) :
    StartsSimple t := by
  rcases h with h | h
  · exact .inr ⟨"this", by decide, h⟩
  · exact .inl h

/-- A type with a name behind it starts a declaration. -/
theorem atDeclaration_of_type {type_ : Ty} {t : Token} (h : SpellsType ts type_)
    (ht : t.kind = .identifier) : atDeclaration (ts ++ t :: rest) = true := by
  have hname : ∀ {u : Token} {name : String} {more : List Token}, SpellsTypeName u name →
      (u.kind = .identifier → ((more.head?.any fun t => t.kind == .identifier) ||
        (atSymbol .leftBracket more && atSymbol .rightBracket more.tail)) = true) →
      atDeclaration (u :: more) = true := by
    intro u name more hu hmore
    cases hu with
    | identifier hu => simpa [atDeclaration, hu] using hmore hu
    | int hu =>
      simp [atDeclaration, kind_of_isKeyword hu, text_of_isKeyword hu, primitiveTypes]
    | char hu =>
      simp [atDeclaration, kind_of_isKeyword hu, text_of_isKeyword hu, primitiveTypes]
    | boolean hu =>
      simp [atDeclaration, kind_of_isKeyword hu, text_of_isKeyword hu, primitiveTypes]
  cases h with
  | plain h => exact hname h fun _ => by simp [ht]
  | array h hopen hclose => exact hname h fun _ => by simp [atSymbol, hopen, hclose]

/-- A name starts no declaration where a symbol other than empty brackets is behind it. -/
theorem atDeclaration_of_symbol {t u : Token} {s : Symbol} (ht : t.kind = .identifier)
    (hu : u.kind = .symbol s) (hs : s = .leftBracket → atSymbol .rightBracket ts = false) :
    atDeclaration (t :: u :: ts) = false := by
  by_cases hbracket : s = .leftBracket
  · simp [atDeclaration, ht, hu, hs hbracket]
  · simp [atDeclaration, ht, hu, atSymbol, hbracket]

/-- A chain starts no declaration. -/
theorem atDeclaration_of_chain {c : Chain} {s : Symbol} (h : SpellsChain ts c)
    (hrest : atSymbol s rest = true) (hs : s ≠ .leftBracket) :
    atDeclaration (ts ++ rest) = false := by
  obtain ⟨hhead, hlinks⟩ := h
  rename_i hs' ls head links
  cases hhead with
  | this ht =>
    simp [atDeclaration, kind_of_isKeyword ht, text_of_isKeyword ht, primitiveTypes]
  | name ht =>
    cases hlinks with
    | nil =>
      cases rest with
      | nil => cases hrest
      | cons u more => exact atDeclaration_of_symbol ht (atSymbol_cons.1 hrest) (absurd · hs)
    | field hdot _ _ => exact atDeclaration_of_symbol ht hdot nofun
    | call hdot _ _ _ => exact atDeclaration_of_symbol ht hdot nofun
    | index hopen h _ _ =>
      refine atDeclaration_of_symbol ht hopen fun _ => ?_
      obtain ⟨t, more, rfl, ht⟩ := h.starts
      exact ht.atSymbol nofun nofun
  | call ht hargs =>
    cases hargs with
    | none hopen _ => exact atDeclaration_of_symbol ht hopen nofun
    | some hopen _ _ => exact atDeclaration_of_symbol ht hopen nofun

theorem SpellsVariable.atDeclaration {v : Variable} (h : SpellsVariable ts v) :
    atDeclaration (ts ++ rest) = true := by
  obtain ⟨htype, ht, -⟩ := h
  rw [List.append_assoc, List.cons_append]
  exact atDeclaration_of_type htype ht

theorem SpellsAssignment.atDeclaration {a : Assignment} (h : SpellsAssignment ts a) :
    atDeclaration (ts ++ rest) = false := by
  obtain ⟨htarget, -, hsign, hwrites, -⟩ := h
  rw [List.append_assoc, List.cons_append]
  refine atDeclaration_of_chain htarget (atSymbol_cons.2 hsign) ?_
  rintro rfl
  cases hwrites

theorem SpellsAction.atDeclaration {a : Action} (h : SpellsAction ts a) (hrest : Closes rest) :
    atDeclaration (ts ++ rest) = false := by
  cases h with
  | assignment h => exact h.atDeclaration
  | call h _ =>
    rcases hrest with hrest | hrest
    · exact atDeclaration_of_chain h hrest nofun
    · exact atDeclaration_of_chain h hrest nofun

/-! ## Parts of statements -/

theorem closeJump_reads {p : Position} {j : Jump} {t : Token} (ht : t.kind = .symbol .semicolon) :
    Succeeds (closeJump finish p j (t :: rest)) (· = .jump p j) rest := by
  unfold closeJump
  exact .bind (expectSymbol_reads ht) fun _ _ _ => .ok rfl

theorem SpellsJump.reads {around : Surroundings} {j : Jump} {t : Token}
    (h : SpellsJump around ts j) (ht : t.kind = .symbol .semicolon) :
    IsRead (jump finish around) (fun _ => True) (ts ++ [t]) (·.marked .none = .jump .start j) := by
  rintro rest input hinput -
  cases h with
  | @return_ word vs value hword hvalue =>
    obtain rfl : input = word :: (vs ++ t :: rest) := by simp [hinput]
    unfold jump
    simp only [acceptKeyword_cons hword]
    cases hvalue with
    | none =>
      have hsemicolon : atSymbol .semicolon ([] ++ t :: rest) = true := atSymbol_cons.2 ht
      simp only [hsemicolon, ↓reduceIte]
      exact (closeJump_reads ht).within.imp fun s hs => by simp [hs]
    | some hvalue =>
      have hsemicolon : atSymbol .semicolon (vs ++ t :: rest) = false := hvalue.atSymbol nofun nofun
      simp only [hsemicolon, Bool.false_eq_true, ↓reduceIte]
      refine .bind (hvalue.reads rfl (closes_semicolon ht).ends).within fun _ _ hvalue => ?_
      exact (closeJump_reads ht).within.imp fun s hs => by simp [hs, hvalue]
  | @break_ word hword hfits =>
    obtain rfl : input = word :: t :: rest := hinput
    have hreturn : word.isKeyword "return" = false := isKeyword_of_ne hword (by decide)
    unfold jump
    simp only [acceptKeyword_cons_of_ne hreturn, acceptKeyword_cons hword, hfits, ↓reduceIte]
    exact (closeJump_reads ht).within.imp fun s hs => by simp [hs]
  | @continue_ word hword hfits =>
    obtain rfl : input = word :: t :: rest := hinput
    have hreturn : word.isKeyword "return" = false := isKeyword_of_ne hword (by decide)
    have hbreak : word.isKeyword "break" = false := isKeyword_of_ne hword (by decide)
    unfold jump
    simp only [acceptKeyword_cons_of_ne hreturn, acceptKeyword_cons_of_ne hbreak,
      acceptKeyword_cons hword, hfits, ↓reduceIte]
    exact (closeJump_reads ht).within.imp fun s hs => by simp [hs]

theorem SpellsCondition.reads {word : String} {e : Expr} (h : SpellsCondition ts e) :
    IsRead (condition finish word) (fun _ => True) ts (·.marked .none = e) := by
  rintro rest input hinput -
  obtain ⟨hopen, he, hclose⟩ := h
  rename_i opening closing us
  obtain rfl : input = opening :: (us ++ closing :: rest) := by simp [hinput]
  unfold condition
  refine .bind (expectSymbol_reads hopen) fun _ _ _ => ?_
  refine .bind (he.reads rfl (closes_rightParen hclose).ends).within fun _ _ hvalue => ?_
  exact .bind (expectSymbol_reads hclose).within fun _ _ _ => .ok hvalue

theorem closeInit_reads {init : Option ForInit} {t : Token} (ht : t.kind = .symbol .semicolon) :
    Succeeds (closeInit finish init (t :: rest)) (· = init) rest := by
  unfold closeInit
  exact .bind (expectSymbol_reads ht) fun _ _ _ => .ok rfl

theorem StartsSimple.atSymbol {t : Token} (h : StartsSimple t) (s : Symbol) :
    atSymbol s (t :: ts) = false := by
  rw [Bool.eq_false_iff, Ne, atSymbol_cons]
  exact h.kind s

theorem forInit_reads {init : Option ForInit} {t : Token}
    (h : SpellsOptional SpellsForInit ts init) (ht : t.kind = .symbol .semicolon) :
    IsRead (forInit finish) (fun _ => True) (ts ++ [t]) (·.map (ForInit.marked .none) = init) := by
  rintro rest input hinput -
  obtain rfl : input = ts ++ t :: rest := by simp [hinput]
  unfold forInit
  cases h with
  | none =>
    have hsemicolon : Grammar.atSymbol .semicolon ([] ++ t :: rest) = true := atSymbol_cons.2 ht
    simp only [hsemicolon, ↓reduceIte]
    exact (closeInit_reads ht).imp fun _ h => by simp [h]
  | some h =>
    cases h with
    | declaration h =>
      have hsemicolon : Grammar.atSymbol .semicolon (ts ++ t :: rest) = false := by
        obtain ⟨u, more, rfl, hu⟩ := h.starts
        exact hu.atSymbol _
      simp only [hsemicolon, Bool.false_eq_true, h.atDeclaration, ↓reduceIte]
      refine .bind (h.reads rfl (closes_semicolon ht)) fun _ _ hv => ?_
      exact (closeInit_reads ht).within.imp fun _ h => by simpa [h] using hv
    | assignment h =>
      have hsemicolon : Grammar.atSymbol .semicolon (ts ++ t :: rest) = false := by
        obtain ⟨u, more, rfl, hu⟩ := h.starts
        exact (startsSimple_of_this hu).atSymbol _
      simp only [hsemicolon, Bool.false_eq_true, h.atDeclaration, ↓reduceIte]
      refine .bind (h.reads rfl (closes_semicolon ht)) fun _ _ ha => ?_
      exact (closeInit_reads ht).within.imp fun _ h => by simpa [h] using ha

theorem forCondition_reads {test : Option Expr} {t : Token}
    (h : SpellsOptional SpellsExpr ts test) (ht : t.kind = .symbol .semicolon) :
    IsRead (forCondition finish) (fun _ => True) (ts ++ [t])
      (·.map (Expr.marked .none) = test) := by
  rintro rest input hinput -
  obtain rfl : input = ts ++ t :: rest := by simp [hinput]
  unfold forCondition
  cases h with
  | none =>
    have hsemicolon : Grammar.atSymbol .semicolon ([] ++ t :: rest) = true := atSymbol_cons.2 ht
    simp only [hsemicolon, ↓reduceIte]
    exact .bind (expectSymbol_reads ht) fun _ _ _ => .ok rfl
  | some h =>
    have hsemicolon : Grammar.atSymbol .semicolon (ts ++ t :: rest) = false := h.atSymbol nofun nofun
    simp only [hsemicolon, Bool.false_eq_true, ↓reduceIte]
    refine .bind (h.reads rfl (closes_semicolon ht).ends) fun _ _ hvalue => ?_
    exact .bind (expectSymbol_reads ht).within fun _ _ _ => .ok (by simp [hvalue])

theorem forUpdate_reads {update : Option Action} {t : Token}
    (h : SpellsOptional SpellsAction ts update) (ht : t.kind = .symbol .rightParen) :
    IsRead (forUpdate finish) (fun _ => True) (ts ++ [t])
      (·.map (Action.marked .none) = update) := by
  rintro rest input hinput -
  obtain rfl : input = ts ++ t :: rest := by simp [hinput]
  unfold forUpdate
  cases h with
  | none =>
    have hparen : Grammar.atSymbol .rightParen ([] ++ t :: rest) = true := atSymbol_cons.2 ht
    simp only [hparen, ↓reduceIte]
    exact .bind (expectSymbol_reads ht) fun _ _ _ => .ok rfl
  | some h =>
    have hparen : Grammar.atSymbol .rightParen (ts ++ t :: rest) = false := by
      obtain ⟨u, more, rfl, hu⟩ := h.starts
      exact (startsSimple_of_this hu).atSymbol _
    simp only [hparen, Bool.false_eq_true, ↓reduceIte]
    refine .bind (h.reads rfl (closes_rightParen ht)) fun _ _ hvalue => ?_
    exact .bind (expectSymbol_reads ht).within fun _ _ _ => .ok (congrArg some hvalue)

theorem eq_literal_of_marked {m : Marks} {e : Expr} {p : Position} {value : Literal}
    (h : e.marked m = .literal p value) : ∃ p', e = .literal p' value := by
  cases e <;> simp at h
  exact ⟨_, by rw [h.2]⟩

theorem caseLabel_reads {label : Literal} (h : SpellsLiteral ts label) (hvalue : LabelValue label) :
    IsRead (caseLabel finish) (fun _ => True) ts (·.2 = label) := by
  rintro rest input rfl -
  have hfits : (((ts ++ rest).head?.any fun t =>
      t.kind == .integer || t.kind == .character || t.kind == .boolean) ||
        atNegativeInteger (ts ++ rest)) = true := by
    cases hvalue <;> cases h <;> simp_all [atNegativeInteger, Grammar.atSymbol]
  unfold caseLabel
  simp only [hfits, ↓reduceIte]
  refine .bind (literal_reads h) fun value _ hvalue => ?_
  obtain ⟨p, rfl⟩ := eq_literal_of_marked hvalue
  exact .ok rfl

/-! ## First tokens of statements -/

/-- The first token of a statement ends no statements, and no conditional goes on with it. -/
structure StartsStatement (t : Token) : Prop where
  brace : t.kind ≠ .symbol .rightBrace
  words : ∀ word ∈ ["case", "default", "else"], t.isKeyword word = false

theorem startsStatement_of_isKeyword {t : Token} {word : String} (h : t.isKeyword word = true)
    (hword : word ∉ ["case", "default", "else"]) : StartsStatement t := by
  refine ⟨by simp [kind_of_isKeyword h], fun word' hword' => isKeyword_of_ne h ?_⟩
  rintro rfl
  exact hword hword'

theorem StartsSimple.startsStatement {t : Token} (h : StartsSimple t) : StartsStatement t := by
  refine ⟨h.kind _, fun word hword => h.isKeyword ?_⟩
  revert word
  decide

theorem SpellsStatement.starts {around : Surroundings} {s : Statement}
    (h : SpellsStatement around ts s) : ∃ t more, ts = t :: more ∧ StartsStatement t := by
  cases h with
  | block h =>
    obtain ⟨hopen, -, -⟩ := h
    refine ⟨_, _, rfl, by simp [hopen], fun word hword => isKeyword_of_kind (by simp [hopen])⟩
  | conditional h _ _ => exact ⟨_, _, rfl, startsStatement_of_isKeyword h (by decide)⟩
  | alternative h _ _ _ _ _ => exact ⟨_, _, rfl, startsStatement_of_isKeyword h (by decide)⟩
  | whileLoop h _ _ => exact ⟨_, _, rfl, startsStatement_of_isKeyword h (by decide)⟩
  | forLoop h _ _ _ _ _ _ _ _ => exact ⟨_, _, rfl, startsStatement_of_isKeyword h (by decide)⟩
  | switch h _ _ _ _ => exact ⟨_, _, rfl, startsStatement_of_isKeyword h (by decide)⟩
  | jump h _ =>
    cases h with
    | return_ h _ => exact ⟨_, _, rfl, startsStatement_of_isKeyword h (by decide)⟩
    | break_ h _ => exact ⟨_, _, rfl, startsStatement_of_isKeyword h (by decide)⟩
    | continue_ h _ => exact ⟨_, _, rfl, startsStatement_of_isKeyword h (by decide)⟩
  | declaration h _ =>
    obtain ⟨t, more, rfl, ht⟩ := h.starts
    exact ⟨t, _, rfl, ht.startsStatement⟩
  | action h _ =>
    obtain ⟨t, more, rfl, ht⟩ := h.starts
    exact ⟨t, _, rfl, (startsSimple_of_this ht).startsStatement⟩

theorem SpellsStatement.length_pos {around : Surroundings} {s : Statement}
    (h : SpellsStatement around ts s) : 0 < ts.length := by
  obtain ⟨t, more, rfl, -⟩ := h.starts
  exact Nat.succ_pos _

theorem StartsStatement.acceptKeyword_else {t : Token} (h : StartsStatement t) :
    acceptKeyword "else" (t :: ts) = none :=
  acceptKeyword_cons_of_ne (h.words "else" (by decide))

theorem SpellsStatements.acceptKeyword_else {around : Surroundings} {ss : List Statement}
    (h : SpellsStatements around ts ss) (hrest : acceptKeyword "else" rest = none) :
    acceptKeyword "else" (ts ++ rest) = none := by
  cases h with
  | nil => exact hrest
  | cons h _ =>
    obtain ⟨t, more, rfl, ht⟩ := h.starts
    exact ht.acceptKeyword_else

/-- Statements end where the test holds, and no statement starts there. -/
structure StopsAt (stop : List Token → Bool) (rest : List Token) : Prop where
  holds : stop rest = true
  starts : ∀ t us, StartsStatement t → stop (t :: us) = false
  noElse : acceptKeyword "else" rest = none
  ne_nil : rest ≠ []

theorem stopsAt_rightBrace {t : Token} (h : t.kind = .symbol .rightBrace) :
    StopsAt (atSymbol .rightBrace) (t :: rest) := by
  refine ⟨atSymbol_cons.2 h, fun t us ht => ?_, ?_, nofun⟩
  · rw [Bool.eq_false_iff, Ne, atSymbol_cons]
    exact ht.brace
  · exact acceptKeyword_cons_of_ne (isKeyword_of_kind (by simp [h]))

theorem atCaseEnd_of_starts {t : Token} (h : StartsStatement t) : atCaseEnd (t :: ts) = false := by
  have hcase := h.words "case" (by decide)
  have hdefault := h.words "default" (by decide)
  have hbrace := h.brace
  simp [atCaseEnd, atKeyword, Grammar.atSymbol, hcase, hdefault, hbrace]

theorem stopsAt_caseEnd {t : Token} (h : atCaseEnd (t :: rest) = true)
    (helse : t.isKeyword "else" = false) : StopsAt atCaseEnd (t :: rest) :=
  ⟨h, fun _ _ => atCaseEnd_of_starts, acceptKeyword_cons_of_ne helse, nofun⟩

/-- The statements of a case end where the next arm or the closing brace is. -/
theorem SpellsArms.stopsAt {around : Surroundings} {cases : List Case} {default_ : Option Block}
    {closing : Token} (h : SpellsArms around ts cases default_)
    (hclose : closing.kind = .symbol .rightBrace) : StopsAt atCaseEnd (ts ++ closing :: rest) := by
  cases h with
  | nil =>
    refine stopsAt_caseEnd ?_ (isKeyword_of_kind (by simp [hclose]))
    simp [atCaseEnd, Grammar.atSymbol, hclose]
  | case hword _ _ _ _ _ =>
    refine stopsAt_caseEnd ?_ (isKeyword_of_ne hword (by decide))
    simp [atCaseEnd, atKeyword, hword]
  | default_ hword _ _ _ =>
    refine stopsAt_caseEnd ?_ (isKeyword_of_ne hword (by decide))
    simp [atCaseEnd, atKeyword, hword]

/-! ## Statements -/

/-- The phrase is read as a statement, in front of an `else` only if the statement is closed. -/
def ReadAsStatement (around : Surroundings) (phrase : List Token) (s : Statement) : Prop :=
  ∀ finish id, IsRead (statement finish around id)
    (fun rest => s.isOpen = true → acceptKeyword "else" rest = none) phrase
    (·.1.marked .none = s)

def ReadAsBlock (around : Surroundings) (phrase : List Token) (b : Block) : Prop :=
  ∀ finish id, IsRead (block finish around id) (fun _ => True) phrase (·.1.marked .none = b)

/-- The phrase is read as statements behind those that are read already. -/
def ReadAsStatements (around : Surroundings) (phrase : List Token) (new : List Statement) : Prop :=
  ∀ (finish : Position) (stop : List Token → Bool) (bound : Nat) (done : List Statement)
    (id : NodeId) ⦃rest input : List Token⦄ (h : input.length < bound), input = phrase ++ rest →
    StopsAt stop rest → Succeeds (statements finish around stop bound done id input h) (fun r =>
      r.1.map (Statement.marked .none) = done.reverse.map (Statement.marked .none) ++ new) rest

/-- The phrase is read as arms behind those that are read already. -/
def ReadAsArms (around : Surroundings) (phrase : List Token) (cases : List Case)
    (default_ : Option Block) : Prop :=
  ∀ (finish : Position) (bound : Nat) (done : Arms) (id : NodeId) ⦃closing : Token⦄
    ⦃rest input : List Token⦄ (h : input.length < bound), closing.kind = .symbol .rightBrace →
    input = phrase ++ closing :: rest → (done.default_.isSome = true → default_ = none) →
    Succeeds (arms finish around bound done id input h) (fun r =>
      r.1.cases.reverse.map (Case.marked .none) =
        done.cases.reverse.map (Case.marked .none) ++ cases ∧
      r.1.default_.map (Block.marked .none) =
        default_.or (done.default_.map (Block.marked .none))) rest

section Rules

variable {around : Surroundings} {cs us : List Token} {word t opening closing : Token}
  {test : Expr} {body otherwise s : Statement} {b : Block} {ss : List Statement}

theorem ReadAsStatement.block (h : SpellsBlock around ts b) (hb : ReadAsBlock around ts b) :
    ReadAsStatement around ts (.block b) := by
  rintro finish id rest input rfl -
  obtain ⟨hopen, -, -⟩ := h
  rw [statement]
  simp only [List.cons_append, List.head?_cons, hopen, ↓reduceIte]
  refine .bind (hb finish id rfl trivial) ?_
  rintro ⟨value, next⟩ hlt hvalue
  exact .ok (congrArg Statement.block hvalue)

/-- A statement that starts with `if` is a conditional. -/
theorem statement_of_if {id : NodeId} (hword : word.isKeyword "if" = true) :
    statement finish around id (word :: ts) = conditional finish around id (word :: ts) := by
  rw [statement]
  simp only [List.head?_cons, kind_of_isKeyword hword, hword, reduceCtorEq, ↓reduceIte]

theorem ReadAsStatement.conditional (hword : word.isKeyword "if" = true)
    (htest : SpellsCondition cs test) (hbody : ReadAsStatement around ts body) :
    ReadAsStatement around (word :: (cs ++ ts)) (.conditional .start test body none) := by
  intro finish id rest input hinput hrest
  obtain rfl : input = word :: (cs ++ (ts ++ rest)) := by simp [hinput]
  have helse : acceptKeyword "else" rest = none := hrest rfl
  rw [statement_of_if hword, Grammar.conditional]
  refine .bind (expectKeyword_reads hword) fun _ _ _ => ?_
  refine .bind (htest.reads rfl trivial).within fun test' _ htest => ?_
  refine .bind (hbody finish id rfl fun _ => helse).within ?_
  rintro ⟨body', next⟩ hlt hbody
  simp only [helse]
  exact .ok (by simp [htest, hbody])

theorem ReadAsStatement.alternative {else_ : Token} (hword : word.isKeyword "if" = true)
    (htest : SpellsCondition cs test) (hbody : ReadAsStatement around ts body)
    (hclosed : body.isOpen = false) (helse : else_.isKeyword "else" = true)
    (hotherwise : ReadAsStatement around us otherwise) :
    ReadAsStatement around (word :: (cs ++ (ts ++ else_ :: us)))
      (.conditional .start test body (some otherwise)) := by
  intro finish id rest input hinput hrest
  obtain rfl : input = word :: (cs ++ (ts ++ else_ :: (us ++ rest))) := by simp [hinput]
  rw [statement_of_if hword, Grammar.conditional]
  refine .bind (expectKeyword_reads hword) fun _ _ _ => ?_
  refine .bind (htest.reads rfl trivial).within fun test' _ htest => ?_
  refine .bind (hbody finish id rfl fun hopen => ?_).within ?_
  · rw [hclosed] at hopen
    cases hopen
  · rintro ⟨body', middle⟩ hlt hbody
    simp only [acceptKeyword_cons helse]
    refine .bind (hotherwise finish middle rfl hrest).within ?_
    rintro ⟨otherwise', next⟩ hlt' hotherwise
    exact .ok (by simp [htest, hbody, hotherwise])

theorem ReadAsStatement.whileLoop (hword : word.isKeyword "while" = true)
    (htest : SpellsCondition cs test) (hbody : ReadAsStatement .inLoop ts body) :
    ReadAsStatement around (word :: (cs ++ ts)) (.whileLoop .start test body) := by
  intro finish id rest input hinput hrest
  obtain rfl : input = word :: (cs ++ (ts ++ rest)) := by simp [hinput]
  have hif : word.isKeyword "if" = false := isKeyword_of_ne hword (by decide)
  rw [statement]
  simp only [List.head?_cons, kind_of_isKeyword hword, hif, hword, reduceCtorEq, Bool.false_eq_true,
    ↓reduceIte]
  rw [Grammar.whileLoop]
  refine .bind (expectKeyword_reads hword) fun _ _ _ => ?_
  refine .bind (htest.reads rfl trivial).within fun test' _ htest => ?_
  refine .bind (hbody finish id rfl hrest).within ?_
  rintro ⟨body', next⟩ hlt hbody
  exact .ok (by simp [htest, hbody])

theorem ReadAsStatement.forLoop {first second : Token} {is : List Token} {init : Option ForInit}
    {test : Option Expr} {update : Option Action} (hword : word.isKeyword "for" = true)
    (hopen : opening.kind = .symbol .leftParen) (hinit : SpellsOptional SpellsForInit is init)
    (hfirst : first.kind = .symbol .semicolon) (htest : SpellsOptional SpellsExpr cs test)
    (hsecond : second.kind = .symbol .semicolon) (hupdate : SpellsOptional SpellsAction us update)
    (hclose : closing.kind = .symbol .rightParen) (hbody : ReadAsStatement .inLoop ts body) :
    ReadAsStatement around
      (word :: opening :: (is ++ first :: (cs ++ second :: (us ++ closing :: ts))))
      (.forLoop .start 0 init test update body) := by
  intro finish id rest input hinput hrest
  obtain rfl : input = word :: opening ::
      (is ++ first :: (cs ++ second :: (us ++ closing :: (ts ++ rest)))) := by simp [hinput]
  have hif : word.isKeyword "if" = false := isKeyword_of_ne hword (by decide)
  have hwhile : word.isKeyword "while" = false := isKeyword_of_ne hword (by decide)
  rw [statement]
  simp only [List.head?_cons, kind_of_isKeyword hword, hif, hwhile, hword, reduceCtorEq,
    Bool.false_eq_true, ↓reduceIte]
  rw [Grammar.forLoop]
  refine .bind (expectKeyword_reads hword) fun _ _ _ => ?_
  refine .bind (expectSymbol_reads hopen).within fun _ _ _ => ?_
  refine .bind (forInit_reads hinit hfirst (List.append_cons ..) trivial).within fun init' _ hinit => ?_
  refine .bind (forCondition_reads htest hsecond (List.append_cons ..) trivial).within fun test' _ htest => ?_
  refine .bind (forUpdate_reads hupdate hclose (List.append_cons ..) trivial).within fun update' _ hupdate => ?_
  refine .bind (hbody finish (id + 1) rfl hrest).within ?_
  rintro ⟨body', next⟩ hlt hbody
  exact .ok (by simp [hinit, htest, hupdate, hbody])

theorem ReadAsStatement.switch {selector : Expr} {cases : List Case} {default_ : Option Block}
    (hword : word.isKeyword "switch" = true) (hselector : SpellsCondition cs selector)
    (hopen : opening.kind = .symbol .leftBrace)
    (harms : ReadAsArms around.inSwitch ts cases default_)
    (hclose : closing.kind = .symbol .rightBrace) :
    ReadAsStatement around (word :: (cs ++ opening :: (ts ++ [closing])))
      (.switch .start 0 selector cases default_) := by
  rintro finish id rest input hinput -
  obtain rfl : input = word :: (cs ++ opening :: (ts ++ closing :: rest)) := by simp [hinput]
  have hif : word.isKeyword "if" = false := isKeyword_of_ne hword (by decide)
  have hwhile : word.isKeyword "while" = false := isKeyword_of_ne hword (by decide)
  have hfor : word.isKeyword "for" = false := isKeyword_of_ne hword (by decide)
  rw [statement]
  simp only [List.head?_cons, kind_of_isKeyword hword, hif, hwhile, hfor, hword, reduceCtorEq,
    Bool.false_eq_true, ↓reduceIte]
  rw [Grammar.switch]
  refine .bind (expectKeyword_reads hword) fun _ _ _ => ?_
  refine .bind (hselector.reads rfl trivial).within fun selector' _ hselector => ?_
  refine .bind (expectSymbol_reads hopen).within fun _ _ _ => ?_
  refine .bind (harms finish _ _ (id + 1) _ hclose rfl nofun) ?_
  rintro ⟨found, next⟩ hlt ⟨hcases, hdefault⟩
  exact .ok (by simpa [hselector] using ⟨by simpa using hcases, by simpa using hdefault⟩)

theorem SpellsJump.starts {j : Jump} (h : SpellsJump around ts j) :
    ∃ t more word, ts = t :: more ∧ t.isKeyword word = true ∧
      word ∈ ["return", "break", "continue"] := by
  cases h with
  | return_ h _ => exact ⟨_, _, _, rfl, h, by decide⟩
  | break_ h _ => exact ⟨_, _, _, rfl, h, by decide⟩
  | continue_ h _ => exact ⟨_, _, _, rfl, h, by decide⟩

theorem ReadAsStatement.jump {j : Jump} (h : SpellsJump around ts j)
    (ht : t.kind = .symbol .semicolon) :
    ReadAsStatement around (ts ++ [t]) (.jump .start j) := by
  rintro finish id rest input hinput -
  have hreads : Succeeds (Grammar.jump finish around input) (·.marked .none = .jump .start j) rest :=
    h.reads ht hinput trivial
  obtain ⟨u, more, word, rfl, hu, hword⟩ := h.starts
  obtain rfl : input = u :: (more ++ t :: rest) := by simp [hinput]
  have hwords : u.isKeyword "if" = false ∧ u.isKeyword "while" = false ∧
      u.isKeyword "for" = false ∧ u.isKeyword "switch" = false ∧
      (u.isKeyword "return" || u.isKeyword "break" || u.isKeyword "continue") = true := by
    simp only [List.mem_cons, List.not_mem_nil, or_false] at hword
    rcases hword with rfl | rfl | rfl <;> simp [Token.isKeyword, text_of_isKeyword hu,
      kind_of_isKeyword hu]
  rw [statement]
  simp only [List.head?_cons, kind_of_isKeyword hu, hwords, reduceCtorEq, Bool.false_eq_true,
    ↓reduceIte]
  exact .bind hreads fun _ _ hs => .ok hs

theorem ReadAsStatement.declaration {v : Variable} (h : SpellsVariable ts v)
    (ht : t.kind = .symbol .semicolon) :
    ReadAsStatement around (ts ++ [t]) (.declaration v) := by
  rintro finish id rest input hinput -
  have hdeclaration : atDeclaration (ts ++ t :: rest) = true := h.atDeclaration
  have hreads : Succeeds (variableDeclaration finish (ts ++ t :: rest)) (·.marked .none = v)
      (t :: rest) :=
    h.reads rfl (closes_semicolon ht)
  obtain ⟨u, more, rfl, hu⟩ := h.starts
  obtain rfl : input = u :: (more ++ t :: rest) := by simp [hinput]
  rw [List.cons_append] at hdeclaration
  rw [statement]
  simp only [List.head?_cons, hu.kind, hu.words, hdeclaration, Bool.or_false, Bool.false_eq_true,
    ↓reduceIte]
  refine .bind (hreads) fun _ _ hv => ?_
  exact .bind (expectSymbol_reads ht).within fun _ _ _ => .ok (congrArg Statement.declaration hv)

theorem ReadAsStatement.action {a : Action} (h : SpellsAction ts a)
    (ht : t.kind = .symbol .semicolon) :
    ReadAsStatement around (ts ++ [t]) (.action a) := by
  rintro finish id rest input hinput -
  have hdeclaration : atDeclaration (ts ++ t :: rest) = false := h.atDeclaration (closes_semicolon ht)
  have hreads : Succeeds (Grammar.action finish (ts ++ t :: rest)) (·.marked .none = a)
      (t :: rest) :=
    h.reads rfl (closes_semicolon ht)
  obtain ⟨u, more, rfl, hu⟩ := h.starts
  obtain rfl : input = u :: (more ++ t :: rest) := by simp [hinput]
  rw [List.cons_append] at hdeclaration
  rw [statement]
  simp only [List.head?_cons, (startsSimple_of_this hu).kind, (startsSimple_of_this hu).words,
    hu.symm, hdeclaration, Bool.or_false, Bool.false_eq_true, ↓reduceIte]
  refine .bind (hreads) fun _ _ ha => ?_
  exact .bind (expectSymbol_reads ht).within fun _ _ _ => .ok (congrArg Statement.action ha)

theorem ReadAsBlock.mk (hopen : opening.kind = .symbol .leftBrace)
    (h : ReadAsStatements around ts ss) (hclose : closing.kind = .symbol .rightBrace) :
    ReadAsBlock around (opening :: (ts ++ [closing])) (.mk 0 .start ss) := by
  rintro finish id rest input hinput -
  obtain rfl : input = opening :: (ts ++ closing :: rest) := by simp [hinput]
  rw [block]
  refine .bind (expectSymbol_reads hopen) fun _ _ _ => ?_
  refine .bind (h finish _ _ [] (id + 1) _ rfl (stopsAt_rightBrace hclose)) ?_
  rintro ⟨statements, next⟩ hlt hstatements
  refine .bind (expectSymbol_reads hclose).within fun _ _ _ => .ok ?_
  simpa using hstatements

theorem ReadAsStatements.nil : ReadAsStatements around [] [] := by
  rintro finish stop bound done id rest input hlt rfl hstop
  rw [statements]
  simp only [hstop.holds, ↓reduceIte]
  exact .ok (by simp)

theorem ReadAsStatements.cons (hs : SpellsStatement around ts s) (hread : ReadAsStatement around ts s)
    (hss : SpellsStatements around us ss) (h : ReadAsStatements around us ss) :
    ReadAsStatements around (ts ++ us) (s :: ss) := by
  intro finish stop bound done id rest input hlt hinput hstop
  obtain rfl : input = ts ++ (us ++ rest) := by simp [hinput]
  have hnone : stop (ts ++ (us ++ rest)) = false ∧ (ts ++ (us ++ rest)).isEmpty = false := by
    obtain ⟨t, more, rfl, ht⟩ := hs.starts
    exact ⟨hstop.starts t _ ht, rfl⟩
  rw [statements]
  simp only [hnone, Bool.false_eq_true, ↓reduceIte]
  refine .bind (hread finish id rfl fun _ => hss.acceptKeyword_else hstop.noElse) ?_
  rintro ⟨s', middle⟩ hlt' hs'
  refine (h finish stop bound (s' :: done) middle _ rfl hstop).imp fun r hr => ?_
  simpa [hr] using hs'

theorem caseBody_reads (h : ReadAsStatements around ts ss) {id : NodeId}
    (hstop : StopsAt atCaseEnd rest) :
    Succeeds (caseBody finish around id (ts ++ rest)) (·.1.marked .none = .mk 0 .start ss) rest := by
  rw [caseBody]
  refine .bind (h finish atCaseEnd _ [] (id + 1) _ rfl hstop) ?_
  rintro ⟨statements, next⟩ hlt hstatements
  exact .ok (by simpa using hstatements)

theorem ReadAsArms.nil : ReadAsArms around [] [] none := by
  intro finish bound done id closing rest input hlt hclose hinput _
  obtain rfl : input = closing :: rest := hinput
  rw [arms]
  simp only [acceptSymbol_cons hclose]
  exact .ok ⟨by simp, by simp⟩

theorem acceptSymbol_of_isKeyword {t : Token} {word : String} {s : Symbol}
    (h : t.isKeyword word = true) : acceptSymbol s (t :: ts) = none :=
  acceptSymbol_cons_of_ne (by simp [kind_of_isKeyword h])

theorem ReadAsArms.case {colon : Token} {ls : List Token} {label : Literal} {cases : List Case}
    {default_ : Option Block} (hword : word.isKeyword "case" = true)
    (hlabel : SpellsLiteral ls label) (hvalue : LabelValue label)
    (hcolon : colon.kind = .symbol .colon) (hbody : ReadAsStatements around ts ss)
    (harms : SpellsArms around us cases default_) (h : ReadAsArms around us cases default_) :
    ReadAsArms around (word :: (ls ++ colon :: (ts ++ us)))
      (.mk .start .start label (.mk 0 .start ss) :: cases) default_ := by
  intro finish bound done id closing rest input hlt hclose hinput honce
  obtain rfl : input = word :: (ls ++ colon :: (ts ++ (us ++ closing :: rest))) := by simp [hinput]
  rw [arms]
  simp only [acceptSymbol_of_isKeyword hword, acceptKeyword_cons hword]
  refine .bind (caseLabel_reads hlabel hvalue rfl trivial).within ?_
  rintro ⟨p, label'⟩ _ hlabel'
  refine .bind (expectSymbol_reads hcolon).within fun _ _ _ => ?_
  refine .bind (caseBody_reads hbody (harms.stopsAt hclose)).optionalWithin ?_
  rintro ⟨body, next⟩ _ hbody'
  refine Succeeds.imp (h finish bound _ _ _ hclose rfl honce) ?_
  rintro r ⟨hcases, hdefault⟩
  refine ⟨hcases.trans ?_, hdefault⟩
  obtain rfl : label' = label := hlabel'
  simpa using hbody'

theorem ReadAsArms.default_ {colon : Token} {cases : List Case}
    (hword : word.isKeyword "default" = true) (hcolon : colon.kind = .symbol .colon)
    (hbody : ReadAsStatements around ts ss) (harms : SpellsArms around us cases none)
    (h : ReadAsArms around us cases none) :
    ReadAsArms around (word :: colon :: (ts ++ us)) cases (some (.mk 0 .start ss)) := by
  intro finish bound done id closing rest input hlt hclose hinput honce
  obtain rfl : input = word :: colon :: (ts ++ (us ++ closing :: rest)) := by simp [hinput]
  have hcase : word.isKeyword "case" = false := isKeyword_of_ne hword (by decide)
  have hnone : done.default_.isSome = false := by
    rw [Bool.eq_false_iff]
    intro hsome
    cases honce hsome
  rw [arms]
  simp only [acceptSymbol_of_isKeyword hword, acceptKeyword_cons_of_ne hcase,
    acceptKeyword_cons hword, hnone, Bool.false_eq_true, ↓reduceIte]
  refine .bind (expectSymbol_reads hcolon).within fun _ _ _ => ?_
  refine .bind (caseBody_reads hbody (harms.stopsAt hclose)).optionalWithin ?_
  rintro ⟨body, next⟩ _ hbody'
  refine Succeeds.imp (h finish bound _ _ _ hclose rfl fun _ => rfl) ?_
  rintro r ⟨hcases, hdefault⟩
  refine ⟨hcases, hdefault.trans ?_⟩
  simpa using hbody'

end Rules

/-! ### Derivations -/

mutual

theorem SpellsStatement.reads {around : Surroundings} {ts : List Token} {s : Statement}
    (h : SpellsStatement around ts s) : ReadAsStatement around ts s := by
  match h with
  | .block h => exact .block h h.reads
  | .conditional hword htest h => exact .conditional hword htest h.reads
  | .alternative hword htest h hclosed helse h' =>
    exact .alternative hword htest h.reads hclosed helse h'.reads
  | .whileLoop hword htest h => exact .whileLoop hword htest h.reads
  | .forLoop hword hopen hinit hfirst htest hsecond hupdate hclose h =>
    exact .forLoop hword hopen hinit hfirst htest hsecond hupdate hclose h.reads
  | .switch hword hselector hopen h hclose => exact .switch hword hselector hopen h.reads hclose
  | .jump h ht => exact .jump h ht
  | .declaration h ht => exact .declaration h ht
  | .action h ht => exact .action h ht
termination_by 2 * ts.length + 1
decreasing_by
  any_goals simp only [List.length_append, List.length_cons]
  all_goals omega

theorem SpellsBlock.reads {around : Surroundings} {ts : List Token} {b : Block}
    (h : SpellsBlock around ts b) : ReadAsBlock around ts b := by
  match h with
  | .mk hopen h hclose => exact .mk hopen h.reads hclose
termination_by 2 * ts.length
decreasing_by
  simp only [List.length_append, List.length_cons]
  omega

theorem SpellsStatements.reads {around : Surroundings} {ts : List Token} {ss : List Statement}
    (h : SpellsStatements around ts ss) : ReadAsStatements around ts ss := by
  match h with
  | .nil => exact .nil
  | .cons h hs =>
    have hpos := h.length_pos
    exact .cons h h.reads hs hs.reads
termination_by 2 * ts.length + 2
decreasing_by
  all_goals
    simp only [List.length_append]
    omega

theorem SpellsArms.reads {around : Surroundings} {ts : List Token} {cases : List Case}
    {default_ : Option Block} (h : SpellsArms around ts cases default_) :
    ReadAsArms around ts cases default_ := by
  match h with
  | .nil => exact .nil
  | .case hword hlabel hvalue hcolon hbody h =>
    exact .case hword hlabel hvalue hcolon hbody.reads h h.reads
  | .default_ hword hcolon hbody h => exact .default_ hword hcolon hbody.reads h h.reads
termination_by 2 * ts.length
decreasing_by
  all_goals
    simp only [List.length_append, List.length_cons]
    omega

end

end Javelet.Grammar
