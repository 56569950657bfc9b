import Javelet.Proofs.Phrases.Taken.Expression

/-!
# Phrases are read

A reader of expressions reads every phrase in front of tokens that do not go on with it, gives the
tree that the phrase spells, and leaves these tokens. So an expression is what a whole token list is
read as exactly if the list spells it.
-/
namespace Javelet.Grammar

/-- A reader succeeds, gives a value as told and leaves the given tokens. -/
def Succeeds {α : Type} {bound : Nat} (o : Outcome α bound) (Q : α → Prop) (rest : List Token) :
    Prop :=
  ∃ value h, o = .ok ⟨value, rest, h⟩ ∧ Q value

section Rules

variable {α β : Type} {bound bound' : Nat} {Q : α → Prop} {R : β → Prop} {rest rest' : List Token}

theorem Succeeds.ok {value : α} {h : rest.length < bound} (hq : Q value) :
    Succeeds (.ok ⟨value, rest, h⟩ : Outcome α bound) Q rest :=
  ⟨value, h, rfl, hq⟩

theorem Succeeds.bind {o : Outcome β bound'} {f : Parsed β bound' → Outcome α bound}
    (ho : Succeeds o R rest) (hf : ∀ value h, R value → Succeeds (f ⟨value, rest, h⟩) Q rest') :
    Succeeds (o >>= f) Q rest' := by
  obtain ⟨value, h, rfl, hr⟩ := ho
  exact hf value h hr

theorem Succeeds.imp {o : Outcome α bound} {R : α → Prop} (ho : Succeeds o R rest)
    (h : ∀ value, R value → Q value) : Succeeds o Q rest := by
  obtain ⟨value, hlt, rfl, hr⟩ := ho
  exact .ok (h value hr)

theorem Succeeds.within {ts : List Token} {h : ts.length < bound} {o : Outcome α ts.length}
    (ho : Succeeds o Q rest) : Succeeds (within h o) Q rest := by
  obtain ⟨value, hlt, rfl, hq⟩ := ho
  exact ⟨value, _, rfl, hq⟩

theorem Succeeds.optionalWithin {ts : List Token} {h : ts.length < bound}
    {o : Outcome α (ts.length + 1)} (ho : Succeeds o Q rest) :
    Succeeds (optionalWithin h o) Q rest := by
  obtain ⟨value, hlt, rfl, hq⟩ := ho
  exact ⟨value, _, rfl, hq⟩

theorem Succeeds.behind {ts more : List Token} {h : more.length < ts.length + 1}
    {o : Outcome α more.length} (ho : Succeeds o Q rest) : Succeeds (behind h o) Q rest := by
  obtain ⟨value, hlt, rfl, hq⟩ := ho
  exact ⟨value, _, rfl, hq⟩

end Rules

/-! ## Single tokens -/

section Tokens

variable {finish : Position} {t : Token} {ts : List Token} {s : Symbol}

theorem acceptSymbol_cons (h : t.kind = .symbol s) :
    acceptSymbol s (t :: ts) = some ⟨t, ts, shorter_cons t ts⟩ := by
  simp [acceptSymbol, accept, h]

theorem acceptSymbol_cons_of_ne (h : t.kind ≠ .symbol s) : acceptSymbol s (t :: ts) = none := by
  simp [acceptSymbol, accept, h]

theorem atSymbol_cons : atSymbol s (t :: ts) = true ↔ t.kind = .symbol s := by
  simp [atSymbol]

/-- Where one symbol stands, no other one does. -/
theorem atSymbol_of_ne {s' : Symbol} (h : atSymbol s ts = true) (hne : s ≠ s') :
    atSymbol s' ts = false := by
  cases ts with
  | nil => rfl
  | cons t rest =>
    rw [Bool.eq_false_iff, Ne, atSymbol_cons, atSymbol_cons.1 h]
    exact fun h => hne (Kind.symbol.inj h)

theorem acceptSymbol_of_atSymbol_eq_false (h : atSymbol s ts = false) :
    acceptSymbol s ts = none := by
  cases ts with
  | nil => rfl
  | cons t rest =>
    rw [Bool.eq_false_iff, Ne, atSymbol_cons] at h
    exact acceptSymbol_cons_of_ne h

theorem acceptKeyword_cons {word : String} (h : t.isKeyword word = true) :
    acceptKeyword word (t :: ts) = some ⟨t, ts, shorter_cons t ts⟩ := by
  simp [acceptKeyword, accept, h]

theorem acceptKeyword_cons_of_ne {word : String} (h : t.isKeyword word = false) :
    acceptKeyword word (t :: ts) = none := by
  simp [acceptKeyword, accept, h]

theorem kind_of_isKeyword {word : String} (h : t.isKeyword word = true) : t.kind = .keyword := by
  simp only [Token.isKeyword, Bool.and_eq_true, beq_iff_eq] at h
  exact h.1

theorem text_of_isKeyword {word : String} (h : t.isKeyword word = true) : t.text = word := by
  simp only [Token.isKeyword, Bool.and_eq_true, beq_iff_eq] at h
  exact h.2

theorem isKeyword_of_kind {word : String} (h : t.kind ≠ .keyword) : t.isKeyword word = false := by
  simp [Token.isKeyword, h]

theorem isKeyword_of_ne {word word' : String} (h : t.isKeyword word = true) (hne : word ≠ word') :
    t.isKeyword word' = false := by
  simp [Token.isKeyword, text_of_isKeyword h, hne]

theorem expectSymbol_reads {what : String} (h : t.kind = .symbol s) :
    Succeeds (expectSymbol finish s what (t :: ts)) (fun _ => True) ts := by
  unfold expectSymbol
  rw [acceptSymbol_cons h]
  exact .ok trivial

theorem expectKeyword_reads {word what : String} (h : t.isKeyword word = true) :
    Succeeds (expectKeyword finish word what (t :: ts)) (fun _ => True) ts := by
  unfold expectKeyword
  rw [acceptKeyword_cons h]
  exact .ok trivial

theorem expectName_cons {what : String} (h : t.kind = .identifier) :
    expectName finish what (t :: ts) = .ok ⟨t.text, ts, shorter_cons t ts⟩ := by
  have haccept : accept (fun t => t.kind == .identifier) (t :: ts) =
      some ⟨t, ts, shorter_cons t ts⟩ := by
    simp [accept, h]
  unfold expectName
  rw [haccept]

theorem expectName_reads {what : String} (h : t.kind = .identifier) :
    Succeeds (expectName finish what (t :: ts)) (· = t.text) ts :=
  ⟨_, _, expectName_cons h, rfl⟩

theorem isTypeName_of_spellsTypeName {name : String} (h : SpellsTypeName t name) :
    isTypeName t = true ∧ t.text = name := by
  cases h with
  | identifier hkind => simp [isTypeName, hkind]
  | int hword => simp [isTypeName, kind_of_isKeyword hword, text_of_isKeyword hword, primitiveTypes]
  | char hword => simp [isTypeName, kind_of_isKeyword hword, text_of_isKeyword hword, primitiveTypes]
  | boolean hword =>
    simp [isTypeName, kind_of_isKeyword hword, text_of_isKeyword hword, primitiveTypes]

theorem typeName_reads {name what : String} (h : SpellsTypeName t name) :
    Succeeds (typeName finish what (t :: ts)) (· = name) ts := by
  obtain ⟨htest, rfl⟩ := isTypeName_of_spellsTypeName h
  have haccept : accept isTypeName (t :: ts) = some ⟨t, ts, shorter_cons t ts⟩ := by
    simp [accept, htest]
  unfold typeName
  rw [haccept]
  exact .ok rfl

end Tokens

/-! ## The ends of expressions -/

theorem operator?_of_writes {level : Level} {s : Symbol} {op : BinaryOp}
    (h : level.Writes s op) : level.operator? s = some op := by
  cases h <;> rfl

theorem tighter_of_above {level next : Level} (h : level.Above next) :
    level.tighter = some next := by
  cases h <;> rfl

/-- Tokens that go on neither with an access chain nor with an operator of the tightest levels, as
many of them as told. -/
structure Ends (levels : Nat) (ts : List Token) : Prop where
  dot : acceptSymbol .dot ts = none
  bracket : acceptSymbol .leftBracket ts = none
  paren : atSymbol .leftParen ts = false
  operator : ∀ level : Level, level.rank ≤ levels → acceptOperator level ts = none

theorem ends_nil (levels : Nat) : Ends levels [] := ⟨rfl, rfl, rfl, fun _ _ => rfl⟩

theorem Ends.mono {levels levels' : Nat} {ts : List Token} (h : Ends levels ts)
    (hle : levels' ≤ levels) : Ends levels' ts :=
  ⟨h.dot, h.bracket, h.paren, fun level hlevel => h.operator level (Nat.le_trans hlevel hle)⟩

theorem ends_cons {levels : Nat} {t : Token} {ts : List Token}
    (hkind : ∀ s, t.kind = .symbol s → s ≠ .dot ∧ s ≠ .leftBracket ∧ s ≠ .leftParen ∧
      ∀ level : Level, level.rank ≤ levels → level.operator? s = none) :
    Ends levels (t :: ts) := by
  refine ⟨?_, ?_, ?_, ?_⟩
  · exact acceptSymbol_cons_of_ne fun h => (hkind _ h).1 rfl
  · exact acceptSymbol_cons_of_ne fun h => (hkind _ h).2.1 rfl
  · rw [Bool.eq_false_iff, Ne, atSymbol_cons]
    exact fun h => (hkind _ h).2.2.1 rfl
  · intro level hlevel
    simp only [acceptOperator]
    split
    · rename_i s h
      rw [(hkind s h).2.2.2 level hlevel, Option.map_none]
    · rfl

/-- Symbols that stand behind expressions. -/
def expressionEnds : List Symbol :=
  [.rightParen, .rightBracket, .comma, .semicolon, .assign, .plusAssign, .minusAssign,
    .starAssign, .slashAssign, .percentAssign]

theorem ends_of_mem {levels : Nat} {t : Token} {ts : List Token} {s : Symbol}
    (hkind : t.kind = .symbol s) (hs : s ∈ expressionEnds) : Ends levels (t :: ts) := by
  refine ends_cons fun s' hkind' => ?_
  cases hkind.symm.trans hkind'
  simp only [expressionEnds, List.mem_cons, List.not_mem_nil, or_false] at hs
  rcases hs with rfl | rfl | rfl | rfl | rfl | rfl | rfl | rfl | rfl | rfl <;>
    exact ⟨by decide, by decide, by decide, fun level _ => by cases level <;> rfl⟩

/-- An operator ends the operands of its level. -/
theorem ends_of_writes {level : Level} {s : Symbol} {op : BinaryOp} {t : Token} {ts : List Token}
    (hkind : t.kind = .symbol s) (h : level.Writes s op) : Ends (level.rank - 1) (t :: ts) := by
  refine ends_cons fun s' hkind' => ?_
  cases hkind.symm.trans hkind'
  refine ⟨?_, ?_, ?_, fun level' hlevel => ?_⟩
  · rintro rfl
    cases h
  · rintro rfl
    cases h
  · rintro rfl
    cases h
  · cases h <;> cases level' <;> first | rfl | exact absurd hlevel (by decide)

theorem acceptOperator_cons {level : Level} {s : Symbol} {op : BinaryOp} {t : Token}
    {ts : List Token} (hkind : t.kind = .symbol s) (h : level.Writes s op) :
    acceptOperator level (t :: ts) = some ⟨op, ts, shorter_cons t ts⟩ := by
  simp [acceptOperator, hkind, operator?_of_writes h]

/-! ## First tokens -/

/-- The only symbols at the start of an expression are an opening parenthesis and a minus sign. -/
def StartsExpr (t : Token) : Prop := ∀ s, t.kind = .symbol s → s = .leftParen ∨ s = .minus

theorem startsExpr_of_kind {t : Token} {kind : Kind} (h : t.kind = kind)
    (hkind : ∀ s, kind ≠ .symbol s) : StartsExpr t :=
  fun s hs => (hkind s (h.symm.trans hs)).elim

theorem startsExpr_of_isKeyword {t : Token} {word : String} (h : t.isKeyword word = true) :
    StartsExpr t :=
  startsExpr_of_kind (kind_of_isKeyword h) nofun

theorem SpellsLiteral.starts {ts : List Token} {value : Literal} (h : SpellsLiteral ts value) :
    ∃ t rest, ts = t :: rest ∧ StartsExpr t := by
  cases h with
  | integer h => exact ⟨_, _, rfl, startsExpr_of_kind h nofun⟩
  | negative h =>
    refine ⟨_, _, rfl, fun s hs => ?_⟩
    cases h.symm.trans hs
    exact .inr rfl
  | character h => exact ⟨_, _, rfl, startsExpr_of_kind h nofun⟩
  | boolean h => exact ⟨_, _, rfl, startsExpr_of_kind h nofun⟩
  | string h => exact ⟨_, _, rfl, startsExpr_of_kind h nofun⟩
  | null h => exact ⟨_, _, rfl, startsExpr_of_kind h nofun⟩

theorem StartsExpr.atSymbol {t : Token} {ts : List Token} {s : Symbol} (h : StartsExpr t)
    (hparen : s ≠ .leftParen) (hminus : s ≠ .minus) : atSymbol s (t :: ts) = false := by
  rw [Bool.eq_false_iff, Ne, atSymbol_cons]
  intro hs
  rcases h s hs with rfl | rfl
  · exact hparen rfl
  · exact hminus rfl

/-- A chain starts with `this` or with an identifier. -/
theorem SpellsChain.starts {ts : List Token} {c : Chain} (h : SpellsChain ts c) :
    ∃ t rest, ts = t :: rest ∧ (t.isKeyword "this" = true ∨ t.kind = .identifier) := by
  cases h with
  | mk hhead _ =>
    cases hhead with
    | this h => exact ⟨_, _, rfl, .inl h⟩
    | name h => exact ⟨_, _, rfl, .inr h⟩
    | call h _ => exact ⟨_, _, rfl, .inr h⟩

theorem SpellsPrimary.starts {ts : List Token} {e : Expr} (h : SpellsPrimary ts e) :
    ∃ t rest, ts = t :: rest ∧ StartsExpr t := by
  cases h with
  | literal h => exact h.starts
  | parenthesized h =>
    refine ⟨_, _, rfl, fun s hs => ?_⟩
    cases h.symm.trans hs
    exact .inl rfl
  | newObject h => exact ⟨_, _, rfl, startsExpr_of_isKeyword h⟩
  | newArray h => exact ⟨_, _, rfl, startsExpr_of_isKeyword h⟩
  | access h =>
    obtain ⟨t, rest, rfl, hthis | hname⟩ := h.starts
    · exact ⟨_, _, rfl, startsExpr_of_isKeyword hthis⟩
    · exact ⟨_, _, rfl, startsExpr_of_kind hname nofun⟩

mutual

theorem Spells.starts {level : Level} {ts : List Token} {e : Expr} (h : Spells level ts e) :
    ∃ t rest, ts = t :: rest ∧ StartsExpr t := by
  match h with
  | .operand h => exact h.starts
  | .join _ h _ _ _ =>
    obtain ⟨t, rest, rfl, ht⟩ := h.starts
    exact ⟨_, _, rfl, ht⟩
  | .relate h _ _ _ =>
    obtain ⟨t, rest, rfl, ht⟩ := h.starts
    exact ⟨_, _, rfl, ht⟩
termination_by 12 * ts.length + 2 * level.rank + 1
decreasing_by
  · omega
  · simp only [List.length_append, List.length_cons]
    omega
  · simp only [List.length_append, List.length_cons]
    omega

theorem SpellsOperand.starts {level : Level} {ts : List Token} {e : Expr}
    (h : SpellsOperand level ts e) : ∃ t rest, ts = t :: rest ∧ StartsExpr t := by
  match h with
  | .tighter habove h => exact h.starts
  | .primary h => exact h.starts
termination_by 12 * ts.length + 2 * level.rank
decreasing_by
  have := Level.rank_tighter (tighter_of_above ‹_›)
  omega

end

theorem Spells.atSymbol {level : Level} {ts rest : List Token} {e : Expr} {s : Symbol}
    (h : Spells level ts e) (hparen : s ≠ .leftParen) (hminus : s ≠ .minus) :
    atSymbol s (ts ++ rest) = false := by
  obtain ⟨t, more, rfl, ht⟩ := h.starts
  exact ht.atSymbol hparen hminus

/-- Arguments start with an opening parenthesis, so a name in front of them is that of a call. -/
theorem SpellsArguments.atSymbol {ts rest : List Token} {args : List Expr}
    (h : SpellsArguments ts args) : atSymbol .leftParen (ts ++ rest) = true := by
  cases h with
  | none hopen _ => exact atSymbol_cons.2 hopen
  | some hopen _ _ => exact atSymbol_cons.2 hopen

/-- Links start with a dot or a bracket, so a name in front of them is not that of a call. -/
theorem SpellsLinks.atSymbol {ts rest : List Token} {links : List Link} (h : SpellsLinks ts links)
    (hrest : atSymbol .leftParen rest = false) : atSymbol .leftParen (ts ++ rest) = false := by
  cases h with
  | nil => exact hrest
  | field hdot _ _ => exact atSymbol_of_ne (atSymbol_cons.2 hdot) nofun
  | call hdot _ _ _ => exact atSymbol_of_ne (atSymbol_cons.2 hdot) nofun
  | index hopen _ _ _ => exact atSymbol_of_ne (atSymbol_cons.2 hopen) nofun

theorem SpellsSeries.starts {ts : List Token} {es : List Expr} (h : SpellsSeries ts es) :
    ∃ t rest, ts = t :: rest ∧ StartsExpr t := by
  cases h with
  | one h => exact h.starts
  | more h _ _ =>
    obtain ⟨t, rest, rfl, ht⟩ := h.starts
    exact ⟨_, _, rfl, ht⟩

/-! ## Expressions -/

variable {finish : Position}

theorem integerLiteral_reads {p : Option Position} {negative : Bool} {t : Token} {value : Int32}
    {rest : List Token} (hkind : t.kind = .integer)
    (hvalue : SpellsInteger negative t.text value) :
    Succeeds (integerLiteral finish p negative (t :: rest))
      (·.marked .none = .literal .start (.int value)) rest := by
  have haccept : accept (fun t => t.kind == .integer) (t :: rest) =
      some ⟨t, rest, shorter_cons t rest⟩ := by
    simp [accept, hkind]
  unfold integerLiteral
  rw [haccept]
  simp only [integerValue_eq_ok_iff.2 hvalue]
  exact .ok rfl

theorem literal_reads {ts rest : List Token} {value : Literal} (h : SpellsLiteral ts value) :
    Succeeds (primary finish (ts ++ rest)) (·.marked .none = .literal .start value) rest := by
  cases h with
  | @integer t value hkind hvalue =>
    have hliteral : literalOf? t = none := by simp [literalOf?, hkind]
    rw [List.singleton_append, primary]
    simp only [hliteral, hkind, ↓reduceIte]
    exact integerLiteral_reads hkind hvalue
  | @negative sign t value hsign hkind hvalue =>
    have hliteral : literalOf? sign = none := by simp [literalOf?, hsign]
    have hminus : atNegativeInteger (sign :: t :: rest) = true := by
      simp [atNegativeInteger, atSymbol, hsign, hkind]
    rw [List.cons_append, List.singleton_append, primary]
    simp only [hliteral, hsign, hminus, reduceCtorEq, ↓reduceIte]
    exact (integerLiteral_reads hkind hvalue).within
  | @character t hkind =>
    rw [List.singleton_append, primary]
    simp only [literalOf?, hkind]
    exact .ok rfl
  | @boolean t hkind =>
    rw [List.singleton_append, primary]
    simp only [literalOf?, hkind]
    exact .ok rfl
  | @string t hkind =>
    rw [List.singleton_append, primary]
    simp only [literalOf?, hkind]
    exact .ok rfl
  | @null t hkind =>
    rw [List.singleton_append, primary]
    simp only [literalOf?, hkind]
    exact .ok rfl

/-- Where no operator of the level follows, the expression on the left is all there is. -/
theorem operators_stop {level : Level} {bound : Nat} {left : Expr} {ts : List Token}
    {h : ts.length < bound} (hends : Ends level.rank ts) :
    operators finish level bound left ts h = .ok ⟨left, ts, h⟩ := by
  rw [operators]
  simp only [hends.operator level (Nat.le_refl _)]

theorem chains_of_ne {level : Level} (h : level ≠ .relation) : level.chains = true := by
  cases level <;> first | rfl | exact absurd rfl h

/-- A reader reads a phrase in front of the tokens that are told, and its value is as told. -/
def IsRead {α : Type} (reader : (ts : List Token) → Outcome α ts.length)
    (Before : List Token → Prop) (phrase : List Token) (Q : α → Prop) : Prop :=
  ∀ ⦃rest input : List Token⦄, input = phrase ++ rest → Before rest →
    Succeeds (reader input) Q rest

/-- The operators of the phrase bring the reader to the tokens behind it, where it looks for
more. -/
def Reaches (level : Level) (phrase : List Token) (e : Expr) : Prop :=
  ∀ (finish : Position) ⦃rest input : List Token⦄, input = phrase ++ rest →
    Ends (level.rank - 1) rest → ∃ left h, left.marked .none = e ∧
      binary finish level input = operators finish level input.length left rest h

/-- The phrase is read as an expression of its level. -/
def ReadAsBinary (level : Level) (phrase : List Token) (e : Expr) : Prop :=
  ∀ finish, IsRead (binary finish level) (Ends level.rank) phrase (·.marked .none = e)

def ReadAsOperand (level : Level) (phrase : List Token) (e : Expr) : Prop :=
  ∀ finish, IsRead (operand finish level) (Ends (level.rank - 1)) phrase (·.marked .none = e)

def ReadAsPrimary (phrase : List Token) (e : Expr) : Prop :=
  ∀ finish, IsRead (primary finish) (Ends 0) phrase (·.marked .none = e)

def ReadAsChain (phrase : List Token) (c : Chain) : Prop :=
  ∀ finish, IsRead (chain finish) (Ends 0) phrase (·.marked .none = c)

/-- Behind the phrase of a head the reader looks for links. -/
def ReadAsHead (phrase : List Token) (head : Head) : Prop :=
  ∀ (finish : Position) ⦃rest input : List Token⦄, input = phrase ++ rest →
    atSymbol .leftParen rest = false → ∃ first h, Head.marked .none first = head ∧
      chain finish input = links finish input.length first [] rest h

/-- The phrase is read as links behind those that are read already. -/
def ReadAsLinks (phrase : List Token) (new : List Link) : Prop :=
  ∀ (finish : Position) (bound : Nat) (head : Head) (done : List Link) ⦃rest input : List Token⦄
    (h : input.length < bound), input = phrase ++ rest → Ends 0 rest →
    Succeeds (links finish bound head done input h) (fun c =>
      c.marked .none = .mk (head.marked .none) (done.reverse.map (Link.marked .none) ++ new)) rest

def ReadAsArguments (phrase : List Token) (args : List Expr) : Prop :=
  ∀ finish, IsRead (arguments finish) (fun _ => True) phrase (·.map (Expr.marked .none) = args)

/-- The phrase is read as arguments behind those that are read already. -/
def ReadAsSeries (phrase : List Token) (new : List Expr) : Prop :=
  ∀ (finish : Position) (bound : Nat) (done : List Expr) ⦃closing : Token⦄
    ⦃rest input : List Token⦄ (h : input.length < bound), closing.kind = .symbol .rightParen →
    input = phrase ++ closing :: rest →
    Succeeds (moreArguments finish bound done input h) (fun es =>
      es.map (Expr.marked .none) = done.reverse.map (Expr.marked .none) ++ new) rest

/-! ### Operators -/

section Rules

variable {level : Level} {ts ls rs : List Token} {t : Token} {s : Symbol} {op : BinaryOp}
  {e left right : Expr}

theorem Reaches.operand (h : ReadAsOperand level ts e) : Reaches level ts e := by
  intro finish rest input hinput hends
  obtain ⟨value, hlt, hvalue, he⟩ := h finish hinput hends
  refine ⟨value, hlt, he, ?_⟩
  rw [binary, hvalue]
  rfl

theorem Reaches.join (hlevel : level ≠ .relation) (hl : Reaches level ls left)
    (hkind : t.kind = .symbol s) (hwrites : level.Writes s op)
    (hr : ReadAsOperand level rs right) : Reaches level (ls ++ t :: rs) (.binary op left right) := by
  intro finish rest input hinput hends
  obtain ⟨first, h, hfirst, hleft⟩ := hl finish
    (show input = ls ++ t :: (rs ++ rest) by simp [hinput]) (ends_of_writes hkind hwrites)
  obtain ⟨second, h', hright, hsecond⟩ := hr finish rfl hends
  refine ⟨.binary op first second, ?_, by simp [hfirst, hsecond], ?_⟩
  · simp only [hinput, List.length_append, List.length_cons]
    omega
  · rw [hleft, operators, acceptOperator_cons hkind hwrites]
    simp only [hright, chains_of_ne hlevel]
    rfl

theorem Reaches.reads (h : Reaches level ts e) : ReadAsBinary level ts e := by
  intro finish rest input hinput hends
  obtain ⟨value, hlt, he, hvalue⟩ := h finish hinput (hends.mono (Nat.sub_le ..))
  exact ⟨value, hlt, hvalue.trans (operators_stop hends), he⟩

/-- Behind a relation the reader stops, whatever follows. -/
theorem ReadAsBinary.relate (hl : ReadAsOperand .relation ls left) (hkind : t.kind = .symbol s)
    (hwrites : Level.relation.Writes s op) (hr : ReadAsOperand .relation rs right) :
    ReadAsBinary .relation (ls ++ t :: rs) (.binary op left right) := by
  intro finish rest input hinput hends
  obtain ⟨first, h, hfirst, hleft⟩ := Reaches.operand hl finish
    (show input = ls ++ t :: (rs ++ rest) by simp [hinput]) (ends_of_writes hkind hwrites)
  obtain ⟨second, h', hright, hsecond⟩ := hr finish rfl (hends.mono (Nat.sub_le ..))
  refine ⟨.binary op first second, ?_, ?_, by simp [hfirst, hsecond]⟩
  · simp only [hinput, List.length_append, List.length_cons]
    omega
  · rw [hleft, operators, acceptOperator_cons hkind hwrites]
    simp only [hright]
    rfl

theorem ReadAsOperand.tighter {next : Level} (habove : level.Above next)
    (h : ReadAsBinary next ts e) : ReadAsOperand level ts e := by
  intro finish rest input hinput hends
  have hnext : level.tighter = some next := tighter_of_above habove
  have hrank := Level.rank_tighter hnext
  rw [operand]
  split
  · rename_i hsome
    cases hnext.symm.trans hsome
    exact h finish hinput (hends.mono (by omega))
  · rename_i hnone
    cases hnext.symm.trans hnone

theorem ReadAsOperand.primary (h : ReadAsPrimary ts e) : ReadAsOperand .product ts e := by
  intro finish rest input hinput hends
  rw [operand]
  exact h finish hinput hends

end Rules

/-! ### Primaries -/

section Rules

variable {ts ls hs : List Token} {word t dot opening closing : Token} {className : String} {e : Expr}
  {args : List Expr} {new : List Link} {head : Head}

theorem ReadAsPrimary.literal {value : Literal} (h : SpellsLiteral ts value) :
    ReadAsPrimary ts (.literal .start value) := by
  rintro finish rest input rfl -
  exact literal_reads h

theorem ReadAsPrimary.parenthesized (hopen : opening.kind = .symbol .leftParen)
    (h : ReadAsBinary .disjunction ts e) (hclose : closing.kind = .symbol .rightParen) :
    ReadAsPrimary (opening :: (ts ++ [closing])) e := by
  intro finish rest input hinput hends
  obtain rfl : input = opening :: (ts ++ closing :: rest) := by simp [hinput]
  have hliteral : literalOf? opening = none := by simp [literalOf?, hopen]
  have hminus : atNegativeInteger (opening :: (ts ++ closing :: rest)) = false := by
    simp [atNegativeInteger, Grammar.atSymbol, hopen]
  rw [primary]
  simp only [hliteral, hopen, hminus, reduceCtorEq, ↓reduceIte, Bool.false_eq_true]
  refine .bind (h finish rfl (ends_of_mem hclose (by decide))).within fun _ _ hvalue => ?_
  exact .bind (expectSymbol_reads hclose).within fun _ _ _ => .ok hvalue

/-- A primary that starts with `new` is a creation. -/
theorem primary_of_new {finish : Position} (hword : word.isKeyword "new" = true) :
    primary finish (word :: ts) = creation finish (word :: ts) := by
  have hkind := kind_of_isKeyword hword
  have hliteral : literalOf? word = none := by simp [literalOf?, hkind]
  have hminus : atNegativeInteger (word :: ts) = false := by
    simp [atNegativeInteger, Grammar.atSymbol, hkind]
  rw [primary]
  simp only [hliteral, hkind, hminus, hword, reduceCtorEq, ↓reduceIte, Bool.false_eq_true]

theorem ReadAsPrimary.newObject (hword : word.isKeyword "new" = true)
    (hname : SpellsTypeName t className) (hargs : SpellsArguments ts args) (h : ReadAsArguments ts args) :
    ReadAsPrimary (word :: t :: ts) (.newObject .start className args) := by
  intro finish rest input hinput hends
  obtain rfl : input = word :: t :: (ts ++ rest) := by simp [hinput]
  have hparen : Grammar.atSymbol .leftParen (ts ++ rest) = true := hargs.atSymbol
  have hbracket : Grammar.atSymbol .leftBracket (ts ++ rest) = false := atSymbol_of_ne hparen nofun
  rw [primary_of_new hword, creation]
  refine .bind (expectKeyword_reads hword) fun _ _ _ => ?_
  refine .bind (typeName_reads hname).within fun _ _ hvalue => ?_
  simp only [hbracket, hparen, acceptSymbol_of_atSymbol_eq_false hbracket, Bool.false_and,
    Bool.false_eq_true, ↓reduceIte]
  refine .bind (h finish rfl trivial).within fun _ _ hvalues => .ok ?_
  simp [hvalue, hvalues]

theorem ReadAsPrimary.newArray (hword : word.isKeyword "new" = true)
    (hname : SpellsTypeName t className)
    (hopen : opening.kind = .symbol .leftBracket) (hs : Spells .disjunction ts e)
    (h : ReadAsBinary .disjunction ts e) (hclose : closing.kind = .symbol .rightBracket) :
    ReadAsPrimary (word :: t :: opening :: (ts ++ [closing])) (.newArray .start className e) := by
  intro finish rest input hinput hends
  obtain rfl : input = word :: t :: opening :: (ts ++ closing :: rest) := by simp [hinput]
  have hlength : Grammar.atSymbol .rightBracket (ts ++ closing :: rest) = false :=
    hs.atSymbol nofun nofun
  rw [primary_of_new hword, creation]
  refine .bind (expectKeyword_reads hword) fun _ _ _ => ?_
  refine .bind (typeName_reads hname).within fun _ _ hvalue => ?_
  simp only [List.tail_cons, hlength, Bool.and_false, Bool.false_eq_true, ↓reduceIte,
    acceptSymbol_cons hopen]
  refine .bind (h finish rfl (ends_of_mem hclose (by decide))).within fun _ _ hvalues => ?_
  refine .bind (expectSymbol_reads hclose).within fun _ _ _ => .ok ?_
  simp [hvalue, hvalues]

theorem ReadAsPrimary.access {c : Chain} (hc : SpellsChain ts c) (h : ReadAsChain ts c) :
    ReadAsPrimary ts (.access c) := by
  intro finish rest input hinput hends
  obtain ⟨t, more, rfl, hfirst⟩ := hc.starts
  obtain rfl : input = t :: (more ++ rest) := by simp [hinput]
  have hliteral : literalOf? t = none := by
    rcases hfirst with hthis | hname
    · simp [literalOf?, kind_of_isKeyword hthis]
    · simp [literalOf?, hname]
  have hkind : t.kind = .keyword ∨ t.kind = .identifier := hfirst.imp_left kind_of_isKeyword
  have hinteger : ¬ t.kind = .integer := by rcases hkind with h | h <;> simp [h]
  have hfloating : ¬ t.kind = .floating := by rcases hkind with h | h <;> simp [h]
  have hparen : ¬ t.kind = .symbol .leftParen := by rcases hkind with h | h <;> simp [h]
  have hminus : ¬ atNegativeInteger (t :: (more ++ rest)) = true := by
    rcases hkind with h | h <;> simp [atNegativeInteger, Grammar.atSymbol, h]
  have hnew : ¬ t.isKeyword "new" = true := by
    rcases hfirst with hthis | hname
    · simp [isKeyword_of_ne hthis (show "this" ≠ "new" by decide)]
    · simp [Token.isKeyword, hname]
  rw [primary]
  simp only [hliteral, hinteger, hfloating, hparen, hminus, hnew, hfirst.symm, ↓reduceIte]
  exact .bind (h finish rfl hends) fun _ _ hvalue => .ok (by simp [hvalue])

/-! ### Chains -/

theorem ReadAsChain.mk (hlinks : SpellsLinks ls new) (hhead : ReadAsHead hs head)
    (h : ReadAsLinks ls new) : ReadAsChain (hs ++ ls) (.mk head new) := by
  intro finish rest input hinput hends
  obtain ⟨first, hlt, hfirst, hchain⟩ := hhead finish
    (show input = hs ++ (ls ++ rest) by simp [hinput]) (hlinks.atSymbol hends.paren)
  rw [hchain]
  exact (h finish input.length first [] hlt rfl hends).imp fun c hc => by simp [hc, hfirst]

theorem ReadAsHead.this (ht : t.isKeyword "this" = true) : ReadAsHead [t] (.this .start) := by
  intro finish rest input hinput _
  obtain rfl : input = t :: rest := hinput
  refine ⟨.this (here finish (t :: rest)), shorter_cons t rest, by simp, ?_⟩
  rw [chain]
  simp only [acceptKeyword_cons ht]

theorem ReadAsHead.name (ht : t.kind = .identifier) : ReadAsHead [t] (.name .start t.text) := by
  intro finish rest input hinput hparen
  obtain rfl : input = t :: rest := hinput
  have hthis : t.isKeyword "this" = false := isKeyword_of_kind (by simp [ht])
  refine ⟨.name (here finish (t :: rest)) t.text, shorter_cons t rest, by simp, ?_⟩
  rw [chain]
  simp only [acceptKeyword_cons_of_ne hthis, expectName_cons ht]
  show (if Grammar.atSymbol .leftParen rest = true then _ else _) = _
  simp only [hparen, Bool.false_eq_true, ↓reduceIte]

theorem ReadAsHead.call (ht : t.kind = .identifier) (hargs : SpellsArguments ts args)
    (h : ReadAsArguments ts args) : ReadAsHead (t :: ts) (.call .start t.text args) := by
  intro finish rest input hinput _
  obtain rfl : input = t :: (ts ++ rest) := hinput
  have hthis : t.isKeyword "this" = false := isKeyword_of_kind (by simp [ht])
  have hparen : Grammar.atSymbol .leftParen (ts ++ rest) = true := hargs.atSymbol
  obtain ⟨values, hlt, hvalues, hmarked⟩ := h finish (show _ = ts ++ rest from rfl) trivial
  refine ⟨.call (here finish (t :: (ts ++ rest))) t.text values, ?_, by simp [hmarked], ?_⟩
  · simp only [List.length_append, List.length_cons]
    omega
  · rw [chain]
    simp only [acceptKeyword_cons_of_ne hthis, expectName_cons ht]
    show (if Grammar.atSymbol .leftParen (ts ++ rest) = true then _ else _) = _
    simp only [hparen, ↓reduceIte, hvalues]
    rfl

theorem ReadAsLinks.nil : ReadAsLinks [] [] := by
  rintro finish bound head done rest input hlt rfl hends
  rw [links]
  simp only [hends.dot, hends.bracket]
  exact .ok (by simp)

theorem ReadAsLinks.field (hdot : dot.kind = .symbol .dot) (ht : t.kind = .identifier)
    (hlinks : SpellsLinks ls new) (h : ReadAsLinks ls new) :
    ReadAsLinks (dot :: t :: ls) (.field .start t.text :: new) := by
  intro finish bound head done rest input hlt hinput hends
  obtain rfl : input = dot :: t :: (ls ++ rest) := hinput
  have hparen : Grammar.atSymbol .leftParen (ls ++ rest) = false := hlinks.atSymbol hends.paren
  rw [links]
  simp only [acceptSymbol_cons hdot]
  refine .bind (expectName_reads ht).within fun _ _ hname => ?_
  simp only [hparen, Bool.false_eq_true, ↓reduceIte]
  exact (h finish bound head _ _ rfl hends).imp fun c hc => by simp [hc, hname]

theorem ReadAsLinks.call (hdot : dot.kind = .symbol .dot) (ht : t.kind = .identifier)
    (hargs : SpellsArguments ts args) (hread : ReadAsArguments ts args) (h : ReadAsLinks ls new) :
    ReadAsLinks (dot :: t :: (ts ++ ls)) (.call .start t.text args :: new) := by
  rintro finish bound head done rest input hlt hinput hends
  obtain rfl : input = dot :: t :: (ts ++ (ls ++ rest)) := by simp [hinput]
  have hparen : Grammar.atSymbol .leftParen (ts ++ (ls ++ rest)) = true := hargs.atSymbol
  rw [links]
  simp only [acceptSymbol_cons hdot]
  refine .bind (expectName_reads ht).within fun _ _ hname => ?_
  simp only [hparen, ↓reduceIte]
  refine .bind (hread finish rfl trivial).within fun _ _ hvalues => ?_
  exact (h finish bound head _ _ rfl hends).imp fun c hc => by simp [hc, hname, hvalues]

theorem ReadAsLinks.index (hopen : opening.kind = .symbol .leftBracket)
    (hread : ReadAsBinary .disjunction ts e) (hclose : closing.kind = .symbol .rightBracket)
    (h : ReadAsLinks ls new) :
    ReadAsLinks (opening :: (ts ++ closing :: ls)) (.index .start e :: new) := by
  rintro finish bound head done rest input hlt hinput hends
  obtain rfl : input = opening :: (ts ++ closing :: (ls ++ rest)) := by simp [hinput]
  have hdot : acceptSymbol .dot (opening :: (ts ++ closing :: (ls ++ rest))) = none :=
    acceptSymbol_cons_of_ne (by simp [hopen])
  rw [links]
  simp only [hdot, acceptSymbol_cons hopen]
  refine .bind (hread finish rfl (ends_of_mem hclose (by decide))).within fun _ _ hvalue => ?_
  refine .bind (expectSymbol_reads hclose).within fun _ _ _ => ?_
  exact (h finish bound head _ _ rfl hends).imp fun c hc => by simp [hc, hvalue]

/-! ### Arguments -/

theorem ReadAsArguments.none (hopen : opening.kind = .symbol .leftParen)
    (hclose : closing.kind = .symbol .rightParen) : ReadAsArguments [opening, closing] [] := by
  rintro finish rest input rfl -
  show Succeeds (arguments finish (opening :: closing :: rest)) _ rest
  rw [arguments]
  refine .bind (expectSymbol_reads hopen) fun _ _ _ => ?_
  simp only [acceptSymbol_cons hclose]
  exact .ok rfl

theorem ReadAsArguments.some (hopen : opening.kind = .symbol .leftParen)
    (hseries : SpellsSeries ts args) (h : ReadAsSeries ts args)
    (hclose : closing.kind = .symbol .rightParen) :
    ReadAsArguments (opening :: (ts ++ [closing])) args := by
  rintro finish rest input hinput -
  obtain rfl : input = opening :: (ts ++ closing :: rest) := by simp [hinput]
  have hnone : acceptSymbol .rightParen (ts ++ closing :: rest) = Option.none := by
    obtain ⟨t, more, rfl, ht⟩ := hseries.starts
    exact acceptSymbol_of_atSymbol_eq_false (ht.atSymbol nofun nofun)
  rw [arguments]
  refine .bind (expectSymbol_reads hopen) fun _ _ _ => ?_
  simp only [hnone]
  exact (h finish _ [] _ hclose rfl).imp fun es hes => by simpa using hes

theorem ReadAsSeries.one (h : ReadAsBinary .disjunction ts e) : ReadAsSeries ts [e] := by
  rintro finish bound done closing rest input hlt hclose rfl
  have hcomma : acceptSymbol .comma (closing :: rest) = Option.none :=
    acceptSymbol_cons_of_ne (by simp [hclose])
  rw [moreArguments]
  refine .bind (h finish rfl (ends_of_mem hclose (by decide))) fun _ _ hvalue => ?_
  simp only [hcomma, Option.map_none]
  exact .bind (expectSymbol_reads hclose).within fun _ _ _ => .ok (by simp [hvalue])

theorem ReadAsSeries.more {comma : Token} (hread : ReadAsBinary .disjunction ts e)
    (hcomma : comma.kind = .symbol .comma) (h : ReadAsSeries ls args) :
    ReadAsSeries (ts ++ comma :: ls) (e :: args) := by
  rintro finish bound done closing rest input hlt hclose hinput
  obtain rfl : input = ts ++ comma :: (ls ++ closing :: rest) := by simp [hinput]
  rw [moreArguments]
  refine .bind (hread finish rfl (ends_of_mem hcomma (by decide))) fun _ _ hvalue => ?_
  simp only [acceptSymbol_cons hcomma, Option.map_some]
  exact (h finish bound _ _ hclose rfl).imp fun es hes => by simp [hes, hvalue]

end Rules

/-! ### Derivations -/

mutual

theorem Spells.reads {level : Level} {ts : List Token} {e : Expr} (h : Spells level ts e) :
    ReadAsBinary level ts e ∧ (level ≠ .relation → Reaches level ts e) := by
  match h with
  | .operand h =>
    have hreach := Reaches.operand h.reads
    exact ⟨hreach.reads, fun _ => hreach⟩
  | .join hlevel hl hkind hwrites hr =>
    have hreach := (hl.reads.2 hlevel).join hlevel hkind hwrites hr.reads
    exact ⟨hreach.reads, fun _ => hreach⟩
  | .relate hl hkind hwrites hr =>
    exact ⟨.relate hl.reads hkind hwrites hr.reads, absurd rfl⟩
termination_by 20 * ts.length + 3 * level.rank + 1
decreasing_by
  · omega
  all_goals
    simp only [List.length_append, List.length_cons]
    omega

theorem SpellsOperand.reads {level : Level} {ts : List Token} {e : Expr}
    (h : SpellsOperand level ts e) : ReadAsOperand level ts e := by
  match h with
  | .tighter habove h => exact .tighter habove h.reads.1
  | .primary h => exact .primary h.reads
termination_by 20 * ts.length + 3 * level.rank
decreasing_by
  · have := Level.rank_tighter (tighter_of_above ‹_›)
    omega
  · simp only [Level.rank]
    omega

theorem SpellsPrimary.reads {ts : List Token} {e : Expr} (h : SpellsPrimary ts e) :
    ReadAsPrimary ts e := by
  match h with
  | .literal h => exact .literal h
  | .parenthesized hopen h hclose => exact .parenthesized hopen h.reads.1 hclose
  | .newObject hword hname h => exact .newObject hword hname h h.reads
  | .newArray hword hname hopen h hclose => exact .newArray hword hname hopen h h.reads.1 hclose
  | .access h => exact .access h h.reads
termination_by 20 * ts.length + 2
decreasing_by
  any_goals simp only [List.length_append, List.length_cons, Level.rank]
  all_goals omega

theorem SpellsChain.reads {ts : List Token} {c : Chain} (h : SpellsChain ts c) :
    ReadAsChain ts c := by
  match h with
  | .mk hhead hlinks => exact .mk hlinks hhead.reads hlinks.reads
termination_by 20 * ts.length + 1
decreasing_by
  all_goals
    simp only [List.length_append]
    omega

theorem SpellsHead.reads {ts : List Token} {head : Head} (h : SpellsHead ts head) :
    ReadAsHead ts head := by
  match h with
  | .this h => exact .this h
  | .name h => exact .name h
  | .call hname h => exact .call hname h h.reads
termination_by 20 * ts.length

theorem SpellsLinks.reads {ts : List Token} {links : List Link} (h : SpellsLinks ts links) :
    ReadAsLinks ts links := by
  match h with
  | .nil => exact .nil
  | .field hdot hname h => exact .field hdot hname h h.reads
  | .call hdot hname hargs h => exact .call hdot hname hargs hargs.reads h.reads
  | .index hopen h hclose hlinks => exact .index hopen h.reads.1 hclose hlinks.reads
termination_by 20 * ts.length
decreasing_by
  all_goals
    simp only [List.length_append, List.length_cons, Level.rank]
    omega

theorem SpellsArguments.reads {ts : List Token} {args : List Expr} (h : SpellsArguments ts args) :
    ReadAsArguments ts args := by
  match h with
  | .none hopen hclose => exact .none hopen hclose
  | .some hopen h hclose => exact .some hopen h h.reads hclose
termination_by 20 * ts.length
decreasing_by
  all_goals
    simp only [List.length_append, List.length_cons]
    omega

theorem SpellsSeries.reads {ts : List Token} {es : List Expr} (h : SpellsSeries ts es) :
    ReadAsSeries ts es := by
  match h with
  | .one h => exact .one h.reads.1
  | .more h hcomma hs => exact .more h.reads.1 hcomma hs.reads
termination_by 20 * ts.length + 19
decreasing_by
  any_goals simp only [List.length_append, List.length_cons, Level.rank]
  all_goals omega

end

/-- The expressions that a whole token list is read as are those that it spells, wherever they
stand. -/
theorem expression_eq_ok_iff (finish : Position) (ts : List Token) (e : Expr) :
    (∃ e' h, expression finish ts = .ok ⟨e', [], h⟩ ∧ e'.marked .none = e.marked .none) ↔
      SpellsExpr ts (e.marked .none) := by
  constructor
  · rintro ⟨e', h, he', hmarked⟩
    obtain ⟨phrase, hts, hphrase⟩ := binary_taken finish .disjunction ts _ he'
    rw [SpellsExpr, ← hmarked, hts, List.append_nil]
    exact hphrase
  · intro h
    exact h.reads.1 finish (List.append_nil ts).symm (ends_nil _)

end Javelet.Grammar
