import Javelet.Grammar.Expr
import Javelet.Grammar.Integer

/-!
# Phrases that spell expressions

A phrase is a list of tokens, and a grammar says which phrases spell which trees. Expressions stand
on five levels of binary operators, from `||` down to `*`, and primaries stand below them. The
grammar knows nothing of how a phrase is read: no rule looks at the tokens behind a phrase.

Where a tree stands is not told: all positions in the trees that are spelled are the same one.
-/
namespace Javelet.Grammar

/-! ## Integer literals

The text of an integer literal spells a magnitude in one of four radices, and a minus sign in front
of the literal negates it. Decimal magnitudes lie in the range of signed 32-bit integers; the others
fill 32 bits.
-/

/-- The radix of a literal without separators, and the digits behind the prefix of that radix. -/
inductive SpellsRadix : List Char → Nat → List Char → Prop
  | decimal {cs : List Char} : (∀ c rest, cs ≠ '0' :: c :: rest) → SpellsRadix cs 10 cs
  | octal {c : Char} {rest : List Char} : c ∉ ['x', 'X', 'b', 'B'] →
      SpellsRadix ('0' :: c :: rest) 8 (c :: rest)
  | binary {c : Char} {rest : List Char} : c ∈ ['b', 'B'] → SpellsRadix ('0' :: c :: rest) 2 rest
  | hexadecimal {c : Char} {rest : List Char} : c ∈ ['x', 'X'] →
      SpellsRadix ('0' :: c :: rest) 16 rest

/-- The magnitude of at least one digit; a plus sign may stand in front. -/
inductive SpellsMagnitude (radix : Nat) : List Char → Nat → Prop
  | digits {cs : List Char} : cs ≠ [] → (∀ c ∈ cs, Text.isDigitOf radix c = true) →
      SpellsMagnitude radix cs (Text.digitsValue radix cs)
  | plus {cs : List Char} : cs ≠ [] → (∀ c ∈ cs, Text.isDigitOf radix c = true) →
      SpellsMagnitude radix ('+' :: cs) (Text.digitsValue radix cs)

/-- A magnitude that a literal may have, with or without a minus sign. -/
def LiteralRange (radix : Nat) (negative : Bool) (magnitude : Nat) : Prop :=
  if radix = 10 then magnitude < 2147483648 ∨ (negative = true ∧ magnitude = 2147483648)
  else magnitude < 4294967296

/-- The value of the text of an integer literal. Literals of type `long` have none. -/
inductive SpellsInteger (negative : Bool) (text : String) : Int32 → Prop
  | mk {radix magnitude : Nat} {digits : List Char} :
      text.toList.getLast? ∉ [some 'l', some 'L'] →
      SpellsRadix (text.toList.filter (· != '_')) radix digits →
      SpellsMagnitude radix digits magnitude → LiteralRange radix negative magnitude →
      SpellsInteger negative text (Int32.ofInt (if negative then -magnitude else magnitude))

theorem spellsRadix_radixAndDigits (cs : List Char) :
    SpellsRadix cs (radixAndDigits cs).1 (radixAndDigits cs).2 := by
  unfold radixAndDigits
  split
  · split
    · exact .hexadecimal (by simpa using ‹_›)
    · split
      · exact .binary (by simpa using ‹_›)
      · exact .octal (by simp_all)
  · rename_i hdecimal
    exact .decimal hdecimal

theorem SpellsRadix.eq {cs digits : List Char} {radix : Nat} (h : SpellsRadix cs radix digits) :
    radixAndDigits cs = (radix, digits) := by
  unfold radixAndDigits
  cases h with
  | decimal h =>
    split
    · exact absurd rfl (h _ _)
    · rfl
  | octal h => simp_all
  | binary h =>
    have hother : ∀ c ∈ ['b', 'B'], ¬ (c = 'x' ∨ c = 'X') := by simp
    simp only [hother _ h, ↓reduceIte]
    simp_all
  | hexadecimal h => simp_all

theorem spellsMagnitude_iff {radix magnitude : Nat} {cs : List Char} :
    SpellsMagnitude radix cs magnitude ↔ signedDigits? radix cs = some magnitude := by
  have hplus : Text.isDigitOf radix '+' = false := rfl
  constructor
  · rintro (⟨hne, hall⟩ | ⟨hne, hall⟩)
    · unfold signedDigits?
      split
      · rw [hall '+' (List.mem_cons_self ..)] at hplus
        cases hplus
      · simpa [Text.readDigits?, hne] using hall
    · simp only [signedDigits?, Text.readDigits?, List.all_eq_true]
      exact if_pos ⟨hne, hall⟩
  · intro h
    unfold signedDigits? at h
    split at h
    · simp only [Text.readDigits?, List.all_eq_true, Option.ite_none_right_eq_some] at h
      obtain ⟨⟨hne, hall⟩, ⟨⟩⟩ := h
      exact .plus hne hall
    · simp only [Text.readDigits?, List.all_eq_true, Option.ite_none_right_eq_some] at h
      obtain ⟨⟨hne, hall⟩, ⟨⟩⟩ := h
      exact .digits hne hall

theorem literalRange_iff {radix magnitude : Nat} {negative : Bool} :
    LiteralRange radix negative magnitude ↔ magnitude ≤ literalLimit radix negative := by
  by_cases hradix : radix = 10
  · cases negative <;> simp [LiteralRange, literalLimit, hradix] <;> omega
  · simp only [LiteralRange, literalLimit, hradix, if_false]
    omega

/-- Literals have the values that their texts spell, and no other literals have values. -/
theorem integerValue_eq_ok_iff {text : String} {negative : Bool} {value : Int32} :
    integerValue text negative = .ok value ↔ SpellsInteger negative text value := by
  constructor
  · intro h
    simp only [integerValue] at h
    split at h
    · cases h
    · rename_i hlong
      split at h
      · rename_i magnitude hmagnitude
        split at h
        · rename_i hlimit
          cases h
          exact .mk (by simpa using hlong) (spellsRadix_radixAndDigits _)
            (spellsMagnitude_iff.2 hmagnitude) (literalRange_iff.2 hlimit)
        · cases h
      · cases h
  · rintro ⟨hlong, hradix, hmagnitude, hrange⟩
    simp only [List.mem_cons, List.not_mem_nil, or_false] at hlong
    simp only [integerValue, hlong, hradix.eq, spellsMagnitude_iff.1 hmagnitude,
      literalRange_iff.1 hrange, ↓reduceIte]

/-! ## Expressions -/

/-- The symbols of the operators on each level. -/
inductive Level.Writes : Level → Symbol → BinaryOp → Prop
  | or : Writes .disjunction .orOr (.connective .or)
  | and : Writes .conjunction .andAnd (.connective .and)
  | less : Writes .relation .less (.relation .less)
  | greater : Writes .relation .greater (.relation .greater)
  | lessEqual : Writes .relation .lessEqual (.relation .lessEqual)
  | greaterEqual : Writes .relation .greaterEqual (.relation .greaterEqual)
  | equal : Writes .relation .equalEqual (.relation .equal)
  | notEqual : Writes .relation .notEqual (.relation .notEqual)
  | add : Writes .sum .plus (.arithmetic .add)
  | sub : Writes .sum .minus (.arithmetic .sub)
  | mul : Writes .product .star (.arithmetic .mul)
  | div : Writes .product .slash (.arithmetic .div)
  | rem : Writes .product .percent (.arithmetic .rem)

/-- The operands of each level stand on the next one. -/
inductive Level.Above : Level → Level → Prop
  | disjunction : Above .disjunction .conjunction
  | conjunction : Above .conjunction .relation
  | relation : Above .relation .sum
  | sum : Above .sum .product

/-- A token that names a type: an identifier, or the name of a primitive type. -/
inductive SpellsTypeName : Token → String → Prop
  | identifier {t : Token} : t.kind = .identifier → SpellsTypeName t t.text
  | int {t : Token} : t.isKeyword "int" → SpellsTypeName t "int"
  | char {t : Token} : t.isKeyword "char" → SpellsTypeName t "char"
  | boolean {t : Token} : t.isKeyword "boolean" → SpellsTypeName t "boolean"

/-- A minus sign right in front of an integer literal belongs to it. -/
inductive SpellsLiteral : List Token → Literal → Prop
  | integer {t : Token} {value : Int32} : t.kind = .integer →
      SpellsInteger false t.text value → SpellsLiteral [t] (.int value)
  | negative {sign t : Token} {value : Int32} : sign.kind = .symbol .minus → t.kind = .integer →
      SpellsInteger true t.text value → SpellsLiteral [sign, t] (.int value)
  | character {t : Token} : t.kind = .character →
      SpellsLiteral [t] (.char (t.text.toList.headD '\x00'))
  | boolean {t : Token} : t.kind = .boolean → SpellsLiteral [t] (.boolean (t.text == "true"))
  | string {t : Token} : t.kind = .string → SpellsLiteral [t] (.string t.text)
  | null {t : Token} : t.kind = .null → SpellsLiteral [t] .null

mutual

/-- An expression of a level. Operators of one level are joined from left to right; relations are
not joined. -/
inductive Spells : Level → List Token → Expr → Prop
  | operand {level : Level} {ts : List Token} {e : Expr} : SpellsOperand level ts e →
      Spells level ts e
  | join {level : Level} {ls rs : List Token} {t : Token} {s : Symbol} {op : BinaryOp}
      {left right : Expr} : level ≠ .relation → Spells level ls left → t.kind = .symbol s →
      level.Writes s op → SpellsOperand level rs right →
      Spells level (ls ++ t :: rs) (.binary op left right)
  | relate {ls rs : List Token} {t : Token} {s : Symbol} {op : BinaryOp} {left right : Expr} :
      SpellsOperand .relation ls left → t.kind = .symbol s → Level.relation.Writes s op →
      SpellsOperand .relation rs right → Spells .relation (ls ++ t :: rs) (.binary op left right)

/-- An operand of a level. -/
inductive SpellsOperand : Level → List Token → Expr → Prop
  | tighter {level next : Level} {ts : List Token} {e : Expr} : level.Above next →
      Spells next ts e → SpellsOperand level ts e
  | primary {ts : List Token} {e : Expr} : SpellsPrimary ts e → SpellsOperand .product ts e

/-- Only access chains are continued; a creation or an expression in parentheses is not. -/
inductive SpellsPrimary : List Token → Expr → Prop
  | literal {ts : List Token} {value : Literal} : SpellsLiteral ts value →
      SpellsPrimary ts (.literal .start value)
  | parenthesized {opening closing : Token} {ts : List Token} {e : Expr} :
      opening.kind = .symbol .leftParen → Spells .disjunction ts e →
      closing.kind = .symbol .rightParen → SpellsPrimary (opening :: (ts ++ [closing])) e
  | newObject {word t : Token} {name : String} {ts : List Token} {args : List Expr} :
      word.isKeyword "new" → SpellsTypeName t name → SpellsArguments ts args →
      SpellsPrimary (word :: t :: ts) (.newObject .start name args)
  | newArray {word t opening closing : Token} {name : String} {ts : List Token} {length : Expr} :
      word.isKeyword "new" → SpellsTypeName t name → opening.kind = .symbol .leftBracket →
      Spells .disjunction ts length → closing.kind = .symbol .rightBracket →
      SpellsPrimary (word :: t :: opening :: (ts ++ [closing])) (.newArray .start name length)
  | access {ts : List Token} {chain : Chain} : SpellsChain ts chain →
      SpellsPrimary ts (.access chain)

/-- An access chain. -/
inductive SpellsChain : List Token → Chain → Prop
  | mk {hs ls : List Token} {head : Head} {links : List Link} : SpellsHead hs head →
      SpellsLinks ls links → SpellsChain (hs ++ ls) (.mk head links)

inductive SpellsHead : List Token → Head → Prop
  | this {t : Token} : t.isKeyword "this" → SpellsHead [t] (.this .start)
  | name {t : Token} : t.kind = .identifier → SpellsHead [t] (.name .start t.text)
  | call {t : Token} {ts : List Token} {args : List Expr} : t.kind = .identifier →
      SpellsArguments ts args → SpellsHead (t :: ts) (.call .start t.text args)

inductive SpellsLinks : List Token → List Link → Prop
  | nil : SpellsLinks [] []
  | field {dot t : Token} {ls : List Token} {links : List Link} : dot.kind = .symbol .dot →
      t.kind = .identifier → SpellsLinks ls links →
      SpellsLinks (dot :: t :: ls) (.field .start t.text :: links)
  | call {dot t : Token} {ts ls : List Token} {args : List Expr} {links : List Link} :
      dot.kind = .symbol .dot → t.kind = .identifier → SpellsArguments ts args →
      SpellsLinks ls links →
      SpellsLinks (dot :: t :: (ts ++ ls)) (.call .start t.text args :: links)
  | index {opening closing : Token} {ts ls : List Token} {e : Expr} {links : List Link} :
      opening.kind = .symbol .leftBracket → Spells .disjunction ts e →
      closing.kind = .symbol .rightBracket → SpellsLinks ls links →
      SpellsLinks (opening :: (ts ++ closing :: ls)) (.index .start e :: links)

/-- Arguments in parentheses. -/
inductive SpellsArguments : List Token → List Expr → Prop
  | none {opening closing : Token} : opening.kind = .symbol .leftParen →
      closing.kind = .symbol .rightParen → SpellsArguments [opening, closing] []
  | some {opening closing : Token} {ts : List Token} {args : List Expr} :
      opening.kind = .symbol .leftParen → SpellsSeries ts args →
      closing.kind = .symbol .rightParen → SpellsArguments (opening :: (ts ++ [closing])) args

/-- Expressions with commas between them. -/
inductive SpellsSeries : List Token → List Expr → Prop
  | one {ts : List Token} {e : Expr} : Spells .disjunction ts e → SpellsSeries ts [e]
  | more {ts rest : List Token} {comma : Token} {e : Expr} {es : List Expr} :
      Spells .disjunction ts e → comma.kind = .symbol .comma → SpellsSeries rest es →
      SpellsSeries (ts ++ comma :: rest) (e :: es)

end

/-- A phrase that spells an expression. -/
def SpellsExpr (ts : List Token) (e : Expr) : Prop := Spells .disjunction ts e

end Javelet.Grammar
