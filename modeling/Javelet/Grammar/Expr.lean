import Javelet.Grammar.Type
import Javelet.Grammar.Integer
import Javelet.Syntax.Expr

/-!
# Reading expressions

Binary operators stand on five levels, from `||` down to `*`. On each level operands of
the next tighter level are joined from left to right; on the level of relations there is
at most one operator. The readers call each other on shorter lists or on tighter levels.
-/
namespace Javelet.Grammar

/-- The levels of binary operators. -/
inductive Level where
  | disjunction | conjunction | relation | sum | product
  deriving DecidableEq, Repr

namespace Level

/-- The next tighter level; behind the last one come primaries. -/
def tighter : Level → Option Level
  | disjunction => some conjunction
  | conjunction => some relation
  | relation => some sum
  | sum => some product
  | product => none

/-- The number of levels from here to the primaries. -/
def rank : Level → Nat
  | disjunction => 5
  | conjunction => 4
  | relation => 3
  | sum => 2
  | product => 1

/-- Whether several operators of the level may follow each other. -/
def chains (l : Level) : Bool := l != relation

/-- The operator that a symbol stands for on a level. -/
def operator? : Level → Symbol → Option BinaryOp
  | disjunction, .orOr => some (.connective .or)
  | conjunction, .andAnd => some (.connective .and)
  | relation, .less => some (.relation .less)
  | relation, .greater => some (.relation .greater)
  | relation, .lessEqual => some (.relation .lessEqual)
  | relation, .greaterEqual => some (.relation .greaterEqual)
  | relation, .equalEqual => some (.relation .equal)
  | relation, .notEqual => some (.relation .notEqual)
  | sum, .plus => some (.arithmetic .add)
  | sum, .minus => some (.arithmetic .sub)
  | product, .star => some (.arithmetic .mul)
  | product, .slash => some (.arithmetic .div)
  | product, .percent => some (.arithmetic .rem)
  | _, _ => none

theorem rank_tighter {l l' : Level} (h : l.tighter = some l') : l'.rank < l.rank := by
  cases l <;> simp [tighter] at h <;> subst h <;> decide

theorem rank_pos (l : Level) : 0 < l.rank := by
  cases l <;> decide

end Level

/-- Use up an operator of the level. -/
def acceptOperator (level : Level) (ts : List Token) : Option (Parsed BinaryOp ts.length) :=
  match ts with
  | [] => none
  | t :: rest =>
    match t.kind with
    | .symbol s => (level.operator? s).map fun op => ⟨op, rest, shorter_cons t rest⟩
    | _ => none

/-- Read an integer literal; it stands at position `p` if that is given. -/
def integerLiteral (finish : Position) (p : Option Position) (negative : Bool)
    (ts : List Token) : Outcome Expr ts.length :=
  match accept (fun t => t.kind == .integer) ts with
  | none => refuse finish .unexpectedToken "Expected integer literal" none ts
  | some ⟨t, rest, h⟩ =>
    match integerValue t.text negative with
    | .ok value => .ok ⟨.literal (p.getD t.position) (.int value), rest, h⟩
    | .error fault => .error ⟨fault, t.position⟩

/-- The value of a token that is a literal by itself. -/
def literalOf? (t : Token) : Option Literal :=
  match t.kind with
  | .character => some (.char (t.text.toList.headD '\x00'))
  | .string => some (.string t.text)
  | .boolean => some (.boolean (t.text == "true"))
  | .null => some .null
  | _ => none

/-- Whether an integer literal starts here, perhaps with a minus sign. -/
def atNegativeInteger (ts : List Token) : Bool :=
  atSymbol .minus ts && ts.tail.head?.any fun t => t.kind == .integer

mutual

/-- Read operands of a level and the operators between them. -/
def binary (finish : Position) (level : Level) (ts : List Token) : Outcome Expr ts.length := do
  let ⟨left, rest, h⟩ ← operand finish level ts
  operators finish level ts.length left rest h
termination_by 12 * ts.length + 2 * level.rank + 1
decreasing_by
  · omega
  · have := level.rank_pos
    omega

/-- Read an operand of a level. -/
def operand (finish : Position) (level : Level) (ts : List Token) : Outcome Expr ts.length :=
  match _ : level.tighter with
  | some tighter => binary finish tighter ts
  | none => primary finish ts
termination_by 12 * ts.length + 2 * level.rank
decreasing_by
  · have := Level.rank_tighter ‹_›
    omega
  · have := level.rank_pos
    omega

/-- Read the operators of a level that follow the expression `left`. -/
def operators (finish : Position) (level : Level) (bound : Nat) (left : Expr) (ts : List Token)
    (h : ts.length < bound) : Outcome Expr bound :=
  match acceptOperator level ts with
  | none => .ok ⟨left, ts, h⟩
  | some ⟨op, rest, h'⟩ => do
    let ⟨right, rest, h'⟩ ← within h' (operand finish level rest)
    if level.chains then
      operators finish level bound (.binary op left right) rest (shorter_bound h' h)
    else .ok ⟨.binary op left right, rest, shorter_bound h' h⟩
termination_by 12 * ts.length
decreasing_by
  · have : level.rank ≤ 5 := by cases level <;> decide
    omega
  · omega

/-- Read a literal, a parenthesized expression, a creation or an access chain. -/
def primary (finish : Position) (ts : List Token) : Outcome Expr ts.length :=
  match ts with
  | [] => refuse finish .expectedExpression "Expected expression" none []
  | t :: rest =>
    match literalOf? t with
    | some value => .ok ⟨.literal t.position value, rest, shorter_cons t rest⟩
    | none =>
      if t.kind = .integer then integerLiteral finish none false (t :: rest)
      else if atNegativeInteger (t :: rest) then
        within (shorter_cons t rest) (integerLiteral finish (some t.position) true rest)
      else if t.kind = .floating then .error ⟨.floatingLiteral t.text, t.position⟩
      else if t.kind = .symbol .leftParen then do
        let ⟨value, rest, h⟩ ← within (shorter_cons t rest) (binary finish .disjunction rest)
        let ⟨_, rest, h⟩ ← within h
          (expectSymbol finish .rightParen "Expected ')' after expression" rest)
        .ok ⟨value, rest, h⟩
      else if t.isKeyword "new" then creation finish (t :: rest)
      else if t.kind = .identifier ∨ t.isKeyword "this" = true then do
        let ⟨value, rest, h⟩ ← chain finish (t :: rest)
        .ok ⟨.access value, rest, h⟩
      else refuse finish .expectedExpression "Expected expression" none (t :: rest)
termination_by 12 * ts.length + 1
decreasing_by
  all_goals
    simp only [Level.rank, List.length_cons]
    omega

/-- Read `new` with a class and arguments, or with an element type and a length. -/
def creation (finish : Position) (ts : List Token) : Outcome Expr ts.length := do
  let p := here finish ts
  let ⟨_, rest, h⟩ ← expectKeyword finish "new" "Expected 'new'" ts
  let ⟨name, rest, h⟩ ← within h (typeName finish "Expected type after 'new'" rest)
  if atSymbol .leftBracket rest && atSymbol .rightBracket rest.tail then
    .error ⟨.missingLength, here finish rest⟩
  else
    match acceptSymbol .leftBracket rest with
    | some ⟨_, rest, h'⟩ =>
      let ⟨length, rest, h⟩ ← within (shorter_trans h' h) (binary finish .disjunction rest)
      let ⟨_, rest, h⟩ ← within h
        (expectSymbol finish .rightBracket "Expected ']' after array length" rest)
      .ok ⟨.newArray p name length, rest, h⟩
    | none =>
      if atSymbol .leftParen rest then
        let ⟨args, rest, h⟩ ← within h (arguments finish rest)
        .ok ⟨.newObject p name args, rest, h⟩
      else
        refuse finish .unexpectedToken "Expected '(' or '[' after type in 'new' expression" none
          rest
termination_by 12 * ts.length
decreasing_by
  all_goals
    have rank : Level.disjunction.rank = 5 := rfl
    omega

/-- Read an access chain. -/
def chain (finish : Position) (ts : List Token) : Outcome Chain ts.length :=
  let p := here finish ts
  match acceptKeyword "this" ts with
  | some ⟨_, rest, h⟩ => links finish ts.length (.this p) [] rest h
  | none => do
    let ⟨name, rest, h⟩ ← expectName finish "Expected name" ts
    if atSymbol .leftParen rest then
      let ⟨args, rest, h⟩ ← within h (arguments finish rest)
      links finish ts.length (.call p name args) [] rest h
    else links finish ts.length (.name p name) [] rest h
termination_by 12 * ts.length
decreasing_by all_goals omega

/-- Read the links that follow; `done` holds the earlier ones, latest first. -/
def links (finish : Position) (bound : Nat) (head : Head) (done : List Link) (ts : List Token)
    (h : ts.length < bound) : Outcome Chain bound :=
  let p := here finish ts
  match acceptSymbol .dot ts with
  | some ⟨_, rest, h'⟩ => do
    let ⟨name, rest, h'⟩ ← within h' (expectName finish "Expected member name after '.'" rest)
    if atSymbol .leftParen rest then
      let ⟨args, rest, h'⟩ ← within h' (arguments finish rest)
      links finish bound head (.call p name args :: done) rest (shorter_bound h' h)
    else links finish bound head (.field p name :: done) rest (shorter_bound h' h)
  | none =>
    match acceptSymbol .leftBracket ts with
    | some ⟨_, rest, h'⟩ => do
      let ⟨index, rest, h'⟩ ← within h' (binary finish .disjunction rest)
      let ⟨_, rest, h'⟩ ← within h'
        (expectSymbol finish .rightBracket "Expected ']' after index" rest)
      links finish bound head (.index p index :: done) rest (shorter_bound h' h)
    | none => .ok ⟨.mk head done.reverse, ts, h⟩
termination_by 12 * ts.length
decreasing_by
  all_goals
    have rank : Level.disjunction.rank = 5 := rfl
    omega

/-- Read a parenthesized list of arguments. -/
def arguments (finish : Position) (ts : List Token) : Outcome (List Expr) ts.length := do
  let ⟨_, rest, h⟩ ← expectSymbol finish .leftParen "Expected '('" ts
  match acceptSymbol .rightParen rest with
  | some ⟨_, rest, h'⟩ => .ok ⟨[], rest, shorter_trans h' h⟩
  | none => moreArguments finish ts.length [] rest h
termination_by 12 * ts.length + 1
decreasing_by omega

/-- Read at least one more argument and the closing parenthesis; `done` holds the
earlier arguments, latest first. -/
def moreArguments (finish : Position) (bound : Nat) (done : List Expr) (ts : List Token)
    (h : ts.length < bound) : Outcome (List Expr) bound := do
  let ⟨arg, rest, h'⟩ ← binary finish .disjunction ts
  match (acceptSymbol .comma rest).map (Parsed.within h') with
  | some ⟨_, rest, h'⟩ => moreArguments finish bound (arg :: done) rest (shorter_bound h' h)
  | none =>
    let ⟨_, rest, h'⟩ ← within h'
      (expectSymbol finish .rightParen "Expected ')' after arguments" rest)
    .ok ⟨(arg :: done).reverse, rest, shorter_bound h' h⟩
termination_by 12 * ts.length + 12
decreasing_by
  all_goals
    have rank : Level.disjunction.rank = 5 := rfl
    omega

end

/-- Read an expression. -/
def expression (finish : Position) (ts : List Token) : Outcome Expr ts.length :=
  binary finish .disjunction ts

end Javelet.Grammar
