import Javelet.Grammar.Expr
import Javelet.Syntax.Statement

/-!
# Reading statements

Nodes that open a scope or reserve a slot are numbered in the order in which they are
read; a reader takes the next free number and returns the one behind the numbers it has
given out.
-/
namespace Javelet.Grammar

/-- What surrounds a statement, as far as jumps are concerned. -/
structure Surroundings where
  /-- A loop, so that `continue` has a target. -/
  loop : Bool
  /-- A loop or a switch, so that `break` has a target. -/
  breakable : Bool
  deriving DecidableEq, Repr

namespace Surroundings

def none : Surroundings := ⟨false, false⟩

def inLoop : Surroundings := ⟨true, true⟩

def inSwitch (s : Surroundings) : Surroundings := ⟨s.loop, true⟩

end Surroundings

/-- Read a variable declaration without its semicolon. -/
def variableDeclaration (finish : Position) (ts : List Token) : Outcome Variable ts.length := do
  let p := here finish ts
  let ⟨type, rest, h⟩ ← type finish ts
  let ⟨name, rest, h⟩ ← within h (expectName finish "Expected variable name" rest)
  match acceptSymbol .assign rest with
  | some ⟨_, rest, h'⟩ =>
    let ⟨value, rest, h⟩ ← within (shorter_trans h' h) (expression finish rest)
    .ok ⟨⟨p, type, name, some value⟩, rest, h⟩
  | none => .ok ⟨⟨p, type, name, none⟩, rest, h⟩

/-- The assignment operator a symbol stands for. -/
def assignOp? : Symbol → Option AssignOp
  | .assign => some .plain
  | .plusAssign => some (.compound .add)
  | .minusAssign => some (.compound .sub)
  | .starAssign => some (.compound .mul)
  | .slashAssign => some (.compound .div)
  | .percentAssign => some (.compound .rem)
  | _ => none

/-- Use up an assignment operator. -/
def acceptAssignOp (ts : List Token) : Option (Parsed AssignOp ts.length) :=
  match ts with
  | [] => none
  | t :: rest =>
    match t.kind with
    | .symbol s => (assignOp? s).map fun op => ⟨op, rest, shorter_cons t rest⟩
    | _ => none

/-- Read an assignment behind its target. -/
def assignmentRest (finish : Position) (target : Chain) (ts : List Token) :
    Outcome Assignment ts.length :=
  match acceptAssignOp ts with
  | none => refuse finish .unexpectedToken "Expected '='" none ts
  | some ⟨op, rest, h⟩ =>
    if target.isAssignable then do
      let ⟨value, rest, h⟩ ← within h (expression finish rest)
      .ok ⟨⟨op, target, value⟩, rest, h⟩
    else .error ⟨.badTarget, here finish ts⟩

/-- Read an assignment. -/
def assignment (finish : Position) (ts : List Token) : Outcome Assignment ts.length := do
  let ⟨target, rest, h⟩ ← chain finish ts
  within h (assignmentRest finish target rest)

/-- Read an assignment or a call without its semicolon. -/
def action (finish : Position) (ts : List Token) : Outcome Action ts.length := do
  let ⟨target, rest, h⟩ ← chain finish ts
  if (acceptAssignOp rest).isSome then
    let ⟨assignment, rest, h⟩ ← within h (assignmentRest finish target rest)
    .ok ⟨.assignment assignment, rest, h⟩
  else if target.isCall then .ok ⟨.call target, rest, h⟩
  else
    refuse finish .expectedStatement "Expected assignment or method call"
      (some "A value on its own is not a statement") rest

/-- Read the semicolon that ends a jump. -/
def closeJump (finish p : Position) (jump : Jump) (ts : List Token) :
    Outcome Statement ts.length := do
  let ⟨_, rest, h⟩ ← expectSymbol finish .semicolon "Expected ';'" ts
  .ok ⟨.jump p jump, rest, h⟩

/-- Read a return, a break or a continue. -/
def jump (finish : Position) (around : Surroundings) (ts : List Token) :
    Outcome Statement ts.length :=
  let p := here finish ts
  match acceptKeyword "return" ts with
  | some ⟨_, rest, h⟩ =>
    if atSymbol .semicolon rest then within h (closeJump finish p (.return_ none) rest)
    else do
      let ⟨value, rest, h⟩ ← within h (expression finish rest)
      within h (closeJump finish p (.return_ (some value)) rest)
  | none =>
    match acceptKeyword "break" ts with
    | some ⟨_, rest, h⟩ =>
      if around.breakable then within h (closeJump finish p .break_ rest)
      else .error ⟨.strayBreak, p⟩
    | none =>
      match acceptKeyword "continue" ts with
      | some ⟨_, rest, h⟩ =>
        if around.loop then within h (closeJump finish p .continue_ rest)
        else .error ⟨.strayContinue, p⟩
      | none => refuse finish .expectedStatement "Expected statement" none ts

/-- Read a parenthesized condition behind a keyword. -/
def condition (finish : Position) (word : String) (ts : List Token) : Outcome Expr ts.length := do
  let ⟨_, rest, h⟩ ← expectSymbol finish .leftParen ("Expected '(' after '" ++ word ++ "'") ts
  let ⟨value, rest, h⟩ ← within h (expression finish rest)
  let ⟨_, rest, h⟩ ← within h
    (expectSymbol finish .rightParen "Expected ')' after condition" rest)
  .ok ⟨value, rest, h⟩

/-- Read the semicolon behind the initializer of a for loop. -/
def closeInit (finish : Position) (init : Option ForInit) (ts : List Token) :
    Outcome (Option ForInit) ts.length := do
  let ⟨_, rest, h⟩ ← expectSymbol finish .semicolon "Expected ';' after for initializer" ts
  .ok ⟨init, rest, h⟩

/-- Read the initializer of a for loop and its semicolon. -/
def forInit (finish : Position) (ts : List Token) : Outcome (Option ForInit) ts.length :=
  if atSymbol .semicolon ts then closeInit finish none ts
  else if atDeclaration ts then do
    let ⟨variable_, rest, h⟩ ← variableDeclaration finish ts
    within h (closeInit finish (some (.declaration variable_)) rest)
  else do
    let ⟨assignment, rest, h⟩ ← assignment finish ts
    within h (closeInit finish (some (.assignment assignment)) rest)

/-- Read the condition of a for loop and its semicolon. -/
def forCondition (finish : Position) (ts : List Token) : Outcome (Option Expr) ts.length :=
  let what := "Expected ';' after for condition"
  if atSymbol .semicolon ts then do
    let ⟨_, rest, h⟩ ← expectSymbol finish .semicolon what ts
    .ok ⟨none, rest, h⟩
  else do
    let ⟨value, rest, h⟩ ← expression finish ts
    let ⟨_, rest, h⟩ ← within h (expectSymbol finish .semicolon what rest)
    .ok ⟨some value, rest, h⟩

/-- Read the update of a for loop and the closing parenthesis. -/
def forUpdate (finish : Position) (ts : List Token) : Outcome (Option Action) ts.length :=
  let what := "Expected ')' after for clauses"
  if atSymbol .rightParen ts then do
    let ⟨_, rest, h⟩ ← expectSymbol finish .rightParen what ts
    .ok ⟨none, rest, h⟩
  else do
    let ⟨update, rest, h⟩ ← action finish ts
    let ⟨_, rest, h⟩ ← within h (expectSymbol finish .rightParen what rest)
    .ok ⟨some update, rest, h⟩

/-- Read the label of a case. -/
def caseLabel (finish : Position) (ts : List Token) : Outcome (Position × Literal) ts.length :=
  let p := here finish ts
  let fits := ts.head?.any (fun t =>
    t.kind == .integer || t.kind == .character || t.kind == .boolean) || atNegativeInteger ts
  let refused : Outcome (Position × Literal) ts.length :=
    refuse finish .badCaseLabel "Expected case label"
      (some "Case labels must be integer, character or boolean literals") ts
  if fits then do
    let ⟨value, rest, h⟩ ← primary finish ts
    match value with
    | .literal _ label => .ok ⟨(p, label), rest, h⟩
    | _ => refused
  else refused

/-- Whether the statements of a case end here. -/
def atCaseEnd (ts : List Token) : Bool :=
  atKeyword "case" ts || atKeyword "default" ts || atSymbol .rightBrace ts

/-- The cases read so far, latest first, and the default body. -/
structure Arms where
  cases : List Case
  default_ : Option Block

mutual

/-- Read a statement. -/
def statement (finish : Position) (around : Surroundings) (id : NodeId) (ts : List Token) :
    Outcome (Statement × NodeId) ts.length :=
  match ts.head? with
  | none => refuse finish .expectedStatement "Expected statement" none ts
  | some t =>
    if t.kind = .symbol .leftBrace then do
      let ⟨(body, id), rest, h⟩ ← block finish around id ts
      .ok ⟨(.block body, id), rest, h⟩
    else if t.isKeyword "if" then conditional finish around id ts
    else if t.isKeyword "while" then whileLoop finish id ts
    else if t.isKeyword "for" then forLoop finish id ts
    else if t.isKeyword "switch" then switch finish around id ts
    else if t.isKeyword "return" || t.isKeyword "break" || t.isKeyword "continue" then do
      let ⟨statement, rest, h⟩ ← jump finish around ts
      .ok ⟨(statement, id), rest, h⟩
    else if atDeclaration ts then do
      let ⟨variable_, rest, h⟩ ← variableDeclaration finish ts
      let ⟨_, rest, h⟩ ← within h
        (expectSymbol finish .semicolon "Expected ';' after variable declaration" rest)
      .ok ⟨(.declaration variable_, id), rest, h⟩
    else if t.kind = .identifier ∨ t.isKeyword "this" = true then do
      let ⟨action, rest, h⟩ ← action finish ts
      let ⟨_, rest, h⟩ ← within h
        (expectSymbol finish .semicolon "Expected ';' after statement" rest)
      .ok ⟨(.action action, id), rest, h⟩
    else refuse finish .expectedStatement "Expected statement" none ts
termination_by 4 * ts.length + 1
decreasing_by all_goals omega

/-- Read a block. -/
def block (finish : Position) (around : Surroundings) (id : NodeId) (ts : List Token) :
    Outcome (Block × NodeId) ts.length := do
  let p := here finish ts
  let ⟨_, rest, h⟩ ← expectSymbol finish .leftBrace "Expected '\x7b'" ts
  let ⟨(statements, next), rest, h⟩ ←
    statements finish around (atSymbol .rightBrace) ts.length [] (id + 1) rest h
  let ⟨_, rest, h⟩ ← within h (expectSymbol finish .rightBrace "Expected '\x7d'" rest)
  .ok ⟨(.mk id p statements, next), rest, h⟩
termination_by 4 * ts.length
decreasing_by omega

/-- Read statements up to where `stop` holds; `done` holds the earlier ones, latest
first. -/
def statements (finish : Position) (around : Surroundings) (stop : List Token → Bool)
    (bound : Nat) (done : List Statement) (id : NodeId) (ts : List Token)
    (h : ts.length < bound) : Outcome (List Statement × NodeId) bound :=
  if stop ts then .ok ⟨(done.reverse, id), ts, h⟩
  else if ts.isEmpty then refuse finish .unexpectedToken "Expected '\x7d'" none ts
  else do
    let ⟨(statement, next), rest, h'⟩ ← statement finish around id ts
    statements finish around stop bound (statement :: done) next rest (shorter_bound h' h)
termination_by 4 * ts.length + 2
decreasing_by all_goals omega

/-- Read a conditional. An else belongs to the nearest one. -/
def conditional (finish : Position) (around : Surroundings) (id : NodeId) (ts : List Token) :
    Outcome (Statement × NodeId) ts.length := do
  let p := here finish ts
  let ⟨_, rest, h⟩ ← expectKeyword finish "if" "Expected 'if'" ts
  let ⟨test, rest, h⟩ ← within h (condition finish "if" rest)
  let ⟨(body, id), rest, h⟩ ← within h (statement finish around id rest)
  match acceptKeyword "else" rest with
  | some ⟨_, rest, h'⟩ =>
    let ⟨(otherwise, id), rest, h⟩ ← within (shorter_trans h' h)
      (statement finish around id rest)
    .ok ⟨(.conditional p test body (some otherwise), id), rest, h⟩
  | none => .ok ⟨(.conditional p test body none, id), rest, h⟩
termination_by 4 * ts.length
decreasing_by all_goals omega

/-- Read a while loop. -/
def whileLoop (finish : Position) (id : NodeId) (ts : List Token) :
    Outcome (Statement × NodeId) ts.length := do
  let p := here finish ts
  let ⟨_, rest, h⟩ ← expectKeyword finish "while" "Expected 'while'" ts
  let ⟨test, rest, h⟩ ← within h (condition finish "while" rest)
  let ⟨(body, id), rest, h⟩ ← within h (statement finish .inLoop id rest)
  .ok ⟨(.whileLoop p test body, id), rest, h⟩
termination_by 4 * ts.length
decreasing_by omega

/-- Read a for loop. -/
def forLoop (finish : Position) (id : NodeId) (ts : List Token) :
    Outcome (Statement × NodeId) ts.length := do
  let p := here finish ts
  let ⟨_, rest, h⟩ ← expectKeyword finish "for" "Expected 'for'" ts
  let ⟨_, rest, h⟩ ← within h
    (expectSymbol finish .leftParen "Expected '(' after 'for'" rest)
  let ⟨init, rest, h⟩ ← within h (forInit finish rest)
  let ⟨test, rest, h⟩ ← within h (forCondition finish rest)
  let ⟨update, rest, h⟩ ← within h (forUpdate finish rest)
  let ⟨(body, next), rest, h⟩ ← within h (statement finish .inLoop (id + 1) rest)
  .ok ⟨(.forLoop p id init test update body, next), rest, h⟩
termination_by 4 * ts.length
decreasing_by omega

/-- Read a switch. -/
def switch (finish : Position) (around : Surroundings) (id : NodeId) (ts : List Token) :
    Outcome (Statement × NodeId) ts.length := do
  let p := here finish ts
  let ⟨_, rest, h⟩ ← expectKeyword finish "switch" "Expected 'switch'" ts
  let ⟨selector, rest, h⟩ ← within h (condition finish "switch" rest)
  let ⟨_, rest, h⟩ ← within h
    (expectSymbol finish .leftBrace "Expected '\x7b' after switch selector" rest)
  let ⟨(arms, next), rest, h⟩ ←
    arms finish around.inSwitch ts.length ⟨[], none⟩ (id + 1) rest h
  .ok ⟨(.switch p id selector arms.cases.reverse arms.default_, next), rest, h⟩
termination_by 4 * ts.length
decreasing_by omega

/-- Read the arms of a switch and its closing brace. -/
def arms (finish : Position) (around : Surroundings) (bound : Nat) (done : Arms) (id : NodeId)
    (ts : List Token) (h : ts.length < bound) : Outcome (Arms × NodeId) bound :=
  let p := here finish ts
  match acceptSymbol .rightBrace ts with
  | some ⟨_, rest, h'⟩ => .ok ⟨(done, id), rest, shorter_bound h' h⟩
  | none =>
    match acceptKeyword "case" ts with
    | some ⟨_, rest, h'⟩ => do
      let ⟨(labelPosition, label), rest, h'⟩ ← within h' (caseLabel finish rest)
      let ⟨_, rest, h'⟩ ← within h'
        (expectSymbol finish .colon "Expected ':' after case label" rest)
      let ⟨(body, next), rest, h'⟩ ← optionalWithin h' (caseBody finish around id rest)
      arms finish around bound
        { done with cases := .mk p labelPosition label body :: done.cases } next rest
        (shorter_bound h' h)
    | none =>
      match acceptKeyword "default" ts with
      | some ⟨_, rest, h'⟩ =>
        if done.default_.isSome then .error ⟨.duplicateDefault, p⟩
        else do
          let ⟨_, rest, h'⟩ ← within h'
            (expectSymbol finish .colon "Expected ':' after 'default'" rest)
          let ⟨(body, next), rest, h'⟩ ← optionalWithin h' (caseBody finish around id rest)
          arms finish around bound { done with default_ := some body } next rest
            (shorter_bound h' h)
      | none =>
        refuse finish .unexpectedToken "Expected 'case', 'default' or '\x7d'" none ts
termination_by 4 * ts.length
decreasing_by all_goals omega

/-- Read the statements of a case. There may be none. -/
def caseBody (finish : Position) (around : Surroundings) (id : NodeId) (ts : List Token) :
    Outcome (Block × NodeId) (ts.length + 1) := do
  let ⟨(statements, next), rest, h⟩ ←
    statements finish around atCaseEnd (ts.length + 1) [] (id + 1) ts (shorter_succ ts)
  .ok ⟨(.mk id (here finish ts) statements, next), rest, h⟩
termination_by 4 * ts.length + 3
decreasing_by omega

end

end Javelet.Grammar
