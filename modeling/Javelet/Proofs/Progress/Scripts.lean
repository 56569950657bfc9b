import Javelet.Grammar.Declaration

/-!
# What one call of a reader does

The readers call each other, and a loop is a reader that calls itself. A script tells a single call:
it looks at the tokens that are left, uses them up one by one, and calls readers on the way, the
same ones and in the same order as the reader it is named after. No script is recursive, and none
carries a bound on the number of tokens. So nothing in the scripts says that reading comes to an
end.
-/
namespace Javelet.Grammar

/-- The readers, by what they are given besides the tokens and by what they give. -/
inductive Reader : Type → Type → Type where
  | typeName : Reader String String
  | type : Reader Unit Ty
  | returnType : Reader Unit Ty
  | accessModifier : Reader Unit (Option Access)
  | integerLiteral : Reader (Option Position × Bool) Expr
  | binary (level : Level) : Reader Unit Expr
  | operand (level : Level) : Reader Unit Expr
  | operators (level : Level) : Reader Expr Expr
  | primary : Reader Unit Expr
  | creation : Reader Unit Expr
  | chain : Reader Unit Chain
  | links : Reader (Head × List Link) Chain
  | arguments : Reader Unit (List Expr)
  | moreArguments : Reader (List Expr) (List Expr)
  | expression : Reader Unit Expr
  | variableDeclaration : Reader Unit Variable
  | assignmentRest : Reader Chain Assignment
  | assignment : Reader Unit Assignment
  | action : Reader Unit Action
  | closeJump : Reader (Position × Jump) Statement
  | jump : Reader Surroundings Statement
  | condition : Reader String Expr
  | closeInit : Reader (Option ForInit) (Option ForInit)
  | forInit : Reader Unit (Option ForInit)
  | forCondition : Reader Unit (Option Expr)
  | forUpdate : Reader Unit (Option Action)
  | caseLabel : Reader Unit (Position × Literal)
  | statement : Reader (Surroundings × NodeId) (Statement × NodeId)
  | block : Reader (Surroundings × NodeId) (Block × NodeId)
  | statements : Reader (Surroundings × (List Token → Bool) × List Statement × NodeId)
      (List Statement × NodeId)
  | conditional : Reader (Surroundings × NodeId) (Statement × NodeId)
  | whileLoop : Reader NodeId (Statement × NodeId)
  | forLoop : Reader NodeId (Statement × NodeId)
  | switch : Reader (Surroundings × NodeId) (Statement × NodeId)
  | arms : Reader (Surroundings × Arms × NodeId) (Arms × NodeId)
  | caseBody : Reader (Surroundings × NodeId) (Block × NodeId)
  | moreParameters : Reader (List Parameter) (List Parameter)
  | parameters : Reader Unit (List Parameter)
  | methodRest : Reader Signature (Method × NodeId)
  | mainMethod : Reader (Position × Option Access × NodeId) (Method × NodeId)
  | initialValue : Reader Unit (Option Expr)
  | typedMember : Reader (Position × Access × Members × NodeId) (Members × NodeId)
  | constructorMember :
      Reader (Position × String × Access × Members × NodeId) (Members × NodeId)
  | member : Reader (String × Members × NodeId) (Members × NodeId)
  | members : Reader (String × Members × NodeId) (Members × NodeId)
  | supertype : Reader (String × String) (Option String)
  | classRest : Reader (Position × NodeId) (ClassDecl × NodeId)
  | interfaceMethods : Reader (List Signature × NodeId) (List Signature × NodeId)
  | interfaceRest : Reader (Position × NodeId) (InterfaceDecl × NodeId)
  | typeDeclarationRest : Reader (Position × NodeId) (TypeDecl × NodeId)
  | typeDeclaration : Reader NodeId (TypeDecl × NodeId)
  | declarations : Reader (List TypeDecl × NodeId) (Program × NodeId)

/-- What a call does: it ends with a value or at a fault, looks at all tokens that are left, moves
on behind one token, or makes a call and goes on with what that gives. -/
inductive Script (α : Type) : Type 1 where
  | give (value : α)
  | fail (fault : Located Fault)
  | look (next : List Token → Script α)
  | take (next : Script α)
  | call {σ β : Type} (reader : Reader σ β) (input : σ) (next : β → Script α)

namespace Script

variable {α β σ : Type}

/-- One script and what follows on it. -/
protected def bind : Script β → (β → Script α) → Script α
  | .give value, k => k value
  | .fail fault, _ => .fail fault
  | .look next, k => .look fun ts => (next ts).bind k
  | .take next, k => .take (next.bind k)
  | .call reader input next, k => .call reader input fun value => (next value).bind k

instance : Monad Script where
  pure := .give
  bind := .bind

/-- Call a reader. -/
def ask (reader : Reader σ α) (input : σ) : Script α := .call reader input .give

/-- The tokens that are left. -/
def ahead : Script (List Token) := .look .give

/-- Move on behind a token. -/
def skip : Script Unit := .take (.give ())

/-- Where the next token stands. -/
def place (finish : Position) : Script Position := .look fun ts => .give (here finish ts)

/-- Refuse the next token. -/
def refuse (finish : Position) (code : Code) (what : String) (hint : Option String) : Script α :=
  .look fun ts => .fail ⟨.expected code what hint ts.head?, here finish ts⟩

/-- Use up the next token if it stands for something. -/
def acceptAs (meaning : Token → Option α) : Script (Option α) :=
  .look fun ts =>
    match ts.head?.bind meaning with
    | some value => .take (.give (some value))
    | none => .give none

/-- What a symbol stands for. -/
def ofSymbol (meaning : Symbol → Option α) (t : Token) : Option α :=
  match t.kind with
  | .symbol s => meaning s
  | _ => none

def accept (test : Token → Bool) : Script (Option Token) := acceptAs (Option.guard test)

def acceptSymbol (s : Symbol) : Script (Option Token) := accept fun t => t.kind == .symbol s

def acceptKeyword (word : String) : Script (Option Token) := accept fun t => t.isKeyword word

def acceptOperator (level : Level) : Script (Option BinaryOp) :=
  acceptAs (ofSymbol level.operator?)

def acceptAssignOp : Script (Option AssignOp) := acceptAs (ofSymbol assignOp?)

/-- Use up a token that must be there. -/
def expect (finish : Position) (test : Token → Bool) (code : Code) (what : String) :
    Script Token := do
  match ← accept test with
  | some t => return t
  | none => refuse finish code what none

def expectSymbol (finish : Position) (s : Symbol) (what : String) : Script Token :=
  expect finish (fun t => t.kind == .symbol s) .unexpectedToken what

def expectKeyword (finish : Position) (word what : String) : Script Token :=
  expect finish (fun t => t.isKeyword word) .unexpectedToken what

def expectName (finish : Position) (what : String) : Script String := do
  let t ← expect finish (fun t => t.kind == .identifier) .expectedName what
  return t.text

/-! ## The scripts of the readers, under the names of these -/

def typeName (finish : Position) (what : String) : Script String := do
  let t ← expect finish isTypeName .expectedType what
  return t.text

def type (finish : Position) : Script Ty := do
  let name ← ask .typeName "Expected type"
  match ← acceptSymbol .leftBracket with
  | none => return ⟨name, false⟩
  | some _ =>
    let _ ← expectSymbol finish .rightBracket "Expected ']' in array type"
    return ⟨name, true⟩

def returnType : Script Ty := do
  match ← acceptKeyword "void" with
  | some _ => return .void
  | none => ask .type ()

def accessModifier : Script (Option Access) := do
  match ← accept fun t => t.kind == .keyword && (Access.ofKeyword? t.text).isSome with
  | some t => return Access.ofKeyword? t.text
  | none => return none

def integerLiteral (finish : Position) (p : Option Position) (negative : Bool) : Script Expr := do
  let t ← expect finish (fun t => t.kind == .integer) .unexpectedToken "Expected integer literal"
  match integerValue t.text negative with
  | .ok value => return .literal (p.getD t.position) (.int value)
  | .error fault => .fail ⟨fault, t.position⟩

def binary (level : Level) : Script Expr := do
  let left ← ask (.operand level) ()
  ask (.operators level) left

def operand (level : Level) : Script Expr :=
  match level.tighter with
  | some tighter => ask (.binary tighter) ()
  | none => ask .primary ()

def operators (level : Level) (left : Expr) : Script Expr := do
  match ← acceptOperator level with
  | none => return left
  | some op =>
    let right ← ask (.operand level) ()
    if level.chains then ask (.operators level) (.binary op left right)
    else return .binary op left right

def primary (finish : Position) : Script Expr := do
  let ts ← ahead
  match ts with
  | [] => refuse finish .expectedExpression "Expected expression" none
  | t :: _ =>
    match literalOf? t with
    | some value =>
      skip
      return .literal t.position value
    | none =>
      if t.kind = .integer then ask .integerLiteral (none, false)
      else if atNegativeInteger ts then
        skip
        ask .integerLiteral (some t.position, true)
      else if t.kind = .floating then .fail ⟨.floatingLiteral t.text, t.position⟩
      else if t.kind = .symbol .leftParen then
        skip
        let value ← ask (.binary .disjunction) ()
        let _ ← expectSymbol finish .rightParen "Expected ')' after expression"
        return value
      else if t.isKeyword "new" then ask .creation ()
      else if t.kind = .identifier ∨ t.isKeyword "this" = true then
        let value ← ask .chain ()
        return .access value
      else refuse finish .expectedExpression "Expected expression" none

def creation (finish : Position) : Script Expr := do
  let p ← place finish
  let _ ← expectKeyword finish "new" "Expected 'new'"
  let name ← ask .typeName "Expected type after 'new'"
  let rest ← ahead
  if atSymbol .leftBracket rest && atSymbol .rightBracket rest.tail then
    .fail ⟨.missingLength, here finish rest⟩
  else
    match ← acceptSymbol .leftBracket with
    | some _ =>
      let length ← ask (.binary .disjunction) ()
      let _ ← expectSymbol finish .rightBracket "Expected ']' after array length"
      return .newArray p name length
    | none =>
      if atSymbol .leftParen rest then
        let args ← ask .arguments ()
        return .newObject p name args
      else
        refuse finish .unexpectedToken "Expected '(' or '[' after type in 'new' expression" none

def chain (finish : Position) : Script Chain := do
  let p ← place finish
  match ← acceptKeyword "this" with
  | some _ => ask .links (.this p, [])
  | none =>
    let name ← expectName finish "Expected name"
    let rest ← ahead
    if atSymbol .leftParen rest then
      let args ← ask .arguments ()
      ask .links (.call p name args, [])
    else ask .links (.name p name, [])

def links (finish : Position) (head : Head) (done : List Link) : Script Chain := do
  let p ← place finish
  match ← acceptSymbol .dot with
  | some _ =>
    let name ← expectName finish "Expected member name after '.'"
    let rest ← ahead
    if atSymbol .leftParen rest then
      let args ← ask .arguments ()
      ask .links (head, .call p name args :: done)
    else ask .links (head, .field p name :: done)
  | none =>
    match ← acceptSymbol .leftBracket with
    | some _ =>
      let index ← ask (.binary .disjunction) ()
      let _ ← expectSymbol finish .rightBracket "Expected ']' after index"
      ask .links (head, .index p index :: done)
    | none => return .mk head done.reverse

def arguments (finish : Position) : Script (List Expr) := do
  let _ ← expectSymbol finish .leftParen "Expected '('"
  match ← acceptSymbol .rightParen with
  | some _ => return []
  | none => ask .moreArguments []

def moreArguments (finish : Position) (done : List Expr) : Script (List Expr) := do
  let arg ← ask (.binary .disjunction) ()
  match ← acceptSymbol .comma with
  | some _ => ask .moreArguments (arg :: done)
  | none =>
    let _ ← expectSymbol finish .rightParen "Expected ')' after arguments"
    return (arg :: done).reverse

def expression : Script Expr := ask (.binary .disjunction) ()

def variableDeclaration (finish : Position) : Script Variable := do
  let p ← place finish
  let type ← ask .type ()
  let name ← expectName finish "Expected variable name"
  match ← acceptSymbol .assign with
  | some _ =>
    let value ← ask .expression ()
    return ⟨p, type, name, some value⟩
  | none => return ⟨p, type, name, none⟩

def assignmentRest (finish : Position) (target : Chain) : Script Assignment := do
  let p ← place finish
  match ← acceptAssignOp with
  | none => refuse finish .unexpectedToken "Expected '='" none
  | some op =>
    if target.isAssignable then
      let value ← ask .expression ()
      return ⟨op, target, value⟩
    else .fail ⟨.badTarget, p⟩

def assignment : Script Assignment := do
  let target ← ask .chain ()
  ask .assignmentRest target

def action (finish : Position) : Script Action := do
  let target ← ask .chain ()
  let rest ← ahead
  if (Grammar.acceptAssignOp rest).isSome then
    let assignment ← ask .assignmentRest target
    return .assignment assignment
  else if target.isCall then return .call target
  else
    refuse finish .expectedStatement "Expected assignment or method call"
      (some "A value on its own is not a statement")

def closeJump (finish p : Position) (jump : Jump) : Script Statement := do
  let _ ← expectSymbol finish .semicolon "Expected ';'"
  return .jump p jump

def jump (finish : Position) (around : Surroundings) : Script Statement := do
  let p ← place finish
  match ← acceptKeyword "return" with
  | some _ =>
    let rest ← ahead
    if atSymbol .semicolon rest then ask .closeJump (p, .return_ none)
    else
      let value ← ask .expression ()
      ask .closeJump (p, .return_ (some value))
  | none =>
    match ← acceptKeyword "break" with
    | some _ =>
      if around.breakable then ask .closeJump (p, .break_) else .fail ⟨.strayBreak, p⟩
    | none =>
      match ← acceptKeyword "continue" with
      | some _ =>
        if around.loop then ask .closeJump (p, .continue_) else .fail ⟨.strayContinue, p⟩
      | none => refuse finish .expectedStatement "Expected statement" none

def condition (finish : Position) (word : String) : Script Expr := do
  let _ ← expectSymbol finish .leftParen ("Expected '(' after '" ++ word ++ "'")
  let value ← ask .expression ()
  let _ ← expectSymbol finish .rightParen "Expected ')' after condition"
  return value

def closeInit (finish : Position) (init : Option ForInit) : Script (Option ForInit) := do
  let _ ← expectSymbol finish .semicolon "Expected ';' after for initializer"
  return init

def forInit : Script (Option ForInit) := do
  let ts ← ahead
  if atSymbol .semicolon ts then ask .closeInit none
  else if atDeclaration ts then
    let variable_ ← ask .variableDeclaration ()
    ask .closeInit (some (.declaration variable_))
  else
    let assignment ← ask .assignment ()
    ask .closeInit (some (.assignment assignment))

def forCondition (finish : Position) : Script (Option Expr) := do
  let what := "Expected ';' after for condition"
  let ts ← ahead
  if atSymbol .semicolon ts then
    let _ ← expectSymbol finish .semicolon what
    return none
  else
    let value ← ask .expression ()
    let _ ← expectSymbol finish .semicolon what
    return some value

def forUpdate (finish : Position) : Script (Option Action) := do
  let what := "Expected ')' after for clauses"
  let ts ← ahead
  if atSymbol .rightParen ts then
    let _ ← expectSymbol finish .rightParen what
    return none
  else
    let update ← ask .action ()
    let _ ← expectSymbol finish .rightParen what
    return some update

def caseLabel (finish : Position) : Script (Position × Literal) := do
  let ts ← ahead
  let p := here finish ts
  let fits := ts.head?.any (fun t =>
    t.kind == .integer || t.kind == .character || t.kind == .boolean) || atNegativeInteger ts
  let refused : Script (Position × Literal) := .fail ⟨.expected .badCaseLabel
    "Expected case label" (some "Case labels must be integer, character or boolean literals")
    ts.head?, p⟩
  if fits then
    match ← ask .primary () with
    | .literal _ label => return (p, label)
    | _ => refused
  else refused

def statement (finish : Position) (around : Surroundings) (id : NodeId) :
    Script (Statement × NodeId) := do
  let ts ← ahead
  match ts.head? with
  | none => refuse finish .expectedStatement "Expected statement" none
  | some t =>
    if t.kind = .symbol .leftBrace then
      let (body, id) ← ask .block (around, id)
      return (.block body, id)
    else if t.isKeyword "if" then ask .conditional (around, id)
    else if t.isKeyword "while" then ask .whileLoop id
    else if t.isKeyword "for" then ask .forLoop id
    else if t.isKeyword "switch" then ask .switch (around, id)
    else if t.isKeyword "return" || t.isKeyword "break" || t.isKeyword "continue" then
      let statement ← ask .jump around
      return (statement, id)
    else if atDeclaration ts then
      let variable_ ← ask .variableDeclaration ()
      let _ ← expectSymbol finish .semicolon "Expected ';' after variable declaration"
      return (.declaration variable_, id)
    else if t.kind = .identifier ∨ t.isKeyword "this" = true then
      let action ← ask .action ()
      let _ ← expectSymbol finish .semicolon "Expected ';' after statement"
      return (.action action, id)
    else refuse finish .expectedStatement "Expected statement" none

def block (finish : Position) (around : Surroundings) (id : NodeId) : Script (Block × NodeId) := do
  let p ← place finish
  let _ ← expectSymbol finish .leftBrace "Expected '\x7b'"
  let (statements, next) ← ask .statements (around, atSymbol .rightBrace, [], id + 1)
  let _ ← expectSymbol finish .rightBrace "Expected '\x7d'"
  return (.mk id p statements, next)

def statements (finish : Position) (around : Surroundings) (stop : List Token → Bool)
    (done : List Statement) (id : NodeId) : Script (List Statement × NodeId) := do
  let ts ← ahead
  if stop ts then return (done.reverse, id)
  else if ts.isEmpty then refuse finish .unexpectedToken "Expected '\x7d'" none
  else
    let (statement, next) ← ask .statement (around, id)
    ask .statements (around, stop, statement :: done, next)

def conditional (finish : Position) (around : Surroundings) (id : NodeId) :
    Script (Statement × NodeId) := do
  let p ← place finish
  let _ ← expectKeyword finish "if" "Expected 'if'"
  let test ← ask .condition "if"
  let (body, id) ← ask .statement (around, id)
  match ← acceptKeyword "else" with
  | some _ =>
    let (otherwise, id) ← ask .statement (around, id)
    return (.conditional p test body (some otherwise), id)
  | none => return (.conditional p test body none, id)

def whileLoop (finish : Position) (id : NodeId) : Script (Statement × NodeId) := do
  let p ← place finish
  let _ ← expectKeyword finish "while" "Expected 'while'"
  let test ← ask .condition "while"
  let (body, id) ← ask .statement (.inLoop, id)
  return (.whileLoop p test body, id)

def forLoop (finish : Position) (id : NodeId) : Script (Statement × NodeId) := do
  let p ← place finish
  let _ ← expectKeyword finish "for" "Expected 'for'"
  let _ ← expectSymbol finish .leftParen "Expected '(' after 'for'"
  let init ← ask .forInit ()
  let test ← ask .forCondition ()
  let update ← ask .forUpdate ()
  let (body, next) ← ask .statement (.inLoop, id + 1)
  return (.forLoop p id init test update body, next)

def switch (finish : Position) (around : Surroundings) (id : NodeId) :
    Script (Statement × NodeId) := do
  let p ← place finish
  let _ ← expectKeyword finish "switch" "Expected 'switch'"
  let selector ← ask .condition "switch"
  let _ ← expectSymbol finish .leftBrace "Expected '\x7b' after switch selector"
  let (arms, next) ← ask .arms (around.inSwitch, ⟨[], none⟩, id + 1)
  return (.switch p id selector arms.cases.reverse arms.default_, next)

def arms (finish : Position) (around : Surroundings) (done : Arms) (id : NodeId) :
    Script (Arms × NodeId) := do
  let p ← place finish
  match ← acceptSymbol .rightBrace with
  | some _ => return (done, id)
  | none =>
    match ← acceptKeyword "case" with
    | some _ =>
      let (labelPosition, label) ← ask .caseLabel ()
      let _ ← expectSymbol finish .colon "Expected ':' after case label"
      let (body, next) ← ask .caseBody (around, id)
      ask .arms (around,
        { done with cases := .mk p labelPosition label body :: done.cases }, next)
    | none =>
      match ← acceptKeyword "default" with
      | some _ =>
        if done.default_.isSome then .fail ⟨.duplicateDefault, p⟩
        else
          let _ ← expectSymbol finish .colon "Expected ':' after 'default'"
          let (body, next) ← ask .caseBody (around, id)
          ask .arms (around, { done with default_ := some body }, next)
      | none => refuse finish .unexpectedToken "Expected 'case', 'default' or '\x7d'" none

def caseBody (finish : Position) (around : Surroundings) (id : NodeId) :
    Script (Block × NodeId) := do
  let p ← place finish
  let (statements, next) ← ask .statements (around, atCaseEnd, [], id + 1)
  return (.mk id p statements, next)

def moreParameters (finish : Position) (done : List Parameter) : Script (List Parameter) := do
  let p ← place finish
  let type ← ask .type ()
  let name ← expectName finish "Expected parameter name"
  match ← acceptSymbol .comma with
  | some _ => ask .moreParameters (⟨p, type, name⟩ :: done)
  | none =>
    let _ ← expectSymbol finish .rightParen "Expected ')' after parameters"
    return (⟨p, type, name⟩ :: done).reverse

def parameters (finish : Position) : Script (List Parameter) := do
  let _ ← expectSymbol finish .leftParen "Expected '(' before parameters"
  match ← acceptSymbol .rightParen with
  | some _ => return []
  | none => ask .moreParameters []

def methodRest (header : Signature) : Script (Method × NodeId) := do
  let params ← ask .parameters ()
  let (body, next) ← ask .block (.none, header.id + 1)
  return (⟨{ header with params := params }, body⟩, next)

def mainMethod (finish p : Position) (access : Option Access) (id : NodeId) :
    Script (Method × NodeId) := do
  if access.any (· != .public_) then .fail ⟨.badMain .notPublic, p⟩
  else
    let voidAt ← place finish
    match ← acceptKeyword "void" with
    | none => .fail ⟨.badMain .notVoid, voidAt⟩
    | some _ =>
      let nameAt ← place finish
      match ← accept fun t => t.kind == .identifier && t.text == "main" with
      | none => .fail ⟨.badMain .notMain, nameAt⟩
      | some _ =>
        let paramsAt ← place finish
        let params ← ask .parameters ()
        if params.map Parameter.type ≠ [⟨"String", true⟩] then
          .fail ⟨.badMain .parameters, paramsAt⟩
        else
          let (body, next) ← ask .block (.none, id + 1)
          return (⟨⟨id, .main, .public_, .void, "main", params, p⟩, body⟩, next)

def initialValue : Script (Option Expr) := do
  match ← acceptSymbol .assign with
  | some _ =>
    let value ← ask .expression ()
    return some value
  | none => return none

def typedMember (finish p : Position) (access : Access) (done : Members) (id : NodeId) :
    Script (Members × NodeId) := do
  let type ← ask .returnType ()
  let name ← expectName finish "Expected member name"
  let rest ← ahead
  if atSymbol .leftParen rest then
    let (method, next) ← ask .methodRest ⟨id, .method, access, type, name, [], p⟩
    return ({ done with methods := method :: done.methods }, next)
  else if type.isVoid then
    refuse finish .unexpectedToken "Expected '(' after method name" none
  else
    let value ← ask .initialValue ()
    let _ ← expectSymbol finish .semicolon "Expected ';' after property declaration"
    let property : Property := ⟨access, ⟨p, type, name, value⟩⟩
    return ({ done with properties := property :: done.properties }, id)

def constructorMember (finish p : Position) (className : String) (access : Access)
    (done : Members) (id : NodeId) : Script (Members × NodeId) := do
  let _ ← expectName finish "Expected member name"
  let (method, next) ← ask .methodRest ⟨id, .constructor, access, .void, className, [], p⟩
  return ({ done with constructors := method :: done.constructors }, next)

def member (finish : Position) (className : String) (done : Members) (id : NodeId) :
    Script (Members × NodeId) := do
  let p ← place finish
  let access ← ask .accessModifier ()
  match ← acceptKeyword "static" with
  | some _ =>
    let (main, next) ← ask .mainMethod (p, access, id)
    if done.main.isSome then .fail ⟨.duplicateMain className, p⟩
    else return ({ done with main := some main }, next)
  | none =>
    let rest ← ahead
    if atConstructor className rest then
      ask .constructorMember (p, className, access.getD .public_, done, id)
    else ask .typedMember (p, access.getD .public_, done, id)

def members (finish : Position) (className : String) (done : Members) (id : NodeId) :
    Script (Members × NodeId) := do
  match ← acceptSymbol .rightBrace with
  | some _ => return (done, id)
  | none =>
    let ts ← ahead
    if ts.isEmpty then refuse finish .unexpectedToken "Expected '\x7d'" none
    else
      let (done, next) ← ask .member (className, done, id)
      ask .members (className, done, next)

def supertype (word what : String) : Script (Option String) := do
  match ← acceptKeyword word with
  | some _ =>
    let name ← ask .typeName what
    return some name
  | none => return none

def classRest (finish p : Position) (id : NodeId) : Script (ClassDecl × NodeId) := do
  let name ← expectName finish "Expected class name"
  let superclass ← ask .supertype ("extends", "Expected superclass name")
  let interface ← ask .supertype ("implements", "Expected interface name")
  let _ ← expectSymbol finish .leftBrace "Expected '\x7b' after class header"
  let (found, next) ← ask .members (name, ⟨[], [], [], none⟩, id + 1)
  return (⟨id, name, superclass, interface, found.properties.reverse, found.constructors.reverse,
    found.methods.reverse, found.main, p⟩, next)

def interfaceMethods (finish : Position) (done : List Signature) (id : NodeId) :
    Script (List Signature × NodeId) := do
  match ← acceptSymbol .rightBrace with
  | some _ => return (done.reverse, id)
  | none =>
    let p ← place finish
    let access ← ask .accessModifier ()
    let type ← ask .returnType ()
    let name ← expectName finish "Expected method name"
    let params ← ask .parameters ()
    let _ ← expectSymbol finish .semicolon "Expected ';' after interface method"
    let header : Signature := ⟨id, .method, access.getD .public_, type, name, params, p⟩
    ask .interfaceMethods (header :: done, id + 1)

def interfaceRest (finish p : Position) (id : NodeId) :
    Script (InterfaceDecl × NodeId) := do
  let name ← expectName finish "Expected interface name"
  let _ ← expectSymbol finish .leftBrace "Expected '\x7b' after interface name"
  let (methods, next) ← ask .interfaceMethods ([], id + 1)
  return (⟨id, name, methods, p⟩, next)

def typeDeclarationRest (finish p : Position) (id : NodeId) :
    Script (TypeDecl × NodeId) := do
  match ← acceptKeyword "class" with
  | some _ =>
    let (decl, next) ← ask .classRest (p, id)
    return (.class_ decl, next)
  | none =>
    match ← acceptKeyword "interface" with
    | some _ =>
      let (decl, next) ← ask .interfaceRest (p, id)
      return (.interface decl, next)
    | none => refuse finish .unexpectedToken "Expected 'class' or 'interface'" none

def typeDeclaration (finish : Position) (id : NodeId) : Script (TypeDecl × NodeId) := do
  let p ← place finish
  let _ ← acceptKeyword "public"
  ask .typeDeclarationRest (p, id)

def declarations (done : List TypeDecl) (id : NodeId) : Script (Program × NodeId) := do
  let ts ← ahead
  if ts.isEmpty then return (⟨done.reverse⟩, id)
  else
    let (decl, next) ← ask .typeDeclaration id
    ask .declarations (decl :: done, next)

/-- What a call of a reader does. -/
def body (finish : Position) : {σ α : Type} → Reader σ α → σ → Script α
  | _, _, .typeName, what => typeName finish what
  | _, _, .type, () => type finish
  | _, _, .returnType, () => returnType
  | _, _, .accessModifier, () => accessModifier
  | _, _, .integerLiteral, (p, negative) => integerLiteral finish p negative
  | _, _, .binary level, () => binary level
  | _, _, .operand level, () => operand level
  | _, _, .operators level, left => operators level left
  | _, _, .primary, () => primary finish
  | _, _, .creation, () => creation finish
  | _, _, .chain, () => chain finish
  | _, _, .links, (head, done) => links finish head done
  | _, _, .arguments, () => arguments finish
  | _, _, .moreArguments, done => moreArguments finish done
  | _, _, .expression, () => expression
  | _, _, .variableDeclaration, () => variableDeclaration finish
  | _, _, .assignmentRest, target => assignmentRest finish target
  | _, _, .assignment, () => assignment
  | _, _, .action, () => action finish
  | _, _, .closeJump, (p, jump) => closeJump finish p jump
  | _, _, .jump, around => jump finish around
  | _, _, .condition, word => condition finish word
  | _, _, .closeInit, init => closeInit finish init
  | _, _, .forInit, () => forInit
  | _, _, .forCondition, () => forCondition finish
  | _, _, .forUpdate, () => forUpdate finish
  | _, _, .caseLabel, () => caseLabel finish
  | _, _, .statement, (around, id) => statement finish around id
  | _, _, .block, (around, id) => block finish around id
  | _, _, .statements, (around, stop, done, id) => statements finish around stop done id
  | _, _, .conditional, (around, id) => conditional finish around id
  | _, _, .whileLoop, id => whileLoop finish id
  | _, _, .forLoop, id => forLoop finish id
  | _, _, .switch, (around, id) => switch finish around id
  | _, _, .arms, (around, done, id) => arms finish around done id
  | _, _, .caseBody, (around, id) => caseBody finish around id
  | _, _, .moreParameters, done => moreParameters finish done
  | _, _, .parameters, () => parameters finish
  | _, _, .methodRest, header => methodRest header
  | _, _, .mainMethod, (p, access, id) => mainMethod finish p access id
  | _, _, .initialValue, () => initialValue
  | _, _, .typedMember, (p, access, done, id) => typedMember finish p access done id
  | _, _, .constructorMember, (p, className, access, done, id) =>
    constructorMember finish p className access done id
  | _, _, .member, (className, done, id) => member finish className done id
  | _, _, .members, (className, done, id) => members finish className done id
  | _, _, .supertype, (word, what) => supertype word what
  | _, _, .classRest, (p, id) => classRest finish p id
  | _, _, .interfaceMethods, (done, id) => interfaceMethods finish done id
  | _, _, .interfaceRest, (p, id) => interfaceRest finish p id
  | _, _, .typeDeclarationRest, (p, id) => typeDeclarationRest finish p id
  | _, _, .typeDeclaration, id => typeDeclaration finish id
  | _, _, .declarations, (done, id) => declarations done id

/-- Reading a program is reading its declarations; the next free number is not needed any more. -/
def program : Script Program := do
  let (program, _) ← ask .declarations ([], 0)
  return program

end Script

end Javelet.Grammar
