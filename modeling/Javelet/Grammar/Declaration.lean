import Javelet.Grammar.Statement
import Javelet.Syntax.Declaration

/-!
# Reading declarations

A program is a list of classes and interfaces. The only static member is the entry point
`public static void main(String[] args)`.
-/
namespace Javelet.Grammar

/-- Read at least one parameter and the closing parenthesis; `done` holds the earlier
parameters, latest first. -/
def moreParameters (finish : Position) (bound : Nat) (done : List Parameter) (ts : List Token)
    (h : ts.length < bound) : Outcome (List Parameter) bound := do
  let p := here finish ts
  let ⟨type, rest, h'⟩ ← type finish ts
  let ⟨name, rest, h'⟩ ← within h' (expectName finish "Expected parameter name" rest)
  match (acceptSymbol .comma rest).map (Parsed.within h') with
  | some ⟨_, rest, h'⟩ =>
    moreParameters finish bound (⟨p, type, name⟩ :: done) rest (shorter_bound h' h)
  | none =>
    let ⟨_, rest, h'⟩ ← within h'
      (expectSymbol finish .rightParen "Expected ')' after parameters" rest)
    .ok ⟨(⟨p, type, name⟩ :: done).reverse, rest, shorter_bound h' h⟩
termination_by ts.length
decreasing_by omega

/-- Read a parenthesized list of parameters. -/
def parameters (finish : Position) (ts : List Token) : Outcome (List Parameter) ts.length := do
  let ⟨_, rest, h⟩ ← expectSymbol finish .leftParen "Expected '(' before parameters" ts
  match acceptSymbol .rightParen rest with
  | some ⟨_, rest, h'⟩ => .ok ⟨[], rest, shorter_trans h' h⟩
  | none => moreParameters finish ts.length [] rest h

/-- Read parameters and body of a method whose header is otherwise known. -/
def methodRest (finish : Position) (header : Signature) (ts : List Token) :
    Outcome (Method × NodeId) ts.length := do
  let ⟨params, rest, h⟩ ← parameters finish ts
  let ⟨(body, next), rest, h⟩ ← within h (block finish .none (header.id + 1) rest)
  .ok ⟨(⟨{ header with params := params }, body⟩, next), rest, h⟩

/-- Read the entry point behind `static`. The member starts at `p` with the given access
modifier. -/
def mainMethod (finish p : Position) (access : Option Access) (id : NodeId) (ts : List Token) :
    Outcome (Method × NodeId) ts.length := do
  if access.any (· != .public_) then .error ⟨.badMain .notPublic, p⟩
  match acceptKeyword "void" ts with
  | none => .error ⟨.badMain .notVoid, here finish ts⟩
  | some ⟨_, rest, h⟩ =>
    match accept (fun t => t.kind == .identifier && t.text == "main") rest with
    | none => .error ⟨.badMain .notMain, here finish rest⟩
    | some ⟨_, rest, h'⟩ =>
      let at_ := here finish rest
      let ⟨params, rest, h⟩ ← within (shorter_trans h' h) (parameters finish rest)
      if params.map Parameter.type ≠ [⟨"String", true⟩] then
        .error ⟨.badMain .parameters, at_⟩
      let ⟨(body, next), rest, h⟩ ← within h (block finish .none (id + 1) rest)
      .ok ⟨(⟨⟨id, .main, .public_, .void, "main", params, p⟩, body⟩, next), rest, h⟩

/-- The members of a class read so far, latest first. -/
structure Members where
  properties : List Property
  constructors : List Method
  methods : List Method
  main : Option Method

/-- Whether a constructor of the class starts here. -/
def atConstructor (className : String) (ts : List Token) : Bool :=
  (ts.head?.any fun t => t.kind == .identifier && t.text == className) &&
    atSymbol .leftParen ts.tail

/-- Read the initial value of a property, if there is one. -/
def initialValue (finish : Position) (ts : List Token) :
    Outcome (Option Expr) (ts.length + 1) :=
  match acceptSymbol .assign ts with
  | some ⟨_, rest, h⟩ => do
    let parsed ← within h (expression finish rest)
    .ok (Parsed.optional ⟨some parsed.value, parsed.rest, parsed.shorter⟩)
  | none => .ok ⟨none, ts, shorter_succ ts⟩

/-- Read a property or a method behind its modifier. The member starts at `p`. -/
def typedMember (finish p : Position) (access : Access) (done : Members) (id : NodeId)
    (ts : List Token) : Outcome (Members × NodeId) ts.length := do
  let ⟨type, rest, h⟩ ← returnType finish ts
  let ⟨name, rest, h⟩ ← within h (expectName finish "Expected member name" rest)
  if atSymbol .leftParen rest then
    let ⟨(method, next), rest, h⟩ ← within h
      (methodRest finish ⟨id, .method, access, type, name, [], p⟩ rest)
    .ok ⟨({ done with methods := method :: done.methods }, next), rest, h⟩
  else if type.isVoid then
    refuse finish .unexpectedToken "Expected '(' after method name" none rest
  else
    let ⟨value, rest, h⟩ ← optionalWithin h (initialValue finish rest)
    let ⟨_, rest, h⟩ ← within h
      (expectSymbol finish .semicolon "Expected ';' after property declaration" rest)
    let property : Property := ⟨access, ⟨p, type, name, value⟩⟩
    .ok ⟨({ done with properties := property :: done.properties }, id), rest, h⟩

/-- Read a constructor behind its modifier. The member starts at `p`. -/
def constructorMember (finish p : Position) (className : String) (access : Access)
    (done : Members) (id : NodeId) (ts : List Token) : Outcome (Members × NodeId) ts.length := do
  let ⟨_, rest, h⟩ ← expectName finish "Expected member name" ts
  let ⟨(method, next), rest, h⟩ ← within h
    (methodRest finish ⟨id, .constructor, access, .void, className, [], p⟩ rest)
  .ok ⟨({ done with constructors := method :: done.constructors }, next), rest, h⟩

/-- Read one member of the class `className`. -/
def member (finish : Position) (className : String) (done : Members) (id : NodeId)
    (ts : List Token) : Outcome (Members × NodeId) ts.length := do
  let p := here finish ts
  let ⟨access, rest, h⟩ := accessModifier ts
  match acceptKeyword "static" rest with
  | some ⟨_, more, h'⟩ =>
    let ⟨(main, next), rest, h⟩ ← behind h
      (within h' (mainMethod finish p access id more))
    if done.main.isSome then .error ⟨.duplicateMain className, p⟩
    .ok ⟨({ done with main := some main }, next), rest, h⟩
  | none =>
    if atConstructor className rest then
      behind h (constructorMember finish p className (access.getD .public_) done id rest)
    else behind h (typedMember finish p (access.getD .public_) done id rest)

/-- Read the members of a class and its closing brace. -/
def members (finish : Position) (className : String) (bound : Nat) (done : Members) (id : NodeId)
    (ts : List Token) (h : ts.length < bound) : Outcome (Members × NodeId) bound :=
  match acceptSymbol .rightBrace ts with
  | some ⟨_, rest, h'⟩ => .ok ⟨(done, id), rest, shorter_bound h' h⟩
  | none =>
    if ts.isEmpty then refuse finish .unexpectedToken "Expected '\x7d'" none ts
    else do
      let ⟨(done, next), rest, h'⟩ ← member finish className done id ts
      members finish className bound done next rest (shorter_bound h' h)
termination_by ts.length
decreasing_by omega

/-- Read an optional supertype behind a keyword. -/
def supertype (finish : Position) (word what : String) (ts : List Token) :
    Outcome (Option String) (ts.length + 1) :=
  match acceptKeyword word ts with
  | some ⟨_, rest, h⟩ => do
    let parsed ← within h (typeName finish what rest)
    .ok (Parsed.optional ⟨some parsed.value, parsed.rest, parsed.shorter⟩)
  | none => .ok ⟨none, ts, shorter_succ ts⟩

/-- Read a class behind its keyword. -/
def classRest (finish p : Position) (id : NodeId) (ts : List Token) :
    Outcome (ClassDecl × NodeId) ts.length := do
  let ⟨name, rest, h⟩ ← expectName finish "Expected class name" ts
  let ⟨superclass, rest, h⟩ ← optionalWithin h
    (supertype finish "extends" "Expected superclass name" rest)
  let ⟨interface, rest, h⟩ ← optionalWithin h
    (supertype finish "implements" "Expected interface name" rest)
  let ⟨_, rest, h⟩ ← within h
    (expectSymbol finish .leftBrace "Expected '\x7b' after class header" rest)
  let ⟨(found, next), rest, h⟩ ←
    members finish name ts.length ⟨[], [], [], none⟩ (id + 1) rest h
  .ok ⟨(⟨id, name, superclass, interface, found.properties.reverse, found.constructors.reverse,
    found.methods.reverse, found.main, p⟩, next), rest, h⟩

/-- Read the methods of an interface and its closing brace; `done` holds the earlier
ones, latest first. -/
def interfaceMethods (finish : Position) (bound : Nat) (done : List Signature) (id : NodeId)
    (ts : List Token) (h : ts.length < bound) : Outcome (List Signature × NodeId) bound :=
  match acceptSymbol .rightBrace ts with
  | some ⟨_, rest, h'⟩ => .ok ⟨(done.reverse, id), rest, shorter_bound h' h⟩
  | none => do
    let p := here finish ts
    let ⟨access, rest, h'⟩ := accessModifier ts
    let ⟨type, rest, h'⟩ ← behind h' (returnType finish rest)
    let ⟨name, rest, h'⟩ ← within h' (expectName finish "Expected method name" rest)
    let ⟨params, rest, h'⟩ ← within h' (parameters finish rest)
    let ⟨_, rest, h'⟩ ← within h'
      (expectSymbol finish .semicolon "Expected ';' after interface method" rest)
    let header : Signature := ⟨id, .method, access.getD .public_, type, name, params, p⟩
    interfaceMethods finish bound (header :: done) (id + 1) rest (shorter_bound h' h)
termination_by ts.length
decreasing_by omega

/-- Read an interface behind its keyword. -/
def interfaceRest (finish p : Position) (id : NodeId) (ts : List Token) :
    Outcome (InterfaceDecl × NodeId) ts.length := do
  let ⟨name, rest, h⟩ ← expectName finish "Expected interface name" ts
  let ⟨_, rest, h⟩ ← within h
    (expectSymbol finish .leftBrace "Expected '\x7b' after interface name" rest)
  let ⟨(methods, next), rest, h⟩ ← interfaceMethods finish ts.length [] (id + 1) rest h
  .ok ⟨(⟨id, name, methods, p⟩, next), rest, h⟩

/-- Read a class or an interface behind an optional `public`; it stands at `p`. -/
def typeDeclarationRest (finish p : Position) (id : NodeId) (ts : List Token) :
    Outcome (TypeDecl × NodeId) ts.length :=
  match acceptKeyword "class" ts with
  | some ⟨_, rest, h⟩ => do
    let ⟨(decl, next), rest, h⟩ ← within h (classRest finish p id rest)
    .ok ⟨(.class_ decl, next), rest, h⟩
  | none =>
    match acceptKeyword "interface" ts with
    | some ⟨_, rest, h⟩ => do
      let ⟨(decl, next), rest, h⟩ ← within h (interfaceRest finish p id rest)
      .ok ⟨(.interface decl, next), rest, h⟩
    | none => refuse finish .unexpectedToken "Expected 'class' or 'interface'" none ts

/-- Read a declaration of a type. -/
def typeDeclaration (finish : Position) (id : NodeId) (ts : List Token) :
    Outcome (TypeDecl × NodeId) ts.length :=
  let p := here finish ts
  match acceptKeyword "public" ts with
  | some ⟨_, rest, h⟩ => within h (typeDeclarationRest finish p id rest)
  | none => typeDeclarationRest finish p id ts

/-- Read declarations up to the end; `done` holds the earlier ones, latest first. -/
def declarations (finish : Position) (done : List TypeDecl) (id : NodeId) (ts : List Token) :
    Except (Located Fault) (Program × NodeId) :=
  if ts.isEmpty then .ok (⟨done.reverse⟩, id)
  else do
    let ⟨(decl, next), rest, _⟩ ← typeDeclaration finish id ts
    declarations finish (decl :: done) next rest
termination_by ts.length
decreasing_by omega

end Javelet.Grammar

namespace Javelet

/-- The program that a token list spells. -/
def parse (ts : List Token) : Except (Located Grammar.Fault) Program := do
  let (program, _) ← Grammar.declarations (Grammar.finishOf ts) [] 0 ts
  return program

end Javelet
