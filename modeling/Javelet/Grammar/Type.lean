import Javelet.Grammar.Parsed
import Javelet.Syntax.Ty

/-!
# Reading types
-/
namespace Javelet.Grammar

/-- Keywords that name a type. -/
def primitiveTypes : List String := ["int", "char", "boolean"]

/-- Whether a token names a type. -/
def isTypeName (t : Token) : Bool :=
  t.kind == .identifier || (t.kind == .keyword && primitiveTypes.contains t.text)

/-- Read a type name without brackets. -/
def typeName (finish : Position) (what : String) (ts : List Token) : Outcome String ts.length :=
  match accept isTypeName ts with
  | some ⟨t, rest, h⟩ => .ok ⟨t.text, rest, h⟩
  | none => refuse finish .expectedType what none ts

/-- Read a type. -/
def type (finish : Position) (ts : List Token) : Outcome Ty ts.length := do
  let ⟨name, rest, h⟩ ← typeName finish "Expected type" ts
  match acceptSymbol .leftBracket rest with
  | none => .ok ⟨⟨name, false⟩, rest, h⟩
  | some ⟨_, rest, h'⟩ =>
    let ⟨_, rest, h⟩ ← within (shorter_trans h' h)
      (expectSymbol finish .rightBracket "Expected ']' in array type" rest)
    .ok ⟨⟨name, true⟩, rest, h⟩

/-- Read a type or `void`. -/
def returnType (finish : Position) (ts : List Token) : Outcome Ty ts.length :=
  match acceptKeyword "void" ts with
  | some ⟨_, rest, h⟩ => .ok ⟨.void, rest, h⟩
  | none => type finish ts

/-- Whether a variable declaration starts here. The name of a primitive type always
starts one; an identifier does if an identifier or `[]` follows. -/
def atDeclaration (ts : List Token) : Bool :=
  match ts with
  | [] => false
  | t :: rest =>
    if t.kind = .keyword then primitiveTypes.contains t.text
    else if t.kind = .identifier then
      (rest.head?.any fun u => u.kind == .identifier) ||
        (atSymbol .leftBracket rest && atSymbol .rightBracket rest.tail)
    else false

/-- Read an access modifier, if there is one. -/
def accessModifier (ts : List Token) : Parsed (Option Access) (ts.length + 1) :=
  match accept (fun t => t.kind == .keyword && (Access.ofKeyword? t.text).isSome) ts with
  | some p => Parsed.optional ⟨Access.ofKeyword? p.value.text, p.rest, p.shorter⟩
  | none => ⟨none, ts, shorter_succ ts⟩

end Javelet.Grammar
