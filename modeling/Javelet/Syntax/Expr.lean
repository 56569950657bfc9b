import Javelet.Position

/-!
# Expressions

Literals, binary operations, access chains and creations. An access chain such as
`this.items[i].name()` is a head with a list of links; each link works on what the
chain before it denotes.
-/
namespace Javelet

/-- Literal values. -/
inductive Literal where
  | int (value : Int32)
  | char (value : Char)
  | boolean (value : Bool)
  | string (value : String)
  | null
  deriving DecidableEq

inductive Arithmetic where
  | add | sub | mul | div | rem
  deriving DecidableEq, Repr

inductive Relation where
  | less | greater | lessEqual | greaterEqual | equal | notEqual
  deriving DecidableEq, Repr

inductive Connective where
  | and | or
  deriving DecidableEq, Repr

/-- Binary operators. -/
inductive BinaryOp where
  | arithmetic (op : Arithmetic)
  | relation (op : Relation)
  | connective (op : Connective)
  deriving DecidableEq, Repr

namespace BinaryOp

/-- An operator as it is written. -/
def text : BinaryOp → String
  | arithmetic .add => "+"
  | arithmetic .sub => "-"
  | arithmetic .mul => "*"
  | arithmetic .div => "/"
  | arithmetic .rem => "%"
  | relation .less => "<"
  | relation .greater => ">"
  | relation .lessEqual => "<="
  | relation .greaterEqual => ">="
  | relation .equal => "=="
  | relation .notEqual => "!="
  | connective .and => "&&"
  | connective .or => "||"

def arithmetic? : BinaryOp → Option Arithmetic
  | arithmetic op => some op
  | _ => none

def relation? : BinaryOp → Option Relation
  | relation op => some op
  | _ => none

def isArithmetic (op : BinaryOp) : Bool := op.arithmetic?.isSome

def isRelation (op : BinaryOp) : Bool := op.relation?.isSome

def isConnective : BinaryOp → Bool
  | connective _ => true
  | _ => false

end BinaryOp

mutual

/-- An expression. -/
inductive Expr where
  | literal (position : Position) (value : Literal)
  | binary (op : BinaryOp) (left right : Expr)
  | access (chain : Chain)
  | newObject (position : Position) (className : String) (args : List Expr)
  | newArray (position : Position) (element : String) (length : Expr)

/-- An access chain. -/
inductive Chain where
  | mk (head : Head) (links : List Link)

/-- The start of an access chain. -/
inductive Head where
  | this (position : Position)
  | name (position : Position) (name : String)
  | call (position : Position) (name : String) (args : List Expr)

/-- A later step of an access chain. -/
inductive Link where
  | field (position : Position) (name : String)
  | call (position : Position) (name : String) (args : List Expr)
  | index (position : Position) (index : Expr)

end

def Head.position : Head → Position
  | this p => p
  | name p _ => p
  | call p _ _ => p

def Link.position : Link → Position
  | field p _ => p
  | call p _ _ => p
  | index p _ => p

namespace Chain

def head : Chain → Head
  | mk h _ => h

def links : Chain → List Link
  | mk _ ls => ls

/-- A chain stands where its head stands. -/
def position (c : Chain) : Position := c.head.position

/-- Whether the last step of a chain is a call. -/
def isCall (c : Chain) : Bool :=
  match c.links.getLast?, c.head with
  | some (.call ..), _ => true
  | some _, _ => false
  | none, .call .. => true
  | none, _ => false

/-- Whether the last step of a chain names a place that can be assigned to: a variable,
a field or an array element. -/
def isAssignable (c : Chain) : Bool :=
  match c.links.getLast?, c.head with
  | some (.call ..), _ => false
  | some _, _ => true
  | none, .name .. => true
  | none, _ => false

end Chain

namespace Expr

/-- An operation stands where its left operand stands. -/
def position : Expr → Position
  | literal p _ => p
  | binary _ left _ => left.position
  | access chain => chain.position
  | newObject p _ _ => p
  | newArray p _ _ => p

def isLiteral : Expr → Bool
  | literal _ _ => true
  | _ => false

end Expr

end Javelet
