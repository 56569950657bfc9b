import Javelet.Syntax.Expr
import Javelet.Syntax.Ty

/-!
# Statements

Every node that opens a scope or reserves a slot carries a number by which later
stages find it again.
-/
namespace Javelet

/-- The number of a node. -/
abbrev NodeId := Nat

/-- Assignment operators: plain, or combined with an arithmetic operator. -/
inductive AssignOp where
  | plain
  | compound (op : Arithmetic)
  deriving DecidableEq, Repr

def AssignOp.text : AssignOp → String
  | plain => "="
  | compound op => (BinaryOp.arithmetic op).text ++ "="

def AssignOp.arithmetic? : AssignOp → Option Arithmetic
  | plain => none
  | compound op => some op

/-- An assignment to a variable, a field or an array element. -/
structure Assignment where
  op : AssignOp
  target : Chain
  value : Expr

/-- A variable with its type and perhaps an initial value. -/
structure Variable where
  position : Position
  type : Ty
  name : String
  value : Option Expr

/-- The initializer of a for loop. Only a declaration opens a scope for the loop. -/
inductive ForInit where
  | declaration (variable_ : Variable)
  | assignment (assignment : Assignment)

/-- Statements that stand on their own line or update a for loop. -/
inductive Action where
  | assignment (assignment : Assignment)
  | call (chain : Chain)

/-- An action stands where its chain stands. -/
def Action.position : Action → Position
  | assignment a => a.target.position
  | call chain => chain.position

/-- Statements that leave the current flow. -/
inductive Jump where
  | return_ (value : Option Expr)
  | break_
  | continue_

mutual

/-- A statement. -/
inductive Statement where
  | block (body : Block)
  | conditional (position : Position) (condition : Expr) (body : Statement)
      (otherwise : Option Statement)
  | whileLoop (position : Position) (condition : Expr) (body : Statement)
  | forLoop (position : Position) (id : NodeId) (init : Option ForInit)
      (condition : Option Expr) (update : Option Action) (body : Statement)
  | switch (position : Position) (id : NodeId) (selector : Expr) (cases : List Case)
      (default_ : Option Block)
  | jump (position : Position) (jump : Jump)
  | action (action : Action)
  | declaration (variable_ : Variable)

/-- Statements with a scope of their own. -/
inductive Block where
  | mk (id : NodeId) (position : Position) (statements : List Statement)

/-- A labelled part of a switch. The label is an integer, a character or a boolean. -/
inductive Case where
  | mk (position : Position) (labelPosition : Position) (label : Literal) (body : Block)

end

namespace Block

def id : Block → NodeId
  | mk id _ _ => id

def position : Block → Position
  | mk _ p _ => p

def statements : Block → List Statement
  | mk _ _ ss => ss

end Block

namespace Case

def position : Case → Position
  | mk p _ _ _ => p

def label : Case → Literal
  | mk _ _ label _ => label

/-- The label as an expression. -/
def labelExpr : Case → Expr
  | mk _ p label _ => .literal p label

def body : Case → Block
  | mk _ _ _ body => body

end Case

namespace Statement

def position : Statement → Position
  | block body => body.position
  | conditional p _ _ _ => p
  | whileLoop p _ _ => p
  | forLoop p _ _ _ _ _ => p
  | switch p _ _ _ _ => p
  | jump p _ => p
  | action a => a.position
  | declaration v => v.position

def isConditional : Statement → Bool
  | conditional .. => true
  | _ => false

end Statement

end Javelet
