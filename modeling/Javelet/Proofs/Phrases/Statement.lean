import Javelet.Grammar.Statement
import Javelet.Proofs.Phrases.Expression

/-!
# Phrases that spell statements

The grammar of statements stands on that of expressions. An `else` belongs to the nearest `if`
that can still have one: the body in front of an `else` does not end in a conditional without one.
What surrounds a statement is an index of the grammar, so that jumps stand only where they have a
target.

Neither positions nor numbers of nodes are told: all of them are the same in the trees that are
spelled.
-/
namespace Javelet.Grammar

/-- A phrase that may be missing. -/
inductive SpellsOptional {α : Type} (Phrase : List Token → α → Prop) :
    List Token → Option α → Prop
  | none : SpellsOptional Phrase [] .none
  | some {ts : List Token} {value : α} : Phrase ts value → SpellsOptional Phrase ts (.some value)

/-- A type name, perhaps with brackets. -/
inductive SpellsType : List Token → Ty → Prop
  | plain {t : Token} {name : String} : SpellsTypeName t name → SpellsType [t] ⟨name, false⟩
  | array {t opening closing : Token} {name : String} : SpellsTypeName t name →
      opening.kind = .symbol .leftBracket → closing.kind = .symbol .rightBracket →
      SpellsType [t, opening, closing] ⟨name, true⟩

/-- A value behind an equals sign. -/
inductive SpellsValue : List Token → Expr → Prop
  | mk {sign : Token} {ts : List Token} {e : Expr} : sign.kind = .symbol .assign →
      SpellsExpr ts e → SpellsValue (sign :: ts) e

/-- A variable with its type and perhaps a value. -/
inductive SpellsVariable : List Token → Variable → Prop
  | mk {ts vs : List Token} {type : Ty} {t : Token} {value : Option Expr} : SpellsType ts type →
      t.kind = .identifier → SpellsOptional SpellsValue vs value →
      SpellsVariable (ts ++ t :: vs) ⟨.start, type, t.text, value⟩

/-! ## Assignments and calls -/

/-- The symbols of the assignment operators. -/
inductive WritesAssign : Symbol → AssignOp → Prop
  | plain : WritesAssign .assign .plain
  | add : WritesAssign .plusAssign (.compound .add)
  | sub : WritesAssign .minusAssign (.compound .sub)
  | mul : WritesAssign .starAssign (.compound .mul)
  | div : WritesAssign .slashAssign (.compound .div)
  | rem : WritesAssign .percentAssign (.compound .rem)

/-- Chains that denote a place: their last step names a variable or a field, or is an index. -/
inductive Place : Chain → Prop
  | variable_ {p : Position} {name : String} : Place (.mk (.name p name) [])
  | field {head : Head} {links : List Link} {p : Position} {name : String} :
      Place (.mk head (links ++ [.field p name]))
  | index {head : Head} {links : List Link} {p : Position} {e : Expr} :
      Place (.mk head (links ++ [.index p e]))

/-- Chains whose last step is a call. -/
inductive Calls : Chain → Prop
  | head {p : Position} {name : String} {args : List Expr} : Calls (.mk (.call p name args) [])
  | link {head : Head} {links : List Link} {p : Position} {name : String} {args : List Expr} :
      Calls (.mk head (links ++ [.call p name args]))

inductive SpellsAssignment : List Token → Assignment → Prop
  | mk {ts vs : List Token} {target : Chain} {sign : Token} {s : Symbol} {op : AssignOp}
      {value : Expr} : SpellsChain ts target → Place target → sign.kind = .symbol s →
      WritesAssign s op → SpellsExpr vs value →
      SpellsAssignment (ts ++ sign :: vs) ⟨op, target, value⟩

inductive SpellsAction : List Token → Action → Prop
  | assignment {ts : List Token} {a : Assignment} : SpellsAssignment ts a →
      SpellsAction ts (.assignment a)
  | call {ts : List Token} {c : Chain} : SpellsChain ts c → Calls c → SpellsAction ts (.call c)

/-! ## Parts of statements -/

/-- An expression in parentheses. -/
inductive SpellsCondition : List Token → Expr → Prop
  | mk {opening closing : Token} {ts : List Token} {e : Expr} :
      opening.kind = .symbol .leftParen → SpellsExpr ts e →
      closing.kind = .symbol .rightParen → SpellsCondition (opening :: (ts ++ [closing])) e

/-- What a for loop starts with. -/
inductive SpellsForInit : List Token → ForInit → Prop
  | declaration {ts : List Token} {v : Variable} : SpellsVariable ts v →
      SpellsForInit ts (.declaration v)
  | assignment {ts : List Token} {a : Assignment} : SpellsAssignment ts a →
      SpellsForInit ts (.assignment a)

/-- Labels are integers, characters and booleans. -/
inductive LabelValue : Literal → Prop
  | int {value : Int32} : LabelValue (.int value)
  | char {value : Char} : LabelValue (.char value)
  | boolean {value : Bool} : LabelValue (.boolean value)

/-- A jump that fits its surroundings. -/
inductive SpellsJump (around : Surroundings) : List Token → Jump → Prop
  | return_ {word : Token} {ts : List Token} {value : Option Expr} : word.isKeyword "return" →
      SpellsOptional SpellsExpr ts value → SpellsJump around (word :: ts) (.return_ value)
  | break_ {word : Token} : word.isKeyword "break" → around.breakable = true →
      SpellsJump around [word] .break_
  | continue_ {word : Token} : word.isKeyword "continue" → around.loop = true →
      SpellsJump around [word] .continue_

end Javelet.Grammar

namespace Javelet

/-- Statements that end in a conditional without an `else`, so that one may still follow. -/
def Statement.isOpen : Statement → Bool
  | .conditional _ _ _ none => true
  | .conditional _ _ _ (some otherwise) => otherwise.isOpen
  | .whileLoop _ _ body => body.isOpen
  | .forLoop _ _ _ _ _ body => body.isOpen
  | _ => false

end Javelet

namespace Javelet.Grammar

/-! ## Statements -/

mutual

inductive SpellsStatement : Surroundings → List Token → Statement → Prop
  | block {around : Surroundings} {ts : List Token} {body : Block} : SpellsBlock around ts body →
      SpellsStatement around ts (.block body)
  | conditional {around : Surroundings} {word : Token} {cs ts : List Token} {test : Expr}
      {body : Statement} : word.isKeyword "if" → SpellsCondition cs test →
      SpellsStatement around ts body →
      SpellsStatement around (word :: (cs ++ ts)) (.conditional .start test body none)
  | alternative {around : Surroundings} {word else_ : Token} {cs ts us : List Token} {test : Expr}
      {body otherwise : Statement} : word.isKeyword "if" → SpellsCondition cs test →
      SpellsStatement around ts body → body.isOpen = false → else_.isKeyword "else" →
      SpellsStatement around us otherwise →
      SpellsStatement around (word :: (cs ++ (ts ++ else_ :: us)))
        (.conditional .start test body (some otherwise))
  | whileLoop {around : Surroundings} {word : Token} {cs ts : List Token} {test : Expr}
      {body : Statement} : word.isKeyword "while" → SpellsCondition cs test →
      SpellsStatement .inLoop ts body →
      SpellsStatement around (word :: (cs ++ ts)) (.whileLoop .start test body)
  | forLoop {around : Surroundings} {word opening first second closing : Token}
      {is cs us ts : List Token} {init : Option ForInit} {test : Option Expr}
      {update : Option Action} {body : Statement} : word.isKeyword "for" →
      opening.kind = .symbol .leftParen → SpellsOptional SpellsForInit is init →
      first.kind = .symbol .semicolon → SpellsOptional SpellsExpr cs test →
      second.kind = .symbol .semicolon → SpellsOptional SpellsAction us update →
      closing.kind = .symbol .rightParen → SpellsStatement .inLoop ts body →
      SpellsStatement around
        (word :: opening :: (is ++ first :: (cs ++ second :: (us ++ closing :: ts))))
        (.forLoop .start 0 init test update body)
  | switch {around : Surroundings} {word opening closing : Token} {cs ts : List Token}
      {selector : Expr} {cases : List Case} {default_ : Option Block} : word.isKeyword "switch" →
      SpellsCondition cs selector → opening.kind = .symbol .leftBrace →
      SpellsArms around.inSwitch ts cases default_ → closing.kind = .symbol .rightBrace →
      SpellsStatement around (word :: (cs ++ opening :: (ts ++ [closing])))
        (.switch .start 0 selector cases default_)
  | jump {around : Surroundings} {ts : List Token} {semicolon : Token} {j : Jump} :
      SpellsJump around ts j → semicolon.kind = .symbol .semicolon →
      SpellsStatement around (ts ++ [semicolon]) (.jump .start j)
  | declaration {around : Surroundings} {ts : List Token} {semicolon : Token} {v : Variable} :
      SpellsVariable ts v → semicolon.kind = .symbol .semicolon →
      SpellsStatement around (ts ++ [semicolon]) (.declaration v)
  | action {around : Surroundings} {ts : List Token} {semicolon : Token} {a : Action} :
      SpellsAction ts a → semicolon.kind = .symbol .semicolon →
      SpellsStatement around (ts ++ [semicolon]) (.action a)

inductive SpellsBlock : Surroundings → List Token → Block → Prop
  | mk {around : Surroundings} {opening closing : Token} {ts : List Token} {ss : List Statement} :
      opening.kind = .symbol .leftBrace → SpellsStatements around ts ss →
      closing.kind = .symbol .rightBrace →
      SpellsBlock around (opening :: (ts ++ [closing])) (.mk 0 .start ss)

inductive SpellsStatements : Surroundings → List Token → List Statement → Prop
  | nil {around : Surroundings} : SpellsStatements around [] []
  | cons {around : Surroundings} {ts rest : List Token} {s : Statement} {ss : List Statement} :
      SpellsStatement around ts s → SpellsStatements around rest ss →
      SpellsStatements around (ts ++ rest) (s :: ss)

/-- The arms of a switch. The default arm stands anywhere among the cases, and only once. -/
inductive SpellsArms : Surroundings → List Token → List Case → Option Block → Prop
  | nil {around : Surroundings} : SpellsArms around [] [] none
  | case {around : Surroundings} {word colon : Token} {ls ts rest : List Token} {label : Literal}
      {ss : List Statement} {cases : List Case} {default_ : Option Block} :
      word.isKeyword "case" → SpellsLiteral ls label → LabelValue label →
      colon.kind = .symbol .colon → SpellsStatements around ts ss →
      SpellsArms around rest cases default_ →
      SpellsArms around (word :: (ls ++ colon :: (ts ++ rest)))
        (.mk .start .start label (.mk 0 .start ss) :: cases) default_
  | default_ {around : Surroundings} {word colon : Token} {ts rest : List Token}
      {ss : List Statement} {cases : List Case} : word.isKeyword "default" →
      colon.kind = .symbol .colon → SpellsStatements around ts ss →
      SpellsArms around rest cases none →
      SpellsArms around (word :: colon :: (ts ++ rest)) cases (some (.mk 0 .start ss))

end

end Javelet.Grammar
