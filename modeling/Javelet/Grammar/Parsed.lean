import Javelet.Grammar.Fault

/-!
# Reading tokens

A reader takes a value off the front of a token list. Its result carries the proof that
fewer tokens are left than a bound, so that readers which call each other end because the
list gets shorter. A bound of the length itself says that at least one token was used; a
bound one above it, that none was added.
-/
namespace Javelet.Grammar

/-- A value and the tokens behind it, fewer than `bound`. -/
structure Parsed (α : Type) (bound : Nat) where
  value : α
  rest : List Token
  shorter : rest.length < bound

/-- The outcome of a reader. -/
abbrev Outcome (α : Type) (bound : Nat) := Except (Located Fault) (Parsed α bound)

theorem shorter_cons (t : Token) (ts : List Token) : ts.length < (t :: ts).length :=
  Nat.lt_succ_self ts.length

theorem shorter_succ (ts : List Token) : ts.length < ts.length + 1 :=
  Nat.lt_succ_self ts.length

theorem shorter_trans {ts more rest : List Token} (h : rest.length < more.length)
    (h' : more.length < ts.length) : rest.length < ts.length :=
  Nat.lt_trans h h'

theorem shorter_bound {bound : Nat} {ts rest : List Token} (h : rest.length < ts.length)
    (h' : ts.length < bound) : rest.length < bound :=
  Nat.lt_trans h h'

namespace Parsed

variable {α : Type} {bound : Nat} {ts : List Token}

/-- What was read from a list that is itself below a bound leaves fewer tokens than the
bound. -/
def within (h : ts.length < bound) (p : Parsed α ts.length) : Parsed α bound :=
  ⟨p.value, p.rest, Nat.lt_trans p.shorter h⟩

/-- The same of a part that may be missing. -/
def optionalWithin (h : ts.length < bound) (p : Parsed α (ts.length + 1)) : Parsed α bound :=
  ⟨p.value, p.rest, Nat.lt_of_le_of_lt (Nat.le_of_lt_succ p.shorter) h⟩

/-- What was read behind a part that may be missing leaves fewer tokens than there were. -/
def behind {rest : List Token} (h : rest.length < ts.length + 1) (p : Parsed α rest.length) :
    Parsed α ts.length :=
  ⟨p.value, p.rest, Nat.lt_of_lt_of_le p.shorter (Nat.le_of_lt_succ h)⟩

/-- What was read used up a token, so it also adds none. -/
def optional (p : Parsed α ts.length) : Parsed α (ts.length + 1) :=
  ⟨p.value, p.rest, Nat.lt_succ_of_lt p.shorter⟩

end Parsed

/-- Read on behind other tokens: the outcome counts from the bound that holds in front. -/
def within {α : Type} {bound : Nat} {ts : List Token} (h : ts.length < bound)
    (o : Outcome α ts.length) : Outcome α bound :=
  o.map (Parsed.within h)

/-- Read on behind other tokens a part that may be missing. -/
def optionalWithin {α : Type} {bound : Nat} {ts : List Token} (h : ts.length < bound)
    (o : Outcome α (ts.length + 1)) : Outcome α bound :=
  o.map (Parsed.optionalWithin h)

/-- Read on behind a part that may be missing. -/
def behind {α : Type} {ts rest : List Token} (h : rest.length < ts.length + 1)
    (o : Outcome α rest.length) : Outcome α ts.length :=
  o.map (Parsed.behind h)

/-- Where the first token stands; at the end, the given position. -/
def here (finish : Position) (ts : List Token) : Position :=
  (ts.head?.map Token.position).getD finish

/-- The position that stands for the end of a token list: that of its last token. -/
def finishOf (ts : List Token) : Position := (ts.getLast?.map Token.position).getD .start

/-- Refuse the first token. -/
def refuse {α : Type} {bound : Nat} (finish : Position) (code : Code) (what : String)
    (hint : Option String) (ts : List Token) : Outcome α bound :=
  .error ⟨.expected code what hint ts.head?, here finish ts⟩

/-- Whether the first token is the symbol. -/
def atSymbol (s : Symbol) (ts : List Token) : Bool :=
  ts.head?.any fun t => t.kind == .symbol s

/-- Whether the first token is the keyword. -/
def atKeyword (word : String) (ts : List Token) : Bool :=
  ts.head?.any fun t => t.isKeyword word

/-- Use up the first token if it passes a test. -/
def accept (test : Token → Bool) (ts : List Token) : Option (Parsed Token ts.length) :=
  match ts with
  | [] => none
  | t :: rest => if test t then some ⟨t, rest, shorter_cons t rest⟩ else none

def acceptSymbol (s : Symbol) (ts : List Token) : Option (Parsed Token ts.length) :=
  accept (fun t => t.kind == .symbol s) ts

def acceptKeyword (word : String) (ts : List Token) : Option (Parsed Token ts.length) :=
  accept (fun t => t.isKeyword word) ts

/-- Use up the given symbol, which must be there. -/
def expectSymbol (finish : Position) (s : Symbol) (what : String) (ts : List Token) :
    Outcome Token ts.length :=
  match acceptSymbol s ts with
  | some parsed => .ok parsed
  | none => refuse finish .unexpectedToken what none ts

/-- Use up the given keyword, which must be there. -/
def expectKeyword (finish : Position) (word what : String) (ts : List Token) :
    Outcome Token ts.length :=
  match acceptKeyword word ts with
  | some parsed => .ok parsed
  | none => refuse finish .unexpectedToken what none ts

/-- Read an identifier. -/
def expectName (finish : Position) (what : String) (ts : List Token) : Outcome String ts.length :=
  match accept (fun t => t.kind == .identifier) ts with
  | some ⟨t, rest, h⟩ => .ok ⟨t.text, rest, h⟩
  | none => refuse finish .expectedName what none ts

end Javelet.Grammar
