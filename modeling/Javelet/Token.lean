import Javelet.Position

/-!
# Tokens

A token has a kind, a text and the position of its first character. The text of a
string or character literal is its value, without quotes and with escapes resolved;
`Token.spelling` writes it back as source text.
-/
namespace Javelet

/-- Operators and separators. -/
inductive Symbol where
  | semicolon | comma | dot | leftParen | rightParen | leftBracket | rightBracket
  | leftBrace | rightBrace
  | plus | minus | star | slash | percent | increment | decrement
  | less | greater | lessEqual | greaterEqual | equalEqual | notEqual
  | ampersand | pipe | caret | tilde | shiftLeft | shiftRight | unsignedShiftRight
  | andAnd | orOr | bang
  | assign | plusAssign | minusAssign | starAssign | slashAssign | percentAssign
  | ampersandAssign | pipeAssign | caretAssign | shiftLeftAssign | shiftRightAssign
  | unsignedShiftRightAssign
  | question | colon
  deriving DecidableEq, Repr

namespace Symbol

/-- How a symbol is written. -/
def spelling : Symbol → String
  | semicolon => ";"
  | comma => ","
  | dot => "."
  | leftParen => "("
  | rightParen => ")"
  | leftBracket => "["
  | rightBracket => "]"
  | leftBrace => "\x7b"
  | rightBrace => "\x7d"
  | plus => "+"
  | minus => "-"
  | star => "*"
  | slash => "/"
  | percent => "%"
  | increment => "++"
  | decrement => "--"
  | less => "<"
  | greater => ">"
  | lessEqual => "<="
  | greaterEqual => ">="
  | equalEqual => "=="
  | notEqual => "!="
  | ampersand => "&"
  | pipe => "|"
  | caret => "^"
  | tilde => "~"
  | shiftLeft => "<<"
  | shiftRight => ">>"
  | unsignedShiftRight => ">>>"
  | andAnd => "&&"
  | orOr => "||"
  | bang => "!"
  | assign => "="
  | plusAssign => "+="
  | minusAssign => "-="
  | starAssign => "*="
  | slashAssign => "/="
  | percentAssign => "%="
  | ampersandAssign => "&="
  | pipeAssign => "|="
  | caretAssign => "^="
  | shiftLeftAssign => "<<="
  | shiftRightAssign => ">>="
  | unsignedShiftRightAssign => ">>>="
  | question => "?"
  | colon => ":"

/-- All symbols, longer spellings before shorter ones. -/
def longestFirst : List Symbol :=
  [unsignedShiftRightAssign, unsignedShiftRight, shiftLeftAssign, shiftRightAssign,
   shiftLeft, shiftRight, lessEqual, greaterEqual, equalEqual, notEqual, andAnd, orOr,
   increment, decrement, plusAssign, minusAssign, starAssign, slashAssign, percentAssign,
   ampersandAssign, pipeAssign, caretAssign, plus, minus, star, slash, percent, less, greater,
   assign, bang, tilde, ampersand, pipe, caret, question, colon, semicolon, comma, dot,
   leftParen, rightParen, leftBracket, rightBracket, leftBrace, rightBrace]

/-- The symbols that separate rather than operate. -/
def isSeparator : Symbol → Bool
  | semicolon | comma | dot | leftParen | rightParen | leftBracket | rightBracket
  | leftBrace | rightBrace => true
  | _ => false

end Symbol

/-- The kind of a token. -/
inductive Kind where
  | identifier
  | keyword
  | integer
  | floating
  | character
  | string
  | boolean
  | null
  | symbol (s : Symbol)
  deriving DecidableEq, Repr

namespace Kind

/-- The fixed spelling of a symbol kind. -/
def symbol? : Kind → Option String
  | symbol s => some s.spelling
  | _ => none

def isSeparator : Kind → Bool
  | symbol s => s.isSeparator
  | _ => false

def isLiteral : Kind → Bool
  | integer | floating | character | string | boolean | null => true
  | _ => false

/-- How a kind is named in messages. -/
def text : Kind → String
  | identifier => "identifier"
  | keyword => "keyword"
  | integer => "integer literal"
  | floating => "floating-point literal"
  | character => "character literal"
  | string => "string literal"
  | boolean => "boolean literal"
  | null => "null"
  | symbol s => "'" ++ s.spelling ++ "'"

end Kind

/-- The reserved words. The literals `true`, `false` and `null` are not among them. -/
def keywords : List String :=
  ["abstract", "assert", "boolean", "break", "byte", "case", "catch", "char", "class", "const",
   "continue", "default", "do", "double", "else", "enum", "extends", "final", "finally", "float",
   "for", "goto", "if", "implements", "import", "instanceof", "int", "interface", "long", "native",
   "new", "package", "private", "protected", "public", "return", "short", "static", "strictfp",
   "super", "switch", "synchronized", "this", "throw", "throws", "transient", "try", "void",
   "volatile", "while"]

/-- A token of the language. -/
structure Token where
  kind : Kind
  text : String
  position : Position
  deriving DecidableEq, Repr

namespace Token

/-- The token of a symbol. -/
def ofSymbol (s : Symbol) (p : Position) : Token := ⟨.symbol s, s.spelling, p⟩

/-- What kind of token a word is. -/
def wordKind (word : String) : Kind :=
  if word = "true" ∨ word = "false" then .boolean
  else if word = "null" then .null
  else if word ∈ keywords then .keyword
  else .identifier

/-- The token of a word. -/
def ofWord (word : String) (p : Position) : Token := ⟨wordKind word, word, p⟩

def isKeyword (t : Token) (word : String) : Bool := t.kind == .keyword && t.text == word

/-- A character of a literal between the given quotes, escaped where it has to be. -/
def escaped (quote c : Char) : List Char :=
  if c = '\x08' then ['\\', 'b']
  else if c = '\t' then ['\\', 't']
  else if c = '\n' then ['\\', 'n']
  else if c = '\x0c' then ['\\', 'f']
  else if c = '\r' then ['\\', 'r']
  else if c = '\\' ∨ c = quote then ['\\', c]
  else [c]

/-- A value between quotes. -/
def quoted (quote : Char) (value : String) : String :=
  String.ofList (quote :: value.toList.flatMap (escaped quote) ++ [quote])

/-- Source text that is read back as this token. -/
def spelling (t : Token) : String :=
  match t.kind with
  | .string => quoted '"' t.text
  | .character => quoted '\'' t.text
  | _ => t.text

/-- How a token is named in messages. -/
def description (t : Token) : String :=
  match t.kind with
  | .identifier | .keyword | .integer | .floating => t.kind.text ++ " '" ++ t.text ++ "'"
  | .boolean | .null => "'" ++ t.text ++ "'"
  | .character | .string => t.kind.text ++ " " ++ t.spelling
  | .symbol _ => t.kind.text

end Token

/-- Tokens as source text, one blank between neighbours. -/
def respell (tokens : List Token) : String := " ".intercalate (tokens.map Token.spelling)

end Javelet
