import Javelet.Syntax.Declaration
import Javelet.Text.Visible

/-!
# Structural printing

A node is printed as `(#tag content successor)`. The successor is printed behind the
content and is the one node a node leads to: the next step of a chain, the else branch
of a conditional, the body of a for loop, the value of a return or of a declaration.
-/
namespace Javelet.Syntax

/-- A node from its tag, its content and its printed successor. An empty content leaves
no blank. -/
def node (tag content : String) (successor : Option String) : String :=
  "(#" ++ tag ++ (if content.isEmpty then "" else " " ++ content) ++
    (match successor with
      | some text => " " ++ text
      | none => "") ++ ")"

/-- Printed items in brackets. -/
def bracketed (items : List String) : String := "[" ++ ", ".intercalate items ++ "]"

def int32Text (value : Int32) : String :=
  match value.toInt with
  | .ofNat n => n.repr
  | .negSucc n => "-" ++ (n + 1).repr

def booleanText (value : Bool) : String := if value then "true" else "false"

def printLiteral : Literal → String
  | .int value => node "num" (int32Text value) none
  | .char value => node "char" ("'" ++ String.ofList (Text.visible value) ++ "'") none
  | .boolean value => node "boolean" (booleanText value) none
  | .string value => node "string" ("\"" ++ Text.visibleText value ++ "\"") none
  | .null => node "null" "" none

mutual

def printExpr : Expr → String
  | .literal _ value => printLiteral value
  | .binary op left right =>
    node "binop" (op.text ++ " :left " ++ printExpr left ++ " :right " ++ printExpr right) none
  | .access chain => printChain chain
  | .newObject _ className args =>
    node "object-creation" (className ++ " :args " ++ bracketed (printExprs args)) none
  | .newArray _ element length =>
    node "array-creation" (element ++ " :length " ++ printExpr length) none

def printExprs : List Expr → List String
  | [] => []
  | e :: rest => printExpr e :: printExprs rest

def printChain : Chain → String
  | .mk (.this _) links => node "this" "" (printLinks links)
  | .mk (.name _ name) links => node "field" name (printLinks links)
  | .mk (.call _ name args) links =>
    node "method-call" (name ++ " :args " ++ bracketed (printExprs args)) (printLinks links)

def printLinks : List Link → Option String
  | [] => none
  | .field _ name :: rest => some (node "field" name (printLinks rest))
  | .call _ name args :: rest =>
    some (node "method-call" (name ++ " :args " ++ bracketed (printExprs args)) (printLinks rest))
  | .index _ index :: rest => some (node "array" (":at " ++ printExpr index) (printLinks rest))

end

/-- An assignment inside another node. -/
def assignmentText (a : Assignment) : String :=
  a.op.text ++ " :left " ++ printChain a.target ++ " :right " ++ printExpr a.value

def printVariable (v : Variable) : String :=
  node "var-decl" (v.name ++ " :type " ++ v.type.text) (v.value.map printExpr)

def printAction : Action → String
  | .assignment a => node "assignment" (assignmentText a) none
  | .call chain => node "method-call-stmt" "" (some (printChain chain))

def printJump : Jump → String
  | .return_ value => node "return" "" (value.map printExpr)
  | .break_ => node "break" "" none
  | .continue_ => node "continue" "" none

/-- The clauses of a for loop before its body. -/
def forClauses (init : Option ForInit) (condition : Option Expr) (update : Option Action) :
    List String :=
  (init.map fun
    | .declaration v => ":init " ++ printVariable v
    | .assignment a => ":init " ++ assignmentText a).toList ++
  (condition.map fun e => ":condition " ++ printExpr e).toList ++
  (update.map fun a => ":update " ++ printAction a).toList ++ [":body"]

mutual

def printStatement : Statement → String
  | .block body => printBlock body
  | .conditional _ condition body none =>
    node "if" (printExpr condition ++ " :body " ++ printStatement body) none
  | .conditional _ condition body (some otherwise) =>
    node "if" (printExpr condition ++ " :body " ++ printStatement body ++ " :else")
      (some (printStatement otherwise))
  | .whileLoop _ condition body =>
    node "while" (printExpr condition ++ " :body " ++ printStatement body) none
  | .forLoop _ _ init condition update body =>
    node "for" (" ".intercalate (forClauses init condition update)) (some (printStatement body))
  | .switch _ _ selector cases none =>
    node "switch" (printExpr selector ++ " :case " ++ bracketed (printCases cases)) none
  | .switch _ _ selector cases (some default_) =>
    node "switch" (printExpr selector ++ " :case " ++ bracketed (printCases cases) ++
      " :default " ++ bracketed (printItems default_)) none
  | .jump _ jump => printJump jump
  | .action action => printAction action
  | .declaration v => printVariable v

def printStatements : List Statement → List String
  | [] => []
  | s :: rest => printStatement s :: printStatements rest

/-- The printed statements of a block. -/
def printItems : Block → List String
  | .mk _ _ statements => printStatements statements

def printBlock : Block → String
  | .mk _ _ statements => node "stmt-block" (", ".intercalate (printStatements statements)) none

def printCases : List Case → List String
  | [] => []
  | .mk _ _ label body :: rest =>
    node "case" (printLiteral label ++ " :do " ++ bracketed (printItems body)) none ::
      printCases rest

end

def printParameter (p : Parameter) : String :=
  node "param" (p.name ++ " :type " ++ p.type.text) none

/-- Tag and content of a method header. -/
def signatureParts (s : Signature) : String × String :=
  let params := bracketed (s.paramTypes.map Ty.text)
  match s.kind with
  | .method =>
    ("method-signature",
      s.access.text ++ " " ++ s.name ++ " :type " ++ s.returns.text ++ " :param " ++ params)
  | .constructor => ("constructor", s.access.text ++ " " ++ s.name ++ " :param " ++ params)
  | .main => ("main-decl", (s.params.head?.map Parameter.name).getD "")

def printSignature (s : Signature) : String :=
  let (tag, content) := signatureParts s
  node tag content none

def printMethod (m : Method) : String :=
  match m.signature.kind with
  | .method => node "method-decl" (printSignature m.signature) (some (printBlock m.body))
  | _ =>
    let (tag, content) := signatureParts m.signature
    node tag content (some (printBlock m.body))

def printProperty (p : Property) : String :=
  node "property-decl" (p.access.text ++ " " ++ p.variable_.name ++ " :type " ++
    p.variable_.type.text) (p.variable_.value.map printExpr)

/-- The text of an optional clause. -/
def clause (mark : String) (text : Option String) : String :=
  match text with
  | some t => mark ++ t
  | none => ""

def printTypeDecl : TypeDecl → String
  | .class_ d =>
    node "class" (d.name ++ clause " :extend " d.superclass ++ clause " :implement " d.interface ++
      "\n\t:props " ++ bracketed (d.properties.map printProperty) ++
      " \n\t:methods " ++ bracketed (d.methods.map printMethod) ++
      " \n\t:constructor " ++ bracketed (d.constructors.map printMethod) ++
      clause "\n\t:main " (d.main.map printMethod)) none
  | .interface d =>
    node "interface" (d.name ++ " \n\t:methods " ++ bracketed (d.methods.map printSignature)) none

def printProgram (p : Program) : String :=
  node "program" (":declarations [\n\t" ++
    ",\n\t".intercalate (p.declarations.map printTypeDecl) ++ "\n]") none

end Javelet.Syntax
