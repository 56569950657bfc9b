import Javelet.Assembly.Descriptor
import Javelet.Syntax.Expr
import Javelet.Text.Digit

/-!
# Instructions

The instructions of the virtual machine that are in use, each with its text and with the
number of cells that it takes off the operand stack and puts onto it.

A text constant is written in double quotes with printable ASCII characters only: every other
character is written by its UTF-16 units, each with four hexadecimal digits. A character below
`0x10000` is one unit, every other one is a pair of surrogates.
-/
namespace Javelet

/-- The UTF-16 units of a character. -/
def Text.utf16Units (c : Char) : List Nat :=
  if c.toNat < 0x10000 then [c.toNat]
  else
    let offset := c.toNat - 0x10000
    [0xD800 + offset / 0x400, 0xDC00 + offset % 0x400]

namespace Assembly

/-- How a character is written inside quotes. -/
def quoteChar (c : Char) : List Char :=
  if c = '"' then ['\\', '"']
  else if c = '\\' then ['\\', '\\']
  else if c = '\n' then ['\\', 'n']
  else if c = '\r' then ['\\', 'r']
  else if c = '\t' then ['\\', 't']
  else if ' ' ≤ c ∧ c ≤ '~' then [c]
  else (Text.utf16Units c).flatMap fun unit => '\\' :: 'u' :: Text.hexDigits4 unit

/-- A text in quotes. -/
def quote (s : String) : String :=
  String.ofList ('"' :: s.toList.flatMap quoteChar ++ ['"'])

/-- The number of a place in the code. -/
abbrev Label := Nat

/-- How a label is written. -/
def labelText (l : Label) : String := "L" ++ l.repr

inductive Instruction where
  | pushInt (value : Int32)
  | pushString (value : String)
  | pushNull
  | load (cell : Cell) (slot : Nat)
  | store (cell : Cell) (slot : Nat)
  | arithmetic (op : Arithmetic)
  /-- Jump if the relation holds between two integers. -/
  | jumpInts (relation : Relation) (target : Label)
  /-- Jump if two references are the same, or if they are not. -/
  | jumpReferences (same : Bool) (target : Label)
  | jumpZero (target : Label)
  | jumpNonzero (target : Label)
  | goto (target : Label)
  | pop
  | dup
  | dup2
  | new (className : String)
  /-- Make an array of the elements, of the named class if they are references. -/
  | newArray (element : Element) (className : String)
  | arrayLength
  | arrayLoad (element : Element)
  | arrayStore (element : Element)
  | getField (owner name : String) (type : Ty)
  | putField (owner name : String) (type : Ty)
  /-- Push the print stream. -/
  | getPrintStream
  /-- Print a value, if there is one, and perhaps end the line. -/
  | print (line : Bool) (value : Option Ty)
  | invokeConstructor (owner : String) (params : List Ty)
  | invokeVirtual (owner name : String) (params : List Ty) (returns : Ty)
  | invokeInterface (owner name : String) (params : List Ty) (returns : Ty)
  | returnVoid
  | returnInt
  | returnReference
  deriving DecidableEq

/-- The instruction for an arithmetic operator. -/
def arithmeticText : Arithmetic → String
  | .add => "iadd"
  | .sub => "isub"
  | .mul => "imul"
  | .div => "idiv"
  | .rem => "irem"

/-- The ending of the instructions that test a relation. -/
def relationText : Relation → String
  | .less => "lt"
  | .greater => "gt"
  | .lessEqual => "le"
  | .greaterEqual => "ge"
  | .equal => "eq"
  | .notEqual => "ne"

/-- The shortest instruction that pushes an integer. -/
def pushIntText (value : Int32) : String :=
  let n := value.toInt
  if 0 ≤ n ∧ n ≤ 5 then "iconst_" ++ n.repr
  else if 6 ≤ n ∧ n ≤ 255 then "bipush " ++ n.repr
  else "ldc " ++ n.repr

/-- Loads and stores of the first four slots are short instructions. -/
def slotText (cell : Cell) (action : String) (slot : Nat) : String :=
  cell.letter ++ action ++ (if slot ≤ 3 then "_" else " ") ++ slot.repr

/-- How a field is named. -/
def fieldText (owner name : String) (type : Ty) : String :=
  "Field " ++ owner ++ " " ++ name ++ " " ++ descriptor type

/-- How a method is named. -/
def methodText (owner name : String) (params : List Ty) (returns : Ty) : String :=
  owner ++ " " ++ name ++ " " ++ methodDescriptor params returns

namespace Instruction

/-- The instruction that pushes the receiver. -/
def loadThis : Instruction := load .reference 0

/-- Booleans are held as zero and one. -/
def pushBoolean (value : Bool) : Instruction := pushInt (if value then 1 else 0)

/-- The instruction that pushes the value of an uninitialized variable. -/
def pushDefault (ty : Ty) : Instruction := if ty.isInteger then pushInt 0 else pushNull

/-- The cells that a call takes: the arguments and the receiver. -/
def callCells (params : List Ty) : Nat := params.length + 1

def text : Instruction → String
  | pushInt value => pushIntText value
  | pushString value => "ldc " ++ quote value
  | pushNull => "aconst_null"
  | load cell slot => slotText cell "load" slot
  | store cell slot => slotText cell "store" slot
  | arithmetic op => arithmeticText op
  | jumpInts relation target => "if_icmp" ++ relationText relation ++ " " ++ labelText target
  | jumpReferences same target =>
    (if same then "if_acmpeq " else "if_acmpne ") ++ labelText target
  | jumpZero target => "ifeq " ++ labelText target
  | jumpNonzero target => "ifne " ++ labelText target
  | goto target => "goto " ++ labelText target
  | pop => "pop"
  | dup => "dup"
  | dup2 => "dup2"
  | new className => "new " ++ className
  | newArray element className =>
    match element.primitive? with
    | some name => "newarray " ++ name
    | none => "anewarray " ++ className
  | arrayLength => "arraylength"
  | arrayLoad element => element.letter ++ "aload"
  | arrayStore element => element.letter ++ "astore"
  | getField owner name type => "getfield " ++ fieldText owner name type
  | putField owner name type => "putfield " ++ fieldText owner name type
  | getPrintStream => "getstatic Field java/lang/System out " ++ classDescriptor printStreamClass
  | print line value =>
    "invokevirtual Method " ++ printStreamClass ++ (if line then " println (" else " print (") ++
      value.elim "" printDescriptor ++ ")V"
  | invokeConstructor owner params =>
    "invokespecial Method " ++ methodText owner "<init>" params .void
  | invokeVirtual owner name params returns =>
    "invokevirtual Method " ++ methodText owner name params returns
  | invokeInterface owner name params returns =>
    "invokeinterface InterfaceMethod " ++ methodText owner name params returns ++ " " ++
      (callCells params).repr
  | returnVoid => "return"
  | returnInt => "ireturn"
  | returnReference => "areturn"

/-- The cells that an instruction takes off the stack. -/
def pops : Instruction → Nat
  | pushInt _ | pushString _ | pushNull | load _ _ | goto _ | new _ | getPrintStream
  | returnVoid => 0
  | store _ _ | jumpZero _ | jumpNonzero _ | pop | dup | newArray _ _ | arrayLength
  | getField _ _ _ | returnInt | returnReference => 1
  | arithmetic _ | jumpInts _ _ | jumpReferences _ _ | dup2 | arrayLoad _
  | putField _ _ _ => 2
  | arrayStore _ => 3
  | print _ value => value.elim 1 fun _ => 2
  | invokeConstructor _ params | invokeVirtual _ _ params _
  | invokeInterface _ _ params _ => callCells params

/-- The cells that an instruction puts onto the stack. -/
def pushes : Instruction → Nat
  | pushInt _ | pushString _ | pushNull | load _ _ | arithmetic _ | new _ | newArray _ _
  | arrayLength | arrayLoad _ | getField _ _ _ | getPrintStream => 1
  | dup => 2
  | dup2 => 4
  | store _ _ | jumpInts _ _ | jumpReferences _ _ | jumpZero _ | jumpNonzero _ | goto _ | pop
  | arrayStore _ | putField _ _ _ | print _ _ | invokeConstructor _ _ | returnVoid | returnInt
  | returnReference => 0
  | invokeVirtual _ _ _ returns | invokeInterface _ _ _ returns => if returns.isVoid then 0 else 1

/-- Whether an instruction leaves the method. -/
def isReturn : Instruction → Bool
  | returnVoid | returnInt | returnReference => true
  | _ => false

/-- The label that an instruction may jump to. -/
def target? : Instruction → Option Label
  | jumpInts _ target | jumpReferences _ target | jumpZero target | jumpNonzero target
  | goto target => some target
  | _ => none

end Instruction

end Assembly

end Javelet
