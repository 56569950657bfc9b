import Javelet.Command.Host
import Javelet.Command.Path

/-!
# A host in memory

Files and directories as values. There are two trees: the working directory, which is the top
of what relative paths reach, and the root, which holds a few programs in `/bin`. The search
path is empty.
-/
namespace Javelet.Command

/-- The programs of the host. -/
inductive Tool where
  /-- Print the file that is given. -/
  | cat
  /-- Print the argument. -/
  | echo
  | succeed
  | fail
  deriving DecidableEq, Repr

inductive Node where
  | directory
  | file (content : ByteArray)
  | program (tool : Tool)

/-- A place in one of the two trees. -/
structure Place where
  absolute : Bool
  names : List String
  deriving DecidableEq, Repr

namespace Place

def child (p : Place) (name : String) : Place := { p with names := p.names ++ [name] }

/-- The place above; there is none above the top. -/
def up (p : Place) : Place := { p with names := p.names.dropLast }

/-- The path of a place. -/
def text (p : Place) : String :=
  (if p.absolute then "/" else "") ++ "/".intercalate p.names

end Place

/-- The state of the host: what lies below the two tops, and what was printed. -/
structure Memory where
  nodes : List (Place × Node)
  out : String
  err : String

namespace Memory

/-- The host without files. -/
def initial : Memory :=
  let bin (name : String) (tool : Tool) : Place × Node := (⟨true, ["bin", name]⟩, .program tool)
  ⟨[(⟨true, ["bin"]⟩, .directory), bin "cat" .cat, bin "echo" .echo, bin "true" .succeed,
    bin "false" .fail], "", ""⟩

/-- What lies at a place. -/
def node? (m : Memory) (p : Place) : Option Node :=
  if p.names.isEmpty then some .directory
  else (m.nodes.find? fun entry => entry.1 == p).map Prod.snd

def isDirectory (m : Memory) (p : Place) : Bool :=
  match m.node? p with
  | some .directory => true
  | _ => false

def put (m : Memory) (p : Place) (node : Node) : Memory :=
  { m with nodes := m.nodes.filter (fun entry => entry.1 != p) ++ [(p, node)] }

/-- Go from a place along names. -/
def walk (m : Memory) : Place → List String → Except HostFault Place
  | p, [] => .ok p
  | p, name :: rest =>
    if !m.isDirectory p then .error .notDirectory
    else if name = "." then m.walk p rest
    else if name = ".." then m.walk p.up rest
    else if (m.node? (p.child name)).isSome then m.walk (p.child name) rest
    else .error .noEntry

/-- Where a path starts, seen from a directory. -/
def origin (dir : Place) (path : String) : Place :=
  if Path.isAbsolute path then ⟨true, []⟩ else dir

/-- The working directory. -/
def working : Place := ⟨false, []⟩

/-- The place of a path, seen from a directory. A slash at its end asks for a directory. -/
def locate (m : Memory) (dir : Place) (path : String) : Except HostFault Place := do
  if path = "" then throw .noEntry
  let p ← m.walk (origin dir path) (Path.pieces path)
  if path.endsWith "/" && !m.isDirectory p then throw .notDirectory
  return p

/-- The place at which something is to be made: its directory has to be there. The name is
none if the path ends at the top, in `.` or in `..`. -/
def target (m : Memory) (path : String) : Except HostFault (Place × Option String) := do
  if path = "" then throw .noEntry
  let pieces := Path.pieces path
  let p ← m.walk (origin working path) pieces.dropLast
  if !m.isDirectory p then throw .notDirectory
  return (p, pieces.getLast?.filter fun name => name ≠ "." ∧ name ≠ "..")

/-- Make one directory. -/
def makeDirectory (m : Memory) (path : String) : Except HostFault Memory := do
  let (p, name) ← m.target path
  match name with
  | none => throw .alreadyThere
  | some name =>
    if (m.node? (p.child name)).isSome then throw .alreadyThere
    return m.put (p.child name) .directory

/-- Whether a path leads to a directory. -/
def leadsToDirectory (m : Memory) (path : String) : Bool :=
  match m.locate working path with
  | .ok p => m.isDirectory p
  | .error _ => false

/-- Make one directory, unless it is there. -/
def ensureDirectory (m : Memory) (path : String) : Except HostFault Memory :=
  match m.makeDirectory path with
  | .ok m => .ok m
  | .error fault => if m.leadsToDirectory path then .ok m else .error fault

/-- Make a directory and those above it, of which there are at most `depth`. -/
def makeDirectories (m : Memory) (depth : Nat) (path : String) : Except HostFault Memory :=
  if path = "" then .ok m
  else match m.ensureDirectory path with
    | .ok m => .ok m
    | .error .noEntry =>
      match depth, Path.parent? path with
      | depth + 1, some parent => do (← m.makeDirectories depth parent).ensureDirectory path
      | _, _ => .error (.other "failed to create whole tree")
    | .error fault => .error fault

/-- Write a file. -/
def write (m : Memory) (path : String) (content : ByteArray) : Except HostFault Memory := do
  let (p, name) ← m.target path
  match name with
  | none => throw .isDirectory
  | some name =>
    if m.isDirectory (p.child name) then throw .isDirectory
    return m.put (p.child name) (.file content)

/-- The text of the file at a place. -/
def textAt (m : Memory) (p : Place) : Except HostFault String :=
  match m.node? p with
  | some (.file content) =>
    match String.fromUTF8? content with
    | some text => .ok text
    | none => .error .notText
  | some .directory => .error .isDirectory
  | some (.program _) => .error .notText
  | none => .error .noEntry

/-- Run a program. Its path is seen from the directory in which it runs, and a path without a
slash is looked for in the search path. -/
def run (m : Memory) (program dir arg : String) : Except HostFault Finished := do
  let place ← m.locate working dir
  if !program.contains '/' then throw .noEntry
  match m.node? (← m.locate place program) with
  | some (.program .cat) => return ⟨← (m.locate place arg).bind m.textAt, "", 0⟩
  | some (.program .echo) => return ⟨arg ++ "\n", "", 0⟩
  | some (.program .succeed) => return ⟨"", "", 0⟩
  | some (.program .fail) => return ⟨"", "", 1⟩
  | _ => throw .denied

/-- Put a file below the working directory, with the directories above it. -/
def addFile (m : Memory) (path : String) (content : ByteArray) : Memory :=
  let names := Path.pieces path
  let above := (List.range names.length).drop 1 |>.map fun n => (⟨false, names.take n⟩ : Place)
  (above.foldl (fun m p => if m.isDirectory p then m else m.put p .directory) m).put
    ⟨false, names⟩ (.file content)

/-- The files below the working directory, with their paths. -/
def files (m : Memory) : List (String × ByteArray) :=
  m.nodes.filterMap fun
    | (⟨false, names⟩, .file content) => some (Place.text ⟨false, names⟩, content)
    | _ => none

/-- Change the memory, if that succeeds. -/
def attempt (change : Memory → Except HostFault Memory) : StateM Memory (Except HostFault Unit) :=
  fun m => match change m with
    | .ok m => (.ok (), m)
    | .error fault => (.error fault, m)

/-- The host in memory. -/
def host : Host (StateM Memory) where
  read path := do
    let m ← get
    return (m.locate working path).bind m.textAt
  write path text := attempt fun m => m.write path text.toUTF8
  makeDirectories path := attempt fun m => m.makeDirectories (Path.components path).length path
  present path := do
    return (← get).locate working path |>.isOk
  search _ := pure none
  run program dir arg := do
    return (← get).run program dir arg
  out text := modify fun m => { m with out := m.out ++ text }
  err text := modify fun m => { m with err := m.err ++ text }

end Memory

end Javelet.Command
