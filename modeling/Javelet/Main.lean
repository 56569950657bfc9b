import Javelet.Command.Build

/-!
# The command

The machine itself as a host. Other programs cannot be started from here: a build without
`--no-assemble` ends after the assembly file is written.
-/
namespace Javelet.Command

/-- The fault behind an error of the machine. -/
def faultOf : IO.Error → HostFault
  | .noFileOrDirectory _ _ _ => .noEntry
  | .permissionDenied _ _ _ => .denied
  | .alreadyExists _ _ _ => .alreadyThere
  | .inappropriateType _ code _ => if code = 20 then .notDirectory else .isDirectory
  | e => .other e.toString

/-- Try an action; its error as a fault. -/
def attempted {α : Type} (action : IO α) : IO (Except HostFault α) := do
  try
    return .ok (← action)
  catch e =>
    return .error (faultOf e)

/-- Whether there is anything at a path. -/
def isPresent (path : String) : IO Bool := do
  match ← attempted (IO.FS.realPath path) with
  | .ok _ => return true
  | .error _ => return false

/-- The first of several directories that holds a program. -/
def searchIn (program : String) : List String → IO (Option String)
  | [] => return none
  | dir :: rest => do
    let path := Path.join dir program
    if ← isPresent path then return some path
    searchIn program rest

/-- The machine. -/
def machine : Host IO where
  read path := do
    match ← attempted (IO.FS.readBinFile path) with
    | .error fault => return .error fault
    | .ok content => match String.fromUTF8? content with
      | some text => return .ok text
      | none => return .error .notText
  write path text := attempted (IO.FS.writeFile path text)
  makeDirectories path := attempted (IO.FS.createDirAll path)
  present := isPresent
  search program := do
    searchIn program (((← IO.getEnv "PATH").getD "").splitOn ":")
  run _ _ _ := return .error (.other "other programs cannot be started")
  out := IO.print
  err := IO.eprint

end Javelet.Command

/-- Carry out the command line. -/
def main (args : List String) : IO UInt32 := do
  return (← Javelet.Command.perform Javelet.Command.machine args).toUInt32
