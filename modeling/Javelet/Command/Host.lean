/-!
# Hosts

What the command needs of the machine it runs on: files, a search path, other programs and
two streams to print to.
-/
namespace Javelet.Command

/-- Why the host refuses a request. -/
inductive HostFault where
  | noEntry | denied | alreadyThere | notDirectory | isDirectory
  /-- A file does not hold a text. -/
  | notText
  | other (text : String)
  deriving DecidableEq, Repr

def HostFault.message : HostFault → String
  | noEntry => "No such file or directory (os error 2)"
  | denied => "Permission denied (os error 13)"
  | alreadyThere => "File exists (os error 17)"
  | notDirectory => "Not a directory (os error 20)"
  | isDirectory => "Is a directory (os error 21)"
  | notText => "stream did not contain valid UTF-8"
  | other text => text

/-- What a program has printed, and the status it has left with. -/
structure Finished where
  out : String
  err : String
  status : Nat
  deriving DecidableEq, Repr

/-- A machine with effects in `m`. -/
structure Host (m : Type → Type) where
  /-- The text of a file. -/
  read : String → m (Except HostFault String)
  /-- Write a text to a file. -/
  write : String → String → m (Except HostFault Unit)
  /-- Make a directory and all directories above it. -/
  makeDirectories : String → m (Except HostFault Unit)
  /-- Whether there is anything at a path. -/
  present : String → m Bool
  /-- The path of a program in the search path. -/
  search : String → m (Option String)
  /-- Run a program in a directory with one argument. -/
  run : (program dir arg : String) → m (Except HostFault Finished)
  /-- Print to the standard output. -/
  out : String → m Unit
  /-- Print to the standard error stream. -/
  err : String → m Unit

namespace Host

variable {m : Type → Type}

def outLine (h : Host m) (line : String) : m Unit := h.out (line ++ "\n")

def errLine (h : Host m) (line : String) : m Unit := h.err (line ++ "\n")

end Host

end Javelet.Command
