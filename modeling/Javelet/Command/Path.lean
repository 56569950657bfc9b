/-!
# Paths

A path is names with slashes between them. Empty names count for nothing, and so does `.`
unless a path starts with it.
-/
namespace Javelet.Command

/-- A part of a path. -/
inductive Component where
  | root | current | parent
  | name (text : String)
  deriving DecidableEq, Repr

namespace Path

def isAbsolute (path : String) : Bool := path.startsWith "/"

/-- The names between the slashes of a path, without empty ones. -/
def pieces (path : String) : List String := (path.splitOn "/").filter (· ≠ "")

/-- The parts of a path. -/
def components (path : String) : List Component :=
  let start :=
    if isAbsolute path then [Component.root]
    else if path = "." ∨ path.startsWith "./" then [.current]
    else []
  start ++ (pieces path).filterMap fun piece =>
    if piece = "." then none
    else if piece = ".." then some .parent
    else some (.name piece)

/-- The last name of a path. -/
def fileName? (path : String) : Option String :=
  match (components path).getLast? with
  | some (.name text) => some text
  | _ => none

/-- A file name without its extension, that is up to its last point. A point at its start
is part of the name. -/
def stem (name : String) : String :=
  let cs := name.toList
  let stem := (cs.reverse.dropWhile (· != '.')).tail.reverse
  if stem.isEmpty then name else String.ofList stem

/-- The last name of a path without its extension. -/
def fileStem? (path : String) : Option String := (fileName? path).map stem

/-- A path below another one. An absolute path stays as it is. -/
def join (dir path : String) : String :=
  if isAbsolute path then path
  else if dir = "" ∨ dir.endsWith "/" then dir ++ path
  else dir ++ "/" ++ path

/-- How a part of a path is written. -/
def componentText : Component → String
  | .root => ""
  | .current => "."
  | .parent => ".."
  | .name text => text

/-- The path of a list of parts. -/
def ofComponents : List Component → String
  | [.root] => "/"
  | parts => "/".intercalate (parts.map componentText)

/-- The path without its last part, if it has one that is not the root. -/
def parent? (path : String) : Option String :=
  let parts := components path
  match parts.getLast? with
  | none | some .root => none
  | some _ => some (ofComponents parts.dropLast)

end Path

end Javelet.Command
