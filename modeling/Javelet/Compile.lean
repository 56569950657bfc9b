import Javelet.Grammar.Declaration
import Javelet.Lowering.Declaration
import Javelet.Scope.Resolve
import Javelet.Token.Stream
import Javelet.Types.Collect

/-!
# Compiling

A source text becomes assembly text in stages: tokens, tree, types, names, code. A stage runs
only if the stages before it found no fault. Types and names report all their faults, the
other stages the first one.
-/
namespace Javelet

/-- The types and the scopes of a program without faults in either. -/
structure Analysis where
  table : Types.Table
  arena : Arena

/-- The tree of a source text. -/
def parseSource (source : String) : Except Diagnostic Program := do
  let tokens ← (tokenize source).mapError Located.diagnostic
  (parse tokens).mapError Located.diagnostic

/-- Check types and names. -/
def analyze (program : Program) : Except (List Diagnostic) Analysis :=
  let types := Types.collect program
  if types.faults.isEmpty then
    let names := Scope.resolve program types.table
    if names.faults.isEmpty then .ok ⟨types.table, names.arena⟩
    else .error (names.faults.toList.map Located.diagnostic)
  else .error (types.faults.toList.map Located.diagnostic)

/-- The assembly text of a program with the given types and scopes. -/
def generate (program : Program) (analysis : Analysis) : Except Diagnostic String :=
  match Lowering.program analysis.table analysis.arena program with
  | .ok sections => .ok (Assembly.programText sections)
  | .error fault => .error fault.diagnostic

/-- The assembly text of a source text, or what is wrong with it. -/
def compile (source : String) : Except (List Diagnostic) String := do
  let program ← (parseSource source).mapError List.singleton
  let analysis ← analyze program
  (generate program analysis).mapError List.singleton

end Javelet
