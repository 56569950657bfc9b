import Javelet.Command.Host
import Javelet.Command.Options
import Javelet.Command.Path
import Javelet.Compile
import Javelet.Diagnostic.Report

/-!
# Building

A build reads the source, compiles it, writes the assembly file and starts the assembler on
it. The first step that fails prints why and decides the exit code.
-/
namespace Javelet.Command

/-- How a build can fail. -/
inductive BuildFault where
  | compile | write | read | noAssembler | assembler
  deriving DecidableEq, Repr

/-- The exit code of a failure. -/
def BuildFault.exitCode : BuildFault → Nat
  | compile => 1
  | write => 2
  | read => 3
  | noAssembler => 4
  | assembler => 5

/-- The exit code of a refused command line. -/
def usageExitCode : Nat := 2

/-- The extension of assembly files. -/
def assemblyExtension : String := "j"

/-- The path of the assembly file of a name. -/
def assemblyPath (dir name : String) : String :=
  Path.join dir (name ++ "." ++ assemblyExtension)

/-- The name of a program: its source file without directories and extension. -/
def programName (source : String) : String := (Path.fileStem? source).getD "Main"

/-- The programs that can assemble, the preferred one first. -/
def assemblers : List String := ["krakatau-assemble"]

/-- A build ends with a fault or goes on. -/
abbrev Build (m : Type → Type) := ExceptT BuildFault m

variable {m : Type → Type} [Monad m]

/-- Do something that prints. -/
def say (action : m Unit) : Build m Unit := liftM action

/-- Print a line if there is to be much printed. -/
def sayVerbose (host : Host m) (options : Options) (line : String) : Build m Unit :=
  if options.verbose then say (host.outLine line) else pure ()

/-- Read the source file. -/
def readSource (host : Host m) (options : Options) : Build m String := do
  sayVerbose host options ("Reading " ++ options.source ++ "...")
  match ← liftM (host.read options.source) with
  | .ok text => return text
  | .error fault =>
    say (host.errLine ("Error: Cannot read " ++ options.source ++ ": " ++ fault.message))
    throw .read

/-- Compile the source; its faults are shown with the name of its file. -/
def compileSource (host : Host m) (options : Options) (file source : String) :
    Build m String := do
  sayVerbose host options "Compiling..."
  match compile source with
  | .ok text => return text
  | .error diagnostics =>
    say (host.errLine "Errors:")
    for d in diagnostics do
      say (host.err (d.report source (some file)))
    throw .compile

/-- Write the assembly file; its path. -/
def writeAssembly (host : Host m) (options : Options) (text : String) : Build m String := do
  let name := options.name.getD (programName options.source)
  let path := assemblyPath options.outputDir name
  let result ← liftM (do
    match ← host.makeDirectories options.outputDir with
    | .error fault => return Except.error fault
    | .ok _ => host.write path text)
  match result with
  | .ok _ =>
    sayVerbose host options
      ("Wrote " ++ path ++ " (" ++ (Text.lineCount text).repr ++ " lines)")
    return path
  | .error fault =>
    say (host.errLine ("Error: Cannot write " ++ Path.join options.outputDir name ++ ": " ++
      fault.message))
    throw .write

/-- The first of several programs that is in the search path. -/
def searchFirst (host : Host m) : List String → m (Option String)
  | [] => pure none
  | program :: rest => do
    match ← host.search program with
    | some path => return some path
    | none => searchFirst host rest

/-- Find the assembler. -/
def locateAssembler (host : Host m) (options : Options) : Build m String := do
  match options.assemblerPath with
  | some path =>
    if ← liftM (host.present path) then return path
    say (host.errLine ("Error: Assembler path does not exist: " ++ path))
    throw .noAssembler
  | none =>
    match ← liftM (searchFirst host assemblers) with
    | some path => return path
    | none =>
      say (host.errLine ("Error: Krakatau assembler not found. " ++
        "Install krakatau or specify path with --assembler-path"))
      say (host.errLine "")
      say (host.errLine "Install Krakatau or specify the path with --assembler-path,")
      say (host.errLine "or pass --no-assemble to only write the assembly file.")
      throw .noAssembler

/-- The directory in which a file lies. -/
def directoryOf (path : String) : String :=
  match Path.parent? path with
  | some "" | none => "."
  | some dir => dir

/-- Start the assembler in the directory of a file, and show what it has printed. -/
def assemble (host : Host m) (options : Options) (path : String) : Build m Unit := do
  let assembler ← locateAssembler host options
  sayVerbose host options ("Assembling with " ++ assembler ++ "...")
  match ← liftM (host.run assembler (directoryOf path) ((Path.fileName? path).getD path)) with
  | .error fault =>
    say (host.errLine ("Error: Failed to start assembler: " ++ fault.message))
    throw .assembler
  | .ok finished =>
    say (host.out finished.out)
    say (host.err finished.err)
    if finished.status ≠ 0 then
      say (host.errLine
        ("Error: Assembler exited with exit status: " ++ finished.status.repr))
      throw .assembler

/-- Build once. -/
def build (host : Host m) (options : Options) : Build m Unit := do
  let file := (Path.fileName? options.source).getD Diagnostic.unnamedFile
  let source ← readSource host options
  let text ← compileSource host options file source
  let path ← writeAssembly host options text
  unless options.noAssemble do assemble host options path
  if options.verbose then say (host.outLine "Done!")
  else say (host.outLine ("Compiled " ++ file ++ " -> " ++ path))

/-- Carry out a request; the exit code. -/
def Request.perform (host : Host m) : Request → m Nat
  | .version => do
    host.outLine (commandName ++ " " ++ Command.version)
    return 0
  | .build options => do
    if options.verbose then
      host.outLine (toolName ++ " Compiler v" ++ Command.version)
      host.outLine ("Source: " ++ options.source)
      host.outLine ("Output directory: " ++ options.outputDir)
      host.outLine ""
    match ← (Command.build host options).run with
    | .ok _ => return 0
    | .error fault => return fault.exitCode

/-- Carry out a command line; the exit code. -/
def perform (host : Host m) (args : List String) : m Nat := do
  match Request.ofArguments args with
  | .ok request => request.perform host
  | .error fault =>
    host.errLine ("error: " ++ fault.message)
    return usageExitCode

end Javelet.Command
