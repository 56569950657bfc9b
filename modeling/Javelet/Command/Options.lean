/-!
# The command line

Options may be long (`--name N`, `--name=N`) or short (`-n N`, `-nN`, `-n=N`), and short
flags may be written together. Behind `--` every argument is a source.

A request is to build once. The option `--watch`, which builds again whenever the file system reports
a change of the source, is left out together with the exit code of a watcher that fails: here it is
an unexpected argument.
-/
namespace Javelet.Command

/-- The name of the compiler. -/
def toolName : String := "Yava"

/-- The name by which the compiler is called. -/
def commandName : String := "yava"

def version : String := "0.1.0"

/-- Where assembly files go if nothing else is said. -/
def defaultOutputDir : String := "_bin"

/-- What the command line asks for. -/
structure Options where
  source : String
  outputDir : String
  name : Option String
  verbose : Bool
  noAssemble : Bool
  assemblerPath : Option String
  deriving DecidableEq, Repr

inductive Request where
  | build (options : Options)
  | version
  deriving DecidableEq, Repr

/-- Why a command line is refused. -/
inductive UsageFault where
  | unexpected (arg : String)
  | missingValue (option : String)
  | repeated (option : String)
  | missingSource
  deriving DecidableEq, Repr

def UsageFault.message : UsageFault → String
  | unexpected arg => "unexpected argument '" ++ arg ++ "' found"
  | missingValue option => "a value is required for '" ++ option ++ "'"
  | repeated option => "the argument '" ++ option ++ "' cannot be used multiple times"
  | missingSource => "the source file is missing"

/-- Options that take a value. -/
inductive Setting where
  | outputDir | name | assemblerPath
  deriving DecidableEq, Repr

namespace Setting

def text : Setting → String
  | outputDir => "--output-dir"
  | name => "--name"
  | assemblerPath => "--assembler-path"

def ofLong? : String → Option Setting
  | "output-dir" => some outputDir
  | "name" => some name
  | "assembler-path" => some assemblerPath
  | _ => none

def ofShort? : Char → Option Setting
  | 'o' => some outputDir
  | 'n' => some name
  | _ => none

end Setting

/-- What the arguments so far have said. -/
structure Draft where
  source : Option String := none
  outputDir : Option String := none
  name : Option String := none
  assemblerPath : Option String := none
  verbose : Bool := false
  noAssemble : Bool := false

namespace Draft

def setSource (d : Draft) (arg : String) : Except UsageFault Draft :=
  if d.source.isSome then .error (.unexpected arg) else .ok { d with source := some arg }

/-- Give an option its value. Names may be empty, paths may not. -/
def set (d : Draft) (setting : Setting) (value : String) : Except UsageFault Draft :=
  let once (old : Option String) (d : Draft) : Except UsageFault Draft :=
    if old.isSome then .error (.repeated setting.text) else .ok d
  match setting with
  | .name => once d.name { d with name := some value }
  | .outputDir =>
    if value = "" then .error (.missingValue setting.text)
    else once d.outputDir { d with outputDir := some value }
  | .assemblerPath =>
    if value = "" then .error (.missingValue setting.text)
    else once d.assemblerPath { d with assemblerPath := some value }

def setVerbose (d : Draft) : Except UsageFault Draft :=
  if d.verbose then .error (.repeated "--verbose") else .ok { d with verbose := true }

def setNoAssemble (d : Draft) : Except UsageFault Draft :=
  if d.noAssemble then .error (.repeated "--no-assemble") else .ok { d with noAssemble := true }

def options (d : Draft) : Except UsageFault Options :=
  match d.source with
  | none => .error .missingSource
  | some source => .ok
      { source := source, outputDir := d.outputDir.getD defaultOutputDir, name := d.name,
        verbose := d.verbose, noAssemble := d.noAssemble, assemblerPath := d.assemblerPath }

end Draft

/-- Whether an argument is an option rather than a value. -/
def isOption (arg : String) : Bool := arg.startsWith "-" && arg != "-"

/-- What an argument means. -/
inductive Meaning where
  | draft (d : Draft)
  /-- The next argument is the value of the option. -/
  | awaits (d : Draft) (setting : Setting)
  | version

/-- Read short flags written together. -/
def shortFlags (arg : String) (d : Draft) : List Char → Except UsageFault Meaning
  | [] => .ok (.draft d)
  | c :: rest =>
    if c = 'v' then do shortFlags arg (← d.setVerbose) rest
    else if c = 'V' then .ok .version
    else match Setting.ofShort? c with
      | none => .error (.unexpected arg)
      | some setting => match rest with
        | [] => .ok (.awaits d setting)
        | '=' :: value => .draft <$> d.set setting (String.ofList value)
        | value => .draft <$> d.set setting (String.ofList value)

/-- Read a long option, without its dashes. -/
def longOption (arg : String) (d : Draft) (cs : List Char) : Except UsageFault Meaning :=
  let word := String.ofList (cs.takeWhile (· != '='))
  match cs.dropWhile (· != '=') with
  | _ :: value => match Setting.ofLong? word with
    | some setting => .draft <$> d.set setting (String.ofList value)
    | none => .error (.unexpected arg)
  | [] =>
    if word = "verbose" then .draft <$> d.setVerbose
    else if word = "no-assemble" then .draft <$> d.setNoAssemble
    else if word = "version" then .ok .version
    else match Setting.ofLong? word with
      | some setting => .ok (.awaits d setting)
      | none => .error (.unexpected arg)

/-- Read an argument in front of `--`. -/
def argument (d : Draft) (arg : String) : Except UsageFault Meaning :=
  if isOption arg then
    match arg.toList with
    | '-' :: '-' :: cs => longOption arg d cs
    | _ :: cs => shortFlags arg d cs
    | [] => .error (.unexpected arg)
  else .draft <$> d.setSource arg

/-- Read arguments behind others. -/
def arguments (d : Draft) : List String → Except UsageFault Request
  | [] => .build <$> d.options
  | "--" :: rest => do .build <$> (← rest.foldlM Draft.setSource d).options
  | arg :: rest => do
    match ← argument d arg with
    | .version => return .version
    | .draft d => arguments d rest
    | .awaits d setting => match rest with
      | [] => .error (.missingValue setting.text)
      | value :: rest =>
        if isOption value then .error (.missingValue setting.text)
        else do arguments (← d.set setting value) rest

/-- Read a command line. -/
def Request.ofArguments (args : List String) : Except UsageFault Request := arguments {} args

end Javelet.Command
