import TreeScript.Code.Encoding
import TreeScript.Code.Listing
import TreeScript.Engine
import TreeScript.Json.Writer

/-!
# The command line

What the program does with its arguments, given the files and variables that it finds.
-/

namespace TreeScript.CommandLine

open Code Syntax

/-! ## Arguments -/

structure Options where
  file : String
  emit : Option EmitMode := none
  strict : Bool := false
  config : Option String := none
  verbose : Bool := false
  deriving DecidableEq, Inhabited

inductive Command where
  | help
  | version
  | compile (o : Options)
  deriving DecidableEq, Inhabited

inductive UsageError where
  | unexpected (argument : String)
  | missingValue (option : String)
  | unexpectedValue (option value : String)
  | invalidValue (option value reason : String)
  | repeated (option : String)
  | missingFile
  deriving DecidableEq, Inhabited

structure Draft where
  file : Option String := none
  emit : Option EmitMode := none
  strict : Bool := false
  config : Option String := none
  verbose : Bool := false

namespace Draft

def setFile (d : Draft) (argument : String) : Except UsageError Draft :=
  if d.file.isSome then .error (.unexpected argument)
  else if argument.isEmpty then .error (.missingValue "<FILE>")
  else .ok { d with file := some argument }

def setConfig (d : Draft) (value : String) : Except UsageError Draft :=
  if d.config.isSome then .error (.repeated "--config <PATH>")
  else if value.isEmpty then .error (.missingValue "--config <PATH>")
  else .ok { d with config := some value }

def setEmit (d : Draft) (value : String) : Except UsageError Draft :=
  if d.emit.isSome then .error (.repeated "--emit <EMIT>")
  else
    match Config.readEmit value with
    | .ok mode => .ok { d with emit := some mode }
    | .error e => .error (.invalidValue "--emit <EMIT>" value e.message)

def setStrict (d : Draft) : Except UsageError Draft :=
  if d.strict then .error (.repeated "--strict") else .ok { d with strict := true }

def setVerbose (d : Draft) : Except UsageError Draft :=
  if d.verbose then .error (.repeated "--verbose") else .ok { d with verbose := true }

def finish (d : Draft) : Except UsageError Command :=
  match d with
  | { file := none, .. } => .error .missingFile
  | { file := some file, emit, strict, config, verbose } =>
    .ok (.compile { file, emit, strict, config, verbose })

end Draft

inductive Argument where
  | separator
  | long (name : String) (value : Option String)
  | short (letters : List Char)
  | plain

def Argument.of (argument : String) : Argument :=
  match argument.toList with
  | ['-', '-'] => separator
  | '-' :: '-' :: cs =>
    let name := String.ofList (cs.takeWhile (· != '='))
    match cs.dropWhile (· != '=') with
    | _ :: value => long name (some (String.ofList value))
    | [] => long name none
  | '-' :: c :: cs => short (c :: cs)
  | _ => plain

def isValue (argument : String) : Bool :=
  match Argument.of argument with
  | .plain => true
  | _ => false

/-- Reads arguments.  A request for help or the version counts as soon as it is met. -/
def parseFrom (d : Draft) : List String → Except UsageError Command
  | [] => d.finish
  | argument :: rest =>
    match Argument.of argument with
    | .separator => do (← rest.foldlM Draft.setFile d).finish
    | .plain => do parseFrom (← d.setFile argument) rest
    | .short ('h' :: _) => .ok .help
    | .short ('V' :: _) => .ok .version
    | .short _ => .error (.unexpected argument)
    | .long name (some value) =>
      match name with
      | "emit" => do parseFrom (← d.setEmit value) rest
      | "config" => do parseFrom (← d.setConfig value) rest
      | "strict" | "verbose" | "help" | "version" => .error (.unexpectedValue ("--" ++ name) value)
      | _ => .error (.unexpected argument)
    | .long name none =>
      match name, rest with
      | "help", _ => .ok .help
      | "version", _ => .ok .version
      | "strict", rest => do parseFrom (← d.setStrict) rest
      | "verbose", rest => do parseFrom (← d.setVerbose) rest
      | "emit", value :: rest =>
        if isValue value then do parseFrom (← d.setEmit value) rest
        else .error (.missingValue "--emit <EMIT>")
      | "config", value :: rest =>
        if isValue value then do parseFrom (← d.setConfig value) rest
        else .error (.missingValue "--config <PATH>")
      | "emit", [] => .error (.missingValue "--emit <EMIT>")
      | "config", [] => .error (.missingValue "--config <PATH>")
      | _, _ => .error (.unexpected argument)

def parse (arguments : List String) : Except UsageError Command := parseFrom {} arguments

/-! ## Texts -/

def programName : String := "cinder"

def versionText : String := programName ++ " 0.1.0\n"

def usage : String := s!"Usage: {programName} [OPTIONS] <FILE>\n"

def helpText : String :=
  "Compile and run JSON program trees\n\n" ++ usage ++ "\n" ++
  "Arguments:\n" ++
  "  <FILE>  Program tree (JSON) to compile\n\n" ++
  "Options:\n" ++
  "      --emit <EMIT>    What to do with the compiled program: run, disasm or json\n" ++
  "      --strict         Compile as strict code regardless of directives\n" ++
  "      --config <PATH>  Extra configuration file, applied after cinder.toml\n" ++
  "      --verbose        Enable verbose logging\n" ++
  "  -h, --help           Print help\n" ++
  "  -V, --version        Print version\n"

def UsageError.detail : UsageError → String
  | unexpected argument => s!"unexpected argument '{argument}' found"
  | missingValue option => s!"a value is required for '{option}' but none was supplied"
  | unexpectedValue option value =>
    s!"unexpected value '{value}' for '{option}' found; no more were expected"
  | invalidValue option value reason => s!"invalid value '{value}' for '{option}': {reason}"
  | repeated option => s!"the argument '{option}' cannot be used multiple times"
  | missingFile => "the following required arguments were not provided:\n  <FILE>"

def UsageError.message (e : UsageError) : String :=
  s!"error: {e.detail}\n\n{usage}\nFor more information, try '--help'.\n"

def red (s : String) : String := "\x1b[1m\x1b[31m" ++ s ++ "\x1b[39m\x1b[0m"

def dimmed (s : String) : String := "\x1b[2m" ++ s ++ "\x1b[0m"

def yellow (s : String) : String := "\x1b[33m" ++ s ++ "\x1b[39m"

/-! ## Running -/

structure Report where
  code : Nat := 0
  stdout : String := ""
  stderr : String := ""
  deriving DecidableEq, Inhabited

structure Host where
  user : Option Config.File := none
  vars : List (String × String) := []
  /-- The content of a file, or what the system says in its stead. -/
  read : String → Except String String

def projectFile : String := "cinder.toml"

def missingText : String := "No such file or directory (os error 2)"

def failed (chain : List String) : Report where
  code := 1
  stderr := red "Error" ++ ": " ++ ": ".intercalate chain ++ "\n"

def ioChain (cause : String) : List String := ["IO error: " ++ cause, cause]

def engineChain (e : EngineError) : List String :=
  match e with
  | .compile cause => [e.message, cause.message]
  | .machine cause => [e.message, cause.message]
  | .programTree => [e.message]

def projectConfig (host : Host) : Except String (Option Config.File) :=
  match host.read projectFile with
  | .ok content => .ok (some (projectFile, content))
  | .error cause => if cause = missingText then .ok none else .error cause

def hostConfig (host : Host) : Except (List String) Config :=
  match projectConfig host with
  | .error cause => .error ("failed to load configuration" :: ioChain cause)
  | .ok project =>
    (Config.load host.user project host.vars).mapError fun e =>
      ["failed to load configuration", e.message]

def extraConfig (host : Host) (file : String) (c : Config) : Except (List String) Config :=
  let context := "failed to read " ++ file
  match host.read file with
  | .error cause => .error (context :: ioChain cause)
  | .ok content =>
    match Config.setFile file content c with
    | .ok _ c => .ok c
    | .error e _ => .error [context, e.message]

def configure (host : Host) (o : Options) : Except (List String) Config := do
  let c ← hostConfig host
  let c ← match o.config with
    | none => .ok c
    | some file => extraConfig host file c
  return { c with strict := c.strict || o.strict, emit := o.emit.getD c.emit }

def loadProgram (host : Host) (file : String) : Except (List String) Program :=
  let context := "failed to load " ++ file
  match host.read file with
  | .error cause => .error (context :: ioChain cause)
  | .ok content =>
    match Program.ofText? content with
    | some p => .ok p
    | none => .error (context :: engineChain .programTree)

def reportCompletion (e : Engine) (c : Completion) : Option Report := do
  let (lines, e) := e.takeOutput
  let printed := Listing.ofLines lines
  let shown ← e.display c.valueOrUndefined
  if c.kind = .throw then
    return { code := 1, stdout := printed, stderr := red "Uncaught" ++ ": " ++ shown ++ "\n" }
  else if c.value.isSome then
    return { stdout := printed ++ dimmed "=>" ++ " " ++ yellow shown ++ "\n" }
  else return { stdout := printed }

def emit (p : Program) (strict : Bool) (shown : Artifact → String) : Report :=
  match Lowering.compile p strict with
  | .ok a => { stdout := shown a }
  | .error e => failed [e.message]

/-- Does what the options say; nothing if there is not enough fuel or a text has no end. -/
def perform (fuel : Nat) (host : Host) (o : Options) : Option Report :=
  match do return (← configure host o, ← loadProgram host o.file) with
  | .error chain => some (failed chain)
  | .ok (config, p) =>
    match config.emit with
    | .disasm => some (emit p config.strict Artifact.listing)
    | .json => some (emit p config.strict fun a => a.encode.indented ++ "\n")
    | .run => do
      match ← (Engine.create config).eval fuel p with
      | (.ok c, e) => reportCompletion e c
      | (.error error, _) => return failed (engineChain error)

def execute (fuel : Nat) (host : Host) (arguments : List String) : Option Report :=
  match parse arguments with
  | .error e => some { code := 2, stderr := e.message }
  | .ok .help => some { stdout := helpText }
  | .ok .version => some { stdout := versionText }
  | .ok (.compile o) => perform fuel host o

def filesToRead (arguments : List String) : List String :=
  match parse arguments with
  | .ok (.compile o) => projectFile :: o.file :: o.config.toList
  | _ => []

end TreeScript.CommandLine
