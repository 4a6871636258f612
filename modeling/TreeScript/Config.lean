import TreeScript.Text.Lowercase
import TreeScript.Toml.Reader

/-!
# Configuration

Settings come as names and values, from files, variables and the command line.  Later ones win, and
those before a bad one count.
-/

namespace TreeScript

inductive EmitMode where
  | run
  | disasm
  | json
  deriving DecidableEq, Inhabited

namespace EmitMode

def all : List EmitMode := [.run, .disasm, .json]

def name : EmitMode → String
  | run => "run"
  | disasm => "disasm"
  | json => "json"

def ofName? (name : String) : Option EmitMode := all.find? (·.name == name)

end EmitMode

structure Config where
  strict : Bool := false
  maxCallDepth : Nat := 256
  traceUnits : Bool := false
  emit : EmitMode := .run
  deriving DecidableEq, Inhabited

inductive ConfigError where
  | emitMode (value : String)
  | callDepth (value : String)
  | boolean (key value : String)
  | unknownKey (key : String)
  /-- A file that is no configuration at all. -/
  | malformed (file : String) (fault : Toml.Fault)
  deriving DecidableEq, Inhabited

def ConfigError.detail : ConfigError → String
  | emitMode value => s!"unknown emit mode '{value}' (expected run, disasm or json)"
  | callDepth value => s!"max-call-depth must be a number, got '{value}'"
  | boolean key value => s!"{key} must be true or false, got '{value}'"
  | unknownKey key => s!"unknown configuration key '{key}'"
  | malformed file fault => s!"{file}: {fault.message}"

def ConfigError.message (e : ConfigError) : String := "configuration error: " ++ e.detail

/-- Changes to a configuration.  What was set before an error stays set. -/
abbrev Configure := EStateM ConfigError Config

namespace Config

def readBool (key value : String) : Except ConfigError Bool :=
  if value = "true" ∨ value = "1" then .ok true
  else if value = "false" ∨ value = "0" then .ok false
  else .error (.boolean key value)

def readEmit (value : String) : Except ConfigError EmitMode :=
  match EmitMode.ofName? value with
  | some mode => .ok mode
  | none => .error (.emitMode value)

/-- A call depth is a number of 64 bits. -/
def readDepth (value : String) : Except ConfigError Nat :=
  match Number.readNatural? 0x10000000000000000 value.toList with
  | some depth => .ok depth
  | none => .error (.callDepth value)

def withSetting (c : Config) (key value : String) : Except ConfigError Config := do
  match key with
  | "strict" => return { c with strict := ← readBool key value }
  | "trace-units" => return { c with traceUnits := ← readBool key value }
  | "max-call-depth" => return { c with maxCallDepth := ← readDepth value }
  | "emit" => return { c with emit := ← readEmit value }
  | _ => throw (.unknownKey key)

def set (key value : String) : Configure Unit := do
  MonadStateOf.set (← liftExcept ((← get).withSetting key value))

def setAll (settings : List (String × String)) : Configure Unit :=
  settings.forM fun (key, value) => set key value

/-! ## Variables -/

def variableLead : String := "CINDER_"

/-- The setting that a variable names: without the lead, in small letters, with `-` for `_`. -/
def keyOfVariable? (name : String) : Option String :=
  if variableLead.isPrefixOf name then
    let key := Text.lowercase (String.ofList (name.toList.drop variableLead.length))
    some (key.map fun c => if c == '_' then '-' else c)
  else none

def setVariables (vars : List (String × String)) : Configure Unit :=
  setAll (vars.filterMap fun (name, value) => (keyOfVariable? name).map (·, value))

/-! ## Files -/

/-- Changes the settings that a file names, in the order of their names. -/
def setFile (file content : String) : Configure Unit :=
  match Toml.read content with
  | .error fault => throw (.malformed file fault)
  | .ok entries => setAll (entries.map fun (key, v) => (key, v.settingText))

abbrev File := String × String

def setSources (user project : Option File) (vars : List (String × String)) :
    Configure Unit := do
  user.forM fun (file, content) => setFile file content
  project.forM fun (file, content) => setFile file content
  setVariables vars

def load (user project : Option File) (vars : List (String × String)) :
    Except ConfigError Config :=
  match setSources user project vars {} with
  | .ok _ c => .ok c
  | .error e _ => .error e

end Config

end TreeScript
