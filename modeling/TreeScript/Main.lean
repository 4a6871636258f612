import TreeScript.CommandLine

/-!
# The program

Reads the files and variables that the command line asks for, and writes what it says.
-/

namespace TreeScript.CommandLine

def readHostFile (name : String) : IO (Except String String) :=
  try
    return .ok (← IO.FS.readFile name)
  catch
    | .noFileOrDirectory .. => return .error missingText
    | e => return .error (toString e)

def hostVariables : IO (List (String × String)) := do
  match ← readHostFile "/proc/self/environ" with
  | .error _ => return []
  | .ok text =>
    return (text.splitOn "\x00").filterMap fun entry =>
      match entry.splitOn "=" with
      | name :: value :: rest => some (name, "=".intercalate (value :: rest))
      | _ => none

def userDirectory? (vars : List (String × String)) : Option String :=
  let home := (vars.lookup "HOME").map (· ++ "/.config")
  match vars.lookup "XDG_CONFIG_HOME" with
  | some directory => if directory.startsWith "/" then some directory else home
  | none => home

def userFile (vars : List (String × String)) : IO (Option Config.File) := do
  match userDirectory? vars with
  | none => return none
  | some directory =>
    let name := directory ++ "/cinder/config.toml"
    match ← readHostFile name with
    | .ok content => return some (name, content)
    | .error _ => return none

/-- Steps enough for every program that ends in a lifetime. -/
def hostFuel : Nat := 0x4000000000000000

end TreeScript.CommandLine

open TreeScript

def main (arguments : List String) : IO UInt32 := do
  let vars ← CommandLine.hostVariables
  let user ← CommandLine.userFile vars
  let files ← (CommandLine.filesToRead arguments).mapM fun name =>
    return (name, ← CommandLine.readHostFile name)
  let host : CommandLine.Host := {
    user
    vars
    read := fun name => (files.lookup name).getD (.error CommandLine.missingText) }
  match CommandLine.execute CommandLine.hostFuel host arguments with
  | none => return 1
  | some report =>
    IO.print report.stdout
    IO.eprint report.stderr
    return report.code.toUInt32
