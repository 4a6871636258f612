import TreeScript.Config
import TreeScript.Lowering.Tree
import TreeScript.Machine.Run
import TreeScript.Syntax.Decoding

/-!
# Engines

An engine compiles programs and runs them in one realm, so that a program finds what earlier ones
left behind.
-/

namespace TreeScript

open Code Syntax

inductive EngineError where
  | compile (e : CompileError)
  | machine (e : MachineError)
  | programTree
  deriving DecidableEq, Inhabited

namespace EngineError

def name : EngineError → String
  | compile e => "Compile." ++ e.name
  | machine e => "Vm." ++ e.name
  | programTree => "ProgramTree"

def message : EngineError → String
  | compile e => "compile error: " ++ e.message
  | machine e => "internal error: " ++ e.message
  | programTree => "invalid program tree"

end EngineError

structure Engine where
  realm : Realm
  config : Config
  deriving Inhabited

/-- The result of running something in an engine, which is missing if there was not enough fuel or
the machine hangs. -/
abbrev Ran := Option (Except EngineError Completion × Engine)

namespace Engine

def create (config : Config) : Engine where
  realm := .create config.maxCallDepth config.traceUnits
  config

def compile (e : Engine) (p : Program) : Except EngineError Artifact :=
  (Lowering.compile p e.config.strict).mapError .compile

/-- The result of a program: a jump or a `return` out of it is an error of the code. -/
def programResult (artifact : Artifact) (c : Completion) : Except EngineError Completion :=
  match c.kind with
  | .normal | .throw => .ok c
  | kind =>
    let unit := match artifact.entryUnit? with
      | some unit => unit.name
      | none => ""
    .error (.machine (.escapedCompletion kind unit))

def run (fuel : Nat) (e : Engine) (artifact : Artifact) : Ran :=
  let ⟨realm, config⟩ := e
  let strict := artifact.entryUnit?.any CodeUnit.strict
  match runProgram fuel artifact realm strict with
  | .exhausted _ => none
  | .halted result realm _ =>
    some ((result.mapError .machine).bind (programResult artifact), { realm, config })

def eval (fuel : Nat) (e : Engine) (p : Program) : Ran :=
  match e.compile p with
  | .ok artifact => e.run fuel artifact
  | .error error => some (.error error, e)

def evalText (fuel : Nat) (e : Engine) (text : String) : Ran :=
  match Program.ofText? text with
  | some p => e.eval fuel p
  | none => some (.error .programTree, e)

def display (e : Engine) (v : Value) : Option String := e.realm.text? v

def takeOutput (e : Engine) : List String × Engine :=
  let (lines, realm) := e.realm.takeOutput
  (lines, { e with realm })

end Engine

end TreeScript
