import TreeScript.Machine.Completion
import TreeScript.Machine.MachineError
import TreeScript.Realm.Binding

/-!
# Frames

A frame is one run of a unit.  It has a stack and temporaries of its own, and works in the context
that it shares with the unit that started it.
-/

namespace TreeScript

open Code

structure Context where
  env : EnvRef
  this : Value
  strict : Bool
  deriving Inhabited

def Context.global (strict : Bool) : Context :=
  ⟨Realm.globalEnv, .object Realm.globalObject, strict⟩

inductive Slot where
  | value (v : Value)
  | completion (c : Completion)
  deriving Inhabited

def Slot.value? : Slot → Option Value
  | value v => some v
  | completion _ => none

inductive Resume where
  | unit
  /-- The frame below gets the result of a call, in its own `this` and strictness.  For a
  construction there is an object to take the place of a result that is none. -/
  | call (this : Value) (strict : Bool) (constructed : Option Value)
  deriving Inhabited

structure Frame where
  artifact : Artifact
  unit : CodeUnit
  /-- The top of the stack comes first. -/
  stack : List Slot := []
  temps : Array Value
  scopes : List EnvRef := []
  next : Nat := 0
  callerEnv : EnvRef
  resume : Resume
  deriving Inhabited

namespace Frame

def start (artifact : Artifact) (id : UnitId) (callerEnv : EnvRef) (resume : Resume) :
    Except MachineError Frame :=
  match artifact.unit? id with
  | none => .error (.missingUnit id)
  | some unit =>
    .ok { artifact, unit, temps := Array.replicate unit.tempCount .undefined, callerEnv, resume }

def push (f : Frame) (s : Slot) : Frame := { f with stack := s :: f.stack }

def offset (f : Frame) : Nat := f.next - 1

def underflow (f : Frame) : MachineError := .stackUnderflow f.unit.name f.offset

def mismatch (f : Frame) (expected : SlotKind) : MachineError :=
  .slotMismatch f.unit.name f.offset expected

def finish (f : Frame) : Except MachineError Completion :=
  match f.stack with
  | [.completion c] => .ok c
  | stack => .error (.unbalancedUnit f.unit.name stack.length)

end Frame

def Code.Constant.value : Constant → Value
  | undefined => .undefined
  | null => .null
  | boolean b => .boolean b
  | number x => .number x
  | string s => .string s

def Code.Operand.value (r : Realm) (env : EnvRef) (temps : Array Value) :
    Operand → Except Fault Value
  | constant c => .ok c.value
  | binding name => r.valueOf env name
  | temporary index => .ok (temps.getD index .undefined)

end TreeScript
