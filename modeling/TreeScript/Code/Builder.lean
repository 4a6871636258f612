import Std.Data.TreeMap.Basic
import TreeScript.Code.Artifact
import TreeScript.Code.CompileError

/-!
# Building a unit

The code of a unit grows instruction by instruction.  A jump may name a label before the label has a
place; `finish` puts offsets in their stead and refuses a unit in which a jump leads nowhere.
-/

namespace TreeScript.Code

structure Builder where
  unit : String
  instructions : Array Instruction := #[]
  operands : Array Operand := #[]
  /-- Where each key stands among the operands. -/
  interned : Std.TreeMap OperandKey OperandIndex OperandKey.order := ∅
  labels : Array (Option Nat) := #[]
  tempCount : Nat := 0

/-- Work on a builder.  What was done before an error stays done. -/
abbrev Building := EStateM CompileError Builder

namespace Builder

def maxOperands : Nat := 65536

def maxTemporaries : Nat := 65535

def emit (b : Builder) (i : Instruction) : Builder :=
  { b with instructions := b.instructions.push i }

def newLabel (b : Builder) : Label × Builder :=
  (b.labels.size, { b with labels := b.labels.push none })

def newLabels (b : Builder) (count : Nat) : Label × Builder :=
  (b.labels.size, { b with labels := b.labels ++ Array.replicate count none })

def place (label : Label) : Building Unit := fun b =>
  match b.labels[label]? with
  | some none =>
    .ok () { b with labels := b.labels.setIfInBounds label (some b.instructions.size) }
  | _ => .error (.duplicateLabel label b.unit) b

/-- The index of an operand, which gets an entry of its own the first time. -/
def intern (operand : Operand) : Building OperandIndex := fun b =>
  match b.interned.get? operand.key with
  | some index => .ok index b
  | none =>
    let index := b.operands.size
    if index < maxOperands then
      .ok index { b with
        operands := b.operands.push operand
        interned := b.interned.insert operand.key index }
    else .error (.tooMany .operands b.unit) b

def load (operand : Operand) : Building Unit := do
  let index ← intern operand
  modify (·.emit (.load index))

def allocate (count : Nat) : Building Nat := fun b =>
  if b.tempCount + count ≤ maxTemporaries then
    .ok b.tempCount { b with tempCount := b.tempCount + count }
  else .error (.tooMany .temporaries b.unit) b

/-- Emits an operation for which `supplied` arguments are on the stack. -/
def operate (op : Operation) (supplied : Nat) : Building Unit := fun b =>
  if op.arity = supplied then .ok () (b.emit (.operate op))
  else .error (.arityMismatch op.name op.arity supplied b.unit) b

def isPlaced (b : Builder) (label : Label) : Bool :=
  match b.labels[label]? with
  | some (some _) => true
  | _ => false

def dangling? (b : Builder) : Option Label :=
  b.instructions.toList.findSome? fun i => i.target?.filter (!b.isPlaced ·)

/-- The finished unit.  Labels that nothing jumps to and that were never placed stand at its end. -/
def finish (b : Builder) (role : Role) (strict : Bool) : Except CompileError CodeUnit :=
  match b.dangling? with
  | some label => .error (.unresolvedLabel label b.unit)
  | none => .ok {
      name := b.unit
      role
      strict
      instructions := b.instructions
      operands := b.operands
      labels := b.labels.map (·.getD b.instructions.size)
      tempCount := b.tempCount }

end Builder

end TreeScript.Code
