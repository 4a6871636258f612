import TreeScript.Code.Instruction
import TreeScript.Code.Operand

/-!
# Artifacts

A compiled program: its code in units, one for every body that runs on its own, and a table of its
functions.
-/

namespace TreeScript.Code

/-- What a unit of code is the body of. -/
inductive Role where
  | program | function | then | else | body | case | default | catch | finally
  deriving DecidableEq, Inhabited

namespace Role

def all : List Role :=
  [.program, .function, .then, .else, .body, .case, .default, .catch, .finally]

def tag : Role → String
  | program => "Program"
  | function => "Function"
  | .then => "Then"
  | .else => "Else"
  | body => "Body"
  | case => "Case"
  | default => "Default"
  | .catch => "Catch"
  | .finally => "Finally"

def ofTag? (tag : String) : Option Role := all.find? (·.tag == tag)

end Role

structure CodeUnit where
  name : String
  role : Role
  strict : Bool
  instructions : Array Instruction
  operands : Array Operand
  labels : Array Nat
  tempCount : Nat
  deriving Inhabited

namespace CodeUnit

def offset? (u : CodeUnit) (label : Label) : Option Nat := u.labels[label]?

def usedVariables (u : CodeUnit) : List String :=
  (u.operands.toList.filterMap Operand.binding?).eraseDups

def invokedUnits (u : CodeUnit) : List UnitId :=
  u.instructions.toList.filterMap Instruction.invoked?

/-- Every instruction that can jump, by offset, with its label and where that leads. -/
def jumps (u : CodeUnit) : List (Nat × Label × Option Nat) :=
  u.instructions.toList.zipIdx.filterMap fun (i, offset) =>
    i.target?.map fun label => (offset, label, u.offset? label)

end CodeUnit

structure FunctionInfo where
  unit : UnitId
  name : Option String
  params : List String
  strict : Bool
  /-- Whether the function sees itself under its own name. -/
  selfBinding : Bool
  deriving DecidableEq, Inhabited

structure Artifact where
  entry : UnitId
  units : Array CodeUnit
  functions : Array FunctionInfo
  deriving Inhabited

namespace Artifact

def unit? (a : Artifact) (id : UnitId) : Option CodeUnit := a.units[id]?

def entryUnit? (a : Artifact) : Option CodeUnit := a.unit? a.entry

def unitNamed? (a : Artifact) (name : String) : Option CodeUnit :=
  a.units.find? (·.name == name)

def function? (a : Artifact) (id : FunctionId) : Option FunctionInfo := a.functions[id]?

def unitsWithRole (a : Artifact) (role : Role) : List CodeUnit :=
  a.units.toList.filter (·.role = role)

end Artifact

end TreeScript.Code
