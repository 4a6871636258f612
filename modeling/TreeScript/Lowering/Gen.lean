import TreeScript.Code.Builder
import TreeScript.Code.Registry

/-!
# Generating code

Code is generated for one unit at a time, while the registry collects the units that are nested in
it.  When generation fails, the registry keeps what it had reserved.
-/

namespace TreeScript.Lowering

open Code

abbrev Compile := ExceptT CompileError (StateM Registry)

abbrev Gen := StateT Builder Compile

def build (x : Building α) : Gen α := fun b =>
  match x b with
  | .ok a b => return (a, b)
  | .error e _ => throw e

def emit (i : Instruction) : Gen Unit := modify (·.emit i)

def newLabel : Gen Label := modifyGet Builder.newLabel

def newLabels (count : Nat) : Gen Label := modifyGet (·.newLabels count)

def place (label : Label) : Gen Unit := build (Builder.place label)

def intern (operand : Operand) : Gen OperandIndex := build (Builder.intern operand)

def binding (name : String) : Gen OperandIndex := intern (.binding name)

def load (operand : Operand) : Gen Unit := build (Builder.load operand)

def loadConstant (c : Constant) : Gen Unit := load (.constant c)

def allocate (count : Nat) : Gen Nat := build (Builder.allocate count)

def operate (op : Operation) (supplied : Nat) : Gen Unit :=
  build (Builder.operate op supplied)

def unsupported (construct : Unsupported) : Gen α := do
  throw (.unsupported construct (← get).unit)

def tooMany (what : Numbered) : Gen α := do
  throw (.tooMany what (← get).unit)

/-- Compiles a unit of its own.  Its number is taken before its body is generated. -/
def compileUnit (role : Role) (strict : Bool) (body : Gen Unit) : Compile UnitId := do
  let name := (← get).nextName role
  let id ← ExceptT.mk (modifyGet (·.reserve role))
  let (_, builder) ← body.run { unit := name }
  let unit ← liftExcept (builder.finish role strict)
  modify (·.fill id unit)
  return id

def inUnit (role : Role) (strict : Bool) (body : Gen Unit) : Gen UnitId :=
  StateT.lift (compileUnit role strict body)

def invoke (role : Role) (strict : Bool) (body : Gen Unit) : Gen Unit := do
  emit (.invoke (← inUnit role strict body))

def addFunction (info : FunctionInfo) : Gen FunctionId :=
  StateT.lift (modifyGet (·.addFunction info) : Compile FunctionId)

end TreeScript.Lowering
