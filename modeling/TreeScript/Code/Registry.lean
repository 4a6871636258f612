import TreeScript.Code.Artifact
import TreeScript.Code.CompileError
import TreeScript.KeyTable

/-!
# The units of one compilation

A unit gets its number and its name before its body is compiled, so it comes before the units inside
it.  If the body cannot be compiled the number stays taken, and so does the name.
-/

namespace TreeScript.Code

structure Slot where
  name : String
  role : Role
  unit? : Option CodeUnit

structure Registry where
  slots : Array Slot := #[]
  /-- The number of the unit with each name. -/
  names : KeyTable UnitId := .empty
  /-- How many units of each role have been named. -/
  counters : Role → Nat := fun _ => 0
  functions : Array FunctionInfo := #[]

namespace Registry

/-- A unit is named after its role and numbered among the units of that role. -/
def nextName (r : Registry) (role : Role) : String := s!"{role.tag}_{r.counters role}"

def lookup (r : Registry) (name : String) : Option UnitId := r.names.find? name

def countUp (r : Registry) (role : Role) : Registry :=
  { r with counters := fun role' => if role' = role then r.counters role + 1 else r.counters role' }

/-- Takes the next number and the next name.  The role is counted even if the name is in use. -/
def reserve (r : Registry) (role : Role) : Except CompileError UnitId × Registry :=
  let name := r.nextName role
  let id := r.slots.size
  if r.names.contains name then (.error (.duplicateUnitName name), r.countUp role)
  else (.ok id, { r.countUp role with
    slots := r.slots.push ⟨name, role, none⟩
    names := r.names.insert name id })

def fill (r : Registry) (id : UnitId) (unit : CodeUnit) : Registry :=
  { r with slots := r.slots.modify id ({ · with unit? := some unit }) }

def unit? (r : Registry) (id : UnitId) : Option CodeUnit :=
  r.slots[id]? >>= Slot.unit?

def addFunction (r : Registry) (info : FunctionInfo) : FunctionId × Registry :=
  (r.functions.size, { r with functions := r.functions.push info })

def finish (r : Registry) (entry : UnitId) : Except CompileError Artifact := do
  let units ← r.slots.mapM fun slot =>
    match slot.unit? with
    | some unit => Except.ok unit
    | none => .error (.unfinishedUnit slot.name)
  return { entry, units, functions := r.functions }

end Registry

end TreeScript.Code
