import TreeScript.Realm.Environment
import TreeScript.Realm.Fault
import TreeScript.Realm.Object

/-!
# Realms

A realm holds every object and every environment of a program, along with what the program has
printed and how deep its calls are.  Objects and environments are only ever added.
-/

namespace TreeScript

structure Realm where
  objects : Array Object
  environments : Array Environment
  output : Array String := #[]
  callDepth : Nat := 0
  maxCallDepth : Nat := 256
  traceUnits : Bool := false
  invocations : KeyTable Nat := .empty
  deriving Inhabited

/-- A computation in a realm.  What was done before a fault stays done. -/
abbrev RealmM := EStateM Fault Realm

namespace Realm

/-! ## The first objects -/

def globalEnv : EnvRef := ⟨0⟩

def objectPrototype : ObjectRef := ⟨0⟩

def functionPrototype : ObjectRef := ⟨1⟩

def arrayPrototype : ObjectRef := ⟨2⟩

def errorPrototype : ObjectRef := ⟨3⟩

def globalObject : ObjectRef := ⟨4⟩

def defaultCallDepth : Nat := 256

def plainObject : Object where
  kind := .ordinary
  prototype := objectPrototype

def nameAndMessage (o : Object) (name message : String) : Object :=
  (o.define "name" (.hidden (.string name))).define "message" (.hidden (.string message))

def globalBindings : Environment :=
  (({} : Environment).bind "undefined" .undefined
    |>.bind "NaN" (.number Number.notANumber)
    |>.bind "Infinity" (.number (Number.infinity false)))

def create (maxCallDepth : Nat) (traceUnits : Bool) : Realm where
  objects := #[{ kind := .ordinary }, plainObject, plainObject,
    nameAndMessage plainObject "Error" "", plainObject]
  environments := #[globalBindings]
  maxCallDepth
  traceUnits

/-! ## Objects and environments -/

def object? (r : Realm) (ref : ObjectRef) : Option Object := r.objects[ref.index]?

def object (r : Realm) (ref : ObjectRef) : Object := r.objects.getD ref.index { kind := .ordinary }

def modifyObject (r : Realm) (ref : ObjectRef) (f : Object → Object) : Realm :=
  { r with objects := r.objects.modify ref.index f }

def addObject (r : Realm) (o : Object) : ObjectRef × Realm :=
  (⟨r.objects.size⟩, { r with objects := r.objects.push o })

def env (r : Realm) (ref : EnvRef) : Environment := r.environments.getD ref.index {}

def modifyEnv (r : Realm) (ref : EnvRef) (f : Environment → Environment) : Realm :=
  { r with environments := r.environments.modify ref.index f }

def addEnv (r : Realm) (outer : Option EnvRef) : EnvRef × Realm :=
  (⟨r.environments.size⟩, { r with environments := r.environments.push { outer } })

/-! ## New objects -/

def newObject (r : Realm) : ObjectRef × Realm := r.addObject plainObject

/-- An object with the given prototype, or the usual one if that is not an object. -/
def derive (r : Realm) (prototype : Value) : ObjectRef × Realm :=
  r.addObject { kind := .ordinary, prototype := prototype.object?.getD objectPrototype }

def newArray (r : Realm) (elements : List Value) : ObjectRef × Realm :=
  r.addObject (.ofElements arrayPrototype elements)

def newError (r : Realm) (name message : String) : ObjectRef × Realm :=
  r.addObject (nameAndMessage { kind := .error, prototype := errorPrototype } name message)

def newRegExp (r : Realm) (pattern flags : String) : ObjectRef × Realm :=
  let flag (c : Char) : Property := .hidden (.boolean (flags.toList.contains c))
  r.addObject (({ kind := .regExp pattern flags, prototype := objectPrototype } : Object)
    |>.define "source" (.hidden (.string pattern))
    |>.define "global" (flag 'g')
    |>.define "ignoreCase" (flag 'i')
    |>.define "multiline" (flag 'm')
    |>.define "lastIndex" (.hidden (.number (Number.zero false))))

def newFunction (r : Realm) (closure : Closure) : ObjectRef × Realm :=
  let function : ObjectRef := ⟨r.objects.size⟩
  let prototype : ObjectRef := ⟨r.objects.size + 1⟩
  let arity := closure.info.params.length
  let functionObject : Object :=
    ({ kind := .function closure, prototype := functionPrototype } : Object)
      |>.define "prototype" (.hidden (.object prototype))
      |>.define "length" (.hidden (.number (Number.ofNat arity)))
      |>.define "name" (.hidden (.string (closure.info.name.getD "")))
  let prototypeObject : Object :=
    plainObject.define "constructor" ⟨.object function, true, false, true⟩
  (function, { r with objects := (r.objects.push functionObject).push prototypeObject })

/-- The value that a program sees when it catches a fault. -/
def materialize (r : Realm) : Fault → Value × Realm
  | .value v => (v, r)
  | .error kind message =>
    let (ref, r) := r.newError kind.name message
    (.object ref, r)

/-! ## Output and counters -/

def print (r : Realm) (line : String) : Realm := { r with output := r.output.push line }

def takeOutput (r : Realm) : List String × Realm := (r.output.toList, { r with output := #[] })

def enterCall? (r : Realm) : Option Realm :=
  if r.callDepth < r.maxCallDepth then some { r with callDepth := r.callDepth + 1 } else none

def exitCall (r : Realm) : Realm := { r with callDepth := r.callDepth - 1 }

def runsOf (r : Realm) (unit : String) : Nat := (r.invocations.find? unit).getD 0

def countRun (r : Realm) (unit : String) : Realm :=
  if r.traceUnits then { r with invocations := r.invocations.insert unit (r.runsOf unit + 1) }
  else r

end Realm

end TreeScript
