import TreeScript.Number.Literal
import TreeScript.Number.Word
import TreeScript.Number.Written

/-!
# Values

The values of the language.  Objects and environments live in a realm, and are known elsewhere by
their number in it.
-/

namespace TreeScript

structure ObjectRef where
  index : Nat
  deriving DecidableEq, Inhabited

structure EnvRef where
  index : Nat
  deriving DecidableEq, Inhabited

inductive Value where
  | undefined
  | null
  | boolean (value : Bool)
  | number (value : Float)
  | string (value : String)
  | object (ref : ObjectRef)
  deriving Inhabited

namespace Value

def isUndefined : Value → Bool
  | undefined => true
  | _ => false

def isNullish : Value → Bool
  | undefined | null => true
  | _ => false

def object? : Value → Option ObjectRef
  | object ref => some ref
  | _ => none

def truthy : Value → Bool
  | undefined | null => false
  | boolean b => b
  | number x => !x.isNaN && x != Number.zero false
  | string s => !s.isEmpty
  | object _ => true

def ofBool (b : Bool) : Float := Number.ofNat b.toNat

/-- The number that a primitive value stands for.  An object has none of its own. -/
def ownNumber : Value → Float
  | undefined | object _ => Number.notANumber
  | null => Number.zero false
  | boolean b => ofBool b
  | number x => x
  | string s => Number.ofText s

def text? : Value → Option String
  | undefined => some "undefined"
  | null => some "null"
  | boolean b => some (if b then "true" else "false")
  | number x => some (Number.text x)
  | string s => some s
  | object _ => none

/-- Equality without conversion: a NaN equals nothing, the two zeros are equal, and objects are
equal if they are the same. -/
def strictEquals : Value → Value → Bool
  | undefined, undefined | null, null => true
  | boolean a, boolean b => a == b
  | number x, number y => x == y
  | string s, string t => s == t
  | object a, object b => a = b
  | _, _ => false

end Value

end TreeScript
