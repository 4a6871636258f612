import TreeScript.Realm.Conversion

/-!
# Comparison

Equality and order of values of different types.  Objects are compared through their texts, booleans
through their numbers, and texts with each other by their sixteen-bit units.
-/

namespace TreeScript

namespace Value

/-- A boolean as a number; other values as they are. -/
def countBoolean : Value → Value
  | boolean b => number (ofBool b)
  | v => v

/-- Equality of values that are neither boolean nor objects. -/
def primitiveEquals : Value → Value → Bool
  | undefined, undefined | undefined, null | null, undefined | null, null => true
  | number x, number y => x == y
  | string s, string t => s == t
  | number x, string s | string s, number x => x == Number.ofText s
  | _, _ => false

end Value

namespace Realm

/-- Equality with conversion.  Two objects are equal if they are the same, and an object is never
equal to `undefined` or `null`; otherwise primitive values are compared. -/
def looseEquals (r : Realm) (a b : Value) : Bool :=
  match a, b with
  | .object x, .object y => x = y
  | .object _, .undefined | .object _, .null | .undefined, .object _ | .null, .object _ => false
  | a, b => (r.toPrimitive a).countBoolean.primitiveEquals (r.toPrimitive b).countBoolean

/-- Whether one value comes before another; `none` if one of them is no number.  Texts are compared
by their units. -/
def less? (r : Realm) (a b : Value) : Option Bool :=
  match r.toPrimitive a, r.toPrimitive b with
  | .string s, .string t => some (Text.before s t)
  | a, b =>
    let x := a.ownNumber
    let y := b.ownNumber
    if x.isNaN || y.isNaN then none else some (decide (x < y))

end Realm

end TreeScript
