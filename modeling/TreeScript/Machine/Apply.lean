import TreeScript.Realm.Comparison
import TreeScript.Realm.Property

/-!
# Applying operations

What each operation does with its arguments.  Calls and constructions run code and are the machine's
work.
-/

namespace TreeScript

open Code (Operation)

namespace Realm

/-- The sum of two values: their texts joined if one of them is a text, else a number. -/
def add (r : Realm) (a b : Value) : Value :=
  match r.toPrimitive a, r.toPrimitive b with
  | .string s, b => .string (s ++ r.toText b)
  | a, .string t => .string (r.toText a ++ t)
  | a, b => .number (a.ownNumber + b.ownNumber)

def signed (w : BitVec 32) : Value := .number (Number.ofInt w.toInt)

def toWord (r : Realm) (v : Value) : BitVec 32 := Number.word (r.toNumber v)

/-- A shift goes by the last five bits of its second argument. -/
def shiftCount (w : BitVec 32) : Nat := w.toNat % 32

/-- Whether the first value is less than, not less than, … the second; `expected` is what comparing
them has to give. -/
def compares (r : Realm) (a b : Value) (expected : Bool) : Value :=
  .boolean (r.less? a b == some expected)

def validFlag (c : Char) : Bool := c == 'g' || c == 'i' || c == 'm'

end Realm

open Realm

def allocate (f : Realm → ObjectRef × Realm) : RealmM Value := do
  return .object (← modifyGet f)

/-- Whether two values are compared as they are: both are objects, or one is nothing. -/
def alreadyComparable (a b : Value) : Bool :=
  a.object?.isSome && b.object?.isSome || a.isNullish || b.isNullish

/-- Whether a value that is put into an object becomes the length of an array. -/
def Realm.setsLength (r : Realm) (base key : Value) : Bool :=
  base.object?.any (fun ref => (r.object ref).isArray) && r.toText key == "length"

/-- The values whose texts an operation needs, apart from those that are no objects. -/
def Realm.converted (r : Realm) (op : Operation) (args : List Value) : List Value :=
  let a := args.getD 0 .undefined
  let b := args.getD 1 .undefined
  let c := args.getD 2 .undefined
  match op with
  | .toNumber | .negate | .bitNot | .in | .print => [a]
  | .add | .subtract | .multiply | .divide | .modulo | .shiftLeft | .shiftRight
  | .shiftRightUnsigned | .bitAnd | .bitOr | .bitXor | .less | .greater | .lessEqual
  | .greaterEqual | .newRegExp => [a, b]
  | .equal | .notEqual => if alreadyComparable a b then [] else [a, b]
  | .getProperty | .deleteProperty _ => [b]
  | .putProperty _ => if r.setsLength a b then [b, c] else [b]
  | .defineProperty => if a.object?.isSome then [b] else []
  -- what cannot be called is named in the error
  | .call _ => if r.isCallable b then [] else [b]
  | .construct _ => if r.isCallable a then [] else [a]
  | _ => []

def evaluate (r : Realm) (op : Operation) (a b : Value) : Option Value :=
  match op with
  | .toBoolean => some (.boolean a.truthy)
  | .toNumber => some (.number (r.toNumber a))
  | .add => some (r.add a b)
  | .subtract => some (.number (r.toNumber a - r.toNumber b))
  | .multiply => some (.number (r.toNumber a * r.toNumber b))
  | .divide => some (.number (r.toNumber a / r.toNumber b))
  | .modulo => some (.number (Number.remainder (r.toNumber a) (r.toNumber b)))
  | .negate => some (.number (-r.toNumber a))
  | .shiftLeft => some (signed (r.toWord a <<< shiftCount (r.toWord b)))
  | .shiftRight => some (signed ((r.toWord a).sshiftRight (shiftCount (r.toWord b))))
  | .shiftRightUnsigned =>
    some (.number (Number.ofNat (r.toWord a >>> shiftCount (r.toWord b)).toNat))
  | .bitAnd => some (signed (r.toWord a &&& r.toWord b))
  | .bitOr => some (signed (r.toWord a ||| r.toWord b))
  | .bitXor => some (signed (r.toWord a ^^^ r.toWord b))
  | .bitNot => some (signed (~~~ r.toWord a))
  | .not => some (.boolean !a.truthy)
  | .typeOf => some (.string (r.typeName a))
  | .less => some (r.compares a b true)
  | .greater => some (r.compares b a true)
  | .lessEqual => some (r.compares b a false)
  | .greaterEqual => some (r.compares a b false)
  | .equal => some (.boolean (r.looseEquals a b))
  | .notEqual => some (.boolean !r.looseEquals a b)
  | .strictEqual => some (.boolean (a.strictEquals b))
  | .strictNotEqual => some (.boolean !a.strictEquals b)
  | _ => none

/-- Applies an operation to its arguments, the first one first; missing ones are `undefined`. -/
def apply (op : Operation) (args : List Value) : RealmM Value := do
  let a := args.getD 0 .undefined
  let b := args.getD 1 .undefined
  let c := args.getD 2 .undefined
  let r ← get
  match op with
  | .newArray _ => allocate (·.newArray args)
  | .newObject => allocate (·.newObject)
  | .newRegExp =>
    let pattern := r.toText a
    let flags := r.toText b
    match flags.toList.find? (!validFlag ·) with
    | some flag => throw (.regExpFlag flag)
    | none => allocate (·.newRegExp pattern flags)
  | .in =>
    match b.object? with
    | none => throw (.inPrimitive (r.toText a) (r.toText b))
    | some ref => return .boolean (r.hasProperty ref (r.toText a))
  | .instanceOf => return .boolean (← liftExcept (r.instanceOf a b))
  | .getProperty => liftExcept (r.read a (r.toText b))
  | .putProperty strict =>
    put a (r.toText b) c strict
    return c
  | .deleteProperty strict => return .boolean (← delete a (r.toText b) strict)
  | .defineProperty =>
    match a.object? with
    | none => throw .definePrimitive
    | some ref =>
      let key := r.toText b
      modify (·.modifyObject ref (·.define key (.data c)))
      return a
  | .enumerateKeys =>
    let keys := (r.enumerateKeys a).map Value.string
    allocate (·.newArray keys)
  | .print =>
    let line := r.toText a
    modify (·.print line)
    return .undefined
  | .call _ | .construct _ => throw (.notApplicable op.text)
  | _ => return (evaluate r op a b).getD .undefined

end TreeScript
