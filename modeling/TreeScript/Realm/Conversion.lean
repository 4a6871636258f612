import TreeScript.Realm.Basic
import TreeScript.Text.Units

/-!
# Conversions

An object converts through its text.  The text of an array is made of the texts of its elements, and
an array inside itself adds nothing; the text of an error is made of its name and message.
-/

namespace TreeScript.Realm

/-! ## The chain of prototypes -/

/-- Follows the links of `next` for at most `n` steps. -/
def follow (next : ObjectRef → Option ObjectRef) : Nat → Option ObjectRef → List ObjectRef
  | 0, _ | _, none => []
  | n + 1, some ref => ref :: follow next n (next ref)

def ancestors (r : Realm) (start : Option ObjectRef) : List ObjectRef :=
  follow (fun ref => (r.object ref).prototype) r.objects.size start

def lineage (r : Realm) (ref : ObjectRef) : List Object :=
  (r.ancestors (some ref)).map r.object

/-- The value of a property in the first object of the chain that has it. -/
def getFrom (r : Realm) (ref : ObjectRef) (key : String) : Value :=
  match (r.lineage ref).findSome? (·.own? key) with
  | some property => property.value
  | none => .undefined

/-! ## Text -/

def functionText (name : String) : String :=
  s!"function {name}() \x7b [compiled code] \x7d"

def errorText (name message : String) : String :=
  if message.isEmpty then name else s!"{name}: {message}"

/-- The text of a value, if `n` levels of objects are enough for it.  The arrays in `visiting` are
being written. -/
def writeText? (r : Realm) : Nat → List ObjectRef → Value → Option String
  | _, _, .undefined => some "undefined"
  | _, _, .null => some "null"
  | _, _, .boolean b => some (if b then "true" else "false")
  | _, _, .number x => some (Number.text x)
  | _, _, .string s => some s
  | 0, _, .object _ => none
  | n + 1, visiting, .object ref =>
    let o := r.object ref
    match o.kind with
    | .ordinary => some "[object Object]"
    | .function closure => some (functionText (closure.info.name.getD ""))
    | .regExp pattern flags => some s!"/{pattern}/{flags}"
    | .error => do
      let name ← writeText? r n visiting (r.getFrom ref "name")
      let message ← writeText? r n visiting (r.getFrom ref "message")
      return errorText name message
    | .array =>
      if visiting.contains ref then some ""
      else do
        let parts ← (List.range o.arrayLength).mapM fun i =>
          match r.getFrom ref (toString i) with
          | .undefined | .null => some ""
          | element => writeText? r n (ref :: visiting) element
        return ",".intercalate parts

/-- Levels enough for every value whose text is finite: between two arrays that are being written
there can be no more errors than there are objects. -/
def textLevels (r : Realm) : Nat := (r.objects.size + 1) * (r.objects.size + 1)

/-- The text of a value, if writing it comes to an end. -/
def text? (r : Realm) (v : Value) : Option String := r.writeText? r.textLevels [] v

/-- The text of a value that has one.  An operation that needs the text of another value does not
come to its end, so nothing is ever made of the empty text that stands for it here. -/
def toText (r : Realm) (v : Value) : String := (r.text? v).getD ""

/-- Whether one of the values has no text, which can only be an object. -/
def endless (r : Realm) (vs : List Value) : Bool :=
  vs.any fun v => v.object?.isSome && (r.text? v).isNone

/-! ## Other conversions -/

def toPrimitive (r : Realm) (v : Value) : Value :=
  match v with
  | .object _ => .string (r.toText v)
  | v => v

def toNumber (r : Realm) (v : Value) : Float :=
  (r.toPrimitive v).ownNumber

def isCallable (r : Realm) (v : Value) : Bool :=
  match v with
  | .object ref => (r.object ref).closure?.isSome
  | _ => false

def typeName (r : Realm) (v : Value) : String :=
  match v with
  | .undefined => "undefined"
  | .null => "object"
  | .boolean _ => "boolean"
  | .number _ => "number"
  | .string _ => "string"
  | .object _ => if r.isCallable v then "function" else "object"

end TreeScript.Realm
