import TreeScript.Realm.Conversion

/-!
# Properties

Reading goes up the chain of prototypes; writing and deleting stay with the object itself.  The
`length` of an array follows its indices.
-/

namespace TreeScript.Realm

/-- Reads a property of any value.  A text has a length and its units; the other primitive values
have nothing. -/
def read (r : Realm) (base : Value) (key : String) : Except Fault Value :=
  match base with
  | .undefined | .null => .error (.cannotRead key base)
  | .object ref => .ok (r.getFrom ref key)
  | .string s =>
    if key = "length" then .ok (.number (Number.ofNat (Text.unitCount s)))
    else .ok (((Number.indexOf? key >>= Text.unitAt s).map Value.string).getD .undefined)
  | .boolean _ | .number _ => .ok .undefined

def setLength (ref : ObjectRef) (value : Value) : RealmM Unit := do
  let requested := (← get).toNumber value
  let length := Number.saturated32 requested
  if Number.ofNat length == requested then
    modify (·.modifyObject ref fun o =>
      (o.truncate length).define "length" (.hidden (.number (Number.ofNat length))))
  else throw .invalidLength

def growTo (o : Object) (index : Nat) : Object :=
  if o.arrayLength ≤ index then
    o.define "length" (.hidden (.number (Number.ofNat (index + 1))))
  else o

def putOwn (ref : ObjectRef) (key : String) (value : Value) (strict : Bool) : RealmM Unit := do
  if ((← get).object ref).canWrite key then
    modify (·.modifyObject ref (·.write key value))
  else if strict then
    throw (.readOnly key)

/-- Writes a property.  A write that is not possible fails in strict code and does nothing
elsewhere. -/
def put (base : Value) (key : String) (value : Value) (strict : Bool) : RealmM Unit := do
  match base with
  | .undefined | .null => throw (.cannotSet key base)
  | .boolean _ | .number _ | .string _ => if strict then throw (.cannotCreate key base)
  | .object ref =>
    if ((← get).object ref).isArray then
      if key = "length" then setLength ref value
      else
        match Number.indexOf? key with
        | none => pure ()
        | some index => modify (·.modifyObject ref (growTo · index))
        putOwn ref key value strict
    else putOwn ref key value strict

def delete (base : Value) (key : String) (strict : Bool) : RealmM Bool := do
  match base with
  | .undefined | .null => throw (.cannotDeleteOf key base)
  | .boolean _ | .number _ | .string _ => return true
  | .object ref =>
    if ((← get).object ref).canDelete key then
      modify (·.modifyObject ref (·.erase key))
      return true
    else if strict then
      throw (.cannotDelete key)
    else
      return false

def hasProperty (r : Realm) (ref : ObjectRef) (key : String) : Bool :=
  (r.lineage ref).any (·.hasOwn key)

/-- The keys that enumeration gives: those of the object, then those of its prototypes, as far as no
nearer object has a property of the same name. -/
def enumerateKeys (r : Realm) (value : Value) : List String :=
  match value with
  | .object ref => go [] (r.lineage ref)
  | _ => []
where
  go (seen : List String) : List Object → List String
    | [] => []
    | o :: os => o.enumerableKeys.filter (!seen.contains ·) ++ go (seen ++ o.ownKeys) os

def instanceOf (r : Realm) (value constructor : Value) : Except Fault Bool :=
  if r.isCallable constructor then do
    match (← r.read constructor "prototype").object? with
    | none => throw .instanceOfPrimitive
    | some target =>
      match value.object? with
      | none => return false
      | some ref => return (r.ancestors (r.object ref).prototype).contains target
  else throw .instanceOfUncallable

end TreeScript.Realm
