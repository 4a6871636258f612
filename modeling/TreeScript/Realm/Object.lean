import TreeScript.Code.Artifact
import TreeScript.KeyTable
import TreeScript.Realm.Value

/-!
# Objects

An object is a map of properties with a kind and perhaps a prototype.  Beside the map it keeps its
keys in the order in which they came, which is the order in which they are enumerated.
-/

namespace TreeScript

open Code (Artifact FunctionInfo)

structure Closure where
  artifact : Artifact
  info : FunctionInfo
  env : EnvRef
  deriving Inhabited

inductive ObjectKind where
  | ordinary
  | array
  | function (closure : Closure)
  | error
  | regExp (pattern flags : String)
  deriving Inhabited

structure Property where
  value : Value
  writable : Bool
  enumerable : Bool
  configurable : Bool
  deriving Inhabited

namespace Property

/-- A property as an assignment makes it. -/
def data (value : Value) : Property := ⟨value, true, true, true⟩

/-- A property that can be written, but not seen by enumeration or deleted. -/
def hidden (value : Value) : Property := ⟨value, true, false, false⟩

end Property

structure Object where
  kind : ObjectKind
  prototype : Option ObjectRef := none
  properties : KeyTable Property := .empty
  order : Array String := #[]
  deriving Inhabited

namespace Object

def isArray (o : Object) : Bool :=
  match o.kind with
  | .array => true
  | _ => false

def closure? (o : Object) : Option Closure :=
  match o.kind with
  | .function closure => some closure
  | _ => none

def own? (o : Object) (key : String) : Option Property := o.properties.find? key

def hasOwn (o : Object) (key : String) : Bool := o.properties.contains key

/-- Gives an own property new attributes along with its value. -/
def define (o : Object) (key : String) (property : Property) : Object :=
  { o with
    properties := o.properties.insert key property
    order := if o.hasOwn key then o.order else o.order.push key }

def canWrite (o : Object) (key : String) : Bool :=
  match o.own? key with
  | none => true
  | some property => property.writable

/-- Gives an own property a value.  A new one can be written, enumerated and deleted. -/
def write (o : Object) (key : String) (value : Value) : Object :=
  match o.own? key with
  | none => o.define key (.data value)
  | some property => o.define key { property with value }

/-- Writes an own property; `none` if it is read-only. -/
def set? (o : Object) (key : String) (value : Value) : Option Object :=
  if o.canWrite key then some (o.write key value) else none

def canDelete (o : Object) (key : String) : Bool :=
  match o.own? key with
  | none => true
  | some property => property.configurable

def erase (o : Object) (key : String) : Object :=
  { o with properties := o.properties.erase key, order := o.order.filter (· != key) }

/-- Deletes an own property; `none` if it has to stay. -/
def delete? (o : Object) (key : String) : Option Object :=
  if o.canDelete key then some (o.erase key) else none

/-- Whether shortening to `length` removes a property: its key is an index past the end, and it can
be deleted. -/
def isPast (length : Nat) (properties : KeyTable Property) (key : String) : Bool :=
  (Number.indexOf? key).any (length ≤ ·) && (properties.find? key).any (·.configurable)

/-- Goes by the next key of the old order.  A property past the end goes, and any other key is kept
in the new order. -/
def retain (length : Nat) : KeyTable Property × Array String → String →
    KeyTable Property × Array String
  | (properties, order), key =>
    if isPast length properties key then (properties.erase key, order)
    else (properties, order.push key)

def truncate (o : Object) (length : Nat) : Object :=
  let kept := o.order.foldl (retain length) (o.properties, #[])
  { o with properties := kept.1, order := kept.2 }

def ownKeys (o : Object) : List String := o.order.toList

def enumerableKeys (o : Object) : List String :=
  o.ownKeys.filter fun key => (o.own? key).any (·.enumerable)

def arrayLength (o : Object) : Nat :=
  if o.isArray then
    match o.own? "length" with
    | some { value := .number x, .. } => Number.saturated32 x
    | _ => 0
  else 0

def ofElements (prototype : ObjectRef) (elements : List Value) : Object where
  kind := .array
  prototype := prototype
  properties :=
    ⟨(("length", Property.hidden (.number (Number.ofNat elements.length)))
      :: elements.zipIdx.map fun (v, i) => (toString i, Property.data v)).toArray⟩
  order := ("length" :: (List.range elements.length).map toString).toArray

end Object

end TreeScript
