import TreeScript.Json.Basic
import TreeScript.Machine.Completion
import TreeScript.Realm.Conversion

/-!
# Snapshots

Values as JSON, together with every object that can be reached from them.  Objects are numbered as
they are first seen: those of the values first, and then, object by object, the prototype and the
values of the properties.
-/

namespace TreeScript.Snapshot

open Json (str bool arr obj nat)

abbrev Seen := StateM (Array ObjectRef)

def number (ref : ObjectRef) : Seen Nat := do
  let seen ← get
  match seen.findIdx? (· = ref) with
  | some i => return i
  | none =>
    set (seen.push ref)
    return seen.size

def primitive (object : ObjectRef → Json) : Value → Json
  | .undefined => obj [("t", str "undefined")]
  | .null => obj [("t", str "null")]
  | .boolean b => obj [("t", str "boolean"), ("v", bool b)]
  | .number x => obj [("t", str "number"), ("v", .float x)]
  | .string s => obj [("t", str "string"), ("v", str s)]
  | .object ref => object ref

def value (v : Value) : Seen Json := do
  match v with
  | .object ref => return obj [("t", str "object"), ("id", nat (← number ref))]
  | v => return primitive (fun _ => .null) v

def option (f : α → Seen Json) : Option α → Seen Json
  | none => return .null
  | some a => f a

def kindParts : ObjectKind → List (String × Json)
  | .ordinary => [("kind", str "Ordinary")]
  | .array => [("kind", str "Array")]
  | .error => [("kind", str "Error")]
  | .regExp pattern flags =>
    [("kind", str "RegExp"), ("pattern", str pattern), ("flags", str flags)]
  | .function { info, .. } =>
    [("kind", str "Function"), ("name", Json.option str info.name),
      ("params", Json.strings info.params), ("strict", bool info.strict),
      ("self_binding", bool info.selfBinding)]

/-- The attributes of a property, one letter for each that it has. -/
def attributes (p : Property) : String :=
  (if p.writable then "w" else "") ++ (if p.enumerable then "e" else "")
    ++ (if p.configurable then "c" else "")

def object (o : Object) : Seen Json := do
  let proto ← option (fun ref => return nat (← number ref)) o.prototype
  let props ← (o.ownKeys.filterMap fun key => (o.own? key).map (key, ·)).mapM fun (key, p) => do
    return arr [str key, ← value p.value, str (attributes p)]
  return obj (kindParts o.kind ++ [("proto", proto), ("props", arr props)])

def objects (r : Realm) : Nat → Nat → Seen (List Json)
  | 0, _ => return []
  | n + 1, i => do
    match (← get)[i]? with
    | none => return []
    | some ref =>
      let entry ← object (r.object ref)
      return entry :: (← objects r n (i + 1))

/-- Some parts of a record, with the objects that they mention as the part `heap`. -/
def withHeap (r : Realm) (parts : Seen (List (String × Json))) : List (String × Json) :=
  let all : Seen (List (String × Json)) := do
    let parts ← parts
    let heap ← objects r r.objects.size 0
    return parts ++ [("heap", arr heap)]
  (all.run #[]).1

def completion (c : Completion) : Seen Json := do
  return obj [("kind", str c.kind.name), ("value", ← option value c.value),
    ("target", Json.option str c.target)]

/-- A completion with its display, or nothing if the text of its value has no end. -/
def ofCompletion (r : Realm) (c : Completion) : Option (List (String × Json)) := do
  let display ← r.text? c.valueOrUndefined
  return withHeap r do return [("completion", ← completion c), ("display", str display)]

def shallow (r : Realm) (v : Value) : Json :=
  primitive (fun _ =>
    obj [("t", str "object"), ("type_of", str (r.typeName v)), ("str", str (r.toText v))]) v

end TreeScript.Snapshot
