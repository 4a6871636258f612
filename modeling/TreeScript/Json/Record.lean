import TreeScript.Json.Basic

/-!
# Records and variants in JSON

How typed data is laid out in JSON.  A record is an object with one field per part, or an array of
its parts in declared order; fields it does not know are passed over.  A variant without parts is
its name, and one with parts is an object with the name as its only field.  A tagged node is a
record with its variant's name in the field `type`.  Inside a tagged node the number of a variant
may stand for its name in a tag, and an empty object for the parts of a variant that has none.
-/

namespace TreeScript.Json

abbrev Fields := List (String × Json)

def occurrences (name : String) (fields : Fields) : Nat :=
  fields.countP (·.1 == name)

/-- The named parts of a record.  A part given twice is refused, and so is an array with more items
than the record has parts. -/
def record? (names : List String) : Json → Option Fields
  | .obj fields =>
    if names.any fun name => 1 < occurrences name fields then none else some fields
  | .arr items => if items.length ≤ names.length then some (names.zip items) else none
  | _ => none

/-- The named parts of a variant, which come in an object only. -/
def variantParts? (names : List String) : Json → Option Fields
  | .obj fields => record? names (.obj fields)
  | _ => none

/-- The tag of a node.  One of the variants `tags` can also be given by its number, if the node is
inside another one. -/
def tag? (tags : List String) (inner : Bool) : Json → Option String
  | .str tag => some tag
  | .int (.ofNat n) => if inner then tags[n]? else none
  | _ => none

def tagged? (tags : List String) (inner : Bool) : Json → Option (String × Json)
  | .obj fields =>
    match fields.filter (·.1 == "type") with
    | [(_, tag)] => do return (← tag? tags inner tag, .obj (fields.filter (·.1 != "type")))
    | _ => none
  | .arr (tag :: items) => do return (← tag? tags inner tag, .arr items)
  | _ => none

def variant? : Json → Option (String × Option Json)
  | .str name => some (name, none)
  | .obj [(name, payload)] => some (name, some payload)
  | _ => none

def plainVariant? (inner : Bool) (j : Json) : Option String :=
  match variant? j with
  | some (name, none) | some (name, some .null) => some name
  | some (name, some (.obj [])) => if inner then some name else none
  | _ => none

def required (fields : Fields) (name : String) (read : Json → Option α) : Option α :=
  fields.lookup name >>= read

def nullable? (read : Json → Option α) : Json → Option (Option α)
  | .null => some none
  | j => (read j).map some

/-- A part that may be missing or `null`. -/
def optional (fields : Fields) (name : String) (read : Json → Option α) : Option (Option α) :=
  match fields.lookup name with
  | none => some none
  | some j => nullable? read j

/-- A part that may be missing, but not `null`. -/
def defaulted (fields : Fields) (name : String) (value : α) (read : Json → Option α) : Option α :=
  match fields.lookup name with
  | none => some value
  | some j => read j

def bool? : Json → Option Bool
  | .bool b => some b
  | _ => none

def str? : Json → Option String
  | .str s => some s
  | _ => none

def float? : Json → Option Float
  | .int n => some (Number.ofInt n)
  | .float x => some x
  | _ => none

def natBelow? (bound : Nat) : Json → Option Nat
  | .int (.ofNat n) => if n < bound then some n else none
  | _ => none

def list? (read : Json → Option α) : Json → Option (List α)
  | .arr items => items.mapM read
  | _ => none

end TreeScript.Json
