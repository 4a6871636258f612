import TreeScript.Number.Dyadic

/-!
# JSON values

Integers and other numbers are kept apart, and an object keeps its fields in the order they were
written, repeated names included.
-/

namespace TreeScript

inductive Json where
  | null
  | bool (value : Bool)
  | int (value : Int)
  | float (value : Float)
  | str (value : String)
  | arr (items : List Json)
  | obj (fields : List (String × Json))
  deriving Inhabited

namespace Json

def nat (n : Nat) : Json := .int n

/-- A number as data.  There are no infinite numbers in JSON, so `null` stands for those and for
what is not a number. -/
def number (x : Float) : Json := if x.isFinite then .float x else .null

def option (f : α → Json) : Option α → Json
  | none => .null
  | some a => f a

def strings (items : List String) : Json := .arr (items.map .str)

mutual

/-- How deep arrays and objects are nested; a plain value has depth zero. -/
def depth : Json → Nat
  | .arr items => depthItems items + 1
  | .obj fields => depthFields fields + 1
  | _ => 0

def depthItems : List Json → Nat
  | [] => 0
  | j :: js => max j.depth (depthItems js)

def depthFields : List (String × Json) → Nat
  | [] => 0
  | (_, j) :: fs => max j.depth (depthFields fs)

end

end Json

end TreeScript
