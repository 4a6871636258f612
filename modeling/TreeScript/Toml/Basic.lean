import TreeScript.Number.Written
import TreeScript.Toml.Moment

/-!
# TOML values

The values of a configuration file, and how a message shows them.
-/

namespace TreeScript

inductive Toml where
  | string (value : String)
  | integer (value : Int)
  | float (value : Float)
  | boolean (value : Bool)
  | moment (value : Toml.Moment)
  | array (items : List Toml)
  | table (entries : List (String × Toml))
  deriving Inhabited

namespace Toml

/-! ## Kinds -/

def kind : Toml → String
  | string _ => "string"
  | integer _ => "integer"
  | float _ => "float"
  | boolean _ => "boolean"
  | moment _ => "datetime"
  | array _ => "array"
  | table _ => "inline table"

def isTable : Toml → Bool
  | table _ => true
  | _ => false

/-! ## Text -/

mutual

def text : Toml → String
  | string s => quoted s
  | integer n => toString n
  | float x => Number.settingText x
  | boolean b => if b then "true" else "false"
  | moment m => m.text
  | array items => "[" ++ ", ".intercalate (itemTexts items) ++ "]"
  | table [] => "\x7b\x7d"
  | table entries => "\x7b " ++ ", ".intercalate (entryTexts entries) ++ " \x7d"

def itemTexts : List Toml → List String
  | [] => []
  | t :: ts => t.text :: itemTexts ts

def entryTexts : List (String × Toml) → List String
  | [] => []
  | (key, t) :: ts => (keyText key ++ " = " ++ t.text) :: entryTexts ts

end

/-- The key of a table that stands for a moment.  Its value is the text of the moment. -/
def momentKey : String := "$__toml_private_datetime"

/-- The text of a value as a setting: a string stands for itself, and a moment is shown as the table
that stands for it. -/
def settingText : Toml → String
  | string s => s
  | moment m => (table [(momentKey, string m.text)]).text
  | t => t.text

def found : Toml → String
  | string s => "string " ++ quoted s
  | integer n => "integer " ++ symbol (toString n)
  | float x => "floating point " ++ symbol (if x.isNaN then "NaN" else Number.settingText x)
  | boolean b => "boolean " ++ symbol (if b then "true" else "false")
  | array _ => "sequence"
  | moment _ | table _ => "map"

/-! ## Moments in disguise and order -/

/-- Puts an entry in its place among entries that are in the order of their keys. -/
def insertSorted (entry : String × Toml) : List (String × Toml) → List (String × Toml)
  | [] => [entry]
  | e :: rest => if entry.1 < e.1 then entry :: e :: rest else e :: insertSorted entry rest

/-- The moment that a value under the reserved key is the text of. -/
def ofMomentText : Toml → Except Fault Toml
  | string s =>
    match Moment.ofText? s with
    | some m => .ok (moment m)
    | none => .error { cause := some .notMoment }
  | v => .error { cause := some (.notText v.found) }

/-- The value under the reserved key, if that key comes first. -/
def momentText? : List (String × Toml) → Option Toml
  | (key, v) :: _ => if key == momentKey then some v else none
  | [] => none

mutual

/-- The value with the entries of each table in the order of their keys.  A table whose first entry
has the reserved key is the moment with that text. -/
def settled : Toml → Except Fault Toml
  | array items => do return array (← settledItems items)
  | table entries =>
    match momentText? entries with
    | some v => ofMomentText v
    | none => do return table (← settledEntries entries)
  | v => .ok v

def settledItems : List Toml → Except Fault (List Toml)
  | [] => .ok []
  | v :: vs => do return (← v.settled) :: (← settledItems vs)

def settledEntries : List (String × Toml) → Except Fault (List (String × Toml))
  | [] => .ok []
  | (key, v) :: rest => do
    let v ← v.settled
    return insertSorted (key, v) (← settledEntries rest)

end

end Toml

end TreeScript
