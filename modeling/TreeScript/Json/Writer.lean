import TreeScript.Json.Basic
import TreeScript.Number.Written
import TreeScript.Text.Quoted

/-!
# Writing JSON

The compact form, on one line without spaces, and the indented form with two spaces a level.
-/

namespace TreeScript.Json

def escapeChar (c : Char) : String :=
  if c == '"' then "\\\""
  else if c == '\\' then "\\\\"
  else if c == '\x08' then "\\b"
  else if c == '\x0c' then "\\f"
  else if c == '\n' then "\\n"
  else if c == '\r' then "\\r"
  else if c == '\t' then "\\t"
  else if c.toNat < 0x20 then
    "\\u00" ++ (if c.toNat < 0x10 then "0" else "") ++ Text.hexDigits c.toNat
  else String.singleton c

def stringText (s : String) : String :=
  s.foldl (fun out c => out ++ escapeChar c) "\"" ++ "\""

mutual

def writeCompact (out : String) : Json → String
  | .null => out ++ "null"
  | .bool b => out ++ (if b then "true" else "false")
  | .int n => out ++ toString n
  | .float x => out ++ Number.dataText x
  | .str s => out ++ stringText s
  | .arr items => compactItems (out ++ "[") true items ++ "]"
  | .obj fields => compactFields (out ++ "\x7b") true fields ++ "\x7d"

def compactItems (out : String) (first : Bool) : List Json → String
  | [] => out
  | j :: js => compactItems (writeCompact (if first then out else out ++ ",") j) false js

def compactFields (out : String) (first : Bool) : List (String × Json) → String
  | [] => out
  | (name, j) :: fs =>
    let out := (if first then out else out ++ ",") ++ stringText name ++ ":"
    compactFields (writeCompact out j) false fs

end

def compact (j : Json) : String := writeCompact "" j

def indentation (level : Nat) : String := String.ofList (List.replicate (2 * level) ' ')

mutual

/-- Appends the indented form of a value that starts at the given level. -/
def writeIndented (out : String) (level : Nat) : Json → String
  | .null => out ++ "null"
  | .bool b => out ++ (if b then "true" else "false")
  | .int n => out ++ toString n
  | .float x => out ++ Number.dataText x
  | .str s => out ++ stringText s
  | .arr [] => out ++ "[]"
  | .arr items =>
    indentedItems (out ++ "[") (level + 1) true items ++ "\n" ++ indentation level ++ "]"
  | .obj [] => out ++ "\x7b\x7d"
  | .obj fields =>
    indentedFields (out ++ "\x7b") (level + 1) true fields ++ "\n" ++ indentation level ++ "\x7d"

def indentedItems (out : String) (level : Nat) (first : Bool) : List Json → String
  | [] => out
  | j :: js =>
    let out := (if first then out else out ++ ",") ++ "\n" ++ indentation level
    indentedItems (writeIndented out level j) level false js

def indentedFields (out : String) (level : Nat) (first : Bool) : List (String × Json) → String
  | [] => out
  | (name, j) :: fs =>
    let out := (if first then out else out ++ ",") ++ "\n" ++ indentation level
      ++ stringText name ++ ": "
    indentedFields (writeIndented out level j) level false fs

end

def indented (j : Json) : String := writeIndented "" 0 j

end TreeScript.Json
