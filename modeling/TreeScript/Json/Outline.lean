import TreeScript.Json.Reader

/-!
# Reading a record with unknown fields

A text that holds a record may have fields that the record does not know.  Their values are passed
over: they have to have the form of JSON, but numbers may be out of range, surrogates unpaired and
arrays and objects nested without bound.
-/

namespace TreeScript.Json

def skipString? : List Char → Option (List Char)
  | '"' :: cs => some cs
  | '\\' :: 'u' :: a :: b :: c :: d :: cs =>
    if (hexUnit? a b c d).isSome then skipString? cs else none
  | '\\' :: c :: cs => if (shortEscape? c).isSome then skipString? cs else none
  | c :: cs => if c.toNat < 0x20 || c == '\\' then none else skipString? cs
  | [] => none

def skipName? (cs : List Char) : Option (List Char) := do
  match skipSpace cs with
  | '"' :: cs =>
    match skipSpace (← skipString? cs) with
    | ':' :: cs => some cs
    | _ => none
  | _ => none

mutual

def skipValue? : Nat → List Char → Option (List Char)
  | 0, _ => none
  | fuel + 1, cs =>
    match skipSpace cs with
    | 'n' :: 'u' :: 'l' :: 'l' :: rest => some rest
    | 't' :: 'r' :: 'u' :: 'e' :: rest => some rest
    | 'f' :: 'a' :: 'l' :: 's' :: 'e' :: rest => some rest
    | '"' :: rest => skipString? rest
    | '[' :: rest =>
      match skipSpace rest with
      | ']' :: rest => some rest
      | rest => skipItems? fuel rest
    | '\x7b' :: rest =>
      match skipSpace rest with
      | '\x7d' :: rest => some rest
      | rest => skipFields? fuel rest
    | cs => (readNumberText? cs).map (·.2)

def skipItems? : Nat → List Char → Option (List Char)
  | 0, _ => none
  | fuel + 1, cs => do
    match skipSpace (← skipValue? fuel cs) with
    | ',' :: rest => skipItems? fuel rest
    | ']' :: rest => some rest
    | _ => none

def skipFields? : Nat → List Char → Option (List Char)
  | 0, _ => none
  | fuel + 1, cs => do
    match skipSpace (← skipValue? fuel (← skipName? cs)) with
    | ',' :: rest => skipFields? fuel rest
    | '\x7d' :: rest => some rest
    | _ => none

end

/-- Reads one field of a record whose parts are `names`.  The value of another field is left out. -/
def readPart? (names : List String) (fuel room : Nat) (cs : List Char) :
    Option (List (String × Json) × List Char) := do
  match skipSpace cs with
  | '"' :: cs =>
    let (name, cs) ← readString? [] cs
    match skipSpace cs with
    | ':' :: cs =>
      if names.contains name then
        let (value, cs) ← readValue? fuel room cs
        return ([(name, value)], cs)
      else return ([], ← skipValue? fuel cs)
    | _ => none
  | _ => none

/-- Reads the fields of a record from the first one on.  `acc` has the parts so far, last first. -/
def readParts? (names : List String) (fuel room : Nat) :
    Nat → List (String × Json) → List Char → Option (Json × List Char)
  | 0, _, _ => none
  | n + 1, acc, cs => do
    let (part, cs) ← readPart? names fuel room cs
    match skipSpace cs with
    | ',' :: cs => readParts? names fuel room n (part ++ acc) cs
    | '\x7d' :: cs => return (.obj (part ++ acc).reverse, cs)
    | _ => none

/-- Reads a whole text as a record with the parts `names`.  Other fields are left out. -/
def readRecord? (names : List String) (room : Nat) (text : String) : Option Json := do
  let cs := text.toList
  let fuel := cs.length + 1
  let (value, rest) ← match skipSpace cs with
    | '\x7b' :: cs =>
      match skipSpace cs with
      | '\x7d' :: cs => some (.obj [], cs)
      | cs => readParts? names fuel (room - 1) fuel [] cs
    | cs => readValue? fuel room cs
  if (skipSpace rest).isEmpty then some value else none

end TreeScript.Json
