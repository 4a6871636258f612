import TreeScript.Toml.Layout
import TreeScript.Toml.Scalar

/-!
# Reading configuration files
-/

namespace TreeScript.Toml

def skipBlank (cs : List Char) : List Char := cs.dropWhile isBlank

/-- Passes over blanks, comments and ends of lines.  A comment has to have an end of line after it,
or the end of the text unless `closed` is set; `inComment` is set within one. -/
def skipLines? (closed : Bool) (inComment : Bool) : List Char → Option (List Char)
  | '\n' :: cs | '\r' :: '\n' :: cs => skipLines? closed false cs
  | c :: cs =>
    if inComment then if isTextChar c then skipLines? closed true cs else none
    else if isBlank c then skipLines? closed false cs
    else if c == '#' then skipLines? closed true cs
    else if c == '\r' then none
    else some (c :: cs)
  | [] => if inComment && closed then none else some []

def skipSpace? (closed : Bool) : List Char → Option (List Char) := skipLines? closed false

def readLineEnd (cs : List Char) : Except Fault (List Char) :=
  let rest := match skipBlank cs with
    | '#' :: cs => cs.dropWhile isTextChar
    | cs => cs
  if rest.isEmpty then .ok []
  else
    match newline? rest with
    | some cs => .ok cs
    | none => .error { expected := ["newline", symbol "#"] }

/-! ## Keys -/

def readKey (cs : List Char) : Except Fault (Option (String × List Char)) :=
  match cs with
  | '"' :: cs => (readBasic [] cs).map some
  | '\'' :: cs => (readLiteral [] cs).map some
  | cs =>
    match cs.takeWhile isBareKeyChar with
    | [] => .ok none
    | key => .ok (some (String.ofList key, cs.dropWhile isBareKeyChar))

/-- The most keys of a place, and the most arrays and tables on one line inside each other. -/
def maxNesting : Nat := 79

/-- Reads keys with dots between them, at most so many.  A dot without a key after it is left. -/
def readKeys : Nat → List Char → Except Fault (List String × List Char)
  | 0, cs => .ok ([], cs)
  | n + 1, cs => do
    match ← readKey (skipBlank cs) with
    | none => return ([], cs)
    | some (key, cs) =>
      match skipBlank cs with
      | '.' :: cs =>
        match ← readKeys n cs with
        | ([], _) => return ([key], '.' :: cs)
        | (keys, cs) => return (key :: keys, cs)
      | cs => return ([key], cs)

def readPlace (cs : List Char) : Except Fault (Place × List Char) := do
  let (keys, cs) ← readKeys (maxNesting + 1) cs
  match Place.ofKeys? keys with
  | none => throw { part := some .key, absent := true }
  | some place =>
    if maxNesting < keys.length then throw { cause := some .nesting, absent := true }
    else return (place, cs)

def readEquals : List Char → Except Fault (List Char)
  | '=' :: cs => .ok (skipBlank cs)
  | _ => .error { expected := [symbol ".", symbol "="] }

/-! ## Values -/

def arrayFault : Fault := { part := some .array, expected := [symbol "]"] }

/-- The end of a table on one line with the given entries. -/
def closeEntries (entries : List (Place × Toml)) (cs : List Char) :
    Except Fault (Toml × List Char) := do
  let v ← Layout.ofEntries entries
  match cs with
  | '\x7d' :: cs => return (v, cs)
  | _ => throw { part := some .inlineTable, expected := [symbol "\x7d"] }

mutual

/-- Reads a value.  `fuel` bounds the number of steps, and `room` is the number of arrays and tables
that may still be inside each other. -/
def readValue : Nat → Nat → List Char → Except Fault (Toml × List Char)
  | 0, _, _ => .error {}
  | fuel + 1, room, cs =>
    match cs, room with
    | '[' :: _, 0 | '\x7b' :: _, 0 => .error { cause := some .nesting }
    | '[' :: cs, room + 1 => readItems fuel room [] cs
    | '\x7b' :: cs, room + 1 => readEntries fuel room [] cs
    | cs, _ => readScalar cs

/-- The rest of an array.  `acc` holds the items so far, last first. -/
def readItems : Nat → Nat → List Toml → List Char → Except Fault (Toml × List Char)
  | 0, _, _, _ => .error {}
  | fuel + 1, room, acc, cs =>
    match skipSpace? true cs with
    | none => .error {}
    | some (']' :: cs) => .ok (.array acc.reverse, cs)
    | some cs =>
      match readValue fuel room cs with
      | .error f => .error (if f.absent then arrayFault else f)
      | .ok (v, cs) =>
        match skipSpace? true cs with
        | some (',' :: cs) => readItems fuel room (v :: acc) cs
        | some (']' :: cs) => .ok (.array (v :: acc).reverse, cs)
        | _ => .error arrayFault

/-- The rest of a table on one line.  `acc` holds the entries so far, last first; after the last one
no comma may stand. -/
def readEntries : Nat → Nat → List (Place × Toml) → List Char → Except Fault (Toml × List Char)
  | 0, _, _, _ => .error {}
  | fuel + 1, room, acc, cs =>
    match readPlace cs with
    | .error f =>
      if f.absent then closeEntries acc.reverse (if acc.isEmpty then skipBlank cs else ',' :: cs)
      else .error f
    | .ok (place, cs) => do
      let (v, cs) ← readValue fuel room (← readEquals cs)
      match skipBlank cs with
      | ',' :: cs => readEntries fuel room ((place, v) :: acc) cs
      | cs => closeEntries ((place, v) :: acc).reverse cs

end

/-! ## Files -/

/-- A file as far as it has been read, and the path of the heading that the next line is under. -/
structure Draft where
  file : Layout := .empty
  heading : List String := []
  deriving Inhabited

namespace Draft

def insert (d : Draft) (place : Place) (v : Toml) : Except Fault Draft := do
  let change := Layout.insert .line (some d.heading) place v
  return { d with file := ← d.file.descend .heading change [] d.heading }

def start (d : Draft) (repeated : Bool) (place : Place) : Except Fault Draft := do
  return { file := ← d.file.openAt repeated place, heading := place.keys }

end Draft

/-- Reads a heading: whether it may be repeated, its place and the rest of the line. -/
def readHeading : List Char → Except Fault (Bool × Place × List Char)
  | '[' :: '[' :: cs => do
    let (place, cs) ← readPlace cs
    match cs with
    | ']' :: ']' :: cs => return (true, place, cs)
    | _ => throw { expected := [symbol ".", symbol "]]"] }
  | '[' :: c :: cs => do
    let (place, cs) ← readPlace (c :: cs)
    match cs with
    | ']' :: cs => return (false, place, cs)
    | _ => throw { expected := [symbol ".", symbol "]"] }
  | _ => .error {}

def readHeadingLine (d : Draft) (cs : List Char) : Except Fault (Draft × List Char) := do
  let (repeated, place, cs) ← readHeading cs
  let cs ← readLineEnd cs
  return (← d.start repeated place, cs)

/-- Reads a line with a value, which takes at most so many steps. -/
def readValueLine (fuel : Nat) (d : Draft) (cs : List Char) : Except Fault (Draft × List Char) := do
  let (place, cs) ← readPlace cs
  let (v, cs) ← readValue fuel maxNesting (← readEquals cs)
  let cs ← readLineEnd cs
  return (← d.insert place v, cs)

/-- Reads all lines of a text that has fewer characters than `n`.  Each character starts at most a
value and what the value is part of. -/
def readLines : Nat → Draft → List Char → Except Fault Draft
  | 0, _, _ => .error {}
  | n + 1, d, cs =>
    match skipSpace? false cs with
    | none => .error {}
    | some [] => .ok d
    | some ('[' :: cs) => do
      let (d, cs) ← (readHeadingLine d ('[' :: cs)).mapError (·.within .tableHeader)
      readLines n d cs
    | some cs => do
      let (d, cs) ← readValueLine (2 * n + 2) d cs
      readLines n d cs

def read (text : String) : Except Fault (List (String × Toml)) := do
  let cs := match text.toList with
    | '\uFEFF' :: cs => cs
    | cs => cs
  match (← readLines (cs.length + 1) {} cs).file.toToml with
  | .table entries => settledEntries entries
  | _ => throw {}

end TreeScript.Toml
