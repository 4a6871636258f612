import TreeScript.Toml.Basic

/-!
# Tables under construction

A configuration file fills its tables piece by piece, under headings and under keys with dots.  A
table that has a heading is closed to keys with dots, and nothing is defined twice.
-/

namespace TreeScript.Toml

/-- A place in a table: the keys of the tables on the way, and the key in the last of them. -/
structure Place where
  path : List String
  key : String
  deriving DecidableEq, Inhabited

namespace Place

def ofKeys? : List String → Option Place
  | [] => none
  | [key] => some ⟨[], key⟩
  | key :: keys => (ofKeys? keys).map fun p => { p with path := key :: p.path }

def keys (p : Place) : List String := p.path ++ [p.key]

end Place

/-- What leads to a table: a heading, or keys with dots in a line or in a table on one line. -/
inductive Route where
  | heading
  | line
  | inline
  deriving DecidableEq, Inhabited

def Route.isDotted (route : Route) : Bool := route != .heading

inductive Layout where
  | value (v : Toml)
  /-- A table; `headed` if it has a heading of its own, `dotted` if keys with dots made it. -/
  | table (headed dotted : Bool) (entries : List (String × Layout))
  /-- Tables under one repeated heading, the latest first. -/
  | tables (items : List Layout)
  deriving Inhabited

namespace Layout

def empty : Layout := table true false []

def alter (key : String) (f : Option Layout → Except Fault Layout) :
    List (String × Layout) → Except Fault (List (String × Layout))
  | [] => do return [(key, ← f none)]
  | (k, l) :: rest => do
    if k == key then return (k, ← f (some l)) :: rest
    else return (k, l) :: (← alter key f rest)

def duplicate (key : String) (table : Option (List String)) : Fault :=
  { cause := some (.duplicate key table) }

def throughValue (route : Route) (path : List String) (key : String) (v : Toml) : Fault :=
  if route = .inline && v.isTable then duplicate key none
  else { cause := some (.notTable (path ++ [key]) v.kind) }

/-- Changes the table at the end of a path.  Tables that are missing on the way are made.  Keys with
dots do not lead into a table with a heading.  `before` holds the keys that have been passed. -/
def descend (route : Route) (f : Layout → Except Fault Layout) (before : List String) :
    List String → Layout → Except Fault Layout
  | [], l => f l
  | key :: path, table headed dotted entries => do
    let next := descend route f (before ++ [key]) path
    let entries ← alter key (fun
      | none => next (table false route.isDotted [])
      | some (table headed dotted entries) =>
        if route.isDotted && headed then .error (duplicate key none)
        else next (table headed dotted entries)
      | some (tables (l :: rest)) => do return tables ((← next l) :: rest)
      | some (tables []) => .error (duplicate key none)
      | some (value v) => .error (throughValue route before key v)) entries
    return table headed dotted entries
  | key :: _, _ => .error (duplicate key none)

/-- Adds an entry to a table, which has to be new.  Entries written with dots and without do not
mix. -/
def addEntry (throughDots : Bool) (scope : Option (List String)) (key : String) (v : Toml) :
    Layout → Except Fault Layout
  | table headed dotted entries =>
    if dotted != throughDots then .error (duplicate key none)
    else do
      let entries ← alter key (fun
        | none => .ok (value v)
        | some _ => .error (duplicate key scope)) entries
      return table headed dotted entries
  | _ => .error (duplicate key none)

/-- Adds a value at a place.  `scope` is the path of the table that the place is in, as a message
names it. -/
def insert (route : Route) (scope : Option (List String)) (place : Place) (v : Toml) :
    Layout → Except Fault Layout :=
  descend route (addEntry (!place.path.isEmpty) scope place.key v) [] place.path

/-- Gives the table under a key a heading.  It becomes the last entry. -/
def openTable (place : Place) : Layout → Except Fault Layout
  | table headed dotted entries =>
    match entries.lookup place.key with
    | none => .ok (table headed dotted (entries ++ [(place.key, empty)]))
    | some (table false false inner) =>
      let others := entries.filter (·.1 != place.key)
      .ok (table headed dotted (others ++ [(place.key, table true false inner)]))
    | some _ => .error (duplicate place.key (some place.path))
  | _ => .error (duplicate place.key (some place.path))

def openItem (place : Place) : Layout → Except Fault Layout
  | table headed dotted entries => do
    let entries ← alter place.key (fun
      | none => .ok (tables [empty])
      | some (tables items) => .ok (tables (empty :: items))
      | some _ => .error (duplicate place.key (some place.path))) entries
    return table headed dotted entries
  | _ => .error (duplicate place.key (some place.path))

def openAt (repeated : Bool) (place : Place) : Layout → Except Fault Layout :=
  descend .heading (if repeated then openItem place else openTable place) [] place.path

mutual

/-- The value, with the entries of tables in the order in which they were added. -/
def toToml : Layout → Toml
  | value v => v
  | table _ _ entries => .table (toEntries entries)
  | tables items => .array (toTomls items).reverse

def toTomls : List Layout → List Toml
  | [] => []
  | l :: ls => l.toToml :: toTomls ls

def toEntries : List (String × Layout) → List (String × Toml)
  | [] => []
  | (key, l) :: rest => (key, l.toToml) :: toEntries rest

end

def ofEntries (entries : List (Place × Toml)) : Except Fault Toml := do
  let l ← entries.foldlM (fun l (place, v) => l.insert .inline none place v) empty
  return l.toToml

end Layout

end TreeScript.Toml
