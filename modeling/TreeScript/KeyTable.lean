/-!
# Tables in insertion order

A finite map from names that remembers the order in which its keys came.  Writing to a key that is
there keeps its place, and a key that was removed and comes back goes last.
-/

namespace TreeScript

structure KeyTable (α : Type u) where
  entries : Array (String × α) := #[]
  deriving Inhabited

namespace KeyTable

def empty : KeyTable α := {}

def position? (t : KeyTable α) (key : String) : Option Nat :=
  t.entries.findIdx? (·.1 == key)

def find? (t : KeyTable α) (key : String) : Option α :=
  (t.entries.find? (·.1 == key)).map (·.2)

def contains (t : KeyTable α) (key : String) : Bool :=
  t.entries.any (·.1 == key)

def insert (t : KeyTable α) (key : String) (value : α) : KeyTable α :=
  match t.position? key with
  | some i => ⟨t.entries.setIfInBounds i (key, value)⟩
  | none => ⟨t.entries.push (key, value)⟩

def erase (t : KeyTable α) (key : String) : KeyTable α :=
  ⟨t.entries.filter (·.1 != key)⟩

end KeyTable

end TreeScript
