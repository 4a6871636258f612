/-!
# Sixteen-bit units

Text is measured, indexed and ordered by its UTF-16 code units: a character outside the basic plane
counts as two.
-/

namespace TreeScript.Text

def charUnits (c : Char) : List Nat :=
  if c.toNat < 0x10000 then [c.toNat]
  else [0xD800 + (c.toNat - 0x10000) / 0x400, 0xDC00 + (c.toNat - 0x10000) % 0x400]

def units (s : String) : List Nat :=
  s.toList.flatMap charUnits

def unitCount (s : String) : Nat :=
  s.toList.foldl (fun n c => n + if c.toNat < 0x10000 then 1 else 2) 0

/-- The text of one code unit.  Half of a surrogate pair stands for no character and becomes the
replacement character. -/
def unitText (unit : Nat) : String :=
  if 0xD800 ≤ unit && unit ≤ 0xDFFF then "\uFFFD" else String.singleton (Char.ofNat unit)

def unitIn : List Char → Nat → Option Nat
  | [], _ => none
  | c :: cs, index =>
    let here := charUnits c
    if index < here.length then here[index]? else unitIn cs (index - here.length)

def unitAt (s : String) (index : Nat) : Option String :=
  (unitIn s.toList index).map unitText

def unitsBefore : List Nat → List Nat → Bool
  | _, [] => false
  | [], _ :: _ => true
  | a :: as, b :: bs => a < b || (a == b && unitsBefore as bs)

def before (a b : String) : Bool :=
  unitsBefore (units a) (units b)

end TreeScript.Text
