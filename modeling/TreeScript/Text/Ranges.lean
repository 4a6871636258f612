/-!
# Sets of characters

A property that a standard gives by a table is a list of ranges of code points, looked up by
halving.  The tables of this library are those of Unicode 17.
-/

namespace TreeScript.Text

/-- Inclusive ranges of code points, in increasing order. -/
abbrev Ranges := Array (Nat × Nat)

namespace Ranges

/-- Ranges by their sizes and the distances between them.  The first number says how many code
points come before the first range, the second how many it has, the third how many lie between it
and the next one, and so on. -/
def ofRuns (runs : Array Nat) : Ranges := (go 0 runs.toList).toArray
where
  go (start : Nat) : List Nat → List (Nat × Nat)
    | gap :: size :: runs => (start + gap, start + gap + size - 1) :: go (start + gap + size) runs
    | _ => []

/-- Whether `n` lies in one of the ranges between positions `lo` and `hi`. -/
def containsBetween (r : Ranges) (n : Nat) : Nat → Nat → Nat → Bool
  | 0, _, _ => false
  | fuel + 1, lo, hi =>
    if lo < hi then
      let mid := (lo + hi) / 2
      match r[mid]? with
      | none => false
      | some (first, last) =>
        if n < first then r.containsBetween n fuel lo mid
        else if last < n then r.containsBetween n fuel (mid + 1) hi
        else true
    else false

def contains (r : Ranges) (c : Char) : Bool :=
  r.containsBetween c.toNat r.size 0 r.size

end Ranges

end TreeScript.Text
