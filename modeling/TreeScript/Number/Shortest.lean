import TreeScript.Number.Dyadic

/-!
# The fewest digits that read back

The decimal with the fewest digits that still reads as the given double, and of two such decimals
the nearer one.  At equal distance the writer of the number has the choice.
-/

namespace TreeScript.Number

structure Decimal where
  coefficient : Nat
  exponent : Int
  deriving DecidableEq, Inhabited

namespace Decimal

def digits (d : Decimal) : List Char := Nat.toDigits 10 d.coefficient

def leading (d : Decimal) : Int := d.exponent + d.digits.length - 1

/-- Drops up to `fuel` zeros from the end of the coefficient. -/
def stripZeros : Nat → Decimal → Decimal
  | 0, d => d
  | fuel + 1, d =>
    if d.coefficient % 10 == 0 && d.coefficient != 0 then
      stripZeros fuel ⟨d.coefficient / 10, d.exponent + 1⟩
    else d

/-- The exact decimal value of `mantissa * 2 ^ exponent`. -/
def exact (mantissa : Nat) (exponent : Int) : Decimal :=
  if 0 ≤ exponent then ⟨mantissa * power 2 exponent, 0⟩
  else ⟨mantissa * power 5 (-exponent), exponent⟩

end Decimal

/-- The power of ten of the leading digit of `num / den`, for positive `num` and `den`. -/
def leadingPower (num den : Nat) : Int :=
  if den ≤ num then ((Nat.toDigits 10 (num / den)).length : Int) - 1
  else -((Nat.toDigits 10 ((den - 1) / num)).length : Int)

/-- Which of two decimals at equal distance is taken. -/
inductive Tie where
  | larger
  | even
  deriving DecidableEq, Inhabited

/-- Whether the lower neighbour is taken when both read back.  `rest / d` is the distance to it. -/
def Tie.takesLower (tie : Tie) (low rest d : Nat) : Bool :=
  2 * rest < d || (tie == .even && 2 * rest == d && low % 2 == 0)

/-- The decimal on the grid of `10 ^ place` that reads as `bits`, the nearer of the two neighbours
of `num / den` if both do. -/
def onGrid? (tie : Tie) (num den bits : Nat) (place : Int) : Option Decimal :=
  let n := num * power 10 (-place)
  let d := den * power 10 place
  let low := n / d
  let rest := n % d
  let lowHits := decimalBits low place == bits
  let highHits := decimalBits (low + 1) place == bits
  if lowHits && (!highHits || tie.takesLower low rest d) then some ⟨low, place⟩
  else if highHits then some ⟨low + 1, place⟩
  else none

/-- Tries grids of more and more digits, the first with its last digit at `10 ^ place`. -/
def firstGrid? (tie : Tie) (num den bits : Nat) : Nat → Int → Option Decimal
  | 0, _ => none
  | fuel + 1, place =>
    (onGrid? tie num den bits place).orElse fun _ => firstGrid? tie num den bits fuel (place - 1)

def shortest (tie : Tie) (d : Dyadic) : Decimal :=
  let (num, den) := d.ratio
  match firstGrid? tie num den (nearestBits num den) 17 (leadingPower num den) with
  | some found => found.stripZeros 17
  | none => .exact d.mantissa d.exponent

end TreeScript.Number
