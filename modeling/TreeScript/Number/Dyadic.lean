/-!
# Doubles as exact numbers

A finite double is a whole number times a power of two.  `Dyadic.ofFloat?` takes a double apart into
those, and `nearest` goes the other way: from an exact fraction to the closest double, with a tie
going to the even mantissa.  Everything here is arithmetic on natural numbers and integers.
-/

namespace TreeScript.Number

structure Dyadic where
  negative : Bool
  mantissa : Nat
  exponent : Int
  deriving DecidableEq, Inhabited

/-- `base ^ exponent`, and one where the exponent is negative. -/
def power (base : Nat) (exponent : Int) : Nat := Nat.pow base exponent.toNat

/-- The weight of the lowest bit of the exponent field of a double: its fraction has 52 bits. -/
def fractionWeight : Nat := 0x10000000000000

/-- The pattern of an infinite double, sign aside. -/
def infinityBits : Nat := 0x7FF0000000000000

def signBit (negative : Bool) : Nat :=
  if negative then 0x8000000000000000 else 0

def ofPattern (negative : Bool) (magnitude : Nat) : Float :=
  Float.ofBits (UInt64.ofNat (signBit negative + magnitude))

def zero (negative : Bool) : Float := ofPattern negative 0

def infinity (negative : Bool) : Float := ofPattern negative infinityBits

def notANumber : Float := Float.ofBits 0x7FF8000000000000

def isNegative (x : Float) : Bool :=
  decide (0x8000000000000000 ≤ x.toBits.toNat)

def magnitudeBits (x : Float) : Nat :=
  x.toBits.toNat % 0x8000000000000000

namespace Dyadic

/-- The exact value of a double, unless it is infinite or not a number. -/
def ofFloat? (x : Float) : Option Dyadic :=
  let bits := magnitudeBits x
  let field : Nat := bits / fractionWeight
  let fraction := bits % fractionWeight
  if field == 2047 then none
  else if field == 0 then some ⟨isNegative x, fraction, -1074⟩
  else some ⟨isNegative x, fractionWeight + fraction, (field : Int) - 1075⟩

def ratio (d : Dyadic) : Nat × Nat :=
  (d.mantissa * power 2 d.exponent, power 2 (-d.exponent))

def truncated (d : Dyadic) : Nat :=
  let (num, den) := d.ratio
  num / den

def whole? (d : Dyadic) : Option Nat :=
  let (num, den) := d.ratio
  if num % den == 0 then some (num / den) else none

def toInt (d : Dyadic) : Int :=
  if d.negative then -(d.truncated : Int) else d.truncated

end Dyadic

/-- The pattern of the double closest to `num / den`, for a positive `den`.  A value beyond the
largest finite double by half a unit or more gives the infinite pattern. -/
def nearestBits (num den : Nat) : Nat :=
  if num == 0 then 0
  else
    let guess : Int := (num.log2 : Int) - den.log2
    let below := num * power 2 (-guess) < den * power 2 guess
    let lead := if below then guess - 1 else guess
    -- The weight of the last mantissa bit; it stops falling where subnormal numbers begin.
    let unit := max (lead - 52) (-1074)
    let n := num * power 2 (-unit)
    let d := den * power 2 unit
    let quotient := n / d
    let rest := n % d
    let up := d < 2 * rest || (2 * rest == d && quotient % 2 == 1)
    let mantissa := if up then quotient + 1 else quotient
    min ((unit + 1074).toNat * fractionWeight + mantissa) infinityBits

def nearest (negative : Bool) (num den : Nat) : Float :=
  ofPattern negative (nearestBits num den)

def ofNat (n : Nat) : Float := nearest false n 1

def ofInt (n : Int) : Float := nearest (n < 0) n.natAbs 1

/-- The pattern of the double closest to `coefficient * 10 ^ exponent`.  Exponents far out of range
are decided without the power of ten. -/
def decimalBits (coefficient : Nat) (exponent : Int) : Nat :=
  if coefficient == 0 then 0
  else if 310 < exponent then infinityBits
  else if (coefficient.log2 : Int) + 1 + 3 * exponent < -1080 then 0
  else nearestBits (coefficient * power 10 exponent) (power 10 (-exponent))

def ofDecimal (negative : Bool) (coefficient : Nat) (exponent : Int) : Float :=
  ofPattern negative (decimalBits coefficient exponent)

end TreeScript.Number
