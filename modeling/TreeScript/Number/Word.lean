import TreeScript.Number.Dyadic

/-!
# Words and remainders

The integer view of a number that the bitwise operators work on, the saturating view that lengths
use, and the remainder operator.
-/

namespace TreeScript.Number

/-- The number cut to an integer, modulo `2 ^ 32`.  Infinities and NaN give zero. -/
def word (x : Float) : BitVec 32 :=
  match Dyadic.ofFloat? x with
  | none => 0
  | some d => BitVec.ofInt 32 d.toInt

def toInt32 (x : Float) : Int := (word x).toInt

def toUInt32 (x : Float) : Nat := (word x).toNat

/-- The number cut to an integer and held between zero and `2 ^ 32 - 1`; NaN gives zero. -/
def saturated32 (x : Float) : Nat :=
  match Dyadic.ofFloat? x with
  | none => if x.isNaN || isNegative x then 0 else 0xFFFFFFFF
  | some d => min d.toInt.toNat 0xFFFFFFFF

/-- The remainder of a division that rounds towards zero; it has the sign of `a`. -/
def remainder (a b : Float) : Float :=
  match Dyadic.ofFloat? a, Dyadic.ofFloat? b with
  | none, _ => notANumber
  | some _, none => if b.isNaN then notANumber else a
  | some x, some y =>
    if y.mantissa == 0 then notANumber
    else
      let base := min x.exponent y.exponent
      let n := x.mantissa * power 2 (x.exponent - base)
      let d := y.mantissa * power 2 (y.exponent - base)
      let rest := n % d
      nearest x.negative (rest * power 2 base) (power 2 (-base))

end TreeScript.Number
