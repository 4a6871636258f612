import TreeScript.Number.Shortest

/-!
# Numbers as text

One set of digits, three ways of writing them down: as a script sees a number, as a data file stores
it, and as a configuration value is shown.
-/

namespace TreeScript.Number

def zeros (n : Nat) : List Char := List.replicate n '0'

namespace Decimal

/-- The digits with the point at its place, and without a point when nothing follows it. -/
def positional (d : Decimal) : List Char :=
  let ds := d.digits
  let point := d.exponent + ds.length
  if point ≤ 0 then '0' :: '.' :: zeros (-point).toNat ++ ds
  else if ds.length ≤ point then ds ++ zeros (point - ds.length).toNat
  else ds.take point.toNat ++ '.' :: ds.drop point.toNat

def significand (d : Decimal) : List Char :=
  match d.digits with
  | [] => []
  | [c] => [c]
  | c :: cs => c :: '.' :: cs

def exponentText (power : Int) : List Char :=
  (if power < 0 then '-' else '+') :: Nat.toDigits 10 power.natAbs

/-- The digits with the point after the first one, and the power of ten with its sign. -/
def scientific (d : Decimal) : List Char :=
  d.significand ++ 'e' :: exponentText d.leading

end Decimal

def signText (negative : Bool) : List Char := if negative then ['-'] else []

/-- The largest magnitude at which a whole number is written; larger ones are cut off there. -/
def wholeLimit (negative : Bool) : Nat :=
  if negative then 0x8000000000000000 else 0x7FFFFFFFFFFFFFFF

/-- The magnitude of a nonzero number as a script sees it: whole numbers in full within the signed
64-bit range, fractions positional from `10 ^ -6` on, the rest in scientific form. -/
def scriptDigits (d : Dyadic) : List Char :=
  match d.whole? with
  | some n =>
    if n < 1000000000000000000000 then Nat.toDigits 10 (min n (wholeLimit d.negative))
    else (shortest .larger d).scientific
  | none =>
    let s := shortest .larger d
    if s.leading < -6 then s.scientific else s.positional

def text (x : Float) : String :=
  match Dyadic.ofFloat? x with
  | none =>
    if x.isNaN then "NaN" else if isNegative x then "-Infinity" else "Infinity"
  | some d =>
    if d.mantissa == 0 then "0"
    else String.ofList (signText d.negative ++ scriptDigits d)

/-- The digits of a nonzero number in a data file, which always show a fraction or an exponent:
positional when the leading digit stands for `10 ^ -5` up to `10 ^ 15`. -/
def dataDigits (s : Decimal) : List Char :=
  if s.leading < -5 || 15 < s.leading then s.scientific
  else if 0 ≤ s.exponent then s.positional ++ ['.', '0']
  else s.positional

def dataText (x : Float) : String :=
  match Dyadic.ofFloat? x with
  | none => "null"
  | some d =>
    String.ofList (signText d.negative ++
      if d.mantissa == 0 then ['0', '.', '0'] else dataDigits (shortest .even d))

/-- A number as a configuration value is shown: always positional, whole numbers with `.0`. -/
def settingText (x : Float) : String :=
  match Dyadic.ofFloat? x with
  | none =>
    if x.isNaN then "nan" else if isNegative x then "-inf" else "inf"
  | some d =>
    let digits :=
      if d.mantissa == 0 then ['0', '.', '0']
      else
        let s := shortest .larger d
        if 0 ≤ s.exponent then s.positional ++ ['.', '0'] else s.positional
    String.ofList (signText d.negative ++ digits)

end TreeScript.Number
