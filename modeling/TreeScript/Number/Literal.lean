import TreeScript.Number.Dyadic
import TreeScript.Text.Blank

/-!
# Reading numbers

The numerals a script converts to numbers, and the keys that count as array indices.
-/

namespace TreeScript.Number

def digitValue (c : Char) : Nat := c.toNat - '0'.toNat

def digitsValue (cs : List Char) : Nat :=
  cs.foldl (fun n c => 10 * n + digitValue c) 0

/-- Joins each two neighbours of a number in base `base`, last digit first, to one digit in base
`base * base`. -/
def joinDigits (base : Nat) : List Nat → List Nat
  | low :: high :: ds => (low + base * high) :: joinDigits base ds
  | ds => ds

/-- The number that digits in base `base` stand for, last digit first.  Neighbours are joined up to
`n` times, which takes far less time for a long number than going through it digit by digit. -/
def joinedValue : Nat → Nat → List Nat → Nat
  | n + 1, base, low :: high :: ds =>
    joinedValue n (base * base) (joinDigits base (low :: high :: ds))
  | _, base, ds => ds.foldr (fun d value => d + base * value) 0

def longValue (cs : List Char) : Nat :=
  joinedValue 64 10 (cs.reverse.map digitValue)

def hexValue? (c : Char) : Option Nat :=
  if c.isDigit then some (digitValue c)
  else if 'a' ≤ c && c ≤ 'f' then some (c.toNat - 'a'.toNat + 10)
  else if 'A' ≤ c && c ≤ 'F' then some (c.toNat - 'A'.toNat + 10)
  else none

def hexValueOf? (cs : List Char) : Option Nat :=
  cs.foldl (fun n c => do return 16 * (← n) + (← hexValue? c)) (some 0)

/-- Takes a leading sign off.  The flag is true for a minus. -/
def takeSign : List Char → Bool × List Char
  | '-' :: cs => (true, cs)
  | '+' :: cs => (false, cs)
  | cs => (false, cs)

def takeDigits (cs : List Char) : List Char × List Char :=
  (cs.takeWhile Char.isDigit, cs.dropWhile Char.isDigit)

structure Numeral where
  negative : Bool
  coefficient : Nat
  exponent : Int
  deriving DecidableEq, Inhabited

def Numeral.toFloat (n : Numeral) : Float :=
  ofDecimal n.negative n.coefficient n.exponent

/-- The number that the digits of an exponent stand for.  Once they have reached `0x10000` the
digits after that do not count: only a numeral of that length could tell. -/
def exponentValue (cs : List Char) : Nat :=
  cs.foldl (fun n c => if n < 0x10000 then 10 * n + digitValue c else n) 0

/-- Reads the exponent of a numeral: nothing, or `e`, a sign, and at least one digit. -/
def readExponent? : List Char → Option Int
  | [] => some 0
  | c :: cs =>
    if c == 'e' || c == 'E' then
      let (negative, cs) := takeSign cs
      if cs.isEmpty || !cs.all Char.isDigit then none
      else some (if negative then -(exponentValue cs : Int) else exponentValue cs)
    else none

/-- Reads a whole text as a decimal numeral: a sign, digits with an optional point and at least one
digit among them, and an optional exponent. -/
def readDecimal? (cs : List Char) : Option Numeral :=
  let (negative, cs) := takeSign cs
  let (whole, cs) := takeDigits cs
  let (fraction, cs) := match cs with
    | '.' :: cs => takeDigits cs
    | cs => ([], cs)
  if whole.isEmpty && fraction.isEmpty then none
  else do
    let power ← readExponent? cs
    return ⟨negative, longValue (whole ++ fraction), power - fraction.length⟩

/-- Reads an unsigned number below `bound`: an optional plus and at least one digit. -/
def readNatural? (bound : Nat) (cs : List Char) : Option Nat :=
  let cs := match cs with
    | '+' :: cs => cs
    | cs => cs
  if cs.isEmpty || !cs.all Char.isDigit then none
  else if digitsValue cs < bound then some (digitsValue cs) else none

/-- Reads a hexadecimal number of at most 64 bits: an optional plus and at least one digit. -/
def readHex? (cs : List Char) : Option Nat := do
  let cs := match cs with
    | '+' :: cs => cs
    | cs => cs
  if cs.isEmpty then none
  else
    let n ← hexValueOf? cs
    if n < 0x10000000000000000 then some n else none

/-- A letter that no decimal numeral has. -/
def isStrayLetter (c : Char) : Bool :=
  c.isAlpha && c != 'e' && c != 'E'

/-- The number of a text that has no blanks around it and is not hexadecimal. -/
def readWord (cs : List Char) : Float :=
  let word := String.ofList cs
  if word == "Infinity" || word == "+Infinity" then infinity false
  else if word == "-Infinity" then infinity true
  else if cs.any isStrayLetter then notANumber
  else match readDecimal? cs with
    | some n => n.toFloat
    | none => notANumber

/-- The number a script takes a text for: blank is zero, anything that is no numeral is NaN. -/
def ofText (s : String) : Float :=
  match Text.trimBlank s.toList with
  | [] => zero false
  | '0' :: 'x' :: cs | '0' :: 'X' :: cs =>
    match readHex? cs with
    | some n => ofNat n
    | none => notANumber
  | cs => readWord cs

def indexOf? (key : String) : Option Nat :=
  match key.toList with
  | [] => none
  | '0' :: _ :: _ => none
  | cs => readNatural? 0xFFFFFFFF cs

end TreeScript.Number
