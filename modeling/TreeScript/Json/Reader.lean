import TreeScript.Json.Basic
import TreeScript.Number.Literal

/-!
# Reading JSON

A strict reader: no comments, no trailing commas, no text after the value, no numbers beyond the
range of a double, no half of a surrogate pair, and no nesting past a given depth.
-/

namespace TreeScript.Json

open Number

def isSpace (c : Char) : Bool :=
  c == ' ' || c == '\t' || c == '\n' || c == '\r'

def skipSpace (cs : List Char) : List Char := cs.dropWhile isSpace

def hexUnit? (a b c d : Char) : Option Nat := hexValueOf? [a, b, c, d]

def isHighHalf (n : Nat) : Bool := 0xD800 ≤ n && n ≤ 0xDBFF

def isLowHalf (n : Nat) : Bool := 0xDC00 ≤ n && n ≤ 0xDFFF

def joinHalves (high low : Nat) : Char :=
  Char.ofNat (0x10000 + (high - 0xD800) * 0x400 + (low - 0xDC00))

def shortEscape? (c : Char) : Option Char :=
  match c with
  | '"' => some '"'
  | '\\' => some '\\'
  | '/' => some '/'
  | 'b' => some '\x08'
  | 'f' => some '\x0c'
  | 'n' => some '\n'
  | 'r' => some '\r'
  | 't' => some '\t'
  | _ => none

/-- Reads the rest of a string after its opening quote.  `acc` holds the characters so far, last
first. -/
def readString? (acc : List Char) : List Char → Option (String × List Char)
  | '"' :: cs => some (String.ofList acc.reverse, cs)
  | '\\' :: 'u' :: a :: b :: c :: d :: '\\' :: 'u' :: a' :: b' :: c' :: d' :: cs =>
    match hexUnit? a b c d with
    | none => none
    | some high =>
      if isHighHalf high then
        match hexUnit? a' b' c' d' with
        | none => none
        | some low => if isLowHalf low then readString? (joinHalves high low :: acc) cs else none
      else if isLowHalf high then none
      else readString? (Char.ofNat high :: acc) ('\\' :: 'u' :: a' :: b' :: c' :: d' :: cs)
  | '\\' :: 'u' :: a :: b :: c :: d :: cs =>
    match hexUnit? a b c d with
    | none => none
    | some n =>
      if isHighHalf n || isLowHalf n then none else readString? (Char.ofNat n :: acc) cs
  | '\\' :: c :: cs =>
    match shortEscape? c with
    | none => none
    | some e => readString? (e :: acc) cs
  | c :: cs => if c.toNat < 0x20 || c == '\\' then none else readString? (c :: acc) cs
  | [] => none

def readFraction? : List Char → Option (List Char × List Char)
  | '.' :: cs =>
    let (digits, rest) := takeDigits cs
    if digits.isEmpty then none else some (digits, rest)
  | cs => some ([], cs)

def readPower? : List Char → Option (Option Int × List Char)
  | c :: cs =>
    if c == 'e' || c == 'E' then
      let (negative, cs) := takeSign cs
      let (digits, rest) := takeDigits cs
      if digits.isEmpty then none
      else
        let n : Int := digitsValue digits
        some (some (if negative then -n else n), rest)
    else some (none, c :: cs)
  | [] => some (none, [])

structure NumberText where
  negative : Bool
  whole : List Char
  fraction : List Char
  power : Option Int

/-- Reads a number without its value.  Its first digit may be zero only if it is the last before the
point. -/
def readNumberText? (cs : List Char) : Option (NumberText × List Char) := do
  let (negative, cs) := match cs with
    | '-' :: cs => (true, cs)
    | cs => (false, cs)
  let (whole, rest) := takeDigits cs
  if whole.isEmpty || (whole.head? == some '0' && 1 < whole.length) then none
  let (fraction, rest) ← readFraction? rest
  let (power, rest) ← readPower? rest
  return (⟨negative, whole, fraction, power⟩, rest)

/-- Whether an integer numeral is kept as an integer: within 64 bits, and not a negative zero. -/
def keepsInteger (negative : Bool) (n : Nat) : Bool :=
  if negative then 0 < n && n ≤ 0x8000000000000000 else n < 0x10000000000000000

def finite? (x : Float) : Option Json :=
  if x.isFinite then some (.float x) else none

/-- The value of a number, unless it is too large for a double. -/
def NumberText.value? (t : NumberText) : Option Json :=
  let n := digitsValue t.whole
  if t.fraction.isEmpty && t.power.isNone && keepsInteger t.negative n then
    some (.int (if t.negative then -(n : Int) else n))
  else
    finite? (ofDecimal t.negative (digitsValue (t.whole ++ t.fraction))
      (t.power.getD 0 - t.fraction.length))

def readNumber? (cs : List Char) : Option (Json × List Char) := do
  let (t, rest) ← readNumberText? cs
  return (← t.value?, rest)

mutual

/-- Reads one value.  `fuel` bounds the number of values and separators still to come, and `room` is
the number of arrays and objects that may still be opened inside each other. -/
def readValue? : Nat → Nat → List Char → Option (Json × List Char)
  | 0, _, _ => none
  | fuel + 1, room, cs =>
    match skipSpace cs with
    | 'n' :: 'u' :: 'l' :: 'l' :: rest => some (.null, rest)
    | 't' :: 'r' :: 'u' :: 'e' :: rest => some (.bool true, rest)
    | 'f' :: 'a' :: 'l' :: 's' :: 'e' :: rest => some (.bool false, rest)
    | '"' :: rest => (readString? [] rest).map fun (s, rest) => (.str s, rest)
    | '[' :: rest =>
      match room with
      | 0 => none
      | room + 1 =>
        match skipSpace rest with
        | ']' :: rest => some (.arr [], rest)
        | rest => readItems? fuel room [] rest
    | '\x7b' :: rest =>
      match room with
      | 0 => none
      | room + 1 =>
        match skipSpace rest with
        | '\x7d' :: rest => some (.obj [], rest)
        | rest => readFields? fuel room [] rest
    | cs => readNumber? cs

def readItems? : Nat → Nat → List Json → List Char → Option (Json × List Char)
  | 0, _, _, _ => none
  | fuel + 1, room, acc, cs =>
    match readValue? fuel room cs with
    | none => none
    | some (item, rest) =>
      match skipSpace rest with
      | ',' :: rest => readItems? fuel room (item :: acc) rest
      | ']' :: rest => some (.arr (item :: acc).reverse, rest)
      | _ => none

def readFields? : Nat → Nat → List (String × Json) → List Char → Option (Json × List Char)
  | 0, _, _, _ => none
  | fuel + 1, room, acc, cs =>
    match skipSpace cs with
    | '"' :: rest =>
      match readString? [] rest with
      | none => none
      | some (name, rest) =>
        match skipSpace rest with
        | ':' :: rest =>
          match readValue? fuel room rest with
          | none => none
          | some (value, rest) =>
            match skipSpace rest with
            | ',' :: rest => readFields? fuel room ((name, value) :: acc) rest
            | '\x7d' :: rest => some (.obj ((name, value) :: acc).reverse, rest)
            | _ => none
        | _ => none
    | _ => none

end

def read? (room : Nat) (text : String) : Option Json :=
  let cs := text.toList
  match readValue? (cs.length + 1) room cs with
  | some (value, rest) => if (skipSpace rest).isEmpty then some value else none
  | none => none

end TreeScript.Json
