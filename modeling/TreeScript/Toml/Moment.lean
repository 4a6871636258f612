import TreeScript.Number.Literal
import TreeScript.Toml.Fault

/-!
# Dates and times

The days and hours a configuration file can name: a date, a time, or both, and then an offset from
universal time as well.  Dates are those of the Gregorian calendar, a time may have a leap second,
and fractions of a second count up to nanoseconds.
-/

namespace TreeScript.Toml

open Number

structure Date where
  year : Nat
  month : Nat
  day : Nat
  deriving DecidableEq, Inhabited

structure Time where
  hour : Nat
  minute : Nat
  second : Nat
  nanosecond : Nat
  deriving DecidableEq, Inhabited

inductive Offset where
  | universal
  | minutes (ahead : Int)
  deriving DecidableEq, Inhabited

inductive Moment where
  | date (d : Date) (offset : Option Offset)
  | time (t : Time)
  | both (d : Date) (t : Time) (offset : Option Offset)
  deriving DecidableEq, Inhabited

/-! ## Text -/

def padded (width n : Nat) : String :=
  let digits := Nat.toDigits 10 n
  String.ofList (List.replicate (width - digits.length) '0' ++ digits)

def trimZeros (s : String) : String :=
  String.ofList (s.toList.reverse.dropWhile (· == '0')).reverse

def Date.text (d : Date) : String :=
  padded 4 d.year ++ "-" ++ padded 2 d.month ++ "-" ++ padded 2 d.day

def Time.text (t : Time) : String :=
  padded 2 t.hour ++ ":" ++ padded 2 t.minute ++ ":" ++ padded 2 t.second ++
    if t.nanosecond = 0 then "" else "." ++ trimZeros (padded 9 t.nanosecond)

def Offset.text : Offset → String
  | universal => "Z"
  | minutes ahead =>
    (if ahead < 0 then "-" else "+") ++ padded 2 (ahead.natAbs / 60) ++ ":" ++
      padded 2 (ahead.natAbs % 60)

def offsetText (offset : Option Offset) : String := (offset.map Offset.text).getD ""

def Moment.text : Moment → String
  | date d offset => d.text ++ offsetText offset
  | time t => t.text
  | both d t offset => d.text ++ "T" ++ t.text ++ offsetText offset

/-! ## Reading -/

def isLeapYear (year : Nat) : Bool :=
  year % 4 == 0 && (year % 100 != 0 || year % 400 == 0)

def daysInMonth (year month : Nat) : Nat :=
  match month with
  | 2 => if isLeapYear year then 29 else 28
  | 4 | 6 | 9 | 11 => 30
  | _ => 31

/-- The largest numbers that hours and offsets may have. -/
structure Bounds where
  hour : Nat
  offsetHour : Nat
  offsetMinute : Nat

def Bounds.plain : Bounds := ⟨23, 23, 59⟩

def Bounds.quoted : Bounds := ⟨24, 99, 99⟩

def readPair? : List Char → Option (Nat × List Char)
  | a :: b :: cs => if a.isDigit && b.isDigit then some (digitsValue [a, b], cs) else none
  | _ => none

/-- Reads two digits of a part, which have to lie between two numbers. -/
def readWithin (part : Part) (least most : Nat) (cs : List Char) :
    Except Fault (Nat × List Char) :=
  match readPair? cs with
  | none => .error { part := some part }
  | some (n, cs) =>
    if least ≤ n ∧ n ≤ most then .ok (n, cs)
    else .error { part := some part, cause := some .outOfRange }

def readSign (part : Part) (sign : Char) : List Char → Except Fault (List Char)
  | c :: cs => if c = sign then .ok cs else .error { part := some part }
  | [] => .error { part := some part }

/-- Reads a date.  It is one if four digits and a dash come first. -/
def readDate : List Char → Except Fault (Option (Date × List Char))
  | a :: b :: c :: d :: '-' :: cs =>
    let digits := [a, b, c, d]
    if digits.all Char.isDigit then do
      let year := digitsValue digits
      let (month, cs) ← readWithin .dateTime 1 12 cs
      let cs ← readSign .dateTime '-' cs
      let (day, cs) ← readWithin .dateTime 1 (daysInMonth year month) cs
      return some (⟨year, month, day⟩, cs)
    else .ok none
  | _ => .ok none

def readNanoseconds (cs : List Char) : Nat × List Char :=
  match cs with
  | '.' :: rest =>
    let (digits, rest) := takeDigits rest
    if digits.isEmpty then (0, cs)
    else
      let kept := digits.take 9
      (digitsValue (kept ++ List.replicate (9 - kept.length) '0'), rest)
  | _ => (0, cs)

/-- Reads a time.  It is one if an hour and a colon come first. -/
def readTime (bounds : Bounds) (part : Part) (cs : List Char) :
    Except Fault (Option (Time × List Char)) :=
  match readPair? cs with
  | some (hour, ':' :: cs) =>
    if bounds.hour < hour then .ok none
    else do
      let (minute, cs) ← readWithin part 0 59 cs
      let cs ← readSign part ':' cs
      let (second, cs) ← readWithin part 0 60 cs
      let (nanosecond, cs) := readNanoseconds cs
      return some (⟨hour, minute, second, nanosecond⟩, cs)
  | _ => .ok none

/-- Reads the hours and minutes of an offset, which are at most a day. -/
def readOffsetMinutes (bounds : Bounds) (cs : List Char) : Except Fault (Nat × List Char) := do
  let (hours, cs) ← readWithin .offset 0 bounds.offsetHour cs
  let cs ← readSign .offset ':' cs
  let (minutes, cs) ← readWithin .offset 0 bounds.offsetMinute cs
  let total := 60 * hours + minutes
  if 24 * 60 < total then throw { part := some .offset } else return (total, cs)

def readOffset (bounds : Bounds) : List Char → Except Fault (Option Offset × List Char)
  | 'Z' :: cs | 'z' :: cs => .ok (some .universal, cs)
  | '+' :: cs => do
    let (n, cs) ← readOffsetMinutes bounds cs
    return (some (.minutes n), cs)
  | '-' :: cs => do
    let (n, cs) ← readOffsetMinutes bounds cs
    return (some (.minutes (-(n : Int))), cs)
  | cs => .ok (none, cs)

def isDivider (c : Char) : Bool := c == 'T' || c == 't' || c == ' '

/-- Reads a date or a time or both, if one of them begins here. -/
def readMoment (bounds : Bounds) (cs : List Char) : Except Fault (Option (Moment × List Char)) := do
  match ← readDate cs with
  | none => return (← readTime bounds .time cs).map fun (t, cs) => (.time t, cs)
  | some (d, []) => return some (.date d none, [])
  | some (d, c :: cs) =>
    match ← if isDivider c then readTime bounds .dateTime cs else .ok none with
    | none => return some (.date d none, c :: cs)
    | some (t, cs) =>
      let (offset, cs) ← readOffset bounds cs
      return some (.both d t offset, cs)

/-- The moment that a text is.  In a text a date can have an offset without a time. -/
def Moment.ofText? (s : String) : Option Moment :=
  match readMoment .quoted s.toList with
  | .ok (some (m, [])) => some m
  | .ok (some (.date d _, cs)) =>
    match readOffset .quoted cs with
    | .ok (offset, []) => some (.date d offset)
    | _ => none
  | _ => none

end TreeScript.Toml
