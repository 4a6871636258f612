import TreeScript.Toml.Basic

/-!
# Strings, numbers and other plain values of a configuration file

Each reader takes a value off the front of a text and gives what is left.
-/

namespace TreeScript.Toml

open Number

/-! ## Strings -/

/-- The letters of the escapes, in the order in which a message lists them. -/
def escapeSigns : List String := ["b", "f", "n", "r", "t", "u", "U", "\\", "\""]

def readEscape (c : Char) : Except Fault Char :=
  match c with
  | 'b' => .ok '\x08'
  | 't' => .ok '\t'
  | 'n' => .ok '\n'
  | 'f' => .ok '\x0c'
  | 'r' => .ok '\r'
  | '"' => .ok '"'
  | '\\' => .ok '\\'
  | 'u' => .error { part := some .shortCode }
  | 'U' => .error { part := some .longCode }
  | _ => .error { part := some .escape, expected := escapeSigns.map symbol }

def readCode (part : Part) (digits : List Char) : Except Fault Char :=
  match hexValueOf? digits with
  | none => .error { part := some part }
  | some n =>
    if n.isValidChar then .ok (Char.ofNat n)
    else .error { part := some part, cause := some .outOfRange }

def isBlank (c : Char) : Bool := c == ' ' || c == '\t'

def newline? : List Char → Option (List Char)
  | '\n' :: cs | '\r' :: '\n' :: cs => some cs
  | _ => none

def readBasic (acc : List Char) : List Char → Except Fault (String × List Char)
  | '"' :: cs => .ok (String.ofList acc.reverse, cs)
  | '\\' :: 'u' :: a :: b :: c :: d :: cs => do
    readBasic ((← readCode .shortCode [a, b, c, d]) :: acc) cs
  | '\\' :: 'U' :: a :: b :: c :: d :: e :: f :: g :: h :: cs => do
    readBasic ((← readCode .longCode [a, b, c, d, e, f, g, h]) :: acc) cs
  | '\\' :: c :: cs => do readBasic ((← readEscape c) :: acc) cs
  | c :: cs =>
    if isTextChar c && c != '\\' then readBasic (c :: acc) cs
    else .error { part := some .basicString }
  | [] => .error { part := some .basicString }

def readLiteral (acc : List Char) : List Char → Except Fault (String × List Char)
  | '\'' :: cs => .ok (String.ofList acc.reverse, cs)
  | c :: cs =>
    if isTextChar c then readLiteral (c :: acc) cs
    else .error { part := some .literalString }
  | [] => .error { part := some .literalString }

/-- Whether only blanks are left on the line. -/
def endsLine (cs : List Char) : Bool := (newline? (cs.dropWhile isBlank)).isSome

/-- Reads the rest of a string after three double quotes.  A backslash at the end of a line joins it
with the next text; `joining` is set while the space between is passed over. -/
def readBasicLines (acc : List Char) (joining : Bool) :
    List Char → Except Fault (String × List Char)
  | '"' :: '"' :: '"' :: '"' :: '"' :: cs => .ok (String.ofList ('"' :: '"' :: acc).reverse, cs)
  | '"' :: '"' :: '"' :: '"' :: cs => .ok (String.ofList ('"' :: acc).reverse, cs)
  | '"' :: '"' :: '"' :: cs => .ok (String.ofList acc.reverse, cs)
  | '\\' :: 'u' :: a :: b :: c :: d :: cs => do
    readBasicLines ((← readCode .shortCode [a, b, c, d]) :: acc) false cs
  | '\\' :: 'U' :: a :: b :: c :: d :: e :: f :: g :: h :: cs => do
    readBasicLines ((← readCode .longCode [a, b, c, d, e, f, g, h]) :: acc) false cs
  | '\\' :: c :: cs =>
    if endsLine (c :: cs) then readBasicLines acc true (c :: cs)
    else do readBasicLines ((← readEscape c) :: acc) false cs
  | '\r' :: '\n' :: cs => readBasicLines (if joining then acc else '\n' :: acc) joining cs
  | c :: cs =>
    if joining && (isBlank c || c == '\n') then readBasicLines acc true cs
    else if (isTextChar c && c != '\\') || c == '\n' then readBasicLines (c :: acc) false cs
    else .error { part := some .basicLines }
  | [] => .error { part := some .basicLines }

def readLiteralLines (acc : List Char) : List Char → Except Fault (String × List Char)
  | '\'' :: '\'' :: '\'' :: '\'' :: '\'' :: cs =>
    .ok (String.ofList ('\'' :: '\'' :: acc).reverse, cs)
  | '\'' :: '\'' :: '\'' :: '\'' :: cs => .ok (String.ofList ('\'' :: acc).reverse, cs)
  | '\'' :: '\'' :: '\'' :: cs => .ok (String.ofList acc.reverse, cs)
  | '\r' :: '\n' :: cs => readLiteralLines ('\n' :: acc) cs
  | c :: cs =>
    if isTextChar c || c == '\n' then readLiteralLines (c :: acc) cs
    else .error { part := some .literalLines }
  | [] => .error { part := some .literalLines }

/-- An end of line directly after three quotes does not count. -/
def dropNewline (cs : List Char) : List Char := (newline? cs).getD cs

/-! ## Digits -/

/-- Whether a digit follows each underscore in a run of both. -/
def isGrouped : List Char → Bool
  | '_' :: '_' :: _ | ['_'] => false
  | _ :: cs => isGrouped cs
  | [] => true

/-- Reads digits, at least one, with underscores between them.  `missing` is what a message expects
where there is none. -/
def readDigits (part : Part) (missing : List String) (isDigit : Char → Bool) (cs : List Char) :
    Except Fault (List Char × List Char) :=
  let isRun (c : Char) : Bool := isDigit c || c == '_'
  let run := cs.takeWhile isRun
  if !cs.head?.any isDigit then .error { part := some part, expected := missing }
  else if isGrouped run then .ok (run.filter isDigit, cs.dropWhile isRun)
  else .error { part := some part, expected := "digit" :: missing }

/-- Reads the digits of a whole number, if there are any.  Nothing follows a zero in front. -/
def readWhole : List Char → Except Fault (Option (List Char × List Char))
  | '0' :: cs => .ok (some (['0'], cs))
  | c :: cs =>
    if c.isDigit then (readDigits .integer [] Char.isDigit (c :: cs)).map some else .ok none
  | [] => .ok none

/-! ## Numbers -/

def int64 (n : Int) : Except Fault Toml :=
  if n < -0x8000000000000000 then .error { cause := some .tooSmall }
  else if 0x8000000000000000 ≤ n then .error { cause := some .tooLarge }
  else .ok (.integer n)

def readBase (part : Part) (base : Nat) (cs : List Char) : Except Fault (Toml × List Char) := do
  let isDigit (c : Char) : Bool := (hexValue? c).any (· < base)
  let (digits, cs) ← readDigits part [] isDigit cs
  let n := digits.foldl (fun n c => base * n + (hexValue? c).getD 0) 0
  return (← int64 n, cs)

def isExponentMark (c : Char) : Bool := c == 'e' || c == 'E'

def readPower : List Char → Except Fault (Option (Int × List Char))
  | c :: cs =>
    if isExponentMark c then do
      let (negative, cs) := takeSign cs
      let (digits, cs) ← readDigits .float [] Char.isDigit cs
      let n : Int := exponentValue digits
      return some (if negative then -n else n, cs)
    else .ok none
  | [] => .ok none

/-- Reads the digits after the point and the exponent of a number, if it has one or the other. -/
def readTail : List Char → Except Fault (Option (List Char × Int × List Char))
  | '.' :: cs => do
    let (fraction, cs) ← readDigits .float ["digit"] Char.isDigit cs
    match ← readPower cs with
    | some (power, cs) => return some (fraction, power, cs)
    | none => return some (fraction, 0, cs)
  | cs => do return (← readPower cs).map fun (power, cs) => ([], power, cs)

/-- A number with a fraction or an exponent.  One too large for a double is refused. -/
def floatOf (negative : Bool) (digits : List Char) (power : Int) : Except Fault Toml :=
  let x := ofDecimal negative (longValue digits) power
  if x == infinity false then .error { part := some .float } else .ok (.float x)

/-- Reads a number that has neither digits nor a sign in front. -/
def readSpecial? (negative : Bool) : List Char → Option (Toml × List Char)
  | 'i' :: 'n' :: 'f' :: cs => some (.float (infinity negative), cs)
  | 'n' :: 'a' :: 'n' :: cs => some (.float notANumber, cs)
  | _ => none

def readNumber (cs : List Char) : Except Fault (Toml × List Char) := do
  let (negative, body) := takeSign cs
  match ← readWhole body with
  | none =>
    match readSpecial? negative body with
    | some result => return result
    | none => throw { part := some .integer, absent := true }
  | some (whole, rest) =>
    match ← readTail rest with
    | some (fraction, power, rest) =>
      return (← floatOf negative (whole ++ fraction) (power - fraction.length), rest)
    | none =>
      match cs with
      | '0' :: 'x' :: cs => readBase .hexadecimal 16 cs
      | '0' :: 'o' :: cs => readBase .octal 8 cs
      | '0' :: 'b' :: cs => readBase .binary 2 cs
      | _ =>
        let n : Int := longValue whole
        return (← int64 (if negative then -n else n), rest)

/-! ## Values without parts -/

def readString : List Char → Except Fault (String × List Char)
  | '"' :: '"' :: '"' :: cs => readBasicLines [] false (dropNewline cs)
  | '"' :: cs => readBasic [] cs
  | '\'' :: '\'' :: '\'' :: cs => readLiteralLines [] (dropNewline cs)
  | '\'' :: cs => readLiteral [] cs
  | _ => .error { part := some .string, absent := true }

/-- What a value is taken for that is nothing else. -/
def stringFault : Fault := { part := some .string, expected := [symbol "\"", symbol "'"] }

def readScalar (cs : List Char) : Except Fault (Toml × List Char) :=
  match cs with
  | '"' :: _ | '\'' :: _ => (readString cs).map fun (s, cs) => (.string s, cs)
  | 't' :: 'r' :: 'u' :: 'e' :: cs => .ok (.boolean true, cs)
  | 'f' :: 'a' :: 'l' :: 's' :: 'e' :: cs => .ok (.boolean false, cs)
  | 't' :: _ | 'f' :: _ => .error stringFault
  | '_' :: _ => .error { part := some .integer, expected := ["leading digit"], absent := true }
  | '.' :: _ => .error { part := some .float, expected := ["leading digit"], absent := true }
  | c :: _ =>
    if c.isDigit || c == '+' || c == '-' then do
      match ← readMoment .plain cs with
      | some (m, cs) => return (.moment m, cs)
      | none => readNumber cs
    else
      match readSpecial? false cs with
      | some result => .ok result
      | none => .error { stringFault with absent := true }
  | [] => .error { absent := true }

end TreeScript.Toml
