/-!
# Texts and keys of a configuration file

How a message shows a text: with as few escapes as the four kinds of quotes allow.  A key needs no
quotes if it has only letters, digits, underscores and dashes.
-/

namespace TreeScript.Toml

def isControl (c : Char) : Bool := c.toNat < 0x20 || c.toNat == 0x7F

def isTextChar (c : Char) : Bool := c == '\t' || !isControl c

def isLinesChar (c : Char) : Bool := c == '\n' || isTextChar c

def longestRun (q : Char) (cs : List Char) : Nat :=
  (cs.foldl (fun (run, best) c =>
    let run := if c == q then run + 1 else 0
    (run, max best run)) (0, 0)).2

/-- Whether nothing but tabs has to be escaped between double quotes. -/
def fitsBasic (cs : List Char) : Bool :=
  cs.all fun c => isTextChar c && c != '"' && c != '\\'

def fitsLiteral (cs : List Char) : Bool :=
  cs.all fun c => isTextChar c && c != '\''

/-- Whether nothing but tabs has to be escaped between three double quotes. -/
def fitsBasicLines (cs : List Char) : Bool :=
  cs.all (fun c => isLinesChar c && c != '\\') && longestRun '"' cs < 3

def fitsLiteralLines (cs : List Char) : Bool :=
  cs.all isLinesChar && longestRun '\'' cs < 3

def hexDigit (n : Nat) : Char := if n < 10 then Char.ofNat (48 + n) else Char.ofNat (55 + n)

/-- A character other than a double quote, in a text of several lines if `multiline` holds. -/
def escapeChar (multiline : Bool) (c : Char) : List Char :=
  match c with
  | '\x08' => ['\\', 'b']
  | '\t' => ['\\', 't']
  | '\n' => if multiline then ['\n'] else ['\\', 'n']
  | '\x0c' => ['\\', 'f']
  | '\r' => ['\\', 'r']
  | '\\' => ['\\', '\\']
  | c =>
    if isControl c then ['\\', 'u', '0', '0', hexDigit (c.toNat / 16), hexDigit (c.toNat % 16)]
    else [c]

/-- The text between double quotes.  Two quotes in a row may stand as they are in a text of several
lines, and none in one line; `run` counts those just passed. -/
def escapedFrom (multiline : Bool) (run : Nat) : List Char → List Char
  | [] => []
  | '"' :: cs =>
    if multiline && run < 2 then '"' :: escapedFrom multiline (run + 1) cs
    else '\\' :: '"' :: escapedFrom multiline 0 cs
  | c :: cs => escapeChar multiline c ++ escapedFrom multiline 0 cs

def escaped (multiline : Bool) (cs : List Char) : String :=
  String.ofList (escapedFrom multiline 0 cs)

/-- A text on one line: between double quotes unless that takes escapes and single quotes do not. -/
def quotedLine (s : String) : String :=
  let cs := s.toList
  if fitsLiteral cs && !fitsBasic cs then "'" ++ s ++ "'"
  else "\"" ++ escaped false cs ++ "\""

/-- What follows three opening quotes: a text that has ends of line starts on a line of its own. -/
def leadingLine (cs : List Char) : String := if cs.contains '\n' then "\n" else ""

def basicLines (s : String) : String :=
  "\"\"\"" ++ leadingLine s.toList ++ escaped true s.toList ++ "\"\"\""

def literalLines (s : String) : String :=
  "'''" ++ leadingLine s.toList ++ s ++ "'''"

/-- A text in the first form that takes no escapes: on one line, between three double quotes,
between three single ones.  Where there is none it is escaped. -/
def quoted (s : String) : String :=
  let cs := s.toList
  if fitsBasic cs || fitsLiteral cs then quotedLine s
  else if fitsBasicLines cs then basicLines s
  else if fitsLiteralLines cs then literalLines s
  else if cs.contains '\n' then basicLines s
  else quotedLine s

def isBareKeyChar (c : Char) : Bool :=
  c.isAlphanum || c == '_' || c == '-'

def keyText (key : String) : String :=
  if !key.isEmpty && key.toList.all isBareKeyChar then key else quotedLine key

def pathText (path : List String) : String := ".".intercalate (path.map keyText)

end TreeScript.Toml
