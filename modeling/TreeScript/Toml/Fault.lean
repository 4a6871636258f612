import TreeScript.Toml.Quoted

/-!
# Faults of a configuration file

Why a file cannot be read.  A fault names the innermost part of the file that is wrong, what could
have stood in its place, and what else is the matter; its message has a line for each of them.
-/

namespace TreeScript.Toml

inductive Part where
  | key
  | tableHeader
  | array
  | inlineTable
  | string
  | basicString
  | literalString
  | basicLines
  | literalLines
  | escape
  | shortCode
  | longCode
  | integer
  | hexadecimal
  | octal
  | binary
  | float
  | dateTime
  | time
  | offset
  deriving DecidableEq, Inhabited

def Part.name : Part → String
  | key => "key"
  | tableHeader => "table header"
  | array => "array"
  | inlineTable => "inline table"
  | string => "string"
  | basicString => "basic string"
  | literalString => "literal string"
  | basicLines => "multiline basic string"
  | literalLines => "multiline literal string"
  | escape => "escape sequence"
  | shortCode => "unicode 4-digit hex code"
  | longCode => "unicode 8-digit hex code"
  | integer => "integer"
  | hexadecimal => "hexadecimal integer"
  | octal => "octal integer"
  | binary => "binary integer"
  | float => "floating-point number"
  | dateTime => "date-time"
  | time => "time"
  | offset => "time offset"

inductive Cause where
  | outOfRange
  | tooLarge
  | tooSmall
  | nesting
  /-- A key that is taken, in the table with the given path if that is known. -/
  | duplicate (key : String) (table : Option (List String))
  /-- A path that leads through something other than a table. -/
  | notTable (path : List String) (kind : String)
  | notMoment
  | notText (found : String)
  deriving DecidableEq, Inhabited

def Cause.text : Cause → String
  | outOfRange => "value is out of range"
  | tooLarge => "number too large to fit in target type"
  | tooSmall => "number too small to fit in target type"
  | nesting => "recursion limit exceeded"
  | duplicate key none => "duplicate key `" ++ key ++ "`"
  | duplicate key (some []) => "duplicate key `" ++ key ++ "` in document root"
  | duplicate key (some path) => "duplicate key `" ++ key ++ "` in table `" ++ pathText path ++ "`"
  | notTable path kind =>
    "dotted key `" ++ pathText path ++ "` attempted to extend non-table type (" ++ kind ++ ")"
  | notMoment => "failed to parse datetime"
  | notText found => "invalid type: " ++ found ++ ", expected string containing a datetime"

structure Fault where
  part : Option Part := none
  expected : List String := []
  cause : Option Cause := none
  /-- Whether there is nothing where the part should be, so that something else may stand there. -/
  absent : Bool := false
  deriving DecidableEq, Inhabited

namespace Fault

/-- The fault of a larger part.  The innermost part counts. -/
def within (part : Part) (f : Fault) : Fault := { f with part := f.part <|> some part }

def message (f : Fault) : String :=
  let part := f.part.toList.map ("invalid " ++ ·.name)
  let expected :=
    if f.expected.isEmpty then [] else ["expected " ++ ", ".intercalate f.expected]
  "\n".intercalate (part ++ expected ++ f.cause.toList.map Cause.text)

end Fault

def symbol (s : String) : String := "`" ++ s ++ "`"

end TreeScript.Toml
