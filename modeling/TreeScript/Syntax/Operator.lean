/-!
# Operators

The operators of the language with the symbols that name them in a program tree.
-/

namespace TreeScript.Syntax

inductive UnaryOp where
  | minus | plus | not | bitNot | typeOf | void | delete
  deriving DecidableEq, Inhabited

inductive UpdateOp where
  | increment | decrement
  deriving DecidableEq, Inhabited

inductive BinaryOp where
  | add | subtract | multiply | divide | modulo
  | equal | notEqual | strictEqual | strictNotEqual
  | less | lessEqual | greater | greaterEqual
  | bitAnd | bitOr | bitXor | shiftLeft | shiftRight | shiftRightUnsigned
  | in | instanceOf
  deriving DecidableEq, Inhabited

inductive LogicalOp where
  | and | or
  deriving DecidableEq, Inhabited

inductive AssignOp where
  | assign
  | add | subtract | multiply | divide | modulo
  | shiftLeft | shiftRight | shiftRightUnsigned
  | bitAnd | bitOr | bitXor
  deriving DecidableEq, Inhabited

inductive AccessorKind where
  | get | set
  deriving DecidableEq, Inhabited

namespace UnaryOp

def all : List UnaryOp := [.minus, .plus, .not, .bitNot, .typeOf, .void, .delete]

def symbol : UnaryOp → String
  | minus => "-"
  | plus => "+"
  | not => "!"
  | bitNot => "~"
  | typeOf => "typeof"
  | void => "void"
  | delete => "delete"

def ofSymbol? (s : String) : Option UnaryOp := all.find? (·.symbol == s)

end UnaryOp

namespace UpdateOp

def all : List UpdateOp := [.increment, .decrement]

def symbol : UpdateOp → String
  | increment => "++"
  | decrement => "--"

def ofSymbol? (s : String) : Option UpdateOp := all.find? (·.symbol == s)

end UpdateOp

namespace BinaryOp

def all : List BinaryOp :=
  [.add, .subtract, .multiply, .divide, .modulo, .equal, .notEqual, .strictEqual, .strictNotEqual,
    .less, .lessEqual, .greater, .greaterEqual, .bitAnd, .bitOr, .bitXor, .shiftLeft, .shiftRight,
    .shiftRightUnsigned, .in, .instanceOf]

def symbol : BinaryOp → String
  | add => "+"
  | subtract => "-"
  | multiply => "*"
  | divide => "/"
  | modulo => "%"
  | equal => "=="
  | notEqual => "!="
  | strictEqual => "==="
  | strictNotEqual => "!=="
  | less => "<"
  | lessEqual => "<="
  | greater => ">"
  | greaterEqual => ">="
  | bitAnd => "&"
  | bitOr => "|"
  | bitXor => "^"
  | shiftLeft => "<<"
  | shiftRight => ">>"
  | shiftRightUnsigned => ">>>"
  | .in => "in"
  | instanceOf => "instanceof"

def ofSymbol? (s : String) : Option BinaryOp := all.find? (·.symbol == s)

end BinaryOp

namespace LogicalOp

def all : List LogicalOp := [.and, .or]

def symbol : LogicalOp → String
  | and => "&&"
  | or => "||"

def ofSymbol? (s : String) : Option LogicalOp := all.find? (·.symbol == s)

end LogicalOp

namespace AssignOp

def all : List AssignOp :=
  [.assign, .add, .subtract, .multiply, .divide, .modulo, .shiftLeft, .shiftRight,
    .shiftRightUnsigned, .bitAnd, .bitOr, .bitXor]

/-- The operator a compound assignment applies before it writes; a plain one applies none. -/
def binary? : AssignOp → Option BinaryOp
  | assign => none
  | add => some .add
  | subtract => some .subtract
  | multiply => some .multiply
  | divide => some .divide
  | modulo => some .modulo
  | shiftLeft => some .shiftLeft
  | shiftRight => some .shiftRight
  | shiftRightUnsigned => some .shiftRightUnsigned
  | bitAnd => some .bitAnd
  | bitOr => some .bitOr
  | bitXor => some .bitXor

def symbol (op : AssignOp) : String :=
  match op.binary? with
  | none => "="
  | some binary => binary.symbol ++ "="

def ofSymbol? (s : String) : Option AssignOp := all.find? (·.symbol == s)

end AssignOp

namespace AccessorKind

def all : List AccessorKind := [.get, .set]

def symbol : AccessorKind → String
  | get => "get"
  | set => "set"

def ofSymbol? (s : String) : Option AccessorKind := all.find? (·.symbol == s)

end AccessorKind

end TreeScript.Syntax
