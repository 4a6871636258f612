import TreeScript.Syntax.Operator

/-!
# Operations

The abstract operations of the language.  Code runs one by putting its arguments on the stack; each
takes a fixed number of them.
-/

namespace TreeScript.Code

open Syntax (UnaryOp UpdateOp BinaryOp)

inductive Operation where
  | toBoolean | toNumber
  | add | subtract | multiply | divide | modulo | negate
  | shiftLeft | shiftRight | shiftRightUnsigned | bitAnd | bitOr | bitXor | bitNot
  | not | typeOf
  | less | greater | lessEqual | greaterEqual
  | equal | notEqual | strictEqual | strictNotEqual
  | in | instanceOf
  | getProperty
  | putProperty (strict : Bool)
  | deleteProperty (strict : Bool)
  | defineProperty
  | newObject
  | newArray (length : Nat)
  | newRegExp
  /-- Arguments: the receiver, the function, then `argc` values. -/
  | call (argc : Nat)
  /-- Arguments: the function, then `argc` values. -/
  | construct (argc : Nat)
  | enumerateKeys
  | print
  deriving DecidableEq, Inhabited

namespace Operation

def arity : Operation → Nat
  | newObject => 0
  | toBoolean | toNumber | negate | bitNot | not | typeOf | enumerateKeys | print => 1
  | add | subtract | multiply | divide | modulo
  | shiftLeft | shiftRight | shiftRightUnsigned | bitAnd | bitOr | bitXor
  | less | greater | lessEqual | greaterEqual
  | equal | notEqual | strictEqual | strictNotEqual | .in | instanceOf
  | getProperty | deleteProperty _ | newRegExp => 2
  | putProperty _ | defineProperty => 3
  | newArray length => length
  | call argc => argc + 2
  | construct argc => argc + 1

def name : Operation → String
  | toBoolean => "ToBoolean"
  | toNumber => "ToNumber"
  | add => "Add"
  | subtract => "Subtract"
  | multiply => "Multiply"
  | divide => "Divide"
  | modulo => "Modulo"
  | negate => "Negate"
  | shiftLeft => "ShiftLeft"
  | shiftRight => "ShiftRight"
  | shiftRightUnsigned => "ShiftRightUnsigned"
  | bitAnd => "BitAnd"
  | bitOr => "BitOr"
  | bitXor => "BitXor"
  | bitNot => "BitNot"
  | not => "Not"
  | typeOf => "TypeOf"
  | less => "LessThan"
  | greater => "GreaterThan"
  | lessEqual => "LessEqual"
  | greaterEqual => "GreaterEqual"
  | equal => "Equal"
  | notEqual => "NotEqual"
  | strictEqual => "StrictEqual"
  | strictNotEqual => "StrictNotEqual"
  | .in => "In"
  | instanceOf => "InstanceOf"
  | getProperty => "GetProperty"
  | putProperty _ => "PutProperty"
  | deleteProperty _ => "DeleteProperty"
  | defineProperty => "DefineProperty"
  | newObject => "NewObject"
  | newArray _ => "NewArray"
  | newRegExp => "NewRegExp"
  | call _ => "Call"
  | construct _ => "Construct"
  | enumerateKeys => "EnumerateKeys"
  | print => "Print"

/-- The operations that are fully described by their names. -/
def plain : List Operation :=
  [toBoolean, toNumber, add, subtract, multiply, divide, modulo, negate, shiftLeft, shiftRight,
    shiftRightUnsigned, bitAnd, bitOr, bitXor, bitNot, not, typeOf, less, greater, lessEqual,
    greaterEqual, equal, notEqual, strictEqual, strictNotEqual, .in, instanceOf, getProperty,
    defineProperty, newObject, newRegExp, enumerateKeys, print]

def text (op : Operation) : String :=
  match op with
  | putProperty true | deleteProperty true => op.name ++ " strict"
  | newArray n | call n | construct n => s!"{op.name} {n}"
  | _ => op.name

def ofBinary : BinaryOp → Operation
  | .add => add
  | .subtract => subtract
  | .multiply => multiply
  | .divide => divide
  | .modulo => modulo
  | .equal => equal
  | .notEqual => notEqual
  | .strictEqual => strictEqual
  | .strictNotEqual => strictNotEqual
  | .less => less
  | .lessEqual => lessEqual
  | .greater => greater
  | .greaterEqual => greaterEqual
  | .bitAnd => bitAnd
  | .bitOr => bitOr
  | .bitXor => bitXor
  | .shiftLeft => shiftLeft
  | .shiftRight => shiftRight
  | .shiftRightUnsigned => shiftRightUnsigned
  | .in => .in
  | .instanceOf => instanceOf

/-- The operation of a unary operator on the value of its argument.  `void` and `delete` look at
more than the value. -/
def ofUnary? : UnaryOp → Option Operation
  | .minus => some negate
  | .plus => some toNumber
  | .not => some not
  | .bitNot => some bitNot
  | .typeOf => some typeOf
  | .void | .delete => none

def ofUpdate : UpdateOp → Operation
  | .increment => add
  | .decrement => subtract

end Operation

end TreeScript.Code
