import TreeScript.Number.Written
import TreeScript.Text.Quoted

/-!
# Operands

What an instruction can load: a constant, a named binding, or a temporary of the running unit.
A unit keeps one entry for each operand it uses, told apart by their keys.
-/

namespace TreeScript.Code

inductive Constant where
  | undefined
  | null
  | boolean (value : Bool)
  | number (value : Float)
  | string (value : String)
  deriving Inhabited

inductive Operand where
  | constant (c : Constant)
  | binding (name : String)
  | temporary (index : Nat)
  deriving Inhabited

/-- The identity of an operand.  Numbers count as equal when their bit patterns are, so the two
zeros are apart. -/
inductive OperandKey where
  | undefined
  | null
  | boolean (value : Bool)
  | number (bits : Nat)
  | string (value : String)
  | binding (name : String)
  | temporary (index : Nat)
  deriving DecidableEq, Inhabited

namespace OperandKey

def rank : OperandKey → Nat
  | undefined => 0
  | null => 1
  | boolean _ => 2
  | number _ => 3
  | string _ => 4
  | binding _ => 5
  | temporary _ => 6

def word : OperandKey → Nat
  | boolean b => b.toNat
  | number bits => bits
  | temporary index => index
  | _ => 0

def text : OperandKey → String
  | string s => s
  | binding name => name
  | _ => ""

def order : OperandKey → OperandKey → Ordering :=
  compareLex (compareOn rank) (compareLex (compareOn word) (compareOn text))

end OperandKey

namespace Operand

def key : Operand → OperandKey
  | constant .undefined => .undefined
  | constant .null => .null
  | constant (.boolean b) => .boolean b
  | constant (.number x) => .number x.toBits.toNat
  | constant (.string s) => .string s
  | binding name => .binding name
  | temporary index => .temporary index

def binding? : Operand → Option String
  | binding name => some name
  | _ => none

end Operand

def temporaryText (index : Nat) : String := s!"%t{index}"

namespace Constant

def text : Constant → String
  | undefined => "undefined"
  | null => "null"
  | boolean b => if b then "true" else "false"
  | number x => Number.text x
  | string s => Text.quoted s

end Constant

def Operand.text : Operand → String
  | constant c => c.text
  | binding name => name
  | temporary index => temporaryText index

end TreeScript.Code
