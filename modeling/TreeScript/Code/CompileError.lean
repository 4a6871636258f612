/-!
# Compile errors

Why a program cannot be compiled, and in which unit that showed.
-/

namespace TreeScript.Code

/-- Constructs that have a place in a program tree but no code. -/
inductive Unsupported where
  | withStatement
  | bareTry
  | forInDeclarations
  | namelessFunction
  | assignmentTarget
  | propertyName
  | computedKey
  | getter
  | setter
  | unaryOperator
  deriving DecidableEq, Inhabited

namespace Unsupported

def description : Unsupported → String
  | withStatement => "with statement"
  | bareTry => "try without catch or finally"
  | forInDeclarations => "for-in with several declarations"
  | namelessFunction => "function declaration without a name"
  | assignmentTarget => "invalid assignment target"
  | propertyName => "non-identifier property name"
  | computedKey => "computed key in object literal"
  | getter => "getter in object literal"
  | setter => "setter in object literal"
  | unaryOperator => "unary operator"

end Unsupported

inductive Numbered where
  | operands | temporaries | arguments | arrayElements
  deriving DecidableEq, Inhabited

def Numbered.description : Numbered → String
  | operands => "operands"
  | temporaries => "temporaries"
  | arguments => "arguments"
  | arrayElements => "array elements"

inductive CompileError where
  | unsupported (construct : Unsupported) (unit : String)
  | unresolvedLabel (label : Nat) (unit : String)
  | duplicateLabel (label : Nat) (unit : String)
  | duplicateUnitName (name : String)
  | arityMismatch (operation : String) (expected supplied : Nat) (unit : String)
  | unfinishedUnit (name : String)
  | tooMany (what : Numbered) (unit : String)
  deriving DecidableEq, Inhabited

namespace CompileError

def name : CompileError → String
  | unsupported .. => "UnsupportedConstruct"
  | unresolvedLabel .. => "UnresolvedLabel"
  | duplicateLabel .. => "DuplicateLabel"
  | duplicateUnitName .. => "DuplicateUnitName"
  | arityMismatch .. => "HelperArityMismatch"
  | unfinishedUnit .. => "UnfinishedUnit"
  | tooMany .. => "TooManyOperands"

def message : CompileError → String
  | unsupported construct unit =>
    s!"unsupported construct: {construct.description} (in {unit})"
  | unresolvedLabel label unit => s!"unresolved label L{label} in {unit}"
  | duplicateLabel label unit => s!"label L{label} defined twice in {unit}"
  | duplicateUnitName name => s!"duplicate unit name: {name}"
  | arityMismatch operation expected supplied unit =>
    s!"helper {operation} takes {expected} arguments, {supplied} supplied (in {unit})"
  | unfinishedUnit name => s!"unit {name} was reserved but never finished"
  | tooMany what unit => s!"too many {what.description} in {unit}"

end CompileError

end TreeScript.Code
