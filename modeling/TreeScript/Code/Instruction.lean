import TreeScript.Code.Operation

/-!
# Instructions

A unit of code works on a stack of values and completions.  The code of an expression leaves one
value on it, and the code of a statement leaves one completion.
-/

namespace TreeScript.Code

inductive CompletionKind where
  | normal | break | continue | return | throw
  deriving DecidableEq, Inhabited

namespace CompletionKind

def all : List CompletionKind := [.normal, .break, .continue, .return, .throw]

def name : CompletionKind → String
  | normal => "NORMAL"
  | .break => "BREAK"
  | .continue => "CONTINUE"
  | .return => "RETURN"
  | throw => "THROW"

end CompletionKind

/-- The labels in front of a loop or `switch`, outermost first. -/
structure LabelSet where
  names : List String := []
  deriving DecidableEq, Inhabited

namespace LabelSet

def contains (labels : LabelSet) (name : String) : Bool := labels.names.contains name

/-- Whether a jump to `target` is meant for the statement with these labels: one without a target
always is. -/
def handles (labels : LabelSet) : Option String → Bool
  | none => true
  | some name => labels.contains name

def isEmpty (labels : LabelSet) : Bool := labels.names.isEmpty

def text (labels : LabelSet) : String :=
  "[" ++ ", ".intercalate labels.names ++ "]"

end LabelSet

abbrev Label := Nat

abbrev UnitId := Nat

abbrev FunctionId := Nat

abbrev OperandIndex := Nat

inductive Instruction where
  | load (operand : OperandIndex)
  /-- Assign the top value to a variable and leave it on the stack. -/
  | store (binding : OperandIndex) (strict : Bool)
  | storeTemp (index : Nat)
  | loadThis
  /-- Push the type name of a variable's value, also when the variable does not exist. -/
  | typeOfVariable (binding : OperandIndex)
  | deleteVariable (binding : OperandIndex)
  | declareVariable (binding : OperandIndex)
  | initializeBinding (binding : OperandIndex)
  | makeClosure (function : FunctionId)
  | pop
  | dup
  | dupPair
  | swap
  | nop
  | jump (target : Label)
  | jumpIfFalse (target : Label)
  | jumpIfTrue (target : Label)
  /-- Run another unit in the current context and push its completion. -/
  | invoke (unit : UnitId)
  | operate (op : Operation)
  /-- Pop a value into a new scope that binds it to a name. -/
  | enterCatch (binding : OperandIndex)
  | exitScope
  /-- Push the next key that the enumerated object still has, or jump.  The keys are in temporary
  `keys`, the position in the one after it and the object in the next. -/
  | forInStep (keys : Nat) (exhausted : Label)
  | normal
  | normalValue
  | breakTo (target : Option String)
  | continueTo (target : Option String)
  | returnValue
  | throwValue
  /-- Jump if the completion on top is not normal.  This one and the next four leave it there. -/
  | jumpIfAbrupt (target : Label)
  | jumpIfKind (kind : CompletionKind) (target : Label)
  | jumpUnlessKind (kind : CompletionKind) (target : Label)
  | jumpIfBreaksHere (labels : LabelSet) (target : Label)
  | jumpIfContinuesHere (labels : LabelSet) (target : Label)
  /-- Pop a completion and the one below it, and push a normal one with the value of the first, or
  of the second if the first has none. -/
  | merge
  | consumeBreak (labels : LabelSet)
  | unwrap
  deriving Inhabited

namespace Instruction

def target? : Instruction → Option Label
  | jump l | jumpIfFalse l | jumpIfTrue l | jumpIfAbrupt l => some l
  | jumpIfKind _ l | jumpUnlessKind _ l => some l
  | jumpIfBreaksHere _ l | jumpIfContinuesHere _ l => some l
  | forInStep _ l => some l
  | _ => none

def invoked? : Instruction → Option UnitId
  | invoke unit => some unit
  | _ => none

end Instruction

end TreeScript.Code
