import TreeScript.Code.Instruction
import TreeScript.Realm.Value

/-!
# Completions

How a statement ends: of what kind, with what value, and where a jump goes.
-/

namespace TreeScript

open Code (CompletionKind LabelSet)

structure Completion where
  kind : CompletionKind
  value : Option Value := none
  target : Option String := none
  deriving Inhabited

namespace Completion

def normal : Completion := { kind := .normal }

def normalWith (v : Value) : Completion := { kind := .normal, value := v }

def breakTo (target : Option String) : Completion := { kind := .break, target }

def continueTo (target : Option String) : Completion := { kind := .continue, target }

def returning (v : Value) : Completion := { kind := .return, value := v }

def throwing (v : Value) : Completion := { kind := .throw, value := v }

def isAbrupt (c : Completion) : Bool := c.kind != .normal

def valueOrUndefined (c : Completion) : Value := c.value.getD .undefined

def updateEmpty (c : Completion) (previous : Option Value) : Completion :=
  { c with value := c.value <|> previous }

def breaksAt (c : Completion) (labels : LabelSet) : Bool :=
  c.kind == .break && labels.handles c.target

def continuesAt (c : Completion) (labels : LabelSet) : Bool :=
  c.kind == .continue && labels.handles c.target

/-- A normal completion with the newer of two values. -/
def merge (newer older : Completion) : Completion :=
  { kind := .normal, value := newer.value <|> older.value }

def consumeBreak (c : Completion) (labels : LabelSet) : Completion :=
  if c.kind == .break && c.target.any labels.contains then { kind := .normal, value := c.value }
  else c

end Completion

end TreeScript
