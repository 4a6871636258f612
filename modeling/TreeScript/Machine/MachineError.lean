import TreeScript.Code.Instruction

/-!
# Errors of the machine

What can be wrong with code.  A program's own errors are completions; these end the whole run.
-/

namespace TreeScript

open Code (CompletionKind)

inductive SlotKind where
  | value | completion
  deriving DecidableEq, Inhabited

def SlotKind.name : SlotKind → String
  | value => "value"
  | completion => "completion"

inductive MachineError where
  | missingUnit (unit : Nat)
  | missingFunction (function : Nat)
  | missingOperand (unit : String) (index : Nat)
  | notAVariable (unit : String) (index : Nat)
  | missingTemporary (unit : String) (index : Nat)
  | missingLabel (unit : String) (label : Nat)
  | stackUnderflow (unit : String) (offset : Nat)
  | slotMismatch (unit : String) (offset : Nat) (expected : SlotKind)
  | scopeUnderflow (unit : String)
  /-- A unit ended with something else than one completion. -/
  | unbalancedUnit (unit : String) (depth : Nat)
  /-- A jump left the body of a function or a program. -/
  | escapedCompletion (kind : CompletionKind) (unit : String)
  deriving DecidableEq, Inhabited

namespace MachineError

def name : MachineError → String
  | missingUnit .. => "MissingUnit"
  | missingFunction .. => "MissingFunction"
  | missingOperand .. => "MissingOperand"
  | notAVariable .. => "NotAVariable"
  | missingTemporary .. => "MissingTemporary"
  | missingLabel .. => "MissingLabel"
  | stackUnderflow .. => "StackUnderflow"
  | slotMismatch .. => "SlotMismatch"
  | scopeUnderflow .. => "ScopeUnderflow"
  | unbalancedUnit .. => "UnbalancedUnit"
  | escapedCompletion .. => "EscapedCompletion"

def message : MachineError → String
  | missingUnit unit => s!"unit #{unit} is not in the artifact"
  | missingFunction function => s!"function #{function} is not in the artifact"
  | missingOperand unit index => s!"operand #{index} is missing from {unit}"
  | notAVariable unit index => s!"operand #{index} of {unit} is not a variable"
  | missingTemporary unit index => s!"temporary %t{index} is out of range in {unit}"
  | missingLabel unit label => s!"label L{label} is not resolved in {unit}"
  | stackUnderflow unit offset => s!"stack underflow at {unit}:{offset}"
  | slotMismatch unit offset expected =>
    s!"expected a {expected.name} on the stack at {unit}:{offset}"
  | scopeUnderflow unit => s!"scope exit without a matching catch scope in {unit}"
  | unbalancedUnit unit depth =>
    s!"{unit} finished with {depth} stack entries instead of one completion"
  | escapedCompletion kind unit => s!"{kind.name} completion escaped {unit}"

end MachineError

end TreeScript
