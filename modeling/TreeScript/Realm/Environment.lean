import TreeScript.KeyTable
import TreeScript.Realm.Value

/-!
# Environments

The names of one scope.  Names that code declares stay; those that an assignment made in passing can
be deleted.
-/

namespace TreeScript

structure Binding where
  value : Value
  deletable : Bool
  deriving Inhabited

structure Environment where
  bindings : KeyTable Binding := .empty
  outer : Option EnvRef := none
  deriving Inhabited

namespace Environment

def has (e : Environment) (name : String) : Bool := e.bindings.contains name

def get? (e : Environment) (name : String) : Option Value :=
  (e.bindings.find? name).map Binding.value

/-- Binds a name to `undefined`, unless it is bound. -/
def declare (e : Environment) (name : String) (deletable : Bool) : Environment :=
  if e.has name then e else { e with bindings := e.bindings.insert name ⟨.undefined, deletable⟩ }

/-- Gives a name a value, whether or not it is bound. -/
def bind (e : Environment) (name : String) (value : Value) : Environment :=
  let deletable := (e.bindings.find? name).any Binding.deletable
  { e with bindings := e.bindings.insert name ⟨value, deletable⟩ }

/-- Gives a bound name a value; `none` if it is not bound. -/
def set? (e : Environment) (name : String) (value : Value) : Option Environment :=
  if e.has name then some (e.bind name value) else none

def canDelete (e : Environment) (name : String) : Bool :=
  match e.bindings.find? name with
  | none => true
  | some binding => binding.deletable

def erase (e : Environment) (name : String) : Environment :=
  { e with bindings := e.bindings.erase name }

/-- Takes a binding away; `none` if it has to stay. -/
def delete? (e : Environment) (name : String) : Option Environment :=
  if e.canDelete name then some (e.erase name) else none

end Environment

end TreeScript
