import TreeScript.Realm.Value

/-!
# Faults

What an operation throws: a value of the program's own, or an error that has yet to be made into an
object.
-/

namespace TreeScript

inductive ErrorKind where
  | type | reference | range
  deriving DecidableEq, Inhabited

def ErrorKind.name : ErrorKind → String
  | type => "TypeError"
  | reference => "ReferenceError"
  | range => "RangeError"

inductive Fault where
  | value (v : Value)
  | error (kind : ErrorKind) (message : String)
  deriving Inhabited

namespace Fault

def shown (v : Value) : String := v.text?.getD ""

def cannotRead (key : String) (base : Value) : Fault :=
  error .type s!"cannot read property '{key}' of {shown base}"

def cannotSet (key : String) (base : Value) : Fault :=
  error .type s!"cannot set property '{key}' of {shown base}"

def cannotCreate (key : String) (base : Value) : Fault :=
  error .type s!"cannot create property '{key}' on primitive {shown base}"

def readOnly (key : String) : Fault :=
  error .type s!"cannot assign to read only property '{key}'"

def invalidLength : Fault := error .range "invalid array length"

def cannotDeleteOf (key : String) (base : Value) : Fault :=
  error .type s!"cannot delete property '{key}' of {shown base}"

def cannotDelete (key : String) : Fault := error .type s!"cannot delete property '{key}'"

def notDefined (name : String) : Fault := error .reference s!"{name} is not defined"

def instanceOfUncallable : Fault :=
  error .type "right-hand side of 'instanceof' is not callable"

def instanceOfPrimitive : Fault :=
  error .type "function has non-object prototype in instanceof check"

def callDepth : Fault := error .range "maximum call stack size exceeded"

def notAFunction (callee : String) : Fault := error .type s!"{callee} is not a function"

def notAConstructor (callee : String) : Fault := error .type s!"{callee} is not a constructor"

def inPrimitive (key base : String) : Fault :=
  error .type s!"cannot use 'in' operator to search for '{key}' in {base}"

def definePrimitive : Fault := error .type "cannot define a property on a primitive"

def regExpFlag (flag : Char) : Fault :=
  error .type s!"invalid regular expression flag '{flag}'"

def notApplicable (operation : String) : Fault :=
  error .type s!"{operation} is not a stack helper"

end Fault

end TreeScript
