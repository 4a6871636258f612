import TreeScript.Lowering.Gen
import TreeScript.Syntax.Hoisting

/-!
# The shape of compiled constructs

How the code of a construct is put together from the code of its parts.  Every statement leaves one
completion on the stack, every expression one value.  Bodies that belong to a control construct are
units of their own, and the construct looks at the completion they return.
-/

namespace TreeScript.Lowering

open Code Syntax

def condition (test : Gen Unit) : Gen Unit := do
  test
  operate .toBoolean 1

def dropBelow : Gen Unit := do
  emit .swap
  emit .pop

/-! ## Assignment targets -/

inductive Target where
  | binding (operand : OperandIndex)
  /-- A property, with object and key on the stack. -/
  | property

def Target.read : Target → Gen Unit
  | binding operand => emit (.load operand)
  | property => do
    emit .dupPair
    operate .getProperty 2

def Target.write (strict : Bool) : Target → Gen Unit
  | binding operand => emit (.store operand strict)
  | property => operate (.putProperty strict) 3

def loadPropertyName : Expr → Gen Unit
  | .identifier name => loadConstant (.string name)
  | _ => unsupported .propertyName

/-- The key of a member expression; `key` is the code of its property as an expression. -/
def memberKey (computed : Bool) (property : Expr) (key : Gen Unit) : Gen Unit :=
  if computed then key else loadPropertyName property

def literalKey : Expr → Gen String
  | .identifier name => return name
  | .string value => return value
  | .number value => return Number.text value
  | _ => unsupported .computedKey

/-! ## Expressions -/

def maxArguments : Nat := 65535

def argumentCount (arguments : List Expr) : Gen Nat :=
  if arguments.length ≤ maxArguments then return arguments.length else tooMany .arguments

def choice (test consequent alternate : Gen Unit) : Gen Unit := do
  let otherwise ← newLabel
  let done ← newLabel
  condition test
  emit (.jumpIfFalse otherwise)
  consequent
  emit (.jump done)
  place otherwise
  alternate
  place done

/-- The left value, or the right one if the left does not decide. -/
def shortCircuit (op : LogicalOp) (left right : Gen Unit) : Gen Unit := do
  let done ← newLabel
  left
  emit .dup
  operate .toBoolean 1
  match op with
  | .and => emit (.jumpIfFalse done)
  | .or => emit (.jumpIfTrue done)
  emit .pop
  right
  place done

/-- Adds one to a target or takes one away.  The value is the new number in front, the old one
behind. -/
def updateTarget (strict : Bool) (op : UpdateOp) (prefixed : Bool) (target : Gen Target) :
    Gen Unit := do
  let target ← target
  target.read
  operate .toNumber 1
  if prefixed then
    loadConstant (.number (Number.ofNat 1))
    operate (.ofUpdate op) 2
    target.write strict
  else
    let old ← allocate 1
    emit (.storeTemp old)
    load (.temporary old)
    loadConstant (.number (Number.ofNat 1))
    operate (.ofUpdate op) 2
    target.write strict
    emit .pop
    load (.temporary old)

/-- Writes a value to a target, after joining it with the target's value if there is an operator. -/
def assignTarget (strict : Bool) (op : Option BinaryOp) (target : Gen Target) (value : Gen Unit) :
    Gen Unit := do
  let target ← target
  match op with
  | none => value
  | some op =>
    target.read
    value
    operate (.ofBinary op) 2
  target.write strict

/-! ## Bodies -/

/-- A list of statements.  `each` generates them, every one followed by a jump out of the list if it
ends abruptly.  The list ends as the first abrupt statement does, or normally with the last value.

```text
  NORMAL                 ; acc
  [statement]            ; acc c
  JUMP_ABRUPT abrupt
  MERGE                  ; acc
  ...
  JUMP end
abrupt:
  SWAP; POP              ; c
end:
```
-/
def statementList (body : List Stmt) (each : Label → Gen Unit) : Gen Unit := do
  emit .normal
  unless body.isEmpty do
    let abrupt ← newLabel
    let done ← newLabel
    each abrupt
    emit (.jump done)
    place abrupt
    dropBelow
    place done

def inList (abrupt : Label) (statement : Gen Unit) : Gen Unit := do
  statement
  emit (.jumpIfAbrupt abrupt)
  emit .merge

def bindFunction (name : String) (function : Gen FunctionId) : Gen Unit := do
  emit (.makeClosure (← function))
  emit (.initializeBinding (← binding name))

def declareVariables (names : List String) : Gen Unit :=
  names.forM fun name => do emit (.declareVariable (← binding name))

def hoisted (body : List Stmt) : Gen Hoisted :=
  match Hoisted.collect body with
  | .ok h => return h
  | .error .namelessFunction => unsupported .namelessFunction

/-- A body with declarations of its own: function declarations are bound first, then `var` names,
then the statements run. -/
def declaringBody (body : List Stmt) (functions statements : Gen Unit) : Gen Unit := do
  let h ← hoisted body
  functions
  declareVariables h.vars
  statements

/-! ## Loops -/

/-- Runs the body of a loop and goes by its completion.

```text
  [body]                    ; acc c
  JUMP_BREAK broken
  JUMP_CONTINUE continued
  JUMP_ABRUPT abrupt
continued:
  MERGE; JUMP next
broken:
  MERGE; JUMP done
abrupt:
  SWAP; POP; JUMP done      ; c
```
-/
def iteration (labels : LabelSet) (body : Gen Unit) (next done : Label) : Gen Unit := do
  body
  let broken ← newLabel
  let continued ← newLabel
  let abrupt ← newLabel
  emit (.jumpIfBreaksHere labels broken)
  emit (.jumpIfContinuesHere labels continued)
  emit (.jumpIfAbrupt abrupt)
  place continued
  emit .merge
  emit (.jump next)
  place broken
  emit .merge
  emit (.jump done)
  place abrupt
  dropBelow
  emit (.jump done)

def whileLoop (labels : LabelSet) (test body : Gen Unit) : Gen Unit := do
  let again ← newLabel
  let done ← newLabel
  emit .normal
  place again
  condition test
  emit (.jumpIfFalse done)
  iteration labels body again done
  place done

def doWhileLoop (labels : LabelSet) (body test : Gen Unit) : Gen Unit := do
  let top ← newLabel
  let again ← newLabel
  let done ← newLabel
  emit .normal
  place top
  iteration labels body again done
  place again
  condition test
  emit (.jumpIfTrue top)
  place done

def forLoop (labels : LabelSet) (init : Gen Unit) (test : Option (Gen Unit))
    (update body : Gen Unit) : Gen Unit := do
  let again ← newLabel
  let next ← newLabel
  let done ← newLabel
  init
  emit .normal
  place again
  match test with
  | none => pure ()
  | some test =>
    condition test
    emit (.jumpIfFalse done)
  iteration labels body next done
  place next
  update
  emit (.jump again)
  place done

def declaredName : List Declarator → Gen String
  | [.mk name _] => return name
  | _ => unsupported .forInDeclarations

/-- The head of a `for`-`in` that declares its variable; `initializers` is the code that gives it a
first value. -/
def declaredHead (declarators : List Declarator) (initializers : Gen Unit) : Gen Unit := do
  let name ← declaredName declarators
  initializers
  discard (binding name)

def declaredTarget (declarators : List Declarator) : Gen Target := do
  return .binding (← binding (← declaredName declarators))

/-- A `for`-`in` loop.  It has four temporaries: the keys, the position among them, the object and
the current key. -/
def forInLoop (strict : Bool) (labels : LabelSet) (head right : Gen Unit) (target : Gen Target)
    (body : Gen Unit) : Gen Unit := do
  let next ← newLabel
  let done ← newLabel
  let keys ← allocate 4
  head
  emit .normal
  right
  emit .dup
  emit (.storeTemp (keys + 2))
  operate .enumerateKeys 1
  emit (.storeTemp keys)
  loadConstant (.number (Number.ofNat 0))
  emit (.storeTemp (keys + 1))
  place next
  emit (.forInStep keys done)
  emit (.storeTemp (keys + 3))
  let target ← target
  load (.temporary (keys + 3))
  target.write strict
  emit .pop
  iteration labels body next done
  place done

/-! ## `switch` and `try` -/

/-- A `switch` with `count` clauses.  `tests` jumps to the first clause that matches and tells which
one is the default; `bodies` runs the clauses one after the other.  Both are given the label of the
first clause, and those of the others follow it. -/
def switchClauses (labels : LabelSet) (count : Nat) (discriminant : Gen Unit)
    (tests : Nat → Label → Gen (Option Label)) (bodies : Label → Label → Gen Unit) :
    Gen Unit := do
  let abrupt ← newLabel
  let broken ← newLabel
  let done ← newLabel
  let first ← newLabels count
  let subject ← allocate 1
  discriminant
  emit (.storeTemp subject)
  emit .normal
  let default ← tests subject first
  emit (.jump (default.getD done))
  bodies abrupt first
  emit (.jump done)
  place abrupt
  emit (.jumpIfBreaksHere labels broken)
  dropBelow
  emit (.jump done)
  place broken
  emit .merge
  place done

def caseTest (subject : Nat) (test : Gen Unit) (clause : Label) : Gen Unit := do
  load (.temporary subject)
  test
  operate .strictEqual 2
  emit (.jumpIfTrue clause)

def caseBody (clause abrupt : Label) (body : Gen Unit) : Gen Unit := do
  place clause
  body
  emit (.jumpIfAbrupt abrupt)
  emit .merge

/-- Runs a handler on the value of a completion that throws. -/
def catchThrown (param : String) (handler : Gen Unit) : Gen Unit := do
  let after ← newLabel
  emit (.jumpUnlessKind .throw after)
  emit .unwrap
  emit (.enterCatch (← binding param))
  handler
  emit .exitScope
  place after

/-- Runs a finalizer, whose completion counts only if it is abrupt. -/
def withFinalizer (finalizer : Gen Unit) : Gen Unit := do
  let override ← newLabel
  let done ← newLabel
  finalizer
  emit (.jumpIfAbrupt override)
  emit .pop
  emit (.jump done)
  place override
  dropBelow
  place done

end TreeScript.Lowering
