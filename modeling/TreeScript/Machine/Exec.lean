import TreeScript.Machine.Apply
import TreeScript.Machine.Frame

/-!
# Instructions at work

The state of the machine and what each instruction does to it.
-/

namespace TreeScript

open Code

/-- Whether the running frame goes on, or has ended and is to be left. -/
inductive Status where
  | running
  | finishing (c : Completion)
  /-- The frame is in an instruction that has no end, and never goes on. -/
  | hanging
  deriving Inhabited

structure Machine where
  realm : Realm
  context : Context
  frame : Frame
  callers : List Frame := []
  status : Status := .running
  deriving Inhabited

inductive Interrupt where
  | thrown (fault : Fault)
  | fatal (error : MachineError)

abbrev Exec := EStateM Interrupt Machine

namespace Machine

def fatal (e : MachineError) : Exec α := throw (.fatal e)

def inRealm (x : RealmM α) : Exec α := fun ⟨realm, context, frame, callers, status⟩ =>
  match x realm with
  | .ok a realm => .ok a ⟨realm, context, frame, callers, status⟩
  | .error fault realm => .error (.thrown fault) ⟨realm, context, frame, callers, status⟩

def modifyRealm (f : Realm → Realm) : Exec Unit := inRealm (modify f)

def modifyFrame (f : Frame → Frame) : Exec Unit :=
  modify fun ⟨realm, context, frame, callers, status⟩ =>
    ⟨realm, context, f frame, callers, status⟩

def setEnv (env : EnvRef) : Exec Unit :=
  modify fun m => { m with context := { m.context with env } }

/-! ## The stack -/

def push (v : Value) : Exec Unit := modifyFrame (·.push (.value v))

def pushCompletion (c : Completion) : Exec Unit := modifyFrame (·.push (.completion c))

def underflow : Exec α := do fatal (← get).frame.underflow

def mismatch (expected : SlotKind) : Exec α := do fatal ((← get).frame.mismatch expected)

def setStack (stack : List Slot) : Exec Unit := modifyFrame ({ · with stack })

def peekSlot : Exec Slot := do
  match (← get).frame.stack with
  | [] => underflow
  | s :: _ => return s

def popSlot : Exec Slot := do
  match (← get).frame.stack with
  | [] => underflow
  | s :: rest =>
    setStack rest
    return s

def asValue : Slot → Exec Value
  | .value v => return v
  | .completion _ => mismatch .value

def asCompletion : Slot → Exec Completion
  | .completion c => return c
  | .value _ => mismatch .completion

def pop : Exec Value := popSlot >>= asValue

def popCompletion : Exec Completion := popSlot >>= asCompletion

def peek : Exec Value := peekSlot >>= asValue

def peekCompletion : Exec Completion := peekSlot >>= asCompletion

def topTwo : Exec (Slot × Slot × List Slot) := do
  match (← get).frame.stack with
  | a :: b :: rest => return (a, b, rest)
  | _ => underflow

def splitTop? : Nat → List Slot → List Slot → Option (List Slot × List Slot)
  | 0, taken, stack => some (taken, stack)
  | n + 1, taken, s :: stack => splitTop? n (s :: taken) stack
  | _ + 1, _, [] => none

def popValues (n : Nat) : Exec (List Value) := do
  match splitTop? n [] (← get).frame.stack with
  | none => underflow
  | some (taken, rest) =>
    setStack rest
    taken.mapM asValue

/-! ## Parts of a unit -/

def jump (label : Label) : Exec Unit := do
  let unit := (← get).frame.unit
  match unit.offset? label with
  | some offset => modifyFrame ({ · with next := offset })
  | none => fatal (.missingLabel unit.name label)

def lookedUp {α : Type} (missing : MachineError) : Option α → Exec α
  | some x => return x
  | none => fatal missing

def operand (index : OperandIndex) : Exec Operand := do
  let unit := (← get).frame.unit
  lookedUp (.missingOperand unit.name index) unit.operands[index]?

def nameOf (index : OperandIndex) : Exec String := do
  match ← operand index with
  | .binding name => return name
  | _ => fatal (.notAVariable (← get).frame.unit.name index)

def temp (index : Nat) : Exec Value := do
  let frame := (← get).frame
  lookedUp (.missingTemporary frame.unit.name index) frame.temps[index]?

def setTemp (index : Nat) (v : Value) : Exec Unit := do
  let frame := (← get).frame
  if index < frame.temps.size then
    modifyFrame fun f => { f with temps := f.temps.setIfInBounds index v }
  else fatal (.missingTemporary frame.unit.name index)

/-! ## Entering and leaving -/

def enter (callee : Frame) : Exec Unit :=
  modify fun ⟨realm, context, frame, callers, _⟩ =>
    ⟨realm.countRun callee.unit.name, context, callee, frame :: callers, .running⟩

def startFrame (artifact : Artifact) (id : UnitId) (resume : Resume) : Exec Frame := do
  match Frame.start artifact id (← get).context.env resume with
  | .ok frame => return frame
  | .error e => fatal e

/-- The `this` that a function sees: sloppy code sees the global object in place of nothing. -/
def thisFor (strict : Bool) (receiver : Value) : Value :=
  if !strict && receiver.isNullish then .object Realm.globalObject else receiver

/-- The environment of a call: the parameters over `arguments`, inside the environment of the
closure. -/
def bindParameters (e : Environment) (arguments : Value) (params : List String)
    (args : List Value) : Environment :=
  params.zipIdx.foldl (fun e (param, i) => e.bind param (args.getD i .undefined))
    (e.bind "arguments" arguments)

def newCallEnv (closure : Closure) (args : List Value) : RealmM EnvRef := do
  let env ← modifyGet (·.addEnv (some closure.env))
  let arguments ← allocate (·.newArray args)
  modify (·.modifyEnv env fun e => bindParameters e arguments closure.info.params args)
  return env

def callEnv (closure : Closure) (args : List Value) : Exec EnvRef :=
  inRealm (newCallEnv closure args)

def enterFunction (callee receiver : Value) (args : List Value) (constructed : Option Value) :
    Exec Unit := do
  let r := (← get).realm
  match callee.object? >>= fun ref => (r.object ref).closure? with
  | none => throw (.thrown (.notAFunction (r.toText callee)))
  | some closure =>
    let caller := (← get).context
    let frame ← startFrame closure.artifact closure.info.unit
      (.call caller.this caller.strict constructed)
    match (← get).realm.enterCall? with
    | none => throw (.thrown .callDepth)
    | some r =>
      modifyRealm fun _ => r
      let env ← callEnv closure args
      let strict := closure.info.strict
      modify ({ · with context := ⟨env, thisFor strict receiver, strict⟩ })
      enter frame

/-- Calls a function on a new object that inherits from the function's `prototype`. -/
def construct (callee : Value) (args : List Value) : Exec Unit := do
  let r := (← get).realm
  if r.isCallable callee then
    let prototype ← inRealm (liftExcept (r.read callee "prototype"))
    let object ← inRealm (allocate (·.derive prototype))
    enterFunction callee object args object
  else throw (.thrown (.notAConstructor (r.toText callee)))

/-- Makes a function in an environment.  One that sees itself gets a scope around it for its
name. -/
def newClosure (artifact : Artifact) (info : FunctionInfo) (env : EnvRef) : RealmM Value := do
  if info.selfBinding then
    let scope ← modifyGet (·.addEnv (some env))
    let function ← allocate (·.newFunction ⟨artifact, info, scope⟩)
    match info.name with
    | none => pure ()
    | some name => modify (·.modifyEnv scope (·.bind name function))
    return function
  else allocate (·.newFunction ⟨artifact, info, env⟩)

def makeClosure (id : FunctionId) : Exec Value := do
  let m ← get
  match m.frame.artifact.function? id with
  | none => fatal (.missingFunction id)
  | some info => inRealm (newClosure m.frame.artifact info m.context.env)

def newScope (outer : EnvRef) (name : String) (v : Value) : RealmM EnvRef := do
  let scope ← modifyGet (·.addEnv (some outer))
  modify (·.modifyEnv scope (·.bind name v))
  return scope

/-! ## Enumeration -/

/-- The number of the temporary `k` after `index`, as a word of 16 bits. -/
def tempAfter (index k : Nat) : Nat := (index + k) % 0x10000

/-- The first of the next `n` keys in `list` that the object still has, and the place after it. -/
def nextPresent (r : Realm) (list : ObjectRef) (object : Option ObjectRef) :
    Nat → Nat → Option String × Nat
  | 0, position => (none, position)
  | n + 1, position =>
    let key := r.toText (r.getFrom list (toString position))
    if object.all fun ref => r.hasProperty ref key then (some key, position + 1)
    else nextPresent r list object n (position + 1)

def nextKey (keys : Nat) : Exec (Option String) := do
  let list ← temp keys
  let object ← temp (tempAfter keys 2)
  let r := (← get).realm
  let position := Number.saturated32 (r.toNumber (← temp (tempAfter keys 1)))
  let (key, position) := match list.object? with
    | none => (none, position)
    | some ref =>
      nextPresent r ref object.object? ((r.object ref).arrayLength - position) position
  setTemp (tempAfter keys 1) (.number (Number.ofNat position))
  return key

/-! ## Instructions -/

def operate (op : Operation) : Exec Unit := do
  let args ← popValues op.arity
  match op with
  | .call _ =>
    enterFunction (args.getD 1 .undefined) (args.getD 0 .undefined) (args.drop 2) none
  | .construct _ => construct (args.getD 0 .undefined) (args.drop 1)
  | _ => push (← inRealm (apply op args))

def jumpIf (condition : Bool) (label : Label) : Exec Unit :=
  if condition then jump label else return ()

def exec : Instruction → Exec Unit
  | .load i => do
    let operand ← operand i
    let m ← get
    push (← inRealm (liftExcept (operand.value m.realm m.context.env m.frame.temps)))
  | .store i strict => do
    let name ← nameOf i
    let v ← peek
    let env := (← get).context.env
    inRealm (Realm.assign env name v strict)
  | .storeTemp t => do setTemp t (← pop)
  | .loadThis => do push (← get).context.this
  | .typeOfVariable i => do
    let name ← nameOf i
    let m ← get
    push (.string (match m.realm.lookup m.context.env name with
      | some v => m.realm.typeName v
      | none => "undefined"))
  | .deleteVariable i => do
    let name ← nameOf i
    let env := (← get).context.env
    push (.boolean (← inRealm (Realm.deleteBinding env name)))
  | .declareVariable i => do
    let name ← nameOf i
    let env := (← get).context.env
    modifyRealm (·.modifyEnv env (·.declare name false))
  | .initializeBinding i => do
    let name ← nameOf i
    let v ← pop
    let env := (← get).context.env
    modifyRealm (·.modifyEnv env (·.bind name v))
  | .makeClosure f => do push (← makeClosure f)
  | .pop => discard popSlot
  | .dup => do
    let s ← peekSlot
    modifyFrame (·.push s)
  | .dupPair => do
    let (a, b, rest) ← topTwo
    setStack (a :: b :: a :: b :: rest)
  | .swap => do
    let (a, b, rest) ← topTwo
    setStack (b :: a :: rest)
  | .nop => return ()
  | .jump l => jump l
  | .jumpIfFalse l => do jumpIf (!(← pop).truthy) l
  | .jumpIfTrue l => do jumpIf (← pop).truthy l
  | .invoke id => do enter (← startFrame (← get).frame.artifact id .unit)
  | .operate op => operate op
  | .enterCatch i => do
    let name ← nameOf i
    let v ← pop
    let env := (← get).context.env
    let scope ← inRealm (newScope env name v)
    modifyFrame fun f => { f with scopes := env :: f.scopes }
    setEnv scope
  | .exitScope => do
    let frame := (← get).frame
    match frame.scopes with
    | [] => fatal (.scopeUnderflow frame.unit.name)
    | env :: scopes =>
      modifyFrame ({ · with scopes })
      setEnv env
  | .forInStep keys exhausted => do
    match ← nextKey keys with
    | some key => push (.string key)
    | none => jump exhausted
  | .normal => pushCompletion .normal
  | .normalValue => do pushCompletion (.normalWith (← pop))
  | .breakTo target => pushCompletion (.breakTo target)
  | .continueTo target => pushCompletion (.continueTo target)
  | .returnValue => do pushCompletion (.returning (← pop))
  | .throwValue => do pushCompletion (.throwing (← pop))
  | .jumpIfAbrupt l => do jumpIf (← peekCompletion).isAbrupt l
  | .jumpIfKind kind l => do jumpIf ((← peekCompletion).kind == kind) l
  | .jumpUnlessKind kind l => do jumpIf ((← peekCompletion).kind != kind) l
  | .jumpIfBreaksHere labels l => do jumpIf ((← peekCompletion).breaksAt labels) l
  | .jumpIfContinuesHere labels l => do jumpIf ((← peekCompletion).continuesAt labels) l
  | .merge => do
    let newer ← popCompletion
    let older ← popCompletion
    pushCompletion (newer.merge older)
  | .consumeBreak labels => do pushCompletion ((← popCompletion).consumeBreak labels)
  | .unwrap => do push (← popCompletion).valueOrUndefined

end Machine

end TreeScript
