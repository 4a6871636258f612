import TreeScript.Machine.Exec

/-!
# Running

The machine goes step by step.  A step runs one instruction, ends a frame that has come to the end
of its code, or leaves a frame that has ended.
-/

namespace TreeScript

open Code

inductive Transition where
  | next (m : Machine)
  | halt (result : Except MachineError Completion) (realm : Realm) (context : Context)

inductive CallResult where
  | value (v : Value)
  | thrown (v : Value)
  | escaped (kind : CompletionKind)

def CallResult.ofCompletion (c : Completion) (constructed : Option Value) : CallResult :=
  let result (v : Value) : CallResult :=
    match constructed with
    | some object => value (if v.object?.isSome then v else object)
    | none => value v
  match c.kind with
  | .return => result c.valueOrUndefined
  | .normal => result .undefined
  | .throw => thrown c.valueOrUndefined
  | kind => escaped kind

namespace Machine

def leave (m : Machine) (c : Completion) : Transition :=
  let ⟨realm, context, frame, callers, _⟩ := m
  let context := { context with env := frame.callerEnv }
  match callers with
  | [] => .halt (.ok c) realm context
  | caller :: callers =>
    match frame.resume with
    | .unit => .next ⟨realm, context, caller.push (.completion c), callers, .running⟩
    | .call this strict constructed =>
      let context := { context with this, strict }
      let realm := realm.exitCall
      match CallResult.ofCompletion c constructed with
      | .value v => .next ⟨realm, context, caller.push (.value v), callers, .running⟩
      | .thrown v => .next ⟨realm, context, caller, callers, .finishing (.throwing v)⟩
      | .escaped kind =>
        .halt (.error (.escapedCompletion kind frame.unit.name)) realm context

def throwFault (m : Machine) (fault : Fault) : Machine :=
  let ⟨realm, context, frame, callers, _⟩ := m
  let (v, realm) := realm.materialize fault
  ⟨realm, context, frame, callers, .finishing (.throwing v)⟩

def advance (m : Machine) : Machine :=
  let ⟨realm, context, frame, callers, status⟩ := m
  ⟨realm, context, { frame with next := frame.next + 1 }, callers, status⟩

/-- How the machine goes on after an instruction. -/
def afterExec : EStateM.Result Interrupt Machine Unit → Transition
  | .ok _ m => .next m
  | .error (.thrown fault) m => .next (m.throwFault fault)
  | .error (.fatal e) m => .halt (.error e) m.realm m.context

/-- The values on the stack that an operation is applied to. -/
def operands? (m : Machine) (op : Operation) : Option (List Value) := do
  let (taken, _) ← splitTop? op.arity [] m.frame.stack
  taken.mapM Slot.value?

/-- The list of keys, the object and the place in the list of an enumeration. -/
def enumeration? (m : Machine) (keys : Nat) : Option (Value × Value × Value) := do
  return (← m.frame.temps[keys]?, ← m.frame.temps[tempAfter keys 2]?,
    ← m.frame.temps[tempAfter keys 1]?)

def endlessKey (r : Realm) (list : ObjectRef) (object : Option ObjectRef) : Nat → Nat → Bool
  | 0, _ => false
  | n + 1, position =>
    match r.text? (r.getFrom list (toString position)) with
    | none => true
    | some key =>
      !(object.all fun ref => r.hasProperty ref key) && endlessKey r list object n (position + 1)

/-- Whether an instruction has no end, because it needs a text that has none. -/
def hangs (m : Machine) : Instruction → Bool
  | .operate op =>
    (m.operands? op).any fun args => m.realm.endless (m.realm.converted op args)
  | .forInStep keys _ =>
    (m.enumeration? keys).any fun (list, object, cursor) =>
      let position := Number.saturated32 (m.realm.toNumber cursor)
      m.realm.endless [cursor] || list.object?.any fun ref =>
        endlessKey m.realm ref object.object? ((m.realm.object ref).arrayLength - position) position
  | _ => false

/-- Runs the next instruction of the running frame, or ends the frame if there is none. -/
def proceed (m : Machine) : Transition :=
  match m.frame.unit.instructions[m.frame.next]? with
  | none =>
    match m.frame.finish with
    | .ok c => .next { m with status := .finishing c }
    | .error e => .halt (.error e) m.realm m.context
  | some i =>
    if m.hangs i then .next { m with status := .hanging } else afterExec (exec i m.advance)

def step (m : Machine) : Transition :=
  match m.status with
  | .running => m.proceed
  | .finishing c => m.leave c
  | .hanging => .next m

end Machine

/-- How a run of at most a given number of steps ends. -/
inductive Outcome where
  | exhausted (m : Machine)
  | halted (result : Except MachineError Completion) (realm : Realm) (context : Context)

def Outcome.hangs : Outcome → Bool
  | .exhausted { status := .hanging, .. } => true
  | _ => false

namespace Machine

def run : Nat → Machine → Outcome
  | 0, m => .exhausted m
  | n + 1, m =>
    match m.step with
    | .next m => run n m
    | .halt result realm context => .halted result realm context

end Machine

/-- Runs one unit of an artifact, and all that it runs in turn.  When the code is at fault, context
and call depth are put back as they were. -/
def invoke (fuel : Nat) (artifact : Artifact) (id : UnitId) (realm : Realm) (context : Context) :
    Outcome :=
  let depth := realm.callDepth
  match Frame.start artifact id context.env .unit with
  | .error e => .halted (.error e) realm context
  | .ok frame =>
    match Machine.run fuel { realm := realm.countRun frame.unit.name, context, frame } with
    | .halted (.error e) realm _ =>
      .halted (.error e) { realm with callDepth := min realm.callDepth depth } context
    | outcome => outcome

def runProgram (fuel : Nat) (artifact : Artifact) (realm : Realm) (strict : Bool) : Outcome :=
  invoke fuel artifact artifact.entry realm (.global strict)

end TreeScript
