import TreeScript.Proofs.Machine.Founded
import TreeScript.Proofs.Machine.Safety

/-!
# The guarded machine

A machine that looks where it steps.  It does what the machine does, instruction by instruction, but
it stops with a trap where an index leads out of the objects, environments or temporaries, and where
a sum is too large for its word: 16 bits number the temporaries, 32 bits the keys of an enumeration,
and `w` bits count instructions, arguments, calls and runs.

In a founded machine whose counters have room it never stops at an instruction, save at one: a step
of an enumeration whose object would be kept in a temporary beyond the last number.
-/

namespace TreeScript

open Code Realm Upkeep

namespace Guarded

/-! ## Functions, scopes and calls -/

def inRealm (x : Guarded Fault Realm α) : Guarded Interrupt Machine α := fun m =>
  match x m.realm with
  | .ok a r => .ok a (m.withRealm r)
  | .error (.raised fault) r => .error (.raised (.thrown fault)) (m.withRealm r)
  | .error (.trap t) r => .error (.trap t) (m.withRealm r)

def makeClosure (id : FunctionId) : Guarded Interrupt Machine Value := do
  let m ← get
  match m.frame.artifact.function? id with
  | none => raise (.fatal (.missingFunction id))
  | some info => inRealm (newClosure m.frame.artifact info m.context.env)

def closureOf (r : Realm) : Value → Option (Option Closure)
  | .object ref => do return (← r.object? ref).closure?
  | _ => some none

section

variable (w : Nat)

def enterCall : Guarded Fault Realm Unit := do
  let r ← get
  if r.callDepth < r.maxCallDepth then
    let callDepth ← sum w r.callDepth 1
    set { r with callDepth }
  else raise .callDepth

def countRun (r : Realm) (unit : String) : Except Trap Realm :=
  if r.traceUnits then
    if r.runsOf unit + 1 < 2 ^ w then .ok (r.countRun unit) else .error .overflow
  else .ok r

def enter (callee : Frame) : Guarded Interrupt Machine Unit := fun m =>
  match countRun w m.realm callee.unit.name with
  | .ok realm => .ok () ⟨realm, m.context, callee, m.frame :: m.callers, .running⟩
  | .error t => .error (.trap t) m

def enterFrame (closure : Closure) (receiver : Value) (args : List Value) (frame : Frame) :
    Guarded Interrupt Machine Unit := do
  inRealm (enterCall w)
  let env ← inRealm (newCallEnv closure args)
  let strict := closure.info.strict
  modify ({ · with context := ⟨env, Machine.thisFor strict receiver, strict⟩ })
  enter w frame

def enterFunction (callee receiver : Value) (args : List Value) (constructed : Option Value) :
    Guarded Interrupt Machine Unit := do
  let r := (← get).realm
  match ← found (closureOf r callee) with
  | none => raise (.thrown (.notAFunction (← found (toText r callee))))
  | some closure =>
    let caller := (← get).context
    let frame ← lift (Machine.startFrame closure.artifact closure.info.unit
      (.call caller.this caller.strict constructed))
    enterFrame w closure receiver args frame

def construct (callee : Value) (args : List Value) : Guarded Interrupt Machine Unit := do
  let r := (← get).realm
  if ← found (isCallable r callee) then
    let prototype ← inRealm (lift (liftExcept (← found (read r callee "prototype"))))
    let object ← inRealm (lift (allocate (·.derive prototype)))
    enterFunction w callee object args object
  else raise (.thrown (.notAConstructor (← found (toText r callee))))

def arity : Operation → Guarded Interrupt Machine Nat
  | .call argc => sum w argc 2
  | .construct argc => sum w argc 1
  | op => pure op.arity

def operate (op : Operation) : Guarded Interrupt Machine Unit := do
  let args ← lift (Machine.popValues (← arity w op))
  match op with
  | .call _ =>
    enterFunction w (args.getD 1 .undefined) (args.getD 0 .undefined) (args.drop 2) none
  | .construct _ => construct w (args.getD 0 .undefined) (args.drop 1)
  | _ => lift (Machine.push (← inRealm (apply op args)))

end

/-! ## Temporaries -/

def setTemp (index : Nat) (v : Value) : Guarded Interrupt Machine Unit := do
  let frame := (← get).frame
  if h : index < frame.temps.size then
    lift (Machine.modifyFrame fun f => { f with temps := frame.temps.set index v h })
  else raise (.fatal (.missingTemporary frame.unit.name index))

def nextPresent (r : Realm) (list : ObjectRef) (object : Option ObjectRef) :
    Nat → Nat → Guarded Interrupt Machine (Option String × Nat)
  | 0, position => return (none, position)
  | n + 1, position => do
    let key ← found (toText r (← found (getFrom r list (toString position))))
    let next ← sum 32 position 1
    let present ← match object with
      | none => pure true
      | some ref => found (hasProperty r ref key)
    if present then return (some key, next) else nextPresent r list object n next

def nextKey (keys : Nat) : Guarded Interrupt Machine (Option String) := do
  let list ← lift (Machine.temp keys)
  let object ← lift (Machine.temp (← sum 16 keys 2))
  let r := (← get).realm
  let cursor ← sum 16 keys 1
  let position := Number.saturated32 (← found (toNumber r (← lift (Machine.temp cursor))))
  let (key, position) ← match list.object? with
    | none => pure (none, position)
    | some ref => do
      let o ← found (r.object? ref)
      nextPresent r ref object.object? (o.arrayLength - position) position
  setTemp (← sum 16 keys 1) (.number (Number.ofNat position))
  return key

/-! ## Instructions -/

def operandValue (r : Realm) (env : EnvRef) (temps : Array Value) :
    Operand → Option (Except Fault Value)
  | .binding name => valueOf r env name
  | operand => some (operand.value r env temps)

def typeOfName (r : Realm) (env : EnvRef) (name : String) : Option String := do
  match ← lookup r env name with
  | some v => typeName r v
  | none => return "undefined"

/-- The instructions that are not listed look at nothing but their frame, and never past its end. -/
def exec (w : Nat) : Instruction → Guarded Interrupt Machine Unit
  | .load i => do
    let operand ← lift (Machine.operand i)
    let m ← get
    let value ← found (operandValue m.realm m.context.env m.frame.temps operand)
    lift (Machine.push (← inRealm (lift (liftExcept value))))
  | .store i strict => do
    let name ← lift (Machine.nameOf i)
    let v ← lift Machine.peek
    let env := (← get).context.env
    inRealm (assign env name v strict)
  | .storeTemp t => do setTemp t (← lift Machine.pop)
  | .typeOfVariable i => do
    let name ← lift (Machine.nameOf i)
    let m ← get
    lift (Machine.push (.string (← found (typeOfName m.realm m.context.env name))))
  | .deleteVariable i => do
    let name ← lift (Machine.nameOf i)
    let env := (← get).context.env
    lift (Machine.push (.boolean (← inRealm (deleteBinding env name))))
  | .declareVariable i => do
    let name ← lift (Machine.nameOf i)
    let env := (← get).context.env
    inRealm (modifyEnv env (·.declare name false))
  | .initializeBinding i => do
    let name ← lift (Machine.nameOf i)
    let v ← lift Machine.pop
    let env := (← get).context.env
    inRealm (modifyEnv env (·.bind name v))
  | .makeClosure f => do lift (Machine.push (← makeClosure f))
  | .invoke id => do enter w (← lift (Machine.startFrame (← get).frame.artifact id .unit))
  | .operate op => operate w op
  | .enterCatch i => do
    let name ← lift (Machine.nameOf i)
    let v ← lift Machine.pop
    let env := (← get).context.env
    let scope ← inRealm (newScope env name v)
    lift (Machine.modifyFrame fun f => { f with scopes := env :: f.scopes })
    lift (Machine.setEnv scope)
  | .forInStep keys exhausted => do
    match ← nextKey keys with
    | some key => lift (Machine.push (.string key))
    | none => lift (Machine.jump exhausted)
  | i => lift (Machine.exec i)

/-! ## Steps and runs -/

def step (w : Nat) (m : Machine) : Except Trap Transition :=
  match m.status with
  | .finishing c => .ok (m.leave c)
  | .hanging => .ok (.next m)
  | .running =>
    match m.frame.unit.instructions[m.frame.next]? with
    | none => .ok m.proceed
    | some i =>
      if m.frame.next + 1 < 2 ^ w then
        if m.hangs i then .ok (.next { m with status := .hanging })
        else
          match exec w i m.advance with
          | .ok _ m => .ok (.next m)
          | .error (.raised (.thrown fault)) m => .ok (.next (m.throwFault fault))
          | .error (.raised (.fatal e)) m => .ok (.halt (.error e) m.realm m.context)
          | .error (.trap t) _ => .error t
      else .error .overflow

def run (w : Nat) : Nat → Machine → Except Trap Outcome
  | 0, m => .ok (.exhausted m)
  | n + 1, m => do
    match ← step w m with
    | .next m => run w n m
    | .halt result realm context => return .halted result realm context

def invoke (w fuel : Nat) (artifact : Artifact) (id : UnitId) (realm : Realm) (context : Context) :
    Except Trap Outcome :=
  let depth := realm.callDepth
  match Frame.start artifact id context.env .unit with
  | .error e => .ok (.halted (.error e) realm context)
  | .ok frame => do
    let realm ← countRun w realm frame.unit.name
    match ← run w fuel { realm, context, frame } with
    | .halted (.error e) realm _ =>
      return .halted (.error e) { realm with callDepth := min realm.callDepth depth } context
    | outcome => return outcome

end Guarded

/-! ## Computations of a founded machine -/

variable {r r' : Realm} {A : Machine → α → Prop} {args : List Value}

namespace Machine

abbrev Concurs (m : Machine) (x : Exec α) (y : Guarded Interrupt Machine α)
    (A : Machine → α → Prop) : Prop :=
  guarding.Mirrors id .raised m x y A

variable {m : Machine} {v : Value} {w : Nat}

theorem concurs_lift {x : Exec α} (h : guarding.Sustains m x A) : m.Concurs x (Guarded.lift x) A :=
  Guarded.mirrors_lift h

theorem concurs_inRealm (h : m.Founded) {x : RealmM α} {y : Guarded Fault Realm α}
    {A : Realm → α → Prop} (hx : m.realm.Concurs x y A) :
    m.Concurs (inRealm x) (Guarded.inRealm y) fun m a => A m.realm a := by
  have hsustains := hx.sustains
  have heq : y m.realm = translate id .raised (x m.realm) := hx.eq
  unfold Sustains at hsustains
  have hy : Guarded.inRealm y m = translate id .raised (inRealm x m) := by
    unfold Guarded.inRealm
    rw [heq, inRealm_eq]
    cases x m.realm <;> rfl
  refine ⟨?_, hy⟩
  unfold Sustains
  rw [inRealm_eq]
  cases hrun : x m.realm with
  | ok a r =>
    rw [hrun] at hsustains
    obtain ⟨hq, hf, ha⟩ := hsustains
    exact ⟨hq, h.withRealm hq.toGrows hf, ha⟩
  | error fault r =>
    rw [hrun] at hsustains
    obtain ⟨hq, hf, he⟩ := hsustains
    exact ⟨hq, h.withRealm hq.toGrows hf, he⟩

theorem concurs_push (h : m.Founded) (hv : m.realm.Inside v) :
    m.Concurs (push v) (Guarded.lift (push v)) fun _ _ => True :=
  concurs_lift (keeps_push h hv)

theorem concurs_nameOf (h : m.Founded) (i : OperandIndex) :
    m.Concurs (nameOf i) (Guarded.lift (nameOf i)) fun _ _ => True :=
  concurs_lift (sustains_nameOf h i)

theorem concurs_pop (h : m.Founded) :
    m.Concurs pop (Guarded.lift pop) fun m v => m.realm.Inside v :=
  concurs_lift (sustains_pop h)

theorem concurs_makeClosure (h : m.Founded) (id : FunctionId) :
    m.Concurs (makeClosure id) (Guarded.makeClosure id) fun m v => m.realm.Inside v := by
  refine Guarded.mirrors_get ?_
  cases m.frame.artifact.function? id with
  | none => exact mirrors_throw h trivial rfl
  | some info => exact concurs_inRealm h (concurs_newClosure h.realm _ info h.env)

end Machine

/-! ## Counting -/

/-- From `r` to `r'` the limit of calls stays, and of each unit one run is counted at most. -/
structure Realm.Tallies (r r' : Realm) : Prop where
  limit : r'.maxCallDepth = r.maxCallDepth
  traces : r'.traceUnits = r.traceUnits
  runs : ∀ unit, r'.runsOf unit ≤ r.runsOf unit + 1

theorem Realm.Quiet.tallies (h : Quiet r r') : Tallies r r' :=
  ⟨h.limit, h.traces, fun unit => Nat.le_succ_of_le (Nat.le_of_eq (h.runsOf unit))⟩

theorem Realm.Tallies.of_quiet {s t : Realm} (h : Tallies s t) (hq : Quiet r s) :
    Tallies r t := by
  refine ⟨h.limit.trans hq.limit, h.traces.trans hq.traces, fun unit => ?_⟩
  rw [← hq.runsOf]
  exact h.runs unit

theorem Realm.Tallies.quiet {s t : Realm} (h : Tallies r s) (hq : Quiet s t) :
    Tallies r t := by
  refine ⟨hq.limit.trans h.limit, hq.traces.trans h.traces, fun unit => ?_⟩
  rw [hq.runsOf]
  exact h.runs unit

theorem Realm.tallies_countRun (r : Realm) (unit : String) : Tallies r (r.countRun unit) := by
  unfold countRun
  split
  · refine ⟨rfl, rfl, fun name => ?_⟩
    show ((r.invocations.insert unit (r.runsOf unit + 1)).find? name).getD 0 ≤ _
    rw [KeyTable.find?_insert]
    by_cases h : name = unit
    · rw [if_pos h, h]
      exact Nat.le_refl _
    · rw [if_neg h]
      exact Nat.le_succ _
  · exact (Quiet.refl r).tallies

/-- There is room to count all calls and, if runs are counted, `n` more runs of each unit. -/
structure Realm.HasRoom (w n : Nat) (r : Realm) : Prop where
  calls : r.maxCallDepth < 2 ^ w
  runs : r.traceUnits = true → ∀ unit, r.runsOf unit + n < 2 ^ w

theorem Realm.HasRoom.quiet {w n : Nat} (h : r.HasRoom w n) (hq : Quiet r r') :
    r'.HasRoom w n := by
  refine ⟨?_, fun htraces unit => ?_⟩
  · rw [hq.limit]
    exact h.calls
  · rw [hq.runsOf]
    exact h.runs (hq.traces ▸ htraces) unit

theorem Realm.HasRoom.tallies {w n : Nat} (h : r.HasRoom w (n + 1)) (ht : Tallies r r') :
    r'.HasRoom w n := by
  refine ⟨?_, fun htraces unit => ?_⟩
  · rw [ht.limit]
    exact h.calls
  · have hruns := h.runs (ht.traces ▸ htraces) unit
    have hcounted := ht.runs unit
    omega

theorem Realm.HasRoom.countRun {w n : Nat} (h : r.HasRoom w (n + 1)) (unit : String) :
    Guarded.countRun w r unit = .ok (r.countRun unit) := by
  unfold Guarded.countRun Realm.countRun
  by_cases htraces : r.traceUnits = true
  · have hruns := h.runs htraces unit
    have hone : r.runsOf unit + 1 < 2 ^ w := by omega
    rw [if_pos htraces, if_pos htraces, if_pos hone]
  · rw [if_neg htraces, if_neg htraces]

namespace Machine

/-- Machines stay founded, whatever is counted. -/
def upkeep : Upkeep Interrupt Machine :=
  { guarding with along := fun _ _ => True, refl := fun _ => trivial, trans := fun _ _ => trivial }

/-- From `m` a computation keeps the machine founded and counts one run at most, and where there is
room for that its guarded version does the same. -/
structure Matches (w n : Nat) (m : Machine) (x : Exec Unit) (y : Guarded Interrupt Machine Unit) :
    Prop where
  keeps : upkeep.Sustains m x fun _ _ => True
  tallies : Tallies m.realm (stateOf (x m)).realm
  eq : m.realm.HasRoom w (n + 1) → y m = translate id .raised (x m)

variable {m : Machine} {v : Value} {w n : Nat} {x : Exec Unit}
  {y : Guarded Interrupt Machine Unit}

theorem settles_of_sustains (h : guarding.Sustains m x fun _ _ => True) :
    upkeep.Sustains m x (fun _ _ => True) ∧ Tallies m.realm (stateOf (x m)).realm := by
  unfold Sustains at h ⊢
  cases hrun : x m with
  | ok a m' | error e m' =>
    rw [hrun] at h
    exact ⟨⟨trivial, h.2⟩, h.1.tallies⟩

theorem Concurs.matches (h : m.Concurs x y fun _ _ => True) : m.Matches w n x y :=
  ⟨(settles_of_sustains h.sustains).1, (settles_of_sustains h.sustains).2, fun _ => h.eq⟩

theorem matches_bind {x : Exec α} {y : Guarded Interrupt Machine α} {f : α → Exec Unit}
    {g : α → Guarded Interrupt Machine Unit} (hx : guarding.Sustains m x A)
    (heq : m.realm.HasRoom w (n + 1) → y m = translate id .raised (x m))
    (hf : ∀ a m', Quiet m.realm m'.realm → m'.Founded → A m' a → m'.Matches w n (f a) (g a)) :
    m.Matches w n (x >>= f) (y >>= g) := by
  unfold Sustains at hx
  cases hrun : x m with
  | error e m' =>
    rw [hrun] at hx heq
    refine ⟨?_, ?_, fun hroom => ?_⟩
    · unfold Sustains
      rw [bind_error hrun]
      exact ⟨trivial, hx.2⟩
    · rw [bind_error hrun]
      exact hx.1.tallies
    · rw [bind_error hrun]
      show EStateM.bind y g m = _
      unfold EStateM.bind
      rw [heq hroom]
      rfl
  | ok a m' =>
    rw [hrun] at hx heq
    have hrest := hf a m' hx.1 hx.2.1 hx.2.2
    refine ⟨?_, ?_, fun hroom => ?_⟩
    · unfold Sustains
      rw [bind_ok hrun]
      exact hrest.keeps
    · rw [bind_ok hrun]
      exact hrest.tallies.of_quiet hx.1
    · rw [bind_ok hrun, ← hrest.eq (hroom.quiet hx.1)]
      show EStateM.bind y g m = _
      unfold EStateM.bind
      rw [heq hroom]
      rfl

theorem Concurs.bind_matches {x : Exec α} {y : Guarded Interrupt Machine α} {f : α → Exec Unit}
    {g : α → Guarded Interrupt Machine Unit} (hx : m.Concurs x y A)
    (hf : ∀ a m', Quiet m.realm m'.realm → m'.Founded → A m' a → m'.Matches w n (f a) (g a)) :
    m.Matches w n (x >>= f) (y >>= g) :=
  matches_bind hx.sustains (fun _ => hx.eq) hf

theorem matches_get {f : Machine → Exec Unit} {g : Machine → Guarded Interrupt Machine Unit}
    (h : m.Matches w n (f m) (g m)) : m.Matches w n (get >>= f) (get >>= g) :=
  ⟨h.keeps, h.tallies, h.eq⟩

theorem matches_get_left {f : Machine → Exec Unit} (h : m.Matches w n (f m) y) :
    m.Matches w n (get >>= f) y :=
  ⟨h.keeps, h.tallies, h.eq⟩

theorem matches_found {o : Option β} {b : β} {g : β → Guarded Interrupt Machine Unit}
    (ho : o = some b) (h : m.Matches w n x (g b)) : m.Matches w n x (Guarded.found o >>= g) := by
  rw [ho]
  exact ⟨h.keeps, h.tallies, h.eq⟩

theorem matches_enter (h : m.Founded) {callee : Frame} (hc : callee.Inside m.realm) :
    m.Matches w n (enter callee) (Guarded.enter w callee) := by
  have hg := grows_countRun m.realm callee.unit.name
  have hm := h.withRealm hg (founded_countRun h.realm _)
  refine ⟨⟨trivial, ⟨hm.realm, hm.env, hm.this, hc.mono hg, List.forall_mem_cons.mpr
    ⟨hm.frame, hm.callers⟩, fun _ h => nomatch h⟩, trivial⟩,
    tallies_countRun m.realm callee.unit.name, fun hroom => ?_⟩
  unfold Guarded.enter
  rw [hroom.countRun]
  rfl

/-! ## Calls -/

theorem closureOf_eq (hv : r.Inside v) :
    Guarded.closureOf r v = some (v.object? >>= fun ref => (r.object ref).closure?) := by
  cases v with
  | object ref =>
    show (r.object? ref >>= _) = _
    rw [object?_of_inside hv]
    rfl
  | _ => rfl

theorem sustains_startFrame (h : m.Founded) (a : Artifact) (id : UnitId) {resume : Resume}
    (hr : m.realm.Resumes resume) :
    guarding.Sustains m (startFrame a id resume) fun m f => f.Inside m.realm := by
  refine sustains_get ?_
  cases hs : Frame.start a id m.context.env resume with
  | ok frame => exact sustains_pure h (Frame.inside_start hs h.env hr)
  | error e => exact sustains_fatal h e

theorem enterCall_eq (hroom : r.HasRoom w (n + 1)) (hd : r.callDepth < r.maxCallDepth) :
    Guarded.enterCall w r = .ok () { r with callDepth := r.callDepth + 1 } := by
  have hsum : r.callDepth + 1 < 2 ^ w := Nat.lt_of_le_of_lt hd hroom.calls
  show (if r.callDepth < r.maxCallDepth then Guarded.sum w r.callDepth 1 >>= _ else _ :
    Guarded Fault Realm Unit) r = _
  rw [if_pos hd, Guarded.sum_eq hsum]
  rfl

def enterFrame (closure : Closure) (receiver : Value) (args : List Value) (frame : Frame) :
    Exec Unit := do
  match (← get).realm.enterCall? with
  | none => throw (.thrown .callDepth)
  | some r =>
    modifyRealm fun _ => r
    let env ← callEnv closure args
    let strict := closure.info.strict
    modify ({ · with context := ⟨env, thisFor strict receiver, strict⟩ })
    enter frame

theorem matches_enterFrame (h : m.Founded) {closure : Closure} (he : m.realm.HasEnv closure.env)
    {receiver : Value} (hr : m.realm.Inside receiver) (hargs : ∀ v ∈ args, m.realm.Inside v)
    {frame : Frame} (hf : frame.Inside m.realm) :
    m.Matches w n (enterFrame closure receiver args frame)
      (Guarded.enterFrame w closure receiver args frame) := by
  refine matches_get_left ?_
  by_cases hd : m.realm.callDepth < m.realm.maxCallDepth
  · have hcall : m.realm.enterCall? = some { m.realm with callDepth := m.realm.callDepth + 1 } :=
      if_pos hd
    have hq : Quiet m.realm { m.realm with callDepth := m.realm.callDepth + 1 } :=
      ⟨grows_of_objects rfl (Nat.le_refl _), rfl, rfl, rfl⟩
    rw [hcall]
    refine matches_bind (A := fun _ _ => True)
      ⟨hq, h.withRealm hq.toGrows (h.realm.of_same rfl rfl), trivial⟩ (fun hroom => ?_)
      fun _ m1 hq1 h1 _ => ?_
    · unfold Guarded.inRealm
      rw [enterCall_eq hroom hd]
      rfl
    have hargs1 : ∀ v ∈ args, m1.realm.Inside v := fun v hv => (hargs v hv).mono hq1.objects
    refine (concurs_inRealm h1 (concurs_newCallEnv h1.realm (he.mono hq1.environments)
      hargs1)).bind_matches fun env m2 hq2 h2 henv => ?_
    have hthis := inside_thisFor h2.realm closure.info.strict
      ((hr.mono hq1.objects).mono hq2.objects)
    refine Concurs.bind_matches (A := fun _ _ => True) (mirrors_modify (U := guarding) (.refl _)
      ⟨h2.realm, henv, hthis, h2.frame, h2.callers, h2.status⟩ trivial rfl)
      fun _ m3 hq3 h3 _ => matches_enter h3 ?_
    exact hf.mono ((hq1.trans hq2).trans hq3).toGrows
  · have hcall : m.realm.enterCall? = none := if_neg hd
    have htwin : Guarded.enterCall w m.realm = .error (.raised .callDepth) m.realm := by
      show (if m.realm.callDepth < m.realm.maxCallDepth then _ else _ :
        Guarded Fault Realm Unit) m.realm = _
      rw [if_neg hd]
      rfl
    rw [hcall]
    refine ⟨⟨trivial, h, trivial⟩, (Quiet.refl m.realm).tallies, fun _ => ?_⟩
    show EStateM.bind (Guarded.inRealm (Guarded.enterCall w)) _ m = _
    unfold EStateM.bind Guarded.inRealm
    rw [htwin]
    rfl

theorem matches_enterFunction (h : m.Founded) {callee : Value} (hcallee : m.realm.Inside callee)
    {receiver : Value} (hr : m.realm.Inside receiver)
    (hargs : ∀ v ∈ args, m.realm.Inside v) {constructed : Option Value}
    (hc : ∀ v, constructed = some v → m.realm.Inside v) :
    m.Matches w n (enterFunction callee receiver args constructed)
      (Guarded.enterFunction w callee receiver args constructed) := by
  refine matches_get (matches_found (closureOf_eq hcallee) ?_)
  dsimp only
  cases hclosure : callee.object? >>= fun ref => (m.realm.object ref).closure? with
  | none =>
    exact matches_found (Guarded.toText_eq h.realm hcallee)
      (Concurs.matches (mirrors_throw h trivial rfl))
  | some closure =>
    obtain ⟨ref, -, href⟩ := Option.bind_eq_some_iff.mp hclosure
    have henv := h.realm.closure ⟨ref, href⟩
    have hresume : m.realm.Resumes (.call m.context.this m.context.strict constructed) :=
      ⟨h.this, hc⟩
    refine matches_get ?_
    refine (concurs_lift (sustains_startFrame h _ _ hresume)).bind_matches
      fun frame m1 hq1 h1 hf => ?_
    exact matches_enterFrame h1 (henv.mono hq1.environments) (hr.mono hq1.objects)
      (fun v hv => (hargs v hv).mono hq1.objects) hf

theorem matches_construct (h : m.Founded) {callee : Value} (hcallee : m.realm.Inside callee)
    (hargs : ∀ v ∈ args, m.realm.Inside v) :
    m.Matches w n (construct callee args) (Guarded.construct w callee args) := by
  refine matches_get (matches_found (Guarded.isCallable_eq hcallee) ?_)
  dsimp only
  split
  · refine matches_found (Guarded.read_eq h.realm hcallee "prototype") ?_
    refine (concurs_inRealm h (Guarded.mirrors_lift (sustains_liftExcept (U := Realm.guarding)
      h.realm (fun _ hv => h.realm.inside_read hv) fun _ he => throws_read he))).bind_matches
      fun prototype m1 hq1 h1 hp => ?_
    refine (concurs_inRealm h1 (concurs_allocate ⟨grows_addObject _ _, rfl, rfl, rfl⟩
      (h1.realm.derive hp) (inside_addObject _ _))).bind_matches fun object m2 hq2 h2 ho => ?_
    refine matches_enterFunction h2
      ((hcallee.mono hq1.objects).mono hq2.objects) ho
      (fun v hv => ((hargs v hv).mono hq1.objects).mono hq2.objects) fun v hv => ?_
    cases hv
    exact ho
  · exact matches_found (Guarded.toText_eq h.realm hcallee)
      (Concurs.matches (mirrors_throw h trivial rfl))

theorem arity_eq {op : Operation} (h : op.arity < 2 ^ w) : Guarded.arity w op = pure op.arity := by
  cases op with
  | call argc | construct argc => exact Guarded.sum_eq h
  | _ => rfl

theorem matches_operate (h : m.Founded) {op : Operation} (hop : op.arity < 2 ^ w) :
    m.Matches w n (operate op) (Guarded.operate w op) := by
  unfold operate Guarded.operate
  rw [arity_eq hop, pure_bind]
  refine (concurs_lift (sustains_popValues h _)).bind_matches
    fun args m1 hq1 h1 hargs => ?_
  have harg := inside_getD hargs
  have hdrop (k : Nat) : ∀ v ∈ args.drop k, m1.realm.Inside v := fun v hv =>
    hargs v (List.mem_of_mem_drop hv)
  have hplain : m1.Concurs (inRealm (apply op args) >>= push)
      (Guarded.inRealm (Guarded.apply op args) >>= fun v => Guarded.lift (push v))
      fun _ _ => True :=
    (concurs_inRealm h1 (concurs_apply h1.realm op hargs)).bind
      fun _ _ _ h2 hv => concurs_push h2 hv
  cases op with
  | call argc =>
    exact matches_enterFunction h1 (harg 1) (harg 0) (hdrop 2) fun _ h => nomatch h
  | construct argc => exact matches_construct h1 (harg 0) (hdrop 1)
  | _ => exact hplain.matches

/-! ## Temporaries -/

theorem concurs_setTemp (h : m.Founded) (index : Nat) (hv : m.realm.Inside v) :
    m.Concurs (setTemp index v) (Guarded.setTemp index v) fun _ _ => True := by
  refine ⟨keeps_setTemp h index hv, ?_⟩
  have heq : Guarded.setTemp index v m = Guarded.lift (setTemp index v) m := by
    by_cases hi : index < m.frame.temps.size
    · have hset : m.frame.temps.set index v hi = m.frame.temps.setIfInBounds index v := by
        unfold Array.setIfInBounds
        rw [dif_pos hi]
      show (if h : index < m.frame.temps.size then _ else _ : Guarded Interrupt Machine Unit) m = _
      rw [dif_pos hi, hset]
      show _ = translate id _ (setTemp index v m)
      rw [setTemp_eq hi]
      rfl
    · show (if h : index < m.frame.temps.size then _ else _ : Guarded Interrupt Machine Unit) m =
        translate id _ ((if index < m.frame.temps.size then _ else _ : Exec Unit) m)
      rw [dif_neg hi, if_neg hi]
      rfl
  exact heq

theorem nextPresent_eq (h : r.Founded) {list : ObjectRef} (hl : r.Inside (.object list))
    {object : Option ObjectRef} (ho : ∀ ref, object = some ref → r.Inside (.object ref))
    {position : Nat} (hn : n = 0 ∨ position + n < 2 ^ 32) :
    Guarded.nextPresent r list object n position = pure (nextPresent r list object n position) := by
  induction n generalizing position with
  | zero => rfl
  | succ n ih =>
    have hsum : position + 1 < 2 ^ 32 := by omega
    have htext := Guarded.toText_eq h (h.inside_getFrom list (toString position))
    unfold Guarded.nextPresent nextPresent
    rw [Guarded.getFrom_eq h hl, Guarded.found_some, pure_bind, htext, Guarded.found_some,
      pure_bind, Guarded.sum_eq hsum, pure_bind]
    cases object with
    | none => rfl
    | some ref =>
      dsimp only
      rw [Guarded.hasProperty_eq h (ho ref rfl), Guarded.found_some, pure_bind]
      show (if r.hasProperty ref _ = true then _ else _) =
        pure (if r.hasProperty ref _ = true then _ else _)
      split
      · rfl
      · exact ih (by omega)

theorem sustains_tempAt (h : m.Founded) (index : Nat) :
    guarding.Sustains m (temp index) fun _ v =>
      m.realm.Inside v ∧ index < m.frame.temps.size := by
  refine sustains_get ?_
  dsimp only
  cases hi : m.frame.temps[index]? with
  | none => exact sustains_fatal h _
  | some v =>
    exact sustains_pure h ⟨h.frame.temps v (Array.mem_of_getElem? hi),
      (Array.getElem?_eq_some_iff.mp hi).1⟩

/-- The two temporaries after the keys are found by number, if there is a number for the second. -/
theorem concurs_nextKey (h : m.Founded) {keys : Nat}
    (hkeys : keys < m.frame.temps.size → keys + 2 < 2 ^ 16) :
    m.Concurs (nextKey keys) (Guarded.nextKey keys) fun _ _ => True := by
  refine (concurs_lift (sustains_tempAt h keys)).bind
    fun list m1 hq1 h1 ⟨hlist, hlt⟩ => ?_
  have htwo : keys + 2 < 2 ^ 16 := hkeys hlt
  have hone : keys + 1 < 2 ^ 16 := by omega
  have hobjectAt : tempAfter keys 2 = keys + 2 := Nat.mod_eq_of_lt htwo
  have hcursorAt : tempAfter keys 1 = keys + 1 := Nat.mod_eq_of_lt hone
  rw [hobjectAt, hcursorAt]
  refine Guarded.mirrors_sum htwo ?_
  refine (concurs_lift (sustains_tempAt h1 _)).bind
    fun object m2 hq2 h2 ⟨hobject, _⟩ => ?_
  refine Guarded.mirrors_get (Guarded.mirrors_sum hone ?_)
  refine (concurs_lift (sustains_tempAt h2 _)).bind
    fun cursor m3 hq3 h3 ⟨hcursor, _⟩ => ?_
  refine Guarded.mirrors_found (Guarded.toNumber_eq h2.realm hcursor) ?_
  have hend (key : Option String) (position : Nat) : m3.Concurs
      (setTemp (keys + 1) (.number (Number.ofNat position)) >>= fun _ => pure key)
      (Guarded.sum 16 keys 1 >>= fun cursor =>
        Guarded.setTemp cursor (.number (Number.ofNat position)) >>= fun _ => pure key)
      fun _ _ => True :=
    Guarded.mirrors_sum hone ((concurs_setTemp (v := .number _) h3 _ trivial).bind fun _ _ _ h4 _ =>
      mirrors_pure h4 trivial)
  cases hl : list.object? with
  | none => exact hend none _
  | some ref =>
    have href : m2.realm.Inside (.object ref) :=
      inside_object? ((hlist.mono hq1.objects).mono hq2.objects) hl
    refine Guarded.mirrors_found (object?_of_inside href) ?_
    have hlength := arrayLength_le (m2.realm.object ref)
    rw [nextPresent_eq h2.realm href (fun ref' ho => inside_object? (hobject.mono hq2.objects) ho)
      (by omega), pure_bind]
    exact hend _ _

/-! ## Instructions -/

theorem operandValue_eq (h : r.Founded) {env : EnvRef} (he : r.HasEnv env) (temps : Array Value)
    (o : Operand) :
    Guarded.operandValue r env temps o = some (o.value r env temps) := by
  cases o with
  | binding name => exact Guarded.valueOf_eq h he name
  | constant c => rfl
  | temporary t => rfl

theorem typeOfName_eq (h : r.Founded) {env : EnvRef} (he : r.HasEnv env) (name : String) :
    Guarded.typeOfName r env name = some (match r.lookup env name with
      | some v => r.typeName v
      | none => "undefined") := by
  unfold Guarded.typeOfName
  rw [Guarded.lookup_eq h he]
  cases hfound : r.lookup env name with
  | none => rfl
  | some v => exact Guarded.typeName_eq (h.inside_lookup hfound)

/-- Every instruction is matched, but for an enumeration that runs out of numbers. -/
theorem matches_exec (h : m.Founded) {i : Instruction}
    (hop : ∀ op, i = .operate op → op.arity < 2 ^ w)
    (hkeys : ∀ keys l, i = .forInStep keys l → keys < m.frame.temps.size → keys + 2 < 2 ^ 16) :
    m.Matches w n (exec i) (Guarded.exec w i) := by
  cases i with
  | load i =>
    refine Concurs.matches ?_
    refine (concurs_lift (sustains_operand h i)).bind fun o m1 _ h1 _ => ?_
    refine Guarded.mirrors_get (Guarded.mirrors_found (operandValue_eq h1.realm h1.env _ o) ?_)
    exact (concurs_inRealm h1 (Guarded.mirrors_lift (sustains_liftExcept (U := Realm.guarding)
      (A := Inside) h1.realm (fun _ hv => h1.inside_operand hv) fun _ hf =>
        throws_operand hf))).bind fun v _ _ h2 hv => concurs_push h2 hv
  | store i strict =>
    refine Concurs.matches ?_
    refine (concurs_nameOf h i).bind fun name m1 _ h1 _ => ?_
    refine (concurs_lift (sustains_peek h1)).bind fun v m2 _ h2 hv => ?_
    exact Guarded.mirrors_get (concurs_inRealm h2 (concurs_assign h2.realm h2.env name hv strict))
  | storeTemp t =>
    refine Concurs.matches ?_
    exact (concurs_pop h).bind fun v m1 _ h1 hv => concurs_setTemp h1 t hv
  | typeOfVariable i =>
    refine Concurs.matches ?_
    refine (concurs_nameOf h i).bind fun name m1 _ h1 _ => ?_
    refine Guarded.mirrors_get (Guarded.mirrors_found (typeOfName_eq h1.realm h1.env name) ?_)
    exact concurs_push h1 trivial
  | deleteVariable i =>
    refine Concurs.matches ?_
    refine (concurs_nameOf h i).bind fun name m1 _ h1 _ => Guarded.mirrors_get ?_
    exact (concurs_inRealm h1 (concurs_deleteBinding h1.realm h1.env name)).bind
      fun _ _ _ h2 _ => concurs_push (v := .boolean _) h2 trivial
  | declareVariable i =>
    refine Concurs.matches ?_
    refine (concurs_nameOf h i).bind fun name m1 _ h1 _ => Guarded.mirrors_get ?_
    exact concurs_inRealm h1 (concurs_modifyEnv h1.realm h1.env fun he => he.declare name false)
  | initializeBinding i =>
    refine Concurs.matches ?_
    refine (concurs_nameOf h i).bind fun name m1 _ h1 _ => ?_
    refine (concurs_pop h1).bind fun v m2 _ h2 hv => Guarded.mirrors_get ?_
    exact concurs_inRealm h2 (concurs_modifyEnv h2.realm h2.env fun he => he.bind name hv)
  | makeClosure f =>
    refine Concurs.matches ?_
    exact (concurs_makeClosure h f).bind fun v _ _ h1 hv => concurs_push h1 hv
  | invoke id =>
    refine matches_get ?_
    have hunit : m.realm.Resumes .unit := trivial
    exact (concurs_lift (sustains_startFrame h _ id hunit)).bind_matches
      fun callee _ _ h1 hc => matches_enter h1 hc
  | operate op => exact matches_operate h (hop op rfl)
  | enterCatch i =>
    refine Concurs.matches ?_
    refine (concurs_nameOf h i).bind fun name m1 _ h1 _ => ?_
    refine (concurs_pop h1).bind fun v m2 _ h2 hv => Guarded.mirrors_get ?_
    refine (concurs_inRealm h2 (concurs_newScope h2.realm h2.env name hv)).bind
      fun scope m3 hq3 h3 hscope => ?_
    have hscopes := List.forall_mem_cons.mpr ⟨h2.env.mono hq3.environments, h3.frame.scopes⟩
    refine (concurs_lift (keeps_modifyFrame h3 ⟨h3.frame.stack, h3.frame.temps,
      hscopes, h3.frame.callerEnv, h3.frame.resume⟩)).bind fun _ m4 hq4 h4 _ => ?_
    exact concurs_lift (keeps_setEnv h4 (hscope.mono hq4.environments))
  | forInStep keys l =>
    refine Concurs.matches ?_
    refine (concurs_nextKey h (hkeys keys l rfl)).bind fun key m1 _ h1 _ => ?_
    cases key with
    | some key => exact concurs_push (v := .string key) h1 trivial
    | none => exact concurs_lift (keeps_jump h1 l)
  | _ => exact Concurs.matches (concurs_lift (keeps_inFrame h rfl))

theorem keeps_exec (h : m.Founded) (i : Instruction) :
    upkeep.Sustains m (exec i) fun _ _ => True := by
  cases i with
  | forInStep keys l =>
    refine (settles_of_sustains ((sustains_nextKey h keys).bind fun key m1 _ h1 _ => ?_)).1
    cases key with
    | some key => exact keeps_push h1 (v := .string key) trivial
    | none => exact keeps_jump h1 l
  | operate op => exact (matches_operate (n := 0) h Nat.lt_two_pow_self).keeps
  | _ =>
    refine (matches_exec (w := 0) (n := 0) h ?_ ?_).keeps
    · exact fun _ h => nomatch h
    · exact fun _ _ h => nomatch h

end Machine

end TreeScript
