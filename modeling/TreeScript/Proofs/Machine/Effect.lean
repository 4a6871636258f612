import TreeScript.Proofs.Machine.Instructions
import TreeScript.Proofs.Machine.Steady

/-!
# What an instruction can do

Most instructions stay with the running frame: they may change its stack, its temporaries, its open
scopes and its place in the code, the environment of the context, and the realm.  `Machine.Stays`
says what they leave alone.  The others put a frame on top, which `Machine.Enters` describes, and
`effective_exec` says that there is nothing else.  It also says that the frames below do not matter
to an instruction.
-/

namespace TreeScript

open Code Realm

/-- A closure of one of an artifact's own functions. -/
def Closure.Of (a : Artifact) (c : Closure) : Prop :=
  c.artifact = a ∧ ∃ id, a.function? id = some c.info

def Code.Instruction.declares : Instruction → Bool
  | .makeClosure _ | .initializeBinding _ | .declareVariable _ => true
  | _ => false

def Code.Instruction.changesScope : Instruction → Bool
  | .enterCatch _ | .exitScope => true
  | _ => false

/-- Two states of one frame. -/
structure Frame.Alike (f f' : Frame) : Prop where
  artifact : f'.artifact = f.artifact
  unit : f'.unit = f.unit
  temps : f'.temps.size = f.temps.size
  callerEnv : f'.callerEnv = f.callerEnv
  resume : f'.resume = f.resume

theorem Frame.Alike.refl (f : Frame) : f.Alike f := ⟨rfl, rfl, rfl, rfl, rfl⟩

theorem Frame.Alike.trans {f g h : Frame} (h1 : f.Alike g) (h2 : g.Alike h) : f.Alike h where
  artifact := h2.artifact.trans h1.artifact
  unit := h2.unit.trans h1.unit
  temps := h2.temps.trans h1.temps
  callerEnv := h2.callerEnv.trans h1.callerEnv
  resume := h2.resume.trans h1.resume

/-! ## Work in the frame

The parts that most instructions are made of look at the running frame and the context only, and
change nothing but the frame. -/

structure Frame.Moved (jumps : Bool) (f f' : Frame) : Prop extends Frame.Alike f f' where
  scopes : f'.scopes = f.scopes
  next : jumps = false → f'.next = f.next

theorem Frame.moved_stack {jumps : Bool} (f : Frame) (stack : List Slot) :
    f.Moved jumps { f with stack } :=
  ⟨⟨rfl, rfl, rfl, rfl, rfl⟩, rfl, fun _ => rfl⟩

def Code.Instruction.worksInFrame : Instruction → Bool
  | load _ | store _ _ | typeOfVariable _ | deleteVariable _ | declareVariable _
  | initializeBinding _ | makeClosure _ | invoke _ | operate _ | enterCatch _ | forInStep _ _ =>
    false
  | _ => true

namespace Machine

/-- A computation that works in its own frame. -/
inductive Own (jumps : Bool) : {α : Type} → Exec α → Prop where
  | pure {α : Type} (a : α) : Own jumps (pure a)
  | fatal {α : Type} (e : MachineError) : Own jumps (fatal e : Exec α)
  | bind {α β : Type} {x : Exec α} {f : α → Exec β} :
    Own jumps x → (∀ a, Own jumps (f a)) → Own jumps (x >>= f)
  | get {α : Type} {f : Machine → Exec α} :
    (∀ m realm callers status, f { m with realm, callers, status } = f m) →
    (∀ m, Own jumps (f m)) → Own jumps (get >>= f)
  | modifyFrame {f : Frame → Frame} :
    (∀ frame : Frame, frame.Moved jumps (f frame)) → Own jumps (modifyFrame f)

section

variable {jumps : Bool}

theorem own_push (v : Value) : Own jumps (push v) := .modifyFrame fun f => f.moved_stack _

theorem own_pushCompletion (c : Completion) : Own jumps (pushCompletion c) :=
  .modifyFrame fun f => f.moved_stack _

theorem own_setStack (stack : List Slot) : Own jumps (setStack stack) :=
  .modifyFrame fun f => f.moved_stack _

theorem own_underflow : Own jumps (underflow : Exec α) :=
  .get (fun _ _ _ _ => rfl) fun _ => .fatal _

theorem own_mismatch (kind : SlotKind) : Own jumps (mismatch kind : Exec α) :=
  .get (fun _ _ _ _ => rfl) fun _ => .fatal _

theorem own_peekSlot : Own jumps peekSlot := by
  refine .get (fun _ _ _ _ => rfl) fun m => ?_
  split
  · exact own_underflow
  · exact .pure _

theorem own_popSlot : Own jumps popSlot := by
  refine .get (fun _ _ _ _ => rfl) fun m => ?_
  split
  · exact own_underflow
  · exact (own_setStack _).bind fun _ => .pure _

theorem own_asValue (s : Slot) : Own jumps (asValue s) := by
  cases s with
  | value v => exact .pure _
  | completion c => exact own_mismatch _

theorem own_asCompletion (s : Slot) : Own jumps (asCompletion s) := by
  cases s with
  | value v => exact own_mismatch _
  | completion c => exact .pure _

theorem own_pop : Own jumps pop := own_popSlot.bind own_asValue

theorem own_popCompletion : Own jumps popCompletion := own_popSlot.bind own_asCompletion

theorem own_peek : Own jumps peek := own_peekSlot.bind own_asValue

theorem own_peekCompletion : Own jumps peekCompletion := own_peekSlot.bind own_asCompletion

theorem own_topTwo : Own jumps topTwo := by
  refine .get (fun _ _ _ _ => rfl) fun m => ?_
  split
  · exact .pure _
  · exact own_underflow

theorem own_asValues (slots : List Slot) : Own jumps (slots.mapM asValue) := by
  induction slots with
  | nil => exact .pure _
  | cons s slots ih =>
    rw [List.mapM_cons]
    exact (own_asValue s).bind fun _ => ih.bind fun _ => .pure _

theorem own_popValues (n : Nat) : Own jumps (popValues n) := by
  refine .get (fun _ _ _ _ => rfl) fun m => ?_
  split
  · exact own_underflow
  · exact (own_setStack _).bind fun _ => own_asValues _

theorem own_lookedUp (missing : MachineError) (x : Option α) : Own jumps (lookedUp missing x) := by
  cases x with
  | some x => exact .pure x
  | none => exact .fatal missing

theorem own_operand (index : OperandIndex) : Own jumps (operand index) :=
  .get (fun _ _ _ _ => rfl) fun _ => own_lookedUp _ _

theorem own_nameOf (index : OperandIndex) : Own jumps (nameOf index) := by
  refine (own_operand index).bind fun o => ?_
  split
  · exact .pure _
  · exact .get (fun _ _ _ _ => rfl) fun _ => .fatal _

theorem own_temp (index : Nat) : Own jumps (temp index) :=
  .get (fun _ _ _ _ => rfl) fun _ => own_lookedUp _ _

theorem own_setTemp (index : Nat) (v : Value) : Own jumps (setTemp index v) := by
  refine .get (fun _ _ _ _ => rfl) fun m => ?_
  dsimp only
  split
  · exact .modifyFrame fun _ =>
      ⟨⟨rfl, rfl, Array.size_setIfInBounds, rfl, rfl⟩, rfl, fun _ => rfl⟩
  · exact .fatal _

theorem own_startFrame (a : Artifact) (id : UnitId) (resume : Resume) :
    Own jumps (startFrame a id resume) := by
  refine .get (fun _ _ _ _ => rfl) fun m => ?_
  split
  · exact .pure _
  · exact .fatal _

end

theorem own_jump (label : Label) : Own true (jump label) := by
  refine .get (fun _ _ _ _ => rfl) fun m => ?_
  dsimp only
  split
  · exact .modifyFrame fun _ => ⟨⟨rfl, rfl, rfl, rfl, rfl⟩, rfl, fun h => absurd h (by decide)⟩
  · exact .fatal _

theorem own_jumpIf (condition : Bool) (label : Label) : Own true (jumpIf condition label) := by
  cases condition with
  | false => exact .pure _
  | true => exact own_jump label

theorem own_exec {i : Instruction} (h : i.worksInFrame = true) (hs : i ≠ .exitScope) :
    Own true (exec i) := by
  cases i with
  | exitScope => exact absurd rfl hs
  | storeTemp t => exact own_pop.bind (own_setTemp t)
  | loadThis => exact .get (fun _ _ _ _ => rfl) fun _ => own_push _
  | pop => exact own_popSlot.bind fun _ => .pure _
  | dup => exact own_peekSlot.bind fun _ => .modifyFrame fun f => f.moved_stack _
  | dupPair | swap => exact own_topTwo.bind fun _ => own_setStack _
  | nop => exact .pure _
  | jump l => exact own_jump l
  | jumpIfFalse l | jumpIfTrue l => exact own_pop.bind fun _ => own_jumpIf _ l
  | normal | breakTo target | continueTo target => exact own_pushCompletion _
  | normalValue | returnValue | throwValue => exact own_pop.bind fun _ => own_pushCompletion _
  | jumpIfAbrupt l | jumpIfKind kind l | jumpUnlessKind kind l | jumpIfBreaksHere labels l
  | jumpIfContinuesHere labels l => exact own_peekCompletion.bind fun _ => own_jumpIf _ l
  | merge =>
    exact own_popCompletion.bind fun _ => own_popCompletion.bind fun _ =>
      own_pushCompletion _
  | consumeBreak labels => exact own_popCompletion.bind fun _ => own_pushCompletion _
  | unwrap => exact own_popCompletion.bind fun _ => own_push _
  | _ => cases h

/-- From `m` to `m'` only the running frame was at work. -/
structure Stays (m m' : Machine) : Prop where
  realm : Steady (Closure.Of m.frame.artifact) m.realm m'.realm
  this : m'.context.this = m.context.this
  strict : m'.context.strict = m.context.strict
  frame : m.frame.Alike m'.frame
  callers : m'.callers = m.callers
  status : m'.status = m.status

theorem Stays.refl (m : Machine) : Stays m m := ⟨.refl _, rfl, rfl, .refl _, rfl, rfl⟩

theorem Stays.trans {m1 m2 m3 : Machine} (h : Stays m1 m2) (h' : Stays m2 m3) : Stays m1 m3 where
  realm := h.realm.trans (h.frame.artifact ▸ h'.realm)
  this := h'.this.trans h.this
  strict := h'.strict.trans h.strict
  frame := h.frame.trans h'.frame
  callers := h'.callers.trans h.callers
  status := h'.status.trans h.status

/-- The frame worked in one environment, and may have jumped. -/
structure Local (jumps : Bool) (m m' : Machine) : Prop extends Stays m m' where
  env : m'.context.env = m.context.env
  scopes : m'.frame.scopes = m.frame.scopes
  next : jumps = false → m'.frame.next = m.frame.next

variable {jumps : Bool}

theorem Local.refl (m : Machine) : Local jumps m m := ⟨.refl m, rfl, rfl, fun _ => rfl⟩

theorem Local.trans {m1 m2 m3 : Machine} (h : Local jumps m1 m2) (h' : Local jumps m2 m3) :
    Local jumps m1 m3 :=
  ⟨h.toStays.trans h'.toStays, h'.env.trans h.env, h'.scopes.trans h.scopes,
    fun hj => (h'.next hj).trans (h.next hj)⟩

theorem Local.context {m m' : Machine} (h : Local jumps m m') : m'.context = m.context := by
  have he := h.env
  have ht := h.this
  have hs := h.strict
  cases hc : m.context with
  | mk env this strict =>
    cases hc' : m'.context with
    | mk env' this' strict' =>
      rw [hc, hc'] at he ht hs
      cases he
      cases ht
      cases hs
      rfl

instance : Std.Refl Stays := ⟨Stays.refl⟩

instance : Trans Stays Stays Stays := ⟨Stays.trans⟩

instance : Std.Refl (Local jumps) := ⟨Local.refl⟩

instance : Trans (Local jumps) (Local jumps) (Local jumps) := ⟨Local.trans⟩

/-! ## Frames below

An instruction knows the running frame, the context and the realm.  It does not look at the frames
that wait below, so it does the same with more of them. -/

def atop (m : Machine) (below : List Frame) : Machine := { m with callers := m.callers ++ below }

/-- A computation that does not look below the running frame. -/
abbrev Blind (x : Exec α) : Prop := Commutes (fun below m => atop m below) x

theorem blind_throw (e : Interrupt) : Blind (throw e : Exec α) := fun _ _ => rfl

theorem blind_inRealm (x : RealmM α) : Blind (inRealm x) := by
  intro m below
  have hr : (m.atop below).realm = m.realm := rfl
  rw [inRealm_eq, inRealm_eq, hr]
  cases x m.realm <;> rfl

/-- What a part of an instruction does: it moves the machine along `R`, whatever is below. -/
structure Tame (R : Machine → Machine → Prop) (x : Exec α) : Prop where
  moves : Moves R x
  blind : Blind x

section

variable {R : Machine → Machine → Prop}

theorem tame_pure [Std.Refl R] (a : α) : Tame R (pure a : Exec α) :=
  ⟨moves_pure a, fun _ _ => rfl⟩

theorem tame_throw [Std.Refl R] (e : Interrupt) : Tame R (throw e : Exec α) :=
  ⟨moves_throw e, blind_throw e⟩

theorem Tame.bind [Trans R R R] {x : Exec α} {f : α → Exec β} (hx : Tame R x)
    (hf : ∀ a, Tame R (f a)) : Tame R (x >>= f) :=
  ⟨hx.moves.bind fun a => (hf a).moves, hx.blind.bind fun a => (hf a).blind⟩

theorem tame_get [Std.Refl R] [Trans R R R] {f : Machine → Exec α}
    (hf : ∀ m below, f (m.atop below) = f m) (h : ∀ m, Tame R (f m)) : Tame R (get >>= f) :=
  ⟨moves_get.bind fun m => (h m).moves, commutes_get hf fun m => (h m).blind⟩

end

theorem tame_stays {x : Exec α} (h : Tame (Local true) x) : Tame Stays x :=
  ⟨fun m => (h.moves m).toStays, h.blind⟩

/-! ## The parts that instructions are made of -/

theorem local_inRealm {x : RealmM α} {m : Machine}
    (h : Moves (Steady (Closure.Of m.frame.artifact)) x) :
    Local jumps m (stateOf (inRealm x m)) := by
  obtain ⟨realm, context, frame, callers, status⟩ := m
  have hm := h realm
  unfold inRealm
  cases hx : x realm with
  | ok a r | error e r =>
    rw [hx] at hm
    simp only [hx]
    exact ⟨⟨hm, rfl, rfl, .refl _, rfl, rfl⟩, rfl, rfl, fun _ => rfl⟩

theorem tame_inRealm {x : RealmM α} (h : ∀ K, Moves (Steady K) x) :
    Tame (Local jumps) (inRealm x) :=
  ⟨fun _ => local_inRealm (h _), blind_inRealm x⟩

theorem tame_modifyRealm {f : Realm → Realm} (h : ∀ K r, Steady K r (f r)) :
    Tame (Local jumps) (modifyRealm f) :=
  tame_inRealm fun K => moves_modify (h K)

theorem Own.tame {x : Exec α} (h : Own jumps x) : Tame (Local jumps) x := by
  induction h with
  | pure a => exact tame_pure a
  | fatal e => exact tame_throw _
  | bind _ _ ih ih' => exact ih.bind ih'
  | get hf _ ih => exact tame_get (fun m _ => hf m m.realm _ m.status) ih
  | modifyFrame hf =>
    exact ⟨moves_modify fun m => ⟨⟨.refl _, rfl, rfl, (hf m.frame).toAlike, rfl, rfl⟩, rfl,
      (hf m.frame).scopes, (hf m.frame).next⟩, fun _ _ => rfl⟩

theorem tame_setEnv (env : EnvRef) : Tame Stays (setEnv env) :=
  ⟨moves_modify fun _ => ⟨.refl _, rfl, rfl, .refl _, rfl, rfl⟩, fun _ _ => rfl⟩

theorem tame_setScopes (scopes : Frame → List EnvRef) :
    Tame Stays (modifyFrame fun f => { f with scopes := scopes f }) :=
  ⟨moves_modify fun _ => ⟨.refl _, rfl, rfl, ⟨rfl, rfl, rfl, rfl, rfl⟩, rfl, rfl⟩, fun _ _ => rfl⟩

theorem tame_nextKey (keys : Nat) : Tame (Local jumps) (nextKey keys) := by
  refine (own_temp _).tame.bind fun list => (own_temp _).tame.bind fun object =>
    tame_get (fun _ _ => rfl) fun m => (own_temp _).tame.bind fun position => ?_
  exact (own_setTemp _ _).tame.bind fun _ => tame_pure _

theorem moves_newClosure {a : Artifact} {info : FunctionInfo} {K : Closure → Prop}
    (h : ∀ env, K ⟨a, info, env⟩) (env : EnvRef) : Moves (Steady K) (newClosure a info env) := by
  unfold newClosure
  split
  · refine (moves_modifyGet (R := Steady K) fun r => steady_addEnv r _).bind fun scope =>
      (moves_allocate fun r => steady_newFunction r (h scope)).bind fun function => ?_
    split
    · exact moves_pure _
    · exact (moves_modify (R := Steady K) fun r =>
        (rebinds_modifyEnv _ (Environment.retains_bind _ _ _)).steady).bind fun _ => moves_pure _
  · exact moves_allocate fun r => steady_newFunction r (h env)

theorem makeClosure_eq (id : FunctionId) (m : Machine) :
    makeClosure id m = match m.frame.artifact.function? id with
      | none => .error (.fatal (.missingFunction id)) m
      | some info => inRealm (newClosure m.frame.artifact info m.context.env) m := by
  unfold makeClosure
  rw [get_bind]
  cases m.frame.artifact.function? id <;> rfl

theorem tame_makeClosure (id : FunctionId) : Tame (Local jumps) (makeClosure id) := by
  constructor
  · intro m
    rw [makeClosure_eq]
    split
    · exact .refl m
    · next info hf => exact local_inRealm (moves_newClosure (fun _ => ⟨rfl, id, hf⟩) _)
  · refine commutes_get (fun _ _ => rfl) fun m => ?_
    split
    · exact blind_throw _
    · exact blind_inRealm _

theorem moves_newCallEnv {K : Closure → Prop} (closure : Closure) (args : List Value) :
    Moves (Steady K) (newCallEnv closure args) :=
  (moves_modifyGet (R := Steady K) fun r => steady_addEnv r _).bind fun _ =>
    (moves_allocate fun r => steady_newArray r args).bind fun _ =>
      (moves_modify fun _ => (rebinds_modifyEnv _
        (Environment.retains_bindParameters _ _ _ _)).steady).bind fun _ => moves_pure _

theorem rebinds_newScope (outer : EnvRef) (name : String) (v : Value) :
    Moves Rebinds (newScope outer name v) :=
  (moves_modifyGet (R := Rebinds) fun r => rebinds_addEnv r _).bind fun _ =>
    (moves_modify fun _ => rebinds_modifyEnv _ (Environment.retains_bind _ _ _)).bind
      fun _ => moves_pure _

theorem moves_newScope {K : Closure → Prop} (outer : EnvRef) (name : String) (v : Value) :
    Moves (Steady K) (newScope outer name v) :=
  (rebinds_newScope outer name v).mono Rebinds.steady

/-! ## Calls -/

def called (m : Machine) (r : Realm) (env : EnvRef) (this : Value) (strict : Bool)
    (callee : Frame) : Machine :=
  ⟨r.countRun callee.unit.name, ⟨env, this, strict⟩, callee, m.frame :: m.callers, .running⟩

/-- Calling something that is no function, a body that is not there, and a call beyond the limit
change nothing. -/
theorem enterFunction_eq (callee receiver : Value) (args : List Value) (constructed : Option Value)
    (m : Machine) :
    enterFunction callee receiver args constructed m =
      match callee.object? >>= fun ref => (m.realm.object ref).closure? with
      | none => .error (.thrown (.notAFunction (m.realm.toText callee))) m
      | some closure =>
        match Frame.start closure.artifact closure.info.unit m.context.env
          (.call m.context.this m.context.strict constructed) with
        | .error e => .error (.fatal e) m
        | .ok frame =>
          match m.realm.enterCall? with
          | none => .error (.thrown .callDepth) m
          | some r =>
            match newCallEnv closure args r with
            | .ok env r =>
              .ok () (m.called r env (thisFor closure.info.strict receiver) closure.info.strict
                frame)
            | .error fault r => .error (.thrown fault) { m with realm := r } := by
  unfold enterFunction
  rw [get_bind]
  cases callee.object? >>= fun ref => (m.realm.object ref).closure? with
  | none => rfl
  | some closure =>
    refine (get_bind _ m).trans ?_
    dsimp only
    cases hs : Frame.start closure.artifact closure.info.unit m.context.env
        (.call m.context.this m.context.strict constructed) with
    | error e => exact bind_error (startFrame_error hs)
    | ok frame =>
      refine (bind_ok (startFrame_ok hs)).trans ((get_bind _ m).trans ?_)
      cases m.realm.enterCall? with
      | none => rfl
      | some r => rfl

theorem enterCall?_eq_some {r r1 : Realm} (h : r.enterCall? = some r1) :
    r.callDepth < r.maxCallDepth ∧ { r with callDepth := r.callDepth + 1 } = r1 := by
  unfold enterCall? at h
  split at h
  · next hd => exact ⟨hd, Option.some.inj h⟩
  · cases h

theorem newCallEnv_eq (closure : Closure) (args : List Value) (r : Realm) :
    ∃ r', newCallEnv closure args r = .ok ⟨r.environments.size⟩ r' := ⟨_, rfl⟩

@[elab_as_elim]
theorem enterFunction_cases {motive : EStateM.Result Interrupt Machine Unit → Prop}
    (callee receiver : Value) (args : List Value) (constructed : Option Value) (m : Machine)
    (uncallable : motive (.error (.thrown (.notAFunction (m.realm.toText callee))) m))
    (bodiless : ∀ closure e, m.realm.Holds closure →
      Frame.start closure.artifact closure.info.unit m.context.env
        (.call m.context.this m.context.strict constructed) = .error e →
      motive (.error (.fatal e) m))
    (deep : motive (.error (.thrown .callDepth) m))
    (entered : ∀ closure frame r, m.realm.Holds closure →
      Frame.start closure.artifact closure.info.unit m.context.env
        (.call m.context.this m.context.strict constructed) = .ok frame →
      m.realm.callDepth < m.realm.maxCallDepth →
      newCallEnv closure args { m.realm with callDepth := m.realm.callDepth + 1 } =
        .ok ⟨m.realm.environments.size⟩ r →
      motive (.ok () (m.called r ⟨m.realm.environments.size⟩
        (thisFor closure.info.strict receiver) closure.info.strict frame))) :
    motive (enterFunction callee receiver args constructed m) := by
  rw [enterFunction_eq]
  cases hc : callee.object? >>= fun ref => (m.realm.object ref).closure? with
  | none => exact uncallable
  | some closure =>
    obtain ⟨ref, -, href⟩ := Option.bind_eq_some_iff.mp hc
    dsimp only
    cases hs : Frame.start closure.artifact closure.info.unit m.context.env
        (.call m.context.this m.context.strict constructed) with
    | error e => exact bodiless closure e ⟨ref, href⟩ hs
    | ok frame =>
      cases hr : m.realm.enterCall? with
      | none => exact deep
      | some r =>
        obtain ⟨hd, rfl⟩ := enterCall?_eq_some hr
        obtain ⟨r', hnew⟩ :=
          newCallEnv_eq closure args { m.realm with callDepth := m.realm.callDepth + 1 }
        dsimp only
        rw [hnew]
        exact entered closure frame r' ⟨ref, href⟩ hs hd hnew

theorem blind_startFrame (a : Artifact) (id : UnitId) (resume : Resume) :
    Blind (startFrame a id resume) :=
  (tame_stays (own_startFrame a id resume).tame).blind

theorem blind_enter (callee : Frame) : Blind (enter callee) := fun _ _ => rfl

theorem blind_enterFunction (callee receiver : Value) (args : List Value)
    (constructed : Option Value) : Blind (enterFunction callee receiver args constructed) := by
  refine commutes_get (fun _ _ => rfl) fun m => ?_
  dsimp only
  split
  · exact blind_throw _
  · refine commutes_get (fun _ _ => rfl) fun m => (blind_startFrame _ _ _).bind fun frame =>
      commutes_get (fun _ _ => rfl) fun m => ?_
    split
    · exact blind_throw _
    · exact (blind_inRealm _).bind fun _ => (blind_inRealm _).bind fun env =>
        Commutes.bind (fun _ _ => rfl) fun _ => blind_enter frame

/-- From `m` to `m'` the running frame may have worked, and then called a function of the realm. -/
inductive CallsInto (m : Machine) : Machine → Prop where
  | intro {m₁ : Machine} {closure : Closure} {constructed : Option Value} {callee : Frame}
      {r : Realm} {this : Value} :
    Local true m m₁ → m₁.realm.Holds closure →
    Frame.start closure.artifact closure.info.unit m₁.context.env
      (.call m₁.context.this m₁.context.strict constructed) = .ok callee →
    m₁.realm.callDepth < m₁.realm.maxCallDepth →
    (∀ K, Steady K { m₁.realm with callDepth := m₁.realm.callDepth + 1 } r) →
    CallsInto m (m₁.called r ⟨m₁.realm.environments.size⟩ this closure.info.strict callee)

structure Calls (x : Exec Unit) : Prop where
  blind : Blind x
  calls : ∀ m, (∃ m', x m = .ok () m' ∧ CallsInto m m') ∨
    ∃ e m', x m = .error e m' ∧ Local true m m'

theorem calls_bind {x : Exec α} {f : α → Exec Unit} (hx : Tame (Local true) x)
    (hf : ∀ a, Calls (f a)) : Calls (x >>= f) := by
  refine ⟨hx.blind.bind fun a => (hf a).blind, fun m => ?_⟩
  have hm := hx.moves m
  show (∃ m', EStateM.bind x f m = .ok () m' ∧ _) ∨ ∃ e m', EStateM.bind x f m = .error e m' ∧ _
  unfold EStateM.bind
  cases h : x m with
  | error e m' =>
    rw [h] at hm
    exact .inr ⟨e, m', rfl, hm⟩
  | ok a m0 =>
    rw [h] at hm
    rcases (hf a).calls m0 with ⟨m', he, hc⟩ | ⟨e, m', he, hl⟩
    · obtain ⟨hl, hh, hs, hd, hr⟩ := hc
      exact .inl ⟨_, he, .intro (Local.trans hm hl) hh hs hd hr⟩
    · exact .inr ⟨e, m', he, Local.trans hm hl⟩

theorem calls_get {f : Machine → Exec Unit} (hf : ∀ m below, f (m.atop below) = f m)
    (h : ∀ m, Calls (f m)) : Calls (get >>= f) :=
  ⟨commutes_get hf fun m => (h m).blind, fun m => (h m).calls m⟩

theorem calls_throw (e : Interrupt) : Calls (throw e) :=
  ⟨blind_throw e, fun m => .inr ⟨e, m, rfl, .refl m⟩⟩

theorem calls_enterFunction (callee receiver : Value) (args : List Value)
    (constructed : Option Value) : Calls (enterFunction callee receiver args constructed) := by
  refine ⟨blind_enterFunction callee receiver args constructed, fun m => ?_⟩
  refine enterFunction_cases callee receiver args constructed m ?_ ?_ ?_ ?_
  · exact .inr ⟨_, m, rfl, .refl m⟩
  · exact fun _ e _ _ => .inr ⟨_, m, rfl, .refl m⟩
  · exact .inr ⟨_, m, rfl, .refl m⟩
  · intro closure frame r hh hs hd hnew
    refine .inl ⟨_, rfl, .intro (.refl m) hh hs hd fun K => ?_⟩
    have hmoves := moves_newCallEnv (K := K) closure args
      { m.realm with callDepth := m.realm.callDepth + 1 }
    rw [hnew] at hmoves
    exact hmoves

theorem calls_construct (callee : Value) (args : List Value) : Calls (construct callee args) := by
  refine calls_get (fun _ _ => rfl) fun m => ?_
  dsimp only
  split
  · exact calls_bind (tame_inRealm fun K => moves_liftExcept _) fun prototype =>
      calls_bind (tame_inRealm fun K => moves_allocate fun r => steady_derive r prototype)
        fun object => calls_enterFunction callee object args object
  · exact calls_throw _

/-! ## Instructions -/

/-- The instruction put a frame on top of the running one, by a call or to run another unit. -/
inductive Enters (i : Instruction) (m : Machine) : Machine → Prop where
  | unit {id : UnitId} {callee : Frame} : i = .invoke id →
    Frame.start m.frame.artifact id m.context.env .unit = .ok callee →
    Enters i m
      ⟨m.realm.countRun callee.unit.name, m.context, callee, m.frame :: m.callers, .running⟩
  | call {m' : Machine} : CallsInto m m' → Enters i m m'

/-- An instruction leaves the machine with the frame that runs it, along `S`, or enters another one
along `E`. -/
structure Effective (S E : Machine → Machine → Prop) (x : Exec Unit) : Prop where
  blind : Blind x
  effect : ∀ m, S m (stateOf (x m)) ∨ ∃ m', x m = .ok () m' ∧ E m m'

section

variable {S S' E E' : Machine → Machine → Prop} {x : Exec Unit}

theorem Effective.mono (h : Effective S E x) (hS : ∀ {m m'}, S m m' → S' m m')
    (hE : ∀ {m m'}, E m m' → E' m m') : Effective S' E' x :=
  ⟨h.blind, fun m => (h.effect m).imp hS fun ⟨m', he, hm⟩ => ⟨m', he, hE hm⟩⟩

theorem effective_of_tame (h : Tame S x) : Effective S E x :=
  ⟨h.blind, fun m => .inl (h.moves m)⟩

theorem effective_of_calls (h : Calls x) : Effective (Local true) CallsInto x := by
  refine ⟨h.blind, fun m => ?_⟩
  rcases h.calls m with ⟨m', he, hc⟩ | ⟨e, m', he, hl⟩
  · exact .inr ⟨m', he, hc⟩
  · refine .inl ?_
    rw [he]
    exact hl

end

theorem effective_operate (op : Operation) : Effective (Local true) CallsInto (operate op) := by
  cases op with
  | call argc =>
    exact effective_of_calls
      (calls_bind (own_popValues _).tame fun _ => calls_enterFunction _ _ _ _)
  | construct argc =>
    exact effective_of_calls (calls_bind (own_popValues _).tame fun _ => calls_construct _ _)
  | _ =>
    exact effective_of_tame ((own_popValues _).tame.bind fun args =>
      (tame_inRealm fun K => (acts_apply _ args).moves).bind fun v => (own_push v).tame)

theorem effective_invoke (id : UnitId) :
    Effective (Local true) (Enters (.invoke id)) (exec (.invoke id)) := by
  refine ⟨commutes_get (fun _ _ => rfl) fun m => (blind_startFrame _ _ _).bind blind_enter,
    fun m => ?_⟩
  cases hs : Frame.start m.frame.artifact id m.context.env .unit with
  | ok callee => exact .inr ⟨_, (get_bind _ m).trans (bind_ok (startFrame_ok hs)), .unit rfl hs⟩
  | error e =>
    have h : exec (.invoke id) m = .error (.fatal e) m :=
      (get_bind _ m).trans (bind_error (startFrame_error hs))
    rw [h]
    exact .inl (.refl m)

theorem local_declares {i : Instruction} (h : i.declares = true) : Tame (Local jumps) (exec i) := by
  cases i with
  | declareVariable i =>
    exact (own_nameOf i).tame.bind fun _ => tame_get (fun _ _ => rfl) fun _ =>
      tame_modifyRealm fun K _ => (rebinds_modifyEnv _ (Environment.retains_declare _ _)).steady
  | initializeBinding i =>
    exact (own_nameOf i).tame.bind fun _ => own_pop.tame.bind fun _ =>
      tame_get (fun _ _ => rfl) fun _ => tame_modifyRealm fun K _ =>
        (rebinds_modifyEnv _ (Environment.retains_bind _ _ _)).steady
  | makeClosure f => exact (tame_makeClosure f).bind fun v => (own_push v).tame
  | _ => cases h

/-- An instruction that invokes no unit and keeps to its scope enters no frame but by a call. -/
theorem effective_plain {i : Instruction} (hi : i.invoked? = none)
    (hs : i.changesScope = false) : Effective (Local true) CallsInto (exec i) := by
  cases i with
  | load i =>
    exact effective_of_tame ((own_operand i).tame.bind fun _ =>
      tame_get (fun _ _ => rfl) fun _ => (tame_inRealm fun K => moves_liftExcept _).bind fun v =>
        (own_push v).tame)
  | store i strict =>
    exact effective_of_tame ((own_nameOf i).tame.bind fun _ => own_peek.tame.bind fun _ =>
      tame_get (fun _ _ => rfl) fun _ => tame_inRealm fun K => moves_assign _ _ _ strict)
  | typeOfVariable i =>
    exact effective_of_tame ((own_nameOf i).tame.bind fun _ =>
      tame_get (fun _ _ => rfl) fun _ => (own_push _).tame)
  | deleteVariable i =>
    exact effective_of_tame ((own_nameOf i).tame.bind fun _ =>
      tame_get (fun _ _ => rfl) fun _ => (tame_inRealm fun K => moves_deleteBinding _ _).bind
        fun _ => (own_push _).tame)
  | declareVariable i | initializeBinding i | makeClosure f =>
    exact effective_of_tame (local_declares rfl)
  | invoke id => cases hi
  | operate op => exact effective_operate op
  | enterCatch i | exitScope => cases hs
  | forInStep keys l =>
    refine effective_of_tame ((tame_nextKey keys).bind fun key => ?_)
    cases key with
    | some key => exact (own_push _).tame
    | none => exact (own_jump l).tame
  | _ => exact effective_of_tame (own_exec rfl (by simp)).tame

theorem effective_exec (i : Instruction) : Effective Stays (Enters i) (exec i) := by
  cases i with
  | invoke id => exact (effective_invoke id).mono Local.toStays fun h => h
  | enterCatch i =>
    exact effective_of_tame
      ((tame_stays (own_nameOf i).tame).bind fun _ => (tame_stays own_pop.tame).bind fun _ =>
        tame_get (fun _ _ => rfl) fun _ =>
          (tame_stays (tame_inRealm fun K => moves_newScope _ _ _)).bind fun scope =>
            (tame_setScopes _).bind fun _ => tame_setEnv scope)
  | exitScope =>
    refine effective_of_tame (tame_get (fun _ _ => rfl) fun m => ?_)
    dsimp only
    split
    · exact tame_throw _
    · exact (tame_setScopes _).bind fun _ => tame_setEnv _
  | _ => exact (effective_plain rfl rfl).mono Local.toStays .call

/-- What work of the frame and entering another one keep is kept by an instruction, whether or not
it goes through. -/
theorem exec_preserves {P : Machine → Prop} {i : Instruction} {m : Machine}
    (hstays : ∀ {m'}, Stays m m' → P m') (henters : ∀ {m'}, Enters i m m' → P m') :
    P (stateOf (exec i m)) := by
  rcases (effective_exec i).effect m with hs | ⟨m', he, hin⟩
  · exact hstays hs
  · rw [he]
    exact henters hin

end Machine

end TreeScript
