import TreeScript.Proofs.Evaluation.Agreement
import TreeScript.Proofs.Lowering.Forest
import TreeScript.Proofs.Program.Safety

/-!
# How many frames there can be

A unit invokes only units that come after it in their artifact, so between two calls there are no
more frames than an artifact has units.  Calls are counted and limited.  Together this bounds the
frames of a run, whatever the program does.  A call beyond the limit throws an error that the
program can catch.
-/

namespace TreeScript

open Code Lowering

/-- An artifact that comes from a program and has no more than `n` units. -/
def Code.Artifact.Compiled (n : Nat) (a : Artifact) : Prop :=
  (∃ p strict, compile p strict = .ok a) ∧ a.units.size ≤ n

def Closure.Compiled (n : Nat) (c : Closure) : Prop := ∃ a, a.Compiled n ∧ c.Of a

/-- A frame runs the unit with this number. -/
structure Frame.Runs (n : Nat) (f : Frame) (id : Nat) : Prop where
  compiled : f.artifact.Compiled n
  unit : f.artifact.unit? id = some f.unit

namespace Frame.Runs

variable {n id : Nat} {f f' : Frame}

theorem lt (h : f.Runs n id) : id < n :=
  Nat.lt_of_lt_of_le (Array.getElem?_eq_some_iff.mp h.unit).1 h.compiled.2

theorem alike (h : f.Runs n id) (hf : f.Alike f') : f'.Runs n id := by
  refine ⟨?_, ?_⟩
  · rw [hf.artifact]
    exact h.compiled
  · rw [hf.artifact, hf.unit]
    exact h.unit

theorem start {a : Artifact} {env : EnvRef} {resume : Resume} (ha : a.Compiled n)
    (hs : Frame.start a id env resume = .ok f) : f.Runs n id := by
  obtain ⟨u, hunit, rfl⟩ := Machine.start_ok_iff.mp hs
  exact ⟨ha, hunit⟩

end Frame.Runs

/-! ## The stack of frames -/

/-- Frames of which the first runs the unit with this number.  A frame that was not called runs a
unit that comes after that of the frame below. -/
inductive Layered (n : Nat) : List Frame → Nat → Prop where
  | root {f : Frame} {id : Nat} : f.Runs n id → Layered n [f] id
  | unit {f : Frame} {fs : List Frame} {id id' : Nat} : f.Runs n id → id' < id →
    Layered n fs id' → Layered n (f :: fs) id
  | call {f : Frame} {fs : List Frame} {id id' : Nat} : f.Runs n id → f.resume.isCall = true →
    Layered n fs id' → Layered n (f :: fs) id

namespace Layered

variable {n id : Nat} {f f' : Frame} {fs : List Frame}

theorem runs (h : Layered n (f :: fs) id) : f.Runs n id := by
  cases h with
  | root hf => exact hf
  | unit hf _ _ => exact hf
  | call hf _ _ => exact hf

theorem lt (h : Layered n fs id) : id < n := by
  cases h with
  | root hf => exact hf.lt
  | unit hf _ _ => exact hf.lt
  | call hf _ _ => exact hf.lt

theorem alike (h : Layered n (f :: fs) id) (hf : f.Alike f') : Layered n (f' :: fs) id := by
  cases h with
  | root hr => exact .root (hr.alike hf)
  | unit hr hlt hfs => exact .unit (hr.alike hf) hlt hfs
  | call hr hcall hfs =>
    refine .call (hr.alike hf) ?_ hfs
    rw [hf.resume]
    exact hcall

theorem tail (h : Layered n (f :: f' :: fs) id) : ∃ id', Layered n (f' :: fs) id' := by
  cases h with
  | unit _ _ hfs => exact ⟨_, hfs⟩
  | call _ _ hfs => exact ⟨_, hfs⟩

theorem length_le (h : Layered n fs id) :
    fs.length ≤ fs.countP (·.resume.isCall) * n + (id + 1) := by
  induction h with
  | root _ =>
    rw [List.length_singleton]
    omega
  | @unit f fs id id' _ hlt _ ih =>
    have hcount : fs.countP (·.resume.isCall) ≤ (f :: fs).countP (·.resume.isCall) :=
      (List.sublist_cons_self f fs).countP_le
    have := Nat.mul_le_mul_right n hcount
    rw [List.length_cons]
    omega
  | @call f fs id id' _ hcall hfs ih =>
    have hid := hfs.lt
    rw [List.countP_cons_of_pos (p := fun g : Frame => g.resume.isCall) hcall, Nat.succ_mul,
      List.length_cons]
    omega

end Layered

variable {r : Realm} {u : CodeUnit} {v : Value}

namespace Machine

/-- A state whose frames are layered and whose functions come from programs. -/
structure Layers (n : Nat) (m : Machine) : Prop where
  frames : ∃ id, Layered n (m.frame :: m.callers) id
  closures : ∀ {c}, m.realm.Holds c → c.Compiled n

variable {n : Nat} {m m' : Machine}

namespace Layers

theorem closures_of_steady (h : m.Layers n)
    (hr : Realm.Steady (Closure.Of m.frame.artifact) m.realm r) {c : Closure} (hc : r.Holds c) :
    c.Compiled n := by
  rcases hr.holds hc with hc | hc
  · exact h.closures hc
  · obtain ⟨id, hframes⟩ := h.frames
    exact ⟨_, hframes.runs.compiled, hc⟩

theorem stays (h : m.Layers n) (hs : Stays m m') : m'.Layers n := by
  refine ⟨?_, h.closures_of_steady hs.realm⟩
  obtain ⟨id, hframes⟩ := h.frames
  rw [hs.callers]
  exact ⟨id, hframes.alike hs.frame⟩

theorem enters {i : Instruction} (h : m.Layers n) (hi : i ∈ m.frame.unit.instructions)
    (he : Enters i m m') : m'.Layers n := by
  cases he with
  | @unit target _ hinvoke hs =>
    subst hinvoke
    obtain ⟨id, hframes⟩ := h.frames
    have hruns := hframes.runs
    obtain ⟨p, strict, hcompile⟩ := hruns.compiled.1
    have hlt := lt_of_invoke hcompile hruns.unit hi
    exact ⟨⟨target, .unit (.start hruns.compiled hs) hlt hframes⟩,
      h.closures_of_steady (Realm.steady_countRun _ _)⟩
  | call hc =>
    obtain @⟨m1, closure, _, callee, r, _, hl, hholds, hs, -, hr⟩ := hc
    have h1 := h.stays hl.toStays
    obtain ⟨id, hframes⟩ := h1.frames
    obtain ⟨a, ha, rfl, -⟩ := h1.closures hholds
    refine ⟨⟨closure.info.unit, .call (.start ha hs) ?_ hframes⟩, fun {c} hc => ?_⟩
    · obtain ⟨u, -, rfl⟩ := start_ok_iff.mp hs
      rfl
    · have hsteady := (hr (Closure.Of m1.frame.artifact)).trans
        (Realm.steady_countRun r callee.unit.name)
      rcases hsteady.holds hc with hc | hc
      · exact h1.closures hc
      · exact ⟨_, hframes.runs.compiled, hc⟩

theorem throwFault (h : m.Layers n) (fault : Fault) : (m.throwFault fault).Layers n :=
  ⟨h.frames, h.closures_of_steady (Realm.steady_materialize _ _)⟩

theorem leave (h : m.Layers n) {c : Completion} (hm : m.leave c = .next m') : m'.Layers n := by
  obtain ⟨caller, stack, hc, hf, -, hr⟩ := leave_next hm
  obtain ⟨id, hframes⟩ := h.frames
  rw [hc] at hframes
  obtain ⟨id', hbelow⟩ := hframes.tail
  refine ⟨⟨id', hbelow.alike (hf ▸ ⟨rfl, rfl, rfl, rfl, rfl⟩)⟩, ?_⟩
  rcases hr with ⟨-, -, hr⟩ | ⟨-, hr⟩ <;> rw [hr] <;> exact h.closures

theorem exec {i : Instruction} (h : m.Layers n) (hi : i ∈ m.frame.unit.instructions) :
    (stateOf (Machine.exec i m)).Layers n :=
  exec_preserves h.stays (h.enters hi)

theorem step (h : m.Layers n) (hm : m.step = .next m') : m'.Layers n :=
  step_next hm (fun _ => h.leave) (fun _ => ⟨h.frames, h.closures⟩)
    (fun _ hi => (h.stays (stays_advance m)).exec (Array.mem_of_getElem? hi))
    fun _ fault h => h.throwFault fault

end Layers

end Machine

/-! ## Calls beyond the limit -/

/-- What a program catches when its calls go too deep. -/
def callDepthError : Object :=
  Realm.nameAndMessage { kind := .error, prototype := Realm.errorPrototype } "RangeError"
    "maximum call stack size exceeded"

namespace Machine

def functionAt (m : Machine) (place count : Nat) : Option Closure := do
  let (taken, _) ← splitTop? count [] m.frame.stack
  let vs ← taken.mapM Slot.value?
  m.realm.closureOf (vs.getD place .undefined)

/-- The function that the next instruction calls. -/
def callee? (m : Machine) : Option Closure :=
  match m.status, m.frame.unit.instructions[m.frame.next]? with
  | .running, some (.operate (.call argc)) => m.functionAt 1 (argc + 2)
  | .running, some (.operate (.construct argc)) => m.functionAt 0 (argc + 1)
  | _, _ => none

/-- From `m` to `m'` a call was refused: nothing was entered, and the frame ends with the throw of
the error at `ref`. -/
structure Refuses (m : Machine) (ref : ObjectRef) (m' : Machine) : Prop where
  callers : m'.callers = m.callers
  frame : m.frame.Alike m'.frame
  context : m'.context = m.context
  depth : m'.realm.callDepth = m.realm.callDepth
  status : m'.status = .finishing (.throwing (.object ref))
  error : m'.realm.object ref = callDepthError

variable {m m' m1 : Machine} {closure : Closure}

theorem mapM_value? {slots : List Slot} {vs : List Value} (h : slots.mapM Slot.value? = some vs) :
    slots = vs.map Slot.value := by
  induction slots generalizing vs with
  | nil =>
    cases h
    rfl
  | cons s slots ih =>
    rw [List.mapM_cons] at h
    obtain ⟨v, hv, h⟩ := Option.bind_eq_some_iff.mp h
    obtain ⟨vs', hvs, h⟩ := Option.bind_eq_some_iff.mp h
    cases h
    cases s with
    | completion c => cases hv
    | value w =>
      cases hv
      rw [ih hvs]
      rfl

theorem popValues_of_functionAt {place count : Nat} (h : m.functionAt place count = some closure) :
    ∃ vs rest, popValues count m = .ok vs (m.withStack rest) ∧
      m.realm.closureOf (vs.getD place .undefined) = some closure := by
  obtain ⟨⟨taken, rest⟩, hsplit, h⟩ := Option.bind_eq_some_iff.mp h
  obtain ⟨vs, hvs, hclosure⟩ := Option.bind_eq_some_iff.mp h
  refine ⟨vs, rest, ?_, hclosure⟩
  unfold popValues
  rw [get_bind, hsplit, mapM_value? hvs]
  exact asValues_eq vs _

theorem hangs_of_functionAt {place : Nat} (op : Operation)
    (h : m.functionAt place op.arity = some closure)
    (hop : ∀ {args}, m.realm.isCallable (args.getD place .undefined) = true →
      m.realm.converted op args = []) : m.hangs (.operate op) = false := by
  obtain ⟨⟨taken, rest⟩, hsplit, h⟩ := Option.bind_eq_some_iff.mp h
  obtain ⟨vs, hvs, hclosure⟩ := Option.bind_eq_some_iff.mp h
  have hoperands : m.operands? op = some vs := Option.bind_eq_some_iff.mpr ⟨_, hsplit, hvs⟩
  show (m.operands? op).any _ = false
  rw [hoperands]
  show m.realm.endless (m.realm.converted op vs) = false
  rw [hop (Realm.isCallable_of_closureOf hclosure)]
  rfl

theorem holds_of_callee? (h : m.callee? = some closure) : m.realm.Holds closure := by
  have holds {place count : Nat} (h : m.functionAt place count = some closure) :
      m.realm.Holds closure := by
    obtain ⟨vs, -, -, hclosure⟩ := popValues_of_functionAt h
    obtain ⟨ref, -, href⟩ := Option.bind_eq_some_iff.mp hclosure
    exact ⟨ref, href⟩
  unfold callee? at h
  split at h
  · exact holds h
  · exact holds h
  · cases h

theorem refuses_throwFault (hl : Local true m m1) :
    m.Refuses ⟨m1.realm.objects.size⟩ (m1.throwFault .callDepth) := by
  have hsteady := Realm.steady_materialize (K := fun _ => True) m1.realm .callDepth
  refine ⟨hl.callers, hl.frame, hl.context, hsteady.depth.trans hl.realm.depth, rfl, ?_⟩
  show ((m1.realm.addObject callDepthError).2).object ⟨m1.realm.objects.size⟩ = callDepthError
  rw [Realm.object_addObject, if_pos rfl]

theorem enterFunction_refuses {callee receiver : Value} {args : List Value}
    {constructed : Option Value} (hc : m.realm.closureOf callee = some closure)
    (hu : closure.artifact.unit? closure.info.unit = some u)
    (hd : m.realm.maxCallDepth ≤ m.realm.callDepth) :
    enterFunction callee receiver args constructed m = .error (.thrown .callDepth) m := by
  have hs : ∃ frame, Frame.start closure.artifact closure.info.unit m.context.env
      (.call m.context.this m.context.strict constructed) = .ok frame := by
    exact ⟨_, start_ok_iff.mpr ⟨u, hu, rfl⟩⟩
  obtain ⟨frame, hs⟩ := hs
  exact enterFunction_deep hc hs (if_neg (Nat.not_lt.mpr hd))

/-- The object that a construction is to fill is there in vain when the call is refused. -/
theorem construct_refuses {callee : Value} (args : List Value)
    (hc : m.realm.closureOf callee = some closure)
    (hu : closure.artifact.unit? closure.info.unit = some u)
    (hd : m.realm.maxCallDepth ≤ m.realm.callDepth) :
    ∃ r, construct callee args m = .error (.thrown .callDepth) (m.withRealm r) ∧
      ∀ K, Realm.Steady K m.realm r := by
  have hcallable := Realm.isCallable_of_closureOf hc
  cases callee with
  | object ref =>
    refine ⟨_, ?_, fun K => Realm.steady_derive m.realm (m.realm.getFrom ref "prototype")⟩
    rw [construct_eq, if_pos hcallable]
    exact enterFunction_refuses (m := m.withRealm _) (Realm.closureOf_derive hc _) hu hd
  | _ => cases hcallable

theorem step_refuses (hc : m.callee? = some closure)
    (hu : closure.artifact.unit? closure.info.unit = some u)
    (hd : m.realm.maxCallDepth ≤ m.realm.callDepth) :
    ∃ m' ref, m.step = .next m' ∧ m.Refuses ref m' := by
  have hadvance (rest : List Slot) : Local true m (m.advance.withStack rest) :=
    ⟨⟨.refl _, rfl, rfl, ⟨rfl, rfl, rfl, rfl, rfl⟩, rfl, rfl⟩, rfl, rfl, nofun⟩
  unfold callee? at hc
  split at hc
  · next argc hs hi =>
    obtain ⟨vs, rest, hpop, hclosure⟩ := popValues_of_functionAt (m := m.advance) hc
    have hexec : exec (.operate (.call argc)) m.advance =
        .error (.thrown .callDepth) (m.advance.withStack rest) :=
      (bind_ok hpop).trans (enterFunction_refuses (m := m.advance.withStack rest) hclosure hu hd)
    have hh := hangs_of_functionAt (.call argc) hc fun hcallable => if_pos hcallable
    exact ⟨_, _, step_throw hs hi hh hexec, refuses_throwFault (hadvance rest)⟩
  · next argc hs hi =>
    obtain ⟨vs, rest, hpop, hclosure⟩ := popValues_of_functionAt (m := m.advance) hc
    obtain ⟨r, hconstruct, hsteady⟩ :=
      construct_refuses (m := m.advance.withStack rest) (vs.drop 1) hclosure hu hd
    have hexec : exec (.operate (.construct argc)) m.advance =
        .error (.thrown .callDepth) ((m.advance.withStack rest).withRealm r) :=
      (bind_ok hpop).trans hconstruct
    have hlocal : Local true (m.advance.withStack rest) ((m.advance.withStack rest).withRealm r) :=
      ⟨⟨hsteady _, rfl, rfl, .refl _, rfl, rfl⟩, rfl, rfl, nofun⟩
    have hh := hangs_of_functionAt (.construct argc) hc fun hcallable => if_pos hcallable
    exact ⟨_, _, step_throw hs hi hh hexec, refuses_throwFault ((hadvance rest).trans hlocal)⟩
  · cases hc

end Machine

/-! ## Catching -/

/-- A frame waits for the block of a `try` statement, whose handler gives what it catches this
name. -/
def Frame.Tries (f : Frame) (param : String) : Prop :=
  ∃ strict labels block body finalizer s s',
    Laid f.artifact f.unit
      (genStmt strict labels (.tryCatch block (some (.mk param body)) finalizer)) s () s' ∧
    f.next = s.offset + 1

namespace Machine

/-- The frame `f` is about to run the handler of a `try` statement on a value. -/
structure Handles (m : Machine) (f : Frame) (param : String) (v : Value) : Prop where
  frame : f.Alike m.frame
  running : m.status = .running
  bound : m.realm.lookup m.context.env param = some v
  handler : ∃ id u, m.frame.unit.instructions[m.frame.next]? = some (.invoke id) ∧
    m.frame.artifact.unit? id = some u ∧ u.role = .catch

variable {m m' : Machine}

theorem lookup_of_get? {env : EnvRef} {name : String} (hsize : r.environments.size ≠ 0)
    (hhas : (r.env env).has name = true) (hget : (r.env env).get? name = some v) :
    r.lookup env name = some v := by
  obtain ⟨n, hn⟩ := Nat.exists_eq_succ_of_ne_zero hsize
  have hresolve : r.resolve env name = some env := by
    unfold Realm.resolve Realm.scopes
    rw [hn]
    exact List.find?_cons_of_pos hhas
  unfold Realm.lookup
  rw [hresolve]
  exact hget

theorem lookup_newScope {outer scope : EnvRef} {name : String} {r' : Realm}
    (h : newScope outer name v r = .ok scope r') : r'.lookup scope name = some v := by
  cases h
  have henv : ((r.addEnv (some outer)).2.modifyEnv ⟨r.environments.size⟩ (·.bind name v)).env
      ⟨r.environments.size⟩ = ({ outer := some outer } : Environment).bind name v := by
    show ((r.environments.push _).modify r.environments.size _).getD r.environments.size _ = _
    rw [Array.getD_eq_getD_getElem?, Array.getElem?_modify, if_pos rfl, Array.getElem?_push_size]
    rfl
  refine lookup_of_get? ?_ ?_ ?_
  · show ((r.environments.push _).modify r.environments.size _).size ≠ 0
    simp
  · refine (congrArg (Environment.has · name) henv).trans ?_
    simp [Environment.bind, Environment.has, KeyTable.insert, KeyTable.position?,
      KeyTable.contains, KeyTable.empty]
  · refine (congrArg (Environment.get? · name) henv).trans ?_
    simp [Environment.bind, Environment.get?, KeyTable.insert, KeyTable.position?,
      KeyTable.find?, KeyTable.empty]

/-- The code after the block of a `try` statement: unless the block ended with a throw it goes on,
and otherwise it binds what was thrown. -/
theorem code_of_tries {f : Frame} {param : String} (h : f.Tries param) :
    ∃ l offset i id u, f.unit.offset? l = some offset ∧
      f.unit.instructions[f.next]? = some (.jumpUnlessKind .throw l) ∧
      f.unit.instructions[f.next + 1]? = some .unwrap ∧
      f.unit.instructions[f.next + 2]? = some (.enterCatch i) ∧
      f.unit.operands[i]? = some (.binding param) ∧
      f.unit.instructions[f.next + 3]? = some (.invoke id) ∧
      f.artifact.unit? id = some u ∧ u.role = .catch := by
  obtain ⟨strict, labels, block, body, finalizer, s, s', hlaid, hnext⟩ := h
  rw [genStmt_tryCatch] at hlaid
  obtain ⟨_, s1, hblock, hlaid⟩ := laid_bind.mp hlaid
  obtain ⟨_, s2, hhandler, -⟩ := laid_bind.mp hlaid
  obtain ⟨-, -, ⟨-, hoffset, -⟩, -⟩ := laid_invoke hblock
  rw [hnext, ← hoffset]
  obtain ⟨l, t1, hlabel, hrest⟩ := laid_bind.mp hhandler
  obtain ⟨_, t2, hjump, hrest⟩ := laid_bind.mp hrest
  obtain ⟨_, t3, hunwrap, hrest⟩ := laid_bind.mp hrest
  obtain ⟨i, t4, hbinding, hrest⟩ := laid_bind.mp hrest
  obtain ⟨_, t5, hcatch, hrest⟩ := laid_bind.mp hrest
  obtain ⟨_, t6, hbody, hrest⟩ := laid_bind.mp hrest
  obtain ⟨_, t7, -, hplace⟩ := laid_bind.mp hrest
  obtain ⟨hoffset1, -⟩ := laid_newLabel hlabel
  obtain ⟨hjumpcode, hoffset2, -⟩ := laid_emit hjump
  obtain ⟨hunwrapcode, hoffset3, -⟩ := laid_emit hunwrap
  obtain ⟨hname, hoffset4, -⟩ := laid_binding hbinding
  obtain ⟨hcatchcode, hoffset5, -⟩ := laid_emit hcatch
  obtain ⟨id, u, ⟨hbodycode, -, -⟩, hunit, hrole, -⟩ := laid_invoke hbody
  rw [hoffset1] at hjumpcode hoffset2
  rw [hoffset2] at hunwrapcode hoffset3
  rw [hoffset4, hoffset3] at hcatchcode hoffset5
  rw [hoffset5] at hbodycode
  exact ⟨l, _, i, id, u, (laid_place hplace).1, hjumpcode, hunwrapcode, hcatchcode, hname,
    hbodycode, hunit, hrole⟩

/-- What the block of a `try` statement throws gets to the handler. -/
theorem handles_of_tries {caller : Frame} {callers : List Frame} {param : String}
    (hs : m.status = .finishing (.throwing v)) (hc : m.callers = caller :: callers)
    (hr : m.frame.resume = .unit) (ht : caller.Tries param) :
    ∃ m', m.Reaches m' ∧ m'.callers = callers ∧ m'.realm.objects = m.realm.objects ∧
      m'.Handles caller param v := by
  obtain ⟨l, offset, i, id, u, hl, hjump, hunwrap, hcatch, hname, hbody, hunit, hrole⟩ :=
    code_of_tries ht
  -- the frame below gets the completion, sees that it is a throw, takes its value and binds it
  let m1 : Machine := ⟨m.realm, { m.context with env := m.frame.callerEnv },
    caller.push (.completion (.throwing v)), callers, .running⟩
  let m2 : Machine := m1.advance.advance.withStack (.value v :: caller.stack)
  obtain ⟨scope, r, hscope⟩ : ∃ scope r, newScope m.frame.callerEnv param v m.realm = .ok scope r :=
    ⟨_, _, rfl⟩
  have hleave : m.step = .next m1 := (step_finishing hs).trans (leave_unit _ hc hr)
  have hstep1 : m1.step = .next m1.advance :=
    step_exec rfl hjump rfl (exec_jumpUnlessKind (m := m1.advance) hl rfl)
  have hstep2 : m1.advance.step = .next m2 :=
    step_exec rfl hunwrap rfl (exec_unwrap (m := m1.advance.advance) rfl)
  have hexec := exec_enterCatch (m := m2.advance) hname rfl
  rw [show newScope m2.advance.context.env param v m2.advance.realm = .ok scope r from hscope]
    at hexec
  have hreaches := (reaches_of_step hleave).trans <| (reaches_of_step hstep1).trans <|
    (reaches_of_step hstep2).trans <| reaches_of_step (step_exec rfl hcatch rfl hexec)
  refine ⟨_, hreaches, rfl, ?_, ⟨rfl, rfl, rfl, rfl, rfl⟩, rfl, lookup_newScope hscope,
    id, u, hbody, hunit, hrole⟩
  cases hscope
  rfl

end Machine

/-! ## Runs of programs -/

section

variable {p : Syntax.Program} {strict : Bool} {a : Artifact} {realm : Realm} {n : Nat}
  {fuel : Nat} {global : Bool} {m : Machine}

theorem runProgram_layers (hc : compile p strict = .ok a) (hn : a.units.size ≤ n)
    (hrealm : ∀ c, realm.Holds c → c.Compiled n)
    (hm : runProgram fuel a realm global = .exhausted m) : m.Layers n := by
  obtain ⟨frame, hs, hrun⟩ := run_of_invoke hm
  refine Machine.run_exhausted (P := Machine.Layers n) (fun h hs => h.step hs) ⟨?_, ?_⟩ hrun
  · exact ⟨a.entry, .root (.start ⟨⟨p, strict, hc⟩, hn⟩ hs)⟩
  · intro c hcount
    have hsteady := Realm.steady_countRun (K := fun _ => False) realm frame.unit.name
    rcases hsteady.holds hcount with h | h
    · exact hrealm c h
    · cases h

/-- The calls that are open are counted, so there are no more than the limit allows. -/
theorem runProgram_countP_le (hdepth : realm.callDepth = 0)
    (hm : runProgram fuel a realm global = .exhausted m) :
    (m.frame :: m.callers).countP (·.resume.isCall) ≤ realm.maxCallDepth := by
  have hunwinds := invoke_exhausted hm
  have hcount := hunwinds.nested.depth_eq
  have hbounded := hunwinds.bounded
  omega

theorem runProgram_root (hm : runProgram fuel a realm global = .exhausted m) :
    ∃ root, (m.frame :: m.callers).getLast? = some root ∧ root.artifact = a ∧
      a.entryUnit? = some root.unit := by
  obtain ⟨frame, hs, hrun⟩ := run_of_invoke hm
  obtain ⟨root, hlast, halike⟩ : Machine.Rooted frame (m.frame :: m.callers) :=
    Machine.run_exhausted (P := fun m => Machine.Rooted frame (m.frame :: m.callers))
      Machine.rooted_step ⟨frame, rfl, .refl _⟩ hrun
  obtain ⟨u, hunit, rfl⟩ := Machine.start_ok_iff.mp hs
  refine ⟨root, hlast, halike.artifact, ?_⟩
  rw [halike.unit]
  exact hunit

/-- In a realm whose functions come from programs, a program that is run outside of all calls has at
most as many frames as its limit of calls allows, and a call at the limit is refused with an error
that a `try` around it gets to handle.  No artifact has more than `n` units. -/
theorem runProgram_frames (hc : compile p strict = .ok a) (hn : a.units.size ≤ n)
    (hrealm : ∀ c, realm.Holds c → c.Compiled n) (hdepth : realm.callDepth = 0)
    (hm : runProgram fuel a realm global = .exhausted m) :
    (m.frame :: m.callers).length ≤ (realm.maxCallDepth + 1) * n ∧
    ∀ closure, m.callee? = some closure → realm.maxCallDepth ≤ m.realm.callDepth →
      ∃ m' ref, m.step = .next m' ∧ m.Refuses ref m' ∧
        ∀ caller callers param, m.callers = caller :: callers → m.frame.resume = .unit →
          caller.Tries param → ∃ m'', m'.Reaches m'' ∧ m''.callers = callers ∧
            m''.realm.object ref = callDepthError ∧ m''.Handles caller param (.object ref) := by
  have hlayers := runProgram_layers hc hn hrealm hm
  refine ⟨?_, fun closure hcallee hlimit => ?_⟩
  · obtain ⟨id, hframes⟩ := hlayers.frames
    calc (m.frame :: m.callers).length
        ≤ (m.frame :: m.callers).countP (·.resume.isCall) * n + (id + 1) := hframes.length_le
      _ ≤ realm.maxCallDepth * n + n :=
        Nat.add_le_add (Nat.mul_le_mul_right n (runProgram_countP_le hdepth hm)) hframes.lt
      _ = (realm.maxCallDepth + 1) * n := (Nat.succ_mul _ _).symm
  · obtain ⟨a', ⟨⟨p', strict', hc'⟩, -⟩, rfl, id, hinfo⟩ :=
      hlayers.closures (Machine.holds_of_callee? hcallee)
    obtain ⟨u, hu, -⟩ := body_of_function hc' hinfo
    rw [← (invoke_exhausted hm).sameLimit] at hlimit
    obtain ⟨m', ref, hstep, hrefuses⟩ := Machine.step_refuses hcallee hu hlimit
    refine ⟨m', ref, hstep, hrefuses, fun caller callers param hcallers hresume htries => ?_⟩
    obtain ⟨m'', hreaches, hbelow, hobjects, hhandles⟩ :=
      Machine.handles_of_tries hrefuses.status (hrefuses.callers.trans hcallers)
        (hrefuses.frame.resume.trans hresume) htries
    refine ⟨m'', hreaches, hbelow, ?_, hhandles⟩
    unfold Realm.object
    rw [hobjects]
    exact hrefuses.error

end

/-- `try { (function () {})() } catch (e) {}` -/
def callingInTry : Syntax.Program where
  body := [.tryCatch [.expression (.call (.function (.mk none [] [] false)) [])]
    (some (.mk "e" [])) none]

theorem callee?_callingInTry :
    ((compile callingInTry false).toOption.bind fun a =>
      match runProgram 5 a (.create 0 false) false with
      | .exhausted m => m.callee?.map fun _ => (m.frame.resume.isCall, m.callers.map (·.next))
      | .halted .. => none) = some (false, [2]) := by
  decide +kernel

theorem tries_callingInTry {a : Artifact} {f : Frame} (hc : compile callingInTry false = .ok a)
    (hu : a.entryUnit? = some u) (ha : f.artifact = a) (hf : f.unit = u) (hnext : f.next = 2) :
    f.Tries "e" := by
  obtain ⟨u', hu', -, -, s, s', hlaid, hstart, -⟩ := compile_entry hc
  cases hu.symm.trans hu'
  have hbody : Laid a u (statementList callingInTry.body (genStatements false [] callingInTry.body))
      s () s' := hlaid
  simp only [callingInTry, statementList_cons, genStatements_cons, inList, laid_bind] at hbody
  obtain ⟨_, s1, hnormal, abrupt, s2, habrupt, done, s3, hdone, _, s4,
    ⟨_, s5, ⟨_, s6, htry, -⟩, -⟩, -⟩ := hbody
  obtain ⟨-, hoffset1, -⟩ := laid_emit hnormal
  obtain ⟨hoffset2, -⟩ := laid_newLabel habrupt
  obtain ⟨hoffset3, -⟩ := laid_newLabel hdone
  cases ha
  cases hf
  refine ⟨_, _, _, _, _, s3, s6, htry, ?_⟩
  rw [hnext, hoffset3, hoffset2, hoffset1, hstart]

/-- With no calls allowed the only call is refused, and the handler gets the error. -/
theorem runProgram_frames_callingInTry :
    ∃ a m, compile callingInTry false = .ok a ∧
      runProgram 5 a (.create 0 false) false = .exhausted m ∧
      (m.frame :: m.callers).length ≤ (0 + 1) * a.units.size ∧
      ∃ closure m' ref m'', m.callee? = some closure ∧ m.step = .next m' ∧ m.Refuses ref m' ∧
        m'.Reaches m'' ∧ m''.realm.lookup m''.context.env "e" = some (.object ref) ∧
        m''.realm.object ref = callDepthError := by
  obtain ⟨a, ha, hcheck⟩ := Option.bind_eq_some_iff.mp callee?_callingInTry
  have ha := ok_of_toOption ha
  split at hcheck
  · next m hm =>
    obtain ⟨closure, hcallee, hshape⟩ := Option.map_eq_some_iff.mp hcheck
    obtain ⟨hresume, hnext⟩ := Prod.mk.inj hshape
    obtain ⟨caller, callers, hcallers, hcaller, hnone⟩ := List.map_eq_cons_iff.mp hnext
    have hnew : Realm.IsNew (.create 0 false) := ⟨0, false, rfl⟩
    obtain ⟨hframes, hcalls⟩ := runProgram_frames ha (Nat.le_refl _)
      (fun c hc => absurd hc (hnew.not_holds c)) rfl hm
    obtain ⟨m', ref, hstep, hrefuses, hcatches⟩ := hcalls closure hcallee (Nat.zero_le _)
    have hunit : m.frame.resume = .unit := by
      cases h : m.frame.resume with
      | unit => rfl
      | call this strict constructed =>
        rw [h] at hresume
        cases hresume
    have htries : caller.Tries "e" := by
      obtain ⟨root, hlast, hartifact, hunit⟩ := runProgram_root hm
      rw [hcallers, List.map_eq_nil_iff.mp hnone] at hlast
      cases hlast
      exact tries_callingInTry ha hunit hartifact rfl hcaller
    obtain ⟨m'', hreaches, -, herror, hhandles⟩ := hcatches caller callers "e" hcallers hunit htries
    exact ⟨a, m, ha, hm, hframes, closure, m', ref, m'', hcallee, hstep, hrefuses, hreaches,
      hhandles.bound, herror⟩
  · cases hcheck

end TreeScript
