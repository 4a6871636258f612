import TreeScript.Machine.Run
import TreeScript.Proofs.Machine.Steady

/-!
# Runs of the machine

What a step can be, what holds along a run, and which states a run comes to.
-/

namespace TreeScript

open Code

def Transition.realm : Transition → Realm
  | .next m => m.realm
  | .halt _ r _ => r

variable {realm : Realm} {context : Context} {fuel : Nat} {artifact : Artifact} {id : UnitId}
  {i : Instruction} {P : Machine → Prop} {result : Except MachineError Completion}

namespace Machine

variable {m m1 : Machine}

/-- A step of a running frame: it ends, or it runs its next instruction, which has no end, goes
through, throws, or is at fault. -/
theorem step_running {motive : Transition → Prop} (h : m.status = .running)
    (ended : ∀ c, m.frame.unit.instructions[m.frame.next]? = none → m.frame.finish = .ok c →
      motive (.next { m with status := .finishing c }))
    (unbalanced : ∀ e, m.frame.unit.instructions[m.frame.next]? = none →
      m.frame.finish = .error e → motive (.halt (.error e) m.realm m.context))
    (hanging : ∀ i, m.frame.unit.instructions[m.frame.next]? = some i → m.hangs i = true →
      motive (.next { m with status := .hanging }))
    (done : ∀ i m', m.frame.unit.instructions[m.frame.next]? = some i →
      exec i m.advance = .ok () m' → motive (.next m'))
    (thrown : ∀ i fault m', m.frame.unit.instructions[m.frame.next]? = some i →
      exec i m.advance = .error (.thrown fault) m' → motive (.next (m'.throwFault fault)))
    (fatal : ∀ i e m', m.frame.unit.instructions[m.frame.next]? = some i →
      exec i m.advance = .error (.fatal e) m' → motive (.halt (.error e) m'.realm m'.context)) :
    motive m.step := by
  unfold step proceed
  rw [h]
  cases hi : m.frame.unit.instructions[m.frame.next]? with
  | none =>
    cases hf : m.frame.finish with
    | ok c => exact ended c hi hf
    | error e => exact unbalanced e hi hf
  | some i =>
    dsimp only
    split
    · next hh => exact hanging i hi hh
    · cases he : exec i m.advance with
      | ok u m' => exact done i m' hi he
      | error e m' =>
        cases e with
        | thrown fault => exact thrown i fault m' hi he
        | fatal e => exact fatal i e m' hi he

theorem step_ended {c : Completion} (hr : m.status = .running)
    (hi : m.frame.unit.instructions[m.frame.next]? = none) (hf : m.frame.finish = .ok c) :
    m.step = .next { m with status := .finishing c } := by
  unfold step proceed
  rw [hr]
  rw [hi]
  rw [hf]

theorem step_unbalanced {e : MachineError} (hr : m.status = .running)
    (hi : m.frame.unit.instructions[m.frame.next]? = none) (hf : m.frame.finish = .error e) :
    m.step = .halt (.error e) m.realm m.context := by
  unfold step proceed
  rw [hr]
  rw [hi]
  rw [hf]

section

variable (hr : m.status = .running) (hi : m.frame.unit.instructions[m.frame.next]? = some i)
include hr hi

theorem step_hang (hh : m.hangs i = true) : m.step = .next { m with status := .hanging } := by
  unfold step proceed
  rw [hr]
  rw [hi]
  exact if_pos hh

variable (hh : m.hangs i = false)
include hh

theorem step_eq : m.step = afterExec (exec i m.advance) := by
  unfold step proceed
  rw [hr]
  rw [hi]
  exact if_neg (Bool.eq_false_iff.mp hh)

theorem step_exec (he : exec i m.advance = .ok () m1) : m.step = .next m1 :=
  (step_eq hr hi hh).trans (congrArg afterExec he)

theorem step_throw {fault : Fault} (he : exec i m.advance = .error (.thrown fault) m1) :
    m.step = .next (m1.throwFault fault) :=
  (step_eq hr hi hh).trans (congrArg afterExec he)

theorem step_fatal {e : MachineError} (he : exec i m.advance = .error (.fatal e) m1) :
    m.step = .halt (.error e) m1.realm m1.context :=
  (step_eq hr hi hh).trans (congrArg afterExec he)

end

theorem step_finishing {c : Completion} (h : m.status = .finishing c) : m.step = m.leave c := by
  unfold step
  rw [h]

theorem step_hanging (h : m.status = .hanging) : m.step = .next m := by
  unfold step
  rw [h]

/-! ## Leaving a frame -/

theorem leave_root (c : Completion) (h : m.callers = []) :
    m.leave c = .halt (.ok c) m.realm { m.context with env := m.frame.callerEnv } := by
  obtain ⟨realm, context, frame, callers, status⟩ := m
  cases h
  rfl

theorem leave_unit {caller : Frame} {callers : List Frame} (c : Completion)
    (h : m.callers = caller :: callers) (hr : m.frame.resume = .unit) :
    m.leave c = .next ⟨m.realm, { m.context with env := m.frame.callerEnv },
      caller.push (.completion c), callers, .running⟩ := by
  obtain ⟨realm, context, frame, callers, status⟩ := m
  cases h
  have hr : frame.resume = .unit := hr
  simp only [leave, hr]

theorem leave_call {caller : Frame} {callers : List Frame} {this : Value} {strict : Bool}
    {constructed : Option Value} (c : Completion) (h : m.callers = caller :: callers)
    (hr : m.frame.resume = .call this strict constructed) :
    m.leave c =
      match CallResult.ofCompletion c constructed with
      | .value v => .next ⟨m.realm.exitCall, ⟨m.frame.callerEnv, this, strict⟩,
          caller.push (.value v), callers, .running⟩
      | .thrown v => .next ⟨m.realm.exitCall, ⟨m.frame.callerEnv, this, strict⟩, caller, callers,
          .finishing (.throwing v)⟩
      | .escaped kind => .halt (.error (.escapedCompletion kind m.frame.unit.name))
          m.realm.exitCall ⟨m.frame.callerEnv, this, strict⟩ := by
  obtain ⟨realm, context, frame, callers, status⟩ := m
  cases h
  have hr : frame.resume = .call this strict constructed := hr
  cases hc : CallResult.ofCompletion c constructed <;> simp only [leave, hr, hc]

theorem leave_next {c : Completion} {m' : Machine} (h : m.leave c = .next m') :
    ∃ caller stack, m.callers = caller :: m'.callers ∧ m'.frame = { caller with stack } ∧
      m'.context.env = m.frame.callerEnv ∧
      (m.frame.resume = .unit ∧ m'.context.strict = m.context.strict ∧ m'.realm = m.realm ∨
        (∃ constructed, m.frame.resume = .call m'.context.this m'.context.strict constructed) ∧
          m'.realm = m.realm.exitCall) := by
  cases hc : m.callers with
  | nil =>
    rw [leave_root c hc] at h
    cases h
  | cons caller callers =>
    cases hr : m.frame.resume with
    | unit =>
      rw [leave_unit c hc hr] at h
      cases h
      exact ⟨caller, _, rfl, rfl, rfl, .inl ⟨rfl, rfl, rfl⟩⟩
    | call this strict constructed =>
      rw [leave_call c hc hr] at h
      split at h <;> cases h <;> exact ⟨caller, _, rfl, rfl, rfl, .inr ⟨⟨_, rfl⟩, rfl⟩⟩

theorem realm_leave (m : Machine) (c : Completion) :
    (m.leave c).realm = m.realm ∨ (m.leave c).realm = m.realm.exitCall := by
  cases hc : m.callers with
  | nil => exact .inl (congrArg _ (leave_root c hc))
  | cons caller callers =>
    cases hr : m.frame.resume with
    | unit => exact .inl (congrArg _ (leave_unit c hc hr))
    | call this strict constructed =>
      rw [leave_call c hc hr]
      split <;> exact .inr rfl

theorem realm_step {R : Realm → Prop} (stays : R m.realm) (exit : R m.realm.exitCall)
    (exec : ∀ i, m.status = .running → m.frame.unit.instructions[m.frame.next]? = some i →
      R (stateOf (exec i m.advance)).realm)
    (thrown : ∀ r fault, R r → R (Realm.materialize r fault).2) : R m.step.realm := by
  cases hs : m.status with
  | finishing c =>
    rw [step_finishing hs]
    rcases m.realm_leave c with h | h <;> rw [h] <;> assumption
  | hanging =>
    rw [step_hanging hs]
    exact stays
  | running =>
    refine step_running (motive := fun t => R t.realm) hs (fun _ _ _ => stays)
      (fun _ _ _ => stays) (fun _ _ _ => stays) (fun i m' hi he => ?_)
      (fun i fault m' hi he => thrown _ fault ?_) fun i e m' hi he => ?_
    all_goals
      have h := exec i hs hi
      rw [he] at h
      exact h

/-- What leaving, changes of the status, instructions and exceptions keep is kept by a step that
goes on. -/
theorem step_next {m' : Machine} (hs : m.step = .next m')
    (left : ∀ c, m.leave c = .next m' → P m') (status : ∀ status, P { m with status })
    (exec : ∀ i, m.frame.unit.instructions[m.frame.next]? = some i →
      P (stateOf (exec i m.advance)))
    (thrown : ∀ m1 fault, P m1 → P (m1.throwFault fault)) : P m' := by
  cases hst : m.status with
  | finishing c =>
    rw [step_finishing hst] at hs
    exact left c hs
  | hanging =>
    rw [step_hanging hst] at hs
    cases hs
    exact status m.status
  | running =>
    revert hs
    refine step_running (motive := fun t => t = .next m' → P m') hst ?_ ?_ ?_ ?_ ?_ ?_
    · rintro c _ _ ⟨⟩
      exact status _
    · rintro _ _ _ ⟨⟩
    · rintro i _ _ ⟨⟩
      exact status _
    · rintro i m1 hi he ⟨⟩
      have h := exec i hi
      rw [he] at h
      exact h
    · rintro i fault m1 hi he ⟨⟩
      have h := exec i hi
      rw [he] at h
      exact thrown m1 fault h
    · rintro _ _ _ _ _ ⟨⟩

/-! ## Along a run -/

/-- What every step keeps holds of every state that a run comes to. -/
theorem run_exhausted (hnext : ∀ {m m'}, P m → m.step = .next m' → P m') {n : Nat} {m' : Machine}
    (hm : P m) (h : run n m = .exhausted m') : P m' := by
  induction n generalizing m with
  | zero =>
    cases h
    exact hm
  | succ n ih =>
    unfold run at h
    cases hs : m.step with
    | next m1 =>
      rw [hs] at h
      exact ih (hnext hm hs) h
    | halt result realm context =>
      rw [hs] at h
      cases h

/-- What the last step makes of what every step keeps holds when a run halts. -/
theorem run_halted {Q : Except MachineError Completion → Realm → Context → Prop}
    (hnext : ∀ {m m'}, P m → m.step = .next m' → P m')
    (hhalt : ∀ {m result realm context}, P m → m.step = .halt result realm context →
      Q result realm context) {n : Nat} (hm : P m) (h : run n m = .halted result realm context) :
    Q result realm context := by
  induction n generalizing m with
  | zero => cases h
  | succ n ih =>
    unfold run at h
    cases hs : m.step with
    | next m1 =>
      rw [hs] at h
      exact ih (hnext hm hs) h
    | halt result' realm' context' =>
      rw [hs] at h
      cases h
      exact hhalt hm hs

end Machine

/-- A state that a run of a unit comes to is one that its frame comes to. -/
theorem run_of_invoke {m : Machine} (h : invoke fuel artifact id realm context = .exhausted m) :
    ∃ frame, Frame.start artifact id context.env .unit = .ok frame ∧
      Machine.run fuel { realm := realm.countRun frame.unit.name, context, frame } =
        .exhausted m := by
  unfold invoke at h
  cases hs : Frame.start artifact id context.env .unit with
  | error e =>
    rw [hs] at h
    cases h
  | ok frame =>
    rw [hs] at h
    dsimp only at h
    split at h
    · cases h
    · exact ⟨frame, rfl, h⟩

theorem invoke_of_run {frame : Frame} {m : Machine}
    (hs : Frame.start artifact id context.env .unit = .ok frame)
    (h : Machine.run fuel { realm := realm.countRun frame.unit.name, context, frame } =
      .exhausted m) : invoke fuel artifact id realm context = .exhausted m := by
  unfold invoke
  rw [hs]
  dsimp only
  rw [h]

theorem invoke_halted_of_run {realm' : Realm} {context' : Context} {frame : Frame}
    (hs : Frame.start artifact id context.env .unit = .ok frame)
    (h : Machine.run fuel { realm := realm.countRun frame.unit.name, context, frame } =
      .halted result realm' context') :
    ∃ result realm' context', invoke fuel artifact id realm context =
      .halted result realm' context' := by
  unfold invoke
  rw [hs]
  dsimp only
  rw [h]
  cases result with
  | ok c | error e => exact ⟨_, _, _, rfl⟩

/-- What the last step makes of what every step keeps holds when a run of a unit halts.  After a
fault the context and the depth of calls are put back. -/
theorem halted_of_invoke {Q S : Except MachineError Completion → Realm → Context → Prop}
    (hnext : ∀ {m m'}, P m → m.step = .next m' → P m')
    (hhalt : ∀ {m result realm context}, P m → m.step = .halt result realm context →
      Q result realm context)
    (hstart : ∀ frame, Frame.start artifact id context.env .unit = .ok frame →
      P { realm := realm.countRun frame.unit.name, context, frame })
    (hrefused : ∀ e, Frame.start artifact id context.env .unit = .error e →
      S (.error e) realm context)
    (hfatal : ∀ {e r c}, Q (.error e) r c →
      S (.error e) { r with callDepth := min r.callDepth realm.callDepth } context)
    (hdone : ∀ {c r context'}, Q (.ok c) r context' → S (.ok c) r context') {realm' : Realm}
    {context' : Context}
    (h : invoke fuel artifact id realm context = .halted result realm' context') :
    S result realm' context' := by
  unfold invoke at h
  cases hs : Frame.start artifact id context.env .unit with
  | error e =>
    rw [hs] at h
    cases h
    exact hrefused e hs
  | ok frame =>
    rw [hs] at h
    dsimp only at h
    split at h
    · next he =>
      cases h
      exact hfatal (Machine.run_halted hnext hhalt (hstart frame hs) he)
    · next hne =>
      cases result with
      | error e => exact absurd h (hne e realm' context')
      | ok c => exact hdone (Machine.run_halted hnext hhalt (hstart frame hs) h)

/-- What holds of a realm whenever a run halts holds of the realm that a run of a unit leaves, if
the call depth does not matter to it. -/
theorem realm_of_invoke {R : Realm → Prop} (hnext : ∀ {m m'}, P m → m.step = .next m' → P m')
    (hhalt : ∀ {m result realm context}, P m → m.step = .halt result realm context → R realm)
    (hdepth : ∀ {realm : Realm} {depth}, R realm → R { realm with callDepth := depth })
    {realm' : Realm} {context' : Context} (hr : R realm)
    (hstart : ∀ frame, Frame.start artifact id context.env .unit = .ok frame →
      P { realm := realm.countRun frame.unit.name, context, frame })
    (h : invoke fuel artifact id realm context = .halted result realm' context') : R realm' :=
  halted_of_invoke (Q := fun _ realm _ => R realm) (S := fun _ realm _ => R realm) hnext hhalt
    hstart (fun _ _ => hr) hdepth (fun hr => hr) h

end TreeScript
