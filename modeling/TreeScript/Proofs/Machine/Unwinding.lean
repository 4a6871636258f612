import TreeScript.Engine
import TreeScript.Proofs.Machine.Effect
import TreeScript.Proofs.Machine.Reach

/-!
# Contexts are given back

All frames of a run work in one context, which calls and scopes change as they go.  Whatever the
code is, a run that ends leaves the context and the depth of calls as it found them.  The proof
keeps hold of what the frames on the stack have saved: leaving them one by one leads back to where
the run began.
-/

namespace TreeScript

open Code

def Resume.isCall : Resume → Bool
  | unit => false
  | call .. => true

/-- The frames of a run that began in `context` at a depth of `base` calls, with the `this` and
strictness of the running one and the depth it runs at.  Only the saved parts count: a frame that
runs a unit works in the `this` of the frame below, and a call has put that away. -/
inductive Nested (context : Context) (base : Nat) : List Frame → Value → Bool → Nat → Prop where
  | root {f : Frame} : f.resume = .unit → f.callerEnv = context.env →
    Nested context base [f] context.this context.strict base
  | unit {f : Frame} {fs : List Frame} {this : Value} {strict : Bool} {depth : Nat} :
    f.resume = .unit → Nested context base fs this strict depth →
    Nested context base (f :: fs) this strict depth
  | call {f : Frame} {fs : List Frame} {this this' : Value} {strict strict' : Bool} {depth : Nat}
      {constructed : Option Value} :
    f.resume = .call this' strict' constructed → Nested context base fs this' strict' depth →
    Nested context base (f :: fs) this strict (depth + 1)

namespace Nested

variable {context : Context} {base : Nat} {f f' : Frame} {fs : List Frame} {this : Value}
  {strict : Bool} {depth : Nat}

theorem depth_eq (h : Nested context base fs this strict depth) :
    depth = base + fs.countP (·.resume.isCall) := by
  induction h with
  | root hr _ => simp [hr, Resume.isCall]
  | unit hr _ ih =>
    rw [List.countP_cons_of_neg (by simp [hr, Resume.isCall])]
    exact ih
  | call hr _ ih =>
    rw [List.countP_cons_of_pos (by simp [hr, Resume.isCall]), ih]
    omega

theorem base_le (h : Nested context base fs this strict depth) : base ≤ depth := by
  have := h.depth_eq
  omega

theorem of_single (h : Nested context base [f] this strict depth) :
    f.callerEnv = context.env ∧ this = context.this ∧ strict = context.strict ∧ depth = base := by
  cases h with
  | root hr he => exact ⟨he, rfl, rfl, rfl⟩
  | unit hr hn => cases hn
  | call hr hn => cases hn

theorem of_cons (h : Nested context base (f :: f' :: fs) this strict depth) :
    f.resume = .unit ∧ Nested context base (f' :: fs) this strict depth ∨
    ∃ this' strict' constructed depth', f.resume = .call this' strict' constructed ∧
      depth = depth' + 1 ∧ Nested context base (f' :: fs) this' strict' depth' := by
  cases h with
  | unit hr hn => exact .inl ⟨hr, hn⟩
  | call hr hn => exact .inr ⟨_, _, _, _, hr, rfl, hn⟩

theorem alike (h : Nested context base (f :: fs) this strict depth) (hf : f.Alike f') :
    Nested context base (f' :: fs) this strict depth := by
  cases h with
  | root hr he => exact .root (hf.resume.trans hr) (hf.callerEnv.trans he)
  | unit hr hn => exact .unit (hf.resume.trans hr) hn
  | call hr hn => exact .call (hf.resume.trans hr) hn

end Nested

namespace Machine

/-- A state of a run that began in `context`, at a depth of `base` calls out of `limit`. -/
structure Unwinds (context : Context) (base limit : Nat) (m : Machine) : Prop where
  nested : Nested context base (m.frame :: m.callers) m.context.this m.context.strict
    m.realm.callDepth
  sameLimit : m.realm.maxCallDepth = limit
  bounded : m.realm.callDepth ≤ max limit base

variable {context : Context} {base limit : Nat} {m m' : Machine}

theorem Unwinds.stays (h : Unwinds context base limit m) (hs : Stays m m') :
    Unwinds context base limit m' where
  nested := by
    rw [hs.callers, hs.this, hs.strict, hs.realm.depth]
    exact h.nested.alike hs.frame
  sameLimit := hs.realm.limit.trans h.sameLimit
  bounded := hs.realm.depth ▸ h.bounded

theorem Unwinds.enters {i : Instruction} (h : Unwinds context base limit m) (he : Enters i m m') :
    Unwinds context base limit m' := by
  cases he with
  | unit _ hs =>
    have hc := Realm.steady_countRun (K := fun _ => True) m.realm
    refine ⟨?_, (hc _).limit.trans h.sameLimit, ?_⟩
    · rw [(hc _).depth]
      obtain ⟨u, -, rfl⟩ := start_ok_iff.mp hs
      exact .unit rfl h.nested
    · rw [(hc _).depth]
      exact h.bounded
  | call hc =>
    obtain @⟨m1, _, _, callee, r, _, hl, -, hs, hd, hr⟩ := hc
    have h1 := h.stays hl.toStays
    have hk := (hr fun _ => True).trans (Realm.steady_countRun r callee.unit.name)
    have hdepth : (r.countRun callee.unit.name).callDepth = m1.realm.callDepth + 1 := hk.depth
    refine ⟨?_, hk.limit.trans h1.sameLimit, ?_⟩
    · show Nested context base _ _ _ (r.countRun callee.unit.name).callDepth
      rw [hdepth]
      obtain ⟨u, -, rfl⟩ := start_ok_iff.mp hs
      exact .call rfl h1.nested
    · show (r.countRun callee.unit.name).callDepth ≤ max limit base
      have := h1.sameLimit
      omega

theorem stays_advance (m : Machine) : Stays m m.advance :=
  ⟨.refl _, rfl, rfl, ⟨rfl, rfl, rfl, rfl, rfl⟩, rfl, rfl⟩

theorem Unwinds.status (h : Unwinds context base limit m) (status : Status) :
    Unwinds context base limit { m with status } :=
  ⟨h.nested, h.sameLimit, h.bounded⟩

theorem Unwinds.throwFault (h : Unwinds context base limit m) (fault : Fault) :
    Unwinds context base limit (m.throwFault fault) := by
  have hk := Realm.steady_materialize (K := fun _ => True) m.realm fault
  refine ⟨?_, hk.limit.trans h.sameLimit, ?_⟩
  · show Nested context base _ _ _ (m.realm.materialize fault).2.callDepth
    rw [hk.depth]
    exact h.nested
  · show (m.realm.materialize fault).2.callDepth ≤ _
    rw [hk.depth]
    exact h.bounded

/-- What a run is left with when it halts: on success the context and the depth it began with, and
in any case no less than that depth. -/
def Returned (context : Context) (base : Nat) (result : Except MachineError Completion)
    (realm : Realm) (context' : Context) : Prop :=
  base ≤ realm.callDepth ∧
    ∀ c, result = .ok c → context' = context ∧ realm.callDepth = base

/-- A step of a run goes on with it, or the run has returned. -/
def Unwound (context : Context) (base limit : Nat) : Transition → Prop
  | .next m => Unwinds context base limit m
  | .halt result realm context' => Returned context base result realm context'

/-- Leaving a frame gives the frame below what it had, and the root frame gives everything back. -/
theorem Unwinds.leave (h : Unwinds context base limit m) (c : Completion) :
    Unwound context base limit (m.leave c) := by
  obtain ⟨hn, hl, hb⟩ := h
  cases hc : m.callers with
  | nil =>
    rw [hc] at hn
    obtain ⟨he, ht, hs, hd⟩ := hn.of_single
    rw [leave_root c hc]
    refine ⟨Nat.le_of_eq hd.symm, fun _ _ => ⟨?_, hd⟩⟩
    show (⟨m.frame.callerEnv, m.context.this, m.context.strict⟩ : Context) = context
    rw [he, ht, hs]
  | cons caller callers =>
    rw [hc] at hn
    rcases hn.of_cons with ⟨hr, hn⟩ | ⟨this, strict, constructed, depth, hr, hd, hn⟩
    · rw [leave_unit c hc hr]
      exact ⟨hn.alike ⟨rfl, rfl, rfl, rfl, rfl⟩, hl, hb⟩
    · have hdepth : m.realm.exitCall.callDepth = depth := by
        show m.realm.callDepth - 1 = depth
        omega
      have hbound : m.realm.exitCall.callDepth ≤ max limit base := Nat.le_trans (Nat.sub_le _ _) hb
      rw [← hdepth] at hn
      rw [leave_call c hc hr]
      cases CallResult.ofCompletion c constructed with
      | value v => exact ⟨hn.alike ⟨rfl, rfl, rfl, rfl, rfl⟩, hl, hbound⟩
      | thrown v => exact ⟨hn, hl, hbound⟩
      | escaped kind => exact ⟨hn.base_le, fun _ hc => (by cases hc)⟩

theorem Unwinds.exec (h : Unwinds context base limit m) (i : Instruction) :
    Unwinds context base limit (stateOf (exec i m)) :=
  exec_preserves h.stays h.enters

theorem Unwinds.step (h : Unwinds context base limit m) : Unwound context base limit m.step := by
  cases hs : m.status with
  | finishing c =>
    rw [step_finishing hs]
    exact h.leave c
  | hanging =>
    rw [step_hanging hs]
    exact h
  | running =>
    have hexec {i : Instruction} {out : EStateM.Result Interrupt Machine Unit}
        (he : Machine.exec i m.advance = out) : Unwinds context base limit (stateOf out) :=
      he ▸ (h.stays (stays_advance m)).exec i
    refine step_running (motive := Unwound context base limit) hs (fun c _ _ => h.status _) ?_
      (fun i _ _ => h.status _) (fun i m1 _ he => hexec he)
      (fun i fault m1 _ he => (hexec he).throwFault fault) ?_
    · exact fun e _ _ => ⟨h.nested.base_le, fun c hc => (by cases hc)⟩
    · exact fun i e m1 _ he => ⟨(hexec he).nested.base_le, fun c hc => (by cases hc)⟩

theorem Unwinds.next (h : Unwinds context base limit m) (hs : m.step = .next m') :
    Unwinds context base limit m' :=
  show Unwound context base limit (.next m') from hs ▸ h.step

def callFrames (m : Machine) : Nat := (m.frame :: m.callers).countP (·.resume.isCall)

end Machine

/-! ## Runs and engines -/

variable {artifact : Artifact} {id : UnitId}

theorem unwinds_start {context : Context} {frame : Frame} (realm : Realm)
    (h : Frame.start artifact id context.env .unit = .ok frame) :
    Machine.Unwinds context realm.callDepth realm.maxCallDepth
      { realm := realm.countRun frame.unit.name, context, frame } := by
  have hc := Realm.steady_countRun (K := fun _ => True) realm frame.unit.name
  refine ⟨?_, hc.limit, ?_⟩
  · rw [hc.depth]
    obtain ⟨u, -, rfl⟩ := Machine.start_ok_iff.mp h
    exact .root rfl rfl
  · rw [hc.depth]
    exact Nat.le_max_right ..

theorem invoke_exhausted {fuel : Nat} {realm : Realm} {context : Context} {m : Machine}
    (h : invoke fuel artifact id realm context = .exhausted m) :
    m.Unwinds context realm.callDepth realm.maxCallDepth := by
  obtain ⟨frame, hs, hrun⟩ := run_of_invoke h
  exact Machine.run_exhausted Machine.Unwinds.next (unwinds_start realm hs) hrun

/-- When the code is at fault nobody leaves the frames that are still there; the call depth is then
put back by hand. -/
theorem invoke_halted {fuel : Nat} {realm realm' : Realm} {context context' : Context}
    {result : Except MachineError Completion}
    (h : invoke fuel artifact id realm context = .halted result realm' context') :
    context' = context ∧ realm'.callDepth = realm.callDepth :=
  halted_of_invoke (Q := Machine.Returned context realm.callDepth)
    (S := fun _ realm' context' => context' = context ∧ realm'.callDepth = realm.callDepth)
    Machine.Unwinds.next
    (fun {_ result realm1 context1} hm hs =>
      show Machine.Unwound _ _ _ (.halt result realm1 context1) from hs ▸ hm.step)
    (fun _ hs => unwinds_start realm hs) (fun _ _ => ⟨rfl, rfl⟩)
    (fun h => ⟨rfl, Nat.min_eq_right h.1⟩) (fun h => h.2 _ rfl) h

/-- The engines that a new one becomes by running artifacts, programs and texts, whatever these do,
and by handing out what they print. -/
inductive Engine.Used (config : Config) : Engine → Prop where
  | create : Used config (.create config)
  | run {e e' : Engine} {fuel : Nat} {artifact : Artifact}
    {result : Except EngineError Completion} :
    Used config e → e.run fuel artifact = some (result, e') → Used config e'
  | eval {e e' : Engine} {fuel : Nat} {p : Syntax.Program}
      {result : Except EngineError Completion} :
    Used config e → e.eval fuel p = some (result, e') → Used config e'
  | evalText {e e' : Engine} {fuel : Nat} {text : String}
      {result : Except EngineError Completion} :
    Used config e → e.evalText fuel text = some (result, e') → Used config e'
  | takeOutput {e : Engine} : Used config e → Used config e.takeOutput.2

namespace Engine

variable {e e' : Engine} {fuel : Nat} {result : Except EngineError Completion}

theorem callDepth_run (h : e.run fuel artifact = some (result, e')) :
    e'.realm.callDepth = e.realm.callDepth := by
  unfold run runProgram at h
  dsimp only at h
  split at h
  · cases h
  · next he =>
    cases h
    exact (invoke_halted he).2

theorem callDepth_eval {p : Syntax.Program} (h : e.eval fuel p = some (result, e')) :
    e'.realm.callDepth = e.realm.callDepth := by
  unfold eval at h
  split at h
  · exact callDepth_run h
  · cases h
    rfl

theorem callDepth_evalText {text : String} (h : e.evalText fuel text = some (result, e')) :
    e'.realm.callDepth = e.realm.callDepth := by
  unfold evalText at h
  split at h
  · exact callDepth_eval h
  · cases h
    rfl

theorem Used.callDepth_eq_zero {config : Config} (h : Used config e) : e.realm.callDepth = 0 := by
  induction h with
  | create => rfl
  | run _ hr ih => exact (callDepth_run hr).trans ih
  | eval _ hr ih => exact (callDepth_eval hr).trans ih
  | evalText _ hr ih => exact (callDepth_evalText hr).trans ih
  | takeOutput _ ih => exact ih

end Engine

/-- Running a unit, well formed or not, gives back the context and the depth of calls; on the way
the depth counts the calls that are open and keeps to the limit.  An engine is thus never left
inside a call. -/
theorem invoke_restores (artifact : Artifact) (id : UnitId) (realm : Realm) (context : Context) :
    (∀ fuel result realm' context',
      invoke fuel artifact id realm context = .halted result realm' context' →
      context' = context ∧ realm'.callDepth = realm.callDepth) ∧
    (∀ fuel m, invoke fuel artifact id realm context = .exhausted m →
      m.realm.callDepth = realm.callDepth + m.callFrames ∧
      m.realm.callDepth ≤ max realm.maxCallDepth realm.callDepth) ∧
    (∀ config e, Engine.Used config e → e.realm.callDepth = 0) := by
  refine ⟨fun fuel result realm' context' h => invoke_halted h, fun fuel m h => ?_,
    fun config e h => h.callDepth_eq_zero⟩
  have hm := invoke_exhausted h
  exact ⟨hm.nested.depth_eq, hm.bounded⟩

/-- A program that calls a function whose code takes from an empty stack. -/
def underflowing : Artifact where
  entry := 0
  units := #[
    { name := "Program_0", role := .program, strict := false
      instructions := #[.load 0, .makeClosure 0, .operate (.call 0), .normalValue]
      operands := #[.constant .undefined], labels := #[], tempCount := 0 },
    { name := "Function_0", role := .function, strict := true
      instructions := #[.pop], operands := #[], labels := #[], tempCount := 0 }]
  functions := #[{ unit := 1, name := none, params := [], strict := true, selfBinding := false }]

/-- The fault shows inside the call, which is one call deep, and the caller's `this` and strictness
come back with the depth. -/
theorem invoke_restores_underflowing :
    let realm := Realm.create 256 false
    let context := Context.global false
    (∃ m, invoke 3 underflowing 0 realm context = .exhausted m ∧ m.context.strict = true ∧
      m.realm.callDepth = 1 ∧ m.realm.callDepth = realm.callDepth + m.callFrames) ∧
    (∃ realm' context', invoke 4 underflowing 0 realm context =
        .halted (.error (.stackUnderflow "Function_0" 0)) realm' context' ∧
      context' = context ∧ realm'.callDepth = realm.callDepth) ∧
    ∃ e, Engine.Used {} e ∧ (Engine.create {}).run 4 underflowing =
        some (.error (.machine (.stackUnderflow "Function_0" 0)), e) ∧ e.realm.callDepth = 0 := by
  obtain ⟨hhalted, hexhausted, hused⟩ :=
    invoke_restores underflowing 0 (.create 256 false) (.global false)
  refine ⟨⟨_, rfl, rfl, rfl, (hexhausted 3 _ rfl).1⟩, ⟨_, _, rfl, hhalted 4 _ _ _ rfl⟩, ?_⟩
  obtain ⟨e, he⟩ : ∃ e, (Engine.create {}).run 4 underflowing =
      some (.error (.machine (.stackUnderflow "Function_0" 0)), e) := ⟨_, rfl⟩
  exact ⟨e, .run .create he, he, hused {} e (.run .create he)⟩

end TreeScript
