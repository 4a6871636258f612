import TreeScript.Proofs.Machine.Alone
import TreeScript.Proofs.Machine.Unwinding

/-!
# Units that a frame starts

A frame runs other units in its own context, one for each body of a control construct.  `visits`
lists the units that a frame starts in the course of a run; units that are started further up,
inside those or inside functions that are called, are not among them.  `Machine.Travels` says that a
run leads from one state to another with just these visits on the way.
-/

namespace TreeScript

open Code

namespace Machine

variable {m m' m1 : Machine} {depth n : Nat} {below : List Frame}

/-- A unit that is started, in a context and a realm. -/
structure Visit where
  unit : UnitId
  context : Context
  realm : Realm

/-- What the next step starts on behalf of the frame with `depth` frames below it. -/
def visit? (depth : Nat) (m : Machine) : Option Visit :=
  if m.callers.length = depth then
    match m.status with
    | .running =>
      (m.frame.unit.instructions[m.frame.next]? >>= Instruction.invoked?).map
        fun id => ⟨id, m.context, m.realm⟩
    | .finishing _ | .hanging => none
  else none

/-- What a run of `n` steps starts on behalf of that frame, in order. -/
def visits (depth : Nat) : Nat → Machine → List Visit
  | 0, _ => []
  | n + 1, m =>
    match m.step with
    | .next m' => (m.visit? depth).toList ++ visits depth n m'
    | .halt .. => []

theorem visits_succ (h : m.step = .next m') (n : Nat) :
    visits depth (n + 1) m = (m.visit? depth).toList ++ visits depth n m' := by
  rw [visits, h]

theorem visits_add (h : run n m = .exhausted m') (k : Nat) :
    visits depth (n + k) m = visits depth n m ++ visits depth k m' := by
  induction n generalizing m with
  | zero =>
    cases h
    rw [Nat.zero_add]
    rfl
  | succ n ih =>
    obtain ⟨m1, hs, h⟩ := step_of_exhausted h
    rw [Nat.add_right_comm, visits_succ hs, visits_succ hs, ih h, List.append_assoc]

/-- The machine comes from `m` to `m'`, and the frame with `depth` frames below it starts just the
units `vs` on the way. -/
def Travels (depth : Nat) (vs : List Visit) (m m' : Machine) : Prop :=
  ∃ n, run n m = .exhausted m' ∧ visits depth n m = vs

section

variable {vs vs' : List Visit}

theorem travels_refl (depth : Nat) (m : Machine) : Travels depth [] m m := ⟨0, rfl, rfl⟩

theorem Travels.trans (h : Travels depth vs m m1) (h' : Travels depth vs' m1 m') :
    Travels depth (vs ++ vs') m m' := by
  obtain ⟨n, hn, rfl⟩ := h
  obtain ⟨k, hk, rfl⟩ := h'
  exact ⟨n + k, (run_add hn k).trans hk, visits_add hn k⟩

theorem Travels.reaches (h : Travels depth vs m m') : m.Reaches m' := by
  obtain ⟨n, hn, -⟩ := h
  exact ⟨n, hn⟩

theorem travels_of_step (h : m.step = .next m') : Travels depth (m.visit? depth).toList m m' := by
  refine ⟨1, run_succ_next h 0, ?_⟩
  rw [visits_succ h, visits, List.append_nil]

end

/-! ## Ways -/

/-- A relation of states that goes along with a run as long as the frame with `depth` frames below
it does not start a unit. -/
class Way (depth : Nat) (way : Machine → Machine → Prop) : Prop where
  refl (m : Machine) : way m m
  trans {m m1 m' : Machine} : way m m1 → way m1 m' → way m m'
  step {m m' : Machine} : m.visit? depth = none → m.step = .next m' → way m m'

instance : Way depth Reaches := ⟨.refl, .trans, fun _ h => reaches_of_step h⟩

instance : Way depth (Travels depth []) where
  refl := travels_refl depth
  trans h h' := h.trans h'
  step hv h := by
    have htravels : Travels depth _ _ _ := travels_of_step h
    rw [hv] at htravels
    exact htravels

section

variable {way : Machine → Machine → Prop}

theorem visit?_above (h : m.callers.length ≠ depth) : m.visit? depth = none := if_neg h

theorem visit?_finishing {c : Completion} (h : m.status = .finishing c) :
    m.visit? depth = none := by
  unfold visit?
  rw [h]
  exact ite_self none

theorem visit?_running {i : Instruction} (hr : m.status = .running)
    (hi : m.frame.unit.instructions[m.frame.next]? = some i) :
    m.visit? m.callers.length = i.invoked?.map fun id => ⟨id, m.context, m.realm⟩ := by
  unfold visit?
  rw [if_pos rfl, hr, hi]
  rfl

theorem way_atop [Way depth way] (h : run n m = .exhausted m') (hd : depth < below.length) :
    way (m.atop below) (m'.atop below) := by
  refine run_atop_rel (R := fun _ => way) (Way.refl depth) (fun {_ m1 _ _} hle hs h => ?_) h
  have hv : m1.visit? depth = none := visit?_above (by omega)
  exact Way.trans depth (Way.step hv hs) h

variable (way) in
theorem way_called {callee : Frame} {env : EnvRef} {this : Value} {strict : Bool}
    {constructed : Option Value} {r r' : Realm} {c : Completion} [Way m.callers.length way]
    (hr : callee.resume = .call m.context.this m.context.strict constructed)
    (he : callee.callerEnv = m.context.env)
    (h : callee.Ends ⟨env, this, strict⟩ (r.countRun callee.unit.name) c r') :
    ∃ m1, way (m.called r env this strict callee) m1 ∧ m1.visit? m.callers.length = none ∧
      m1.step = m.afterCall callee constructed c r' := by
  obtain ⟨n, context', hn⟩ := h
  obtain ⟨m1, ⟨k, hk⟩, hc, hs, rfl⟩ := reaches_last hn
  refine ⟨m1.atop (m.frame :: m.callers), ?_, visit?_finishing hs, step_called hr he ⟨k, hk⟩ hc hs⟩
  exact way_atop hk (Nat.lt_succ_self m.callers.length)

end

end Machine

/-! ## Units by themselves -/

open Machine

section

variable {a : Artifact} {id : UnitId} {context : Context} {r r' : Realm} {c : Completion}

/-- What running a unit by itself gives: how it ends, and the realm that it leaves.  There is
nothing if the run goes on for ever or fails. -/
noncomputable def unitResult (a : Artifact) (id : UnitId) (context : Context) (r : Realm) :
    Option (Completion × Realm) :=
  match Frame.start a id context.env .unit with
  | .error _ => none
  | .ok frame => frame.result context (r.countRun frame.unit.name)

theorem unitResult_eq {frame : Frame} (h : Frame.start a id context.env .unit = .ok frame)
    (r : Realm) :
    unitResult a id context r = frame.result context (r.countRun frame.unit.name) := by
  unfold unitResult
  rw [h]

theorem unitResult_eq_some :
    unitResult a id context r = some (c, r') ↔
      ∃ fuel, invoke fuel a id r context = .halted (.ok c) r' context := by
  cases hs : Frame.start a id context.env .unit with
  | error e =>
    unfold unitResult invoke
    rw [hs]
    constructor
    · nofun
    · rintro ⟨fuel, h⟩
      cases h
  | ok frame =>
    rw [unitResult_eq hs, Frame.result_eq_some]
    constructor
    · rintro ⟨fuel, context', h⟩
      have hi : invoke fuel a id r context = .halted (.ok c) r' context' := by
        unfold invoke
        rw [hs]
        dsimp only
        rw [h]
      obtain ⟨rfl, -⟩ := invoke_halted hi
      exact ⟨fuel, hi⟩
    · rintro ⟨fuel, h⟩
      unfold invoke at h
      rw [hs] at h
      dsimp only at h
      cases hrun : run fuel { realm := r.countRun frame.unit.name, context, frame } with
      | exhausted m =>
        rw [hrun] at h
        cases h
      | halted result realm context' =>
        rw [hrun] at h
        cases result with
        | error e => cases h
        | ok c' =>
          cases h
          exact ⟨fuel, context, hrun⟩

end

namespace Machine

variable {m : Machine} {id : UnitId} {unit : CodeUnit} {c : Completion} {r : Realm}

def bodyFrame (m : Machine) (unit : CodeUnit) : Frame where
  artifact := m.frame.artifact
  unit := unit
  temps := Array.replicate unit.tempCount .undefined
  callerEnv := m.context.env
  resume := .unit

theorem start_bodyFrame (h : m.frame.artifact.unit? id = some unit) :
    Frame.start m.frame.artifact id m.context.env .unit = .ok (m.bodyFrame unit) :=
  start_ok_iff.mpr ⟨unit, h, rfl⟩

def started (m : Machine) (unit : CodeUnit) : Machine :=
  { realm := m.realm.countRun unit.name, context := m.context, frame := m.bodyFrame unit }

theorem travels_started (hr : m.status = .running)
    (hi : m.frame.unit.instructions[m.frame.next]? = some (.invoke id))
    (hu : m.frame.artifact.unit? id = some unit) :
    Travels m.callers.length [⟨id, m.context, m.realm⟩] m
      ((m.started unit).atop (m.advance.frame :: m.callers)) := by
  have hstep : m.step = .next ((m.started unit).atop (m.advance.frame :: m.callers)) :=
    step_exec hr hi rfl (exec_invoke hu)
  have htravels : Travels m.callers.length _ _ _ := travels_of_step hstep
  rw [visit?_running hr hi] at htravels
  exact htravels

/-- A unit that was started and has ended gives its completion to the frame below, in the context
that it was started in. -/
theorem step_started (hu : m.frame.artifact.unit? id = some unit) {m1 : Machine}
    (hm : (m.started unit).Reaches m1) (hc : m1.callers = []) (hs : m1.status = .finishing c) :
    (m1.atop (m.advance.frame :: m.callers)).step = .next ⟨m1.realm, m.context,
      m.advance.frame.push (.completion c), m.callers, .running⟩ := by
  have halike := alike_of_reaches hm hc
  obtain ⟨n, hn⟩ := hm
  have hunwinds : m1.Unwinds m.context m.realm.callDepth m.realm.maxCallDepth :=
    run_exhausted Unwinds.next (unwinds_start m.realm (start_bodyFrame hu)) hn
  have hnested := hunwinds.nested
  rw [hc] at hnested
  obtain ⟨henv, hthis, hstrict, -⟩ := hnested.of_single
  have hcallers : (m1.atop (m.advance.frame :: m.callers)).callers =
      m.advance.frame :: m.callers := by
    show m1.callers ++ _ = _
    rw [hc]
    rfl
  have hst : (m1.atop (m.advance.frame :: m.callers)).status = .finishing c := hs
  have hres : (m1.atop (m.advance.frame :: m.callers)).frame.resume = .unit := halike.resume
  have hcontext : (⟨m1.frame.callerEnv, m1.context.this, m1.context.strict⟩ : Context) =
      m.context := by
    rw [henv, hthis, hstrict]
  rw [step_finishing hst, leave_unit c hcallers hres]
  exact congrArg (fun context => Transition.next ⟨_, context, _, _, _⟩) hcontext

/-- A unit with a result is started once and gives its completion. -/
theorem travels_invoked (hr : m.status = .running)
    (hi : m.frame.unit.instructions[m.frame.next]? = some (.invoke id))
    (hu : m.frame.artifact.unit? id = some unit)
    (h : unitResult m.frame.artifact id m.context m.realm = some (c, r)) :
    Travels m.callers.length [⟨id, m.context, m.realm⟩] m
      ⟨r, m.context, m.advance.frame.push (.completion c), m.callers, .running⟩ := by
  rw [unitResult_eq (start_bodyFrame hu), Frame.result_eq_some] at h
  obtain ⟨n, context', hn⟩ := h
  obtain ⟨m1, ⟨k, hk⟩, hc, hs, rfl⟩ := reaches_last hn
  have hdepth : m.callers.length < (m.advance.frame :: m.callers).length := Nat.lt_succ_self _
  have habove : Travels m.callers.length []
      ((m.started unit).atop (m.advance.frame :: m.callers))
      (m1.atop (m.advance.frame :: m.callers)) :=
    way_atop hk hdepth
  have hquiet : (m1.atop (m.advance.frame :: m.callers)).visit? m.callers.length = none :=
    visit?_finishing hs
  have hback : Travels m.callers.length [] (m1.atop (m.advance.frame :: m.callers)) _ :=
    Way.step hquiet (step_started hu ⟨k, hk⟩ hc hs)
  exact (travels_started hr hi hu).trans (habove.trans hback)

theorem started_stays (hu : m.frame.artifact.unit? id = some unit)
    (h : unitResult m.frame.artifact id m.context m.realm = none) {n : Nat} {m' : Machine}
    (hn : run n ((m.started unit).atop (m.advance.frame :: m.callers)) = .exhausted m') :
    ∃ frames, m'.callers = frames ++ m.advance.frame :: m.callers := by
  rw [unitResult_eq (start_bodyFrame hu)] at h
  rcases run_atop_cases hn with ⟨m1, -, rfl⟩ | ⟨k, m1, c, m2, -, hk, hc, hs, -⟩
  · exact ⟨m1.callers, rfl⟩
  · have hends := ends_of_reaches ⟨k, hk⟩ hc hs
    rw [← Frame.result_eq_some] at hends
    cases h.symm.trans hends

end Machine
end TreeScript
