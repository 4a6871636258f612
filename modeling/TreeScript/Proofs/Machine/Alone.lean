import TreeScript.Proofs.Machine.Effect
import TreeScript.Proofs.Machine.Reach

/-!
# Frames by themselves

Until it is left, a frame runs as it would with no frames below it.  So what a call gives can be
told from the frame of the callee alone: `Frame.result` is how that frame ends by itself, and the
caller goes on from there.
-/

namespace TreeScript

open Code

namespace Machine

variable {m m' m1 : Machine} {below : List Frame} {n : Nat} {r r' : Realm}
  {context context' : Context} {result : Except MachineError Completion} {c : Completion}

/-! ## Runs put together -/

theorem run_succ_next (h : m.step = .next m') (n : Nat) : run (n + 1) m = run n m' := by
  simp only [run, h]

theorem run_succ_halt (h : m.step = .halt result r context) (n : Nat) :
    run (n + 1) m = .halted result r context := by
  simp only [run, h]

theorem step_of_exhausted (h : run (n + 1) m = .exhausted m') :
    ∃ m1, m.step = .next m1 ∧ run n m1 = .exhausted m' := by
  cases hs : m.step with
  | next m1 =>
    rw [run_succ_next hs] at h
    exact ⟨m1, rfl, h⟩
  | halt result r context =>
    rw [run_succ_halt hs] at h
    cases h

theorem run_hanging (h : m.status = .hanging) (n : Nat) : run n m = .exhausted m := by
  induction n with
  | zero => rfl
  | succ n ih => rw [run_succ_next (step_hanging h), ih]

theorem run_add (h : run n m = .exhausted m') (k : Nat) : run (n + k) m = run k m' := by
  induction n generalizing m with
  | zero =>
    cases h
    rw [Nat.zero_add]
  | succ n ih =>
    obtain ⟨m1, hs, h⟩ := step_of_exhausted h
    rw [Nat.add_right_comm, run_succ_next hs, ih h]

theorem run_add_halted (h : run n m = .halted result r context) (k : Nat) :
    run (n + k) m = .halted result r context := by
  induction n generalizing m with
  | zero => cases h
  | succ n ih =>
    rw [Nat.add_right_comm]
    cases hs : m.step with
    | next m1 =>
      rw [run_succ_next hs] at h ⊢
      exact ih h
    | halt result' r' context' =>
      rw [run_succ_halt hs] at h ⊢
      exact h

theorem run_halted_unique {k : Nat} {result' : Except MachineError Completion}
    (h : run n m = .halted result r context) (h' : run k m = .halted result' r' context') :
    result = result' ∧ r = r' ∧ context = context' := by
  have hn := run_add_halted h k
  have hk := run_add_halted h' n
  rw [Nat.add_comm, hk] at hn
  cases hn
  exact ⟨rfl, rfl, rfl⟩

/-- The machine comes from `m` to `m'`. -/
def Reaches (m m' : Machine) : Prop := ∃ n, run n m = .exhausted m'

theorem Reaches.refl (m : Machine) : m.Reaches m := ⟨0, rfl⟩

theorem Reaches.trans (h : m.Reaches m1) (h' : m1.Reaches m') : m.Reaches m' := by
  obtain ⟨n, hn⟩ := h
  obtain ⟨k, hk⟩ := h'
  exact ⟨n + k, (run_add hn k).trans hk⟩

theorem reaches_of_step (h : m.step = .next m') : m.Reaches m' := ⟨1, run_succ_next h 0⟩

/-! ## Steps over other frames -/

def transitionAtop (below : List Frame) : Transition → Transition
  | .next m => .next (m.atop below)
  | .halt result r context => .halt result r context

theorem leave_atop (c : Completion) (h : m.callers ≠ []) :
    (m.atop below).leave c = transitionAtop below (m.leave c) := by
  obtain ⟨realm, context, frame, callers, status⟩ := m
  cases callers with
  | nil => exact absurd rfl h
  | cons caller callers =>
    cases hr : frame.resume with
    | unit =>
      rw [leave_unit c rfl hr, leave_unit c rfl hr]
      rfl
    | call this strict constructed =>
      rw [leave_call c rfl hr, leave_call c rfl hr]
      cases CallResult.ofCompletion c constructed <;> rfl

theorem proceed_atop (m : Machine) (below : List Frame) :
    (m.atop below).proceed = transitionAtop below m.proceed := by
  unfold proceed
  have hf : (m.atop below).frame = m.frame := rfl
  have ha : (m.atop below).advance = m.advance.atop below := rfl
  rw [hf, ha]
  cases m.frame.unit.instructions[m.frame.next]? with
  | none => cases m.frame.finish <;> rfl
  | some i =>
    have hh : (m.atop below).hangs i = m.hangs i := rfl
    dsimp only
    rw [(effective_exec i).blind, hh]
    split
    · rfl
    · cases exec i m.advance with
      | ok u m' => rfl
      | error e m' => cases e <;> rfl

theorem step_atop (m : Machine) (below : List Frame) :
    (∃ c, m.callers = [] ∧ m.status = .finishing c) ∨
      (m.atop below).step = transitionAtop below m.step := by
  have hs : (m.atop below).status = m.status := rfl
  unfold step
  rw [hs]
  cases m.status with
  | running => exact .inr (proceed_atop m below)
  | hanging => exact .inr rfl
  | finishing c =>
    by_cases hc : m.callers = []
    · exact .inl ⟨c, hc, rfl⟩
    · exact .inr (leave_atop c hc)

theorem step_last (hc : m.callers = []) (hs : m.status = .finishing c) :
    m.step = .halt (.ok c) m.realm { m.context with env := m.frame.callerEnv } :=
  (step_finishing hs).trans (leave_root c hc)

theorem run_atop_rel {R : Nat → Machine → Machine → Prop} (refl : ∀ m, R 0 m m)
    (step : ∀ {n m m1 m'}, below.length ≤ m.callers.length → m.step = .next m1 → R n m1 m' →
      R (n + 1) m m') (h : run n m = .exhausted m') : R n (m.atop below) (m'.atop below) := by
  induction n generalizing m with
  | zero =>
    cases h
    exact refl _
  | succ n ih =>
    obtain ⟨m1, hs, h⟩ := step_of_exhausted h
    rcases step_atop m below with ⟨c, hc, hst⟩ | ho
    · rw [step_last hc hst] at hs
      cases hs
    · rw [hs] at ho
      refine step ?_ ho (ih h)
      show below.length ≤ (m.callers ++ below).length
      rw [List.length_append]
      omega

theorem run_atop (h : run n m = .exhausted m') :
    run n (m.atop below) = .exhausted (m'.atop below) :=
  run_atop_rel (R := fun n m m' => run n m = .exhausted m') (fun _ => rfl)
    (fun _ hs h => (run_succ_next hs _).trans h) h

theorem run_atop_cases (h : run n (m.atop below) = .exhausted m') :
    (∃ m1, run n m = .exhausted m1 ∧ m' = m1.atop below) ∨
      ∃ k m1 c m2, k < n ∧ run k m = .exhausted m1 ∧ m1.callers = [] ∧ m1.status = .finishing c ∧
        (m1.atop below).step = .next m2 := by
  induction n generalizing m with
  | zero =>
    cases h
    exact .inl ⟨m, rfl, rfl⟩
  | succ n ih =>
    obtain ⟨m2, hs, h⟩ := step_of_exhausted h
    rcases step_atop m below with ⟨c, hc, hst⟩ | ho
    · exact .inr ⟨0, m, c, m2, Nat.succ_pos n, rfl, hc, hst, hs⟩
    rw [hs] at ho
    cases hm : m.step with
    | halt result r context =>
      rw [hm] at ho
      cases ho
    | next m1 =>
      rw [hm] at ho
      cases ho
      rcases ih h with ⟨m2, hm2, rfl⟩ | ⟨k, m2, c, m3, hk, hm2, hrest⟩
      · exact .inl ⟨m2, (run_succ_next hm n).trans hm2, rfl⟩
      · exact .inr ⟨k + 1, m2, c, m3, Nat.succ_lt_succ hk, (run_succ_next hm k).trans hm2, hrest⟩

/-! ## The last frame -/

/-- The last frame of a stack is the one that a run began with. -/
def Rooted (f : Frame) (frames : List Frame) : Prop := ∃ g, frames.getLast? = some g ∧ f.Alike g

section

variable {f g g' : Frame} {frames : List Frame}

theorem Rooted.cons (h : Rooted f frames) (g : Frame) : Rooted f (g :: frames) := by
  cases frames with
  | nil =>
    obtain ⟨_, h, -⟩ := h
    cases h
  | cons g' frames =>
    unfold Rooted
    exact h

theorem Rooted.tail (h : Rooted f (g :: g' :: frames)) : Rooted f (g' :: frames) := by
  unfold Rooted at h
  exact h

theorem Rooted.alike (h : Rooted f (g :: frames)) (hg : g.Alike g') : Rooted f (g' :: frames) := by
  cases frames with
  | nil =>
    obtain ⟨_, hl, hf⟩ := h
    cases hl
    exact ⟨g', rfl, hf.trans hg⟩
  | cons g'' frames => exact h.tail.cons g'

end

theorem rooted_enters {f : Frame} {i : Instruction} (h : Rooted f (m.frame :: m.callers))
    (he : Enters i m m') : Rooted f (m'.frame :: m'.callers) := by
  cases he with
  | unit _ _ => exact h.cons _
  | call hc =>
    obtain @⟨m1, _, _, _, _, _, hl, -, -, -, -⟩ := hc
    have h1 : Rooted f (m1.frame :: m1.callers) := by
      rw [hl.callers]
      exact h.alike hl.frame
    exact h1.cons _

theorem rooted_step {f : Frame} (h : Rooted f (m.frame :: m.callers)) (hs : m.step = .next m') :
    Rooted f (m'.frame :: m'.callers) := by
  refine step_next (P := fun m => Rooted f (m.frame :: m.callers)) hs (fun c hl => ?_) (fun _ => h)
    (fun i _ => ?_) fun _ _ h => h
  · obtain ⟨caller, stack, hc, hf, -⟩ := leave_next hl
    rw [hc] at h
    exact h.tail.alike (hf ▸ ⟨rfl, rfl, rfl, rfl, rfl⟩)
  · have ha : Rooted f (m.advance.frame :: m.advance.callers) := h.alike ⟨rfl, rfl, rfl, rfl, rfl⟩
    refine exec_preserves (P := fun m => Rooted f (m.frame :: m.callers)) (fun hl => ?_)
      (rooted_enters ha)
    rw [hl.callers]
    exact ha.alike hl.frame

end Machine

/-! ## Results -/

open Machine

/-- A frame that runs by itself ends with `c` and leaves the realm as `r'`. -/
def Frame.Ends (f : Frame) (context : Context) (r : Realm) (c : Completion) (r' : Realm) : Prop :=
  ∃ n context', run n { realm := r, context, frame := f } = .halted (.ok c) r' context'

open Classical in
/-- What running a frame by itself gives: how it ends, and the realm that it leaves.  There is
nothing if the run goes on for ever or fails. -/
noncomputable def Frame.result (f : Frame) (context : Context) (r : Realm) :
    Option (Completion × Realm) :=
  if h : ∃ out : Completion × Realm, f.Ends context r out.1 out.2 then some h.choose else none

section

variable {f : Frame} {m : Machine} {context : Context} {r r' : Realm} {c : Completion}

theorem Frame.Ends.unique {c' : Completion} {r'' : Realm} (h : f.Ends context r c r')
    (h' : f.Ends context r c' r'') : c = c' ∧ r' = r'' := by
  obtain ⟨n, context', hn⟩ := h
  obtain ⟨k, context'', hk⟩ := h'
  obtain ⟨hc, hr, -⟩ := run_halted_unique hn hk
  cases hc
  exact ⟨rfl, hr⟩

theorem Frame.result_eq_some : f.result context r = some (c, r') ↔ f.Ends context r c r' := by
  unfold Frame.result
  constructor
  · intro h
    split at h
    · next hex =>
      have hends := hex.choose_spec
      rw [Option.some.inj h] at hends
      exact hends
    · cases h
  · intro h
    have hex : ∃ out : Completion × Realm, f.Ends context r out.1 out.2 := ⟨(c, r'), h⟩
    rw [dif_pos hex]
    obtain ⟨hc, hr⟩ := hex.choose_spec.unique h
    exact congrArg some (Prod.ext hc hr)

theorem ends_of_reaches (h : Reaches { realm := r, context, frame := f } m) (hc : m.callers = [])
    (hs : m.status = .finishing c) : f.Ends context r c m.realm := by
  obtain ⟨n, hn⟩ := h
  refine ⟨n + 1, { m.context with env := m.frame.callerEnv }, ?_⟩
  rw [run_add hn, run_succ_halt (step_last hc hs)]

theorem step_halt_ok {context' : Context} (h : m.step = .halt (.ok c) r context') :
    m.callers = [] ∧ m.status = .finishing c ∧ m.realm = r := by
  cases hs : m.status with
  | running =>
    revert h
    refine step_running (motive := fun t => t = .halt (.ok c) r context' → _) hs
      (fun _ _ _ h => ?_) (fun _ _ _ h => ?_) (fun _ _ _ h => ?_) (fun _ _ _ _ h => ?_)
      (fun _ _ _ _ _ h => ?_) (fun _ _ _ _ _ h => ?_) <;> cases h
  | hanging =>
    rw [step_hanging hs] at h
    cases h
  | finishing c' =>
    rw [step_finishing hs] at h
    cases hc : m.callers with
    | nil =>
      rw [leave_root c' hc] at h
      cases h
      exact ⟨rfl, rfl, rfl⟩
    | cons caller callers =>
      cases hr : m.frame.resume with
      | unit =>
        rw [leave_unit c' hc hr] at h
        cases h
      | call this strict constructed =>
        rw [leave_call c' hc hr] at h
        cases hres : CallResult.ofCompletion c' constructed <;> (rw [hres] at h; cases h)

theorem reaches_last {n : Nat} {context' : Context} (h : run n m = .halted (.ok c) r context') :
    ∃ m1, m.Reaches m1 ∧ m1.callers = [] ∧ m1.status = .finishing c ∧ m1.realm = r := by
  induction n generalizing m with
  | zero => cases h
  | succ n ih =>
    cases hs : m.step with
    | next m' =>
      rw [run_succ_next hs] at h
      obtain ⟨m1, hm, hlast⟩ := ih h
      exact ⟨m1, (reaches_of_step hs).trans hm, hlast⟩
    | halt result r' context'' =>
      rw [run_succ_halt hs] at h
      cases h
      exact ⟨m, .refl m, step_halt_ok hs⟩

end

/-! ## Calls -/

section

variable {m : Machine} {callee : Frame} {env : EnvRef} {this : Value} {strict : Bool}
  {constructed : Option Value} {r r' : Realm} {c : Completion}

/-- How a caller goes on when its callee has ended. -/
def Machine.afterCall (m : Machine) (callee : Frame) (constructed : Option Value) (c : Completion)
    (r : Realm) : Transition :=
  match CallResult.ofCompletion c constructed with
  | .value v => .next ⟨r.exitCall, m.context, m.frame.push (.value v), m.callers, .running⟩
  | .thrown v => .next ⟨r.exitCall, m.context, m.frame, m.callers, .finishing (.throwing v)⟩
  | .escaped kind => .halt (.error (.escapedCompletion kind callee.unit.name)) r.exitCall m.context

theorem alike_of_reaches {context : Context} {m1 : Machine}
    (hm : Reaches { realm := r, context, frame := callee } m1) (hc : m1.callers = []) :
    callee.Alike m1.frame := by
  obtain ⟨n, hn⟩ := hm
  have hrooted : Rooted callee (m1.frame :: m1.callers) :=
    run_exhausted (P := fun m => Rooted callee (m.frame :: m.callers)) rooted_step
      ⟨callee, rfl, .refl callee⟩ hn
  rw [hc] at hrooted
  obtain ⟨_, hlast, halike⟩ := hrooted
  cases hlast
  exact halike

theorem step_called (hr : callee.resume = .call m.context.this m.context.strict constructed)
    (he : callee.callerEnv = m.context.env) {m1 : Machine}
    (hm : Reaches { realm := r, context := ⟨env, this, strict⟩, frame := callee } m1)
    (hc : m1.callers = []) (hs : m1.status = .finishing c) :
    (m1.atop (m.frame :: m.callers)).step = m.afterCall callee constructed c m1.realm := by
  have halike := alike_of_reaches hm hc
  have hcallers : (m1.atop (m.frame :: m.callers)).callers = m.frame :: m.callers := by
    show m1.callers ++ _ = _
    rw [hc]
    rfl
  have hres : (m1.atop (m.frame :: m.callers)).frame.resume =
      .call m.context.this m.context.strict constructed := halike.resume.trans hr
  have henv : (m1.atop (m.frame :: m.callers)).frame.callerEnv = m.context.env :=
    halike.callerEnv.trans he
  have hunit : (m1.atop (m.frame :: m.callers)).frame.unit = callee.unit := halike.unit
  have hst : (m1.atop (m.frame :: m.callers)).status = .finishing c := hs
  rw [step_finishing hst, leave_call c hcallers hres, henv, hunit]
  unfold afterCall
  cases CallResult.ofCompletion c constructed <;> rfl

/-- A call whose callee has no result, or ends with a jump, never comes back. -/
theorem called_stays (hr : callee.resume = .call m.context.this m.context.strict constructed)
    (he : callee.callerEnv = m.context.env)
    (h : ∀ c r', callee.Ends ⟨env, this, strict⟩ (r.countRun callee.unit.name) c r' →
      ∃ kind, CallResult.ofCompletion c constructed = .escaped kind) {n : Nat} {m' : Machine}
    (hn : run n (m.called r env this strict callee) = .exhausted m') :
    ∃ frames, m'.callers = frames ++ m.frame :: m.callers := by
  rcases run_atop_cases
    (m := ⟨r.countRun callee.unit.name, ⟨env, this, strict⟩, callee, [], .running⟩) hn with
    ⟨m1, -, rfl⟩ | ⟨k, m1, c, m2, -, hk, hc, hs, hstep⟩
  · exact ⟨m1.callers, rfl⟩
  · obtain ⟨kind, hkind⟩ := h c m1.realm (ends_of_reaches ⟨k, hk⟩ hc hs)
    rw [step_called hr he ⟨k, hk⟩ hc hs] at hstep
    unfold afterCall at hstep
    rw [hkind] at hstep
    cases hstep

end

end TreeScript
