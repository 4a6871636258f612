import TreeScript.Proofs.Machine.Effect
import TreeScript.Proofs.Machine.Reach
import TreeScript.Proofs.Realm.Bindings

/-!
# Scopes of the machine

How a machine comes from one environment to another.  Most instructions stay in the environment they
are run in.  A catch scope is opened inside the environment at hand and is left to the same one.
A unit works in the environment of the frame that runs it, a function in a new one, and when a frame
ends the one below is back in its own.  `Machine.Shifts` has a case for each, and `shifts_step` says
that a step is nothing else.
-/

namespace TreeScript

open Code Realm

namespace Machine

variable {m1 m m' : Machine}

/-- From `m` to `m'` the running frame worked in its environment, and may have jumped. -/
structure Level (m m' : Machine) : Prop where
  realm : m.realm.Retains m'.realm
  env : m'.context.env = m.context.env
  frame : m.frame.Alike m'.frame
  scopes : m'.frame.scopes = m.frame.scopes
  callers : m'.callers = m.callers

theorem Level.trans {m2 m3 : Machine} (h : Level m1 m2) (h' : Level m2 m3) : Level m1 m3 where
  realm := h.realm.trans h'.realm
  env := h'.env.trans h.env
  frame := h.frame.trans h'.frame
  scopes := h'.scopes.trans h.scopes
  callers := h'.callers.trans h.callers

theorem Local.level (h : Local jumps m m') : Level m m' :=
  ⟨h.realm.retains, h.env, h.frame, h.scopes, h.callers⟩

/-! ## From one environment to another -/

/-- From `m` to `m'` a machine has come from one environment to another, in one of these ways. -/
inductive Shifts (m m' : Machine) : Prop where
  | stays : Level m m' → Shifts m m'
  | opens :
    m.realm.Retains m'.realm → m.frame.Alike m'.frame → m'.callers = m.callers →
    m'.frame.scopes = m.context.env :: m.frame.scopes → m'.realm.HasEnv m'.context.env →
    (m'.realm.env m'.context.env).outer = some m.context.env → Shifts m m'
  | closes :
    m.realm.Retains m'.realm → m.frame.Alike m'.frame → m'.callers = m.callers →
    m.frame.scopes = m'.context.env :: m'.frame.scopes → Shifts m m'
  /-- A frame is put on top: a unit goes on in the same environment, a function in a new one. -/
  | enters {below : Frame} :
    m.realm.Retains m'.realm → m.frame.Alike below → below.scopes = m.frame.scopes →
    m'.callers = below :: m.callers → m'.frame.scopes = [] → m'.frame.next = 0 →
    m'.frame.callerEnv = m.context.env → m'.status = .running →
    (m'.frame.resume = .unit → m'.context.env = m.context.env) →
    (m'.frame.resume ≠ .unit → m.realm.environments.size ≤ m'.context.env.index) → Shifts m m'
  | leaves {caller : Frame} :
    m.realm.Retains m'.realm → m.callers = caller :: m'.callers → caller.Alike m'.frame →
    m'.frame.scopes = caller.scopes → m'.context.env = m.frame.callerEnv → Shifts m m'

theorem Shifts.after (hs : Shifts m1 m') (h : Level m m1) : Shifts m m' := by
  have henv := h.env
  cases hs with
  | stays hl => exact .stays (h.trans hl)
  | opens hr hf hc hscopes hhas houter =>
    refine .opens (h.realm.trans hr) (h.frame.trans hf) (hc.trans h.callers) ?_ hhas ?_
    · rw [hscopes, henv, h.scopes]
    · rw [houter, henv]
  | closes hr hf hc hscopes =>
    exact .closes (h.realm.trans hr) (h.frame.trans hf) (hc.trans h.callers)
      (h.scopes.symm.trans hscopes)
  | enters hr hf hscopes hc hnew hnext hcaller hstatus hunit hcall =>
    refine .enters (h.realm.trans hr) (h.frame.trans hf) (hscopes.trans h.scopes) ?_ hnew hnext
      (hcaller.trans henv) hstatus (fun hu => (hunit hu).trans henv)
      fun hu => Nat.le_trans h.realm.size (hcall hu)
    rw [hc, h.callers]
  | leaves hr hc hf hscopes henv' =>
    refine .leaves (h.realm.trans hr) (h.callers.symm.trans hc) hf hscopes ?_
    rw [henv', h.frame.callerEnv]

/-- What a computation does to the environment of the machine. -/
def Shifting (x : Exec Unit) : Prop :=
  ∀ m, match x m with
    | .ok _ m' => Shifts m m'
    | .error _ m' => Level m m'

/-! ## Instructions -/

theorem shifts_callsInto (h : CallsInto m m') : Shifts m m' := by
  obtain ⟨hl, -, hs, -, hr⟩ := h
  obtain ⟨u, -, rfl⟩ := start_ok_iff.mp hs
  have hdepth (r : Realm) : r.Retains { r with callDepth := r.callDepth + 1 } :=
    retains_of_environments rfl
  refine .enters (((hl.realm.retains.trans (hdepth _)).trans (hr fun _ => True).retains).trans
    (rebinds_countRun _ _).retains) hl.frame hl.scopes ?_ rfl rfl hl.env rfl nofun
    fun _ => hl.realm.retains.size
  exact congrArg _ hl.callers

theorem shifts_enters {i : Instruction} (h : Enters i m m') : Shifts m m' := by
  cases h with
  | unit _ hs =>
    obtain ⟨u, -, rfl⟩ := start_ok_iff.mp hs
    exact .enters (rebinds_countRun _ _).retains (.refl _) rfl rfl rfl rfl rfl rfl (fun _ => rfl)
      fun hu => absurd rfl hu
  | call hc => exact shifts_callsInto hc

theorem shifting_of_effective {E : Machine → Machine → Prop} {x : Exec Unit}
    (h : Effective (Local true) E x) (hE : ∀ {m m'}, E m m' → Shifts m m') : Shifting x := by
  intro m
  rcases h.effect m with hl | ⟨m', he, hm⟩
  · cases hx : x m with
    | ok a m' =>
      rw [hx] at hl
      exact .stays hl.level
    | error e m' =>
      rw [hx] at hl
      exact hl.level
  · rw [he]
    exact hE hm

theorem outer_newScope (outer : EnvRef) (name : String) (v : Value) (r : Realm) :
    let r' := (r.addEnv (some outer)).2.modifyEnv ⟨r.environments.size⟩ (·.bind name v)
    r'.HasEnv ⟨r.environments.size⟩ ∧ (r'.env ⟨r.environments.size⟩).outer = some outer := by
  have hadded : (r.addEnv (some outer)).2.HasEnv ⟨r.environments.size⟩ := by
    show r.environments.size < (r.environments.push _).size
    rw [Array.size_push]
    exact Nat.lt_succ_self _
  constructor
  · unfold HasEnv
    rw [size_modifyEnv]
    exact hadded
  · rw [env_modifyEnv_self hadded, env_addEnv, if_pos rfl]
    rfl

theorem shifting_bind {x : Exec α} {f : α → Exec Unit} (hx : Own true x)
    (hf : ∀ a, Shifting (f a)) : Shifting (x >>= f) := by
  intro m
  have hm := (hx.tame.moves m).level
  cases h : x m with
  | error e m1 =>
    rw [h] at hm
    rw [bind_error h]
    exact hm
  | ok a m1 =>
    rw [h] at hm
    rw [bind_ok h]
    have hrest := hf a m1
    cases hy : f a m1 with
    | ok u m' =>
      rw [hy] at hrest
      exact hrest.after hm
    | error e m' =>
      rw [hy] at hrest
      exact hm.trans hrest

theorem shifting_enterCatch (i : OperandIndex) : Shifting (exec (.enterCatch i)) := by
  refine shifting_bind (own_nameOf i) fun name => shifting_bind own_pop fun v => ?_
  intro m
  have hscope := (rebinds_newScope m.context.env name v m.realm).retains
  obtain ⟨hhas, houter⟩ := outer_newScope m.context.env name v m.realm
  exact .opens hscope ⟨rfl, rfl, rfl, rfl, rfl⟩ rfl rfl hhas houter

theorem shifting_exitScope : Shifting (exec .exitScope) := by
  intro m
  cases hs : m.frame.scopes with
  | nil =>
    have h : exec .exitScope m = .error (.fatal (.scopeUnderflow m.frame.unit.name)) m := by
      rw [exec, get_bind, hs]
      rfl
    rw [h]
    exact ⟨.refl _, rfl, .refl _, rfl, rfl⟩
  | cons env scopes =>
    rw [exec_exitScope hs]
    exact .closes (.refl _) ⟨rfl, rfl, rfl, rfl, rfl⟩ rfl hs

theorem shifting_exec (i : Instruction) : Shifting (exec i) := by
  cases i with
  | invoke id => exact shifting_of_effective (effective_invoke id) shifts_enters
  | enterCatch i => exact shifting_enterCatch i
  | exitScope => exact shifting_exitScope
  | _ => exact shifting_of_effective (effective_plain rfl rfl) shifts_callsInto

/-! ## Steps -/

theorem level_advance (m : Machine) : Level m m.advance :=
  ⟨.refl _, rfl, ⟨rfl, rfl, rfl, rfl, rfl⟩, rfl, rfl⟩

theorem level_throwFault (m : Machine) (fault : Fault) : Level m (m.throwFault fault) :=
  ⟨(steady_materialize (K := fun _ => True) m.realm fault).retains, rfl, .refl _, rfl, rfl⟩

theorem shifts_leave {c : Completion} (h : m.leave c = .next m') : Shifts m m' := by
  obtain ⟨caller, stack, hc, hf, henv, hr⟩ := leave_next h
  refine .leaves ?_ hc (hf ▸ ⟨rfl, rfl, rfl, rfl, rfl⟩) (hf ▸ rfl) henv
  rcases hr with ⟨-, -, hr⟩ | ⟨-, hr⟩ <;> rw [hr]
  · exact .refl _
  · exact retains_of_environments rfl

/-- A step is one of the ways from one environment to another. -/
theorem shifts_step (h : m.step = .next m') : Shifts m m' := by
  cases hs : m.status with
  | finishing c =>
    rw [step_finishing hs] at h
    exact shifts_leave h
  | hanging =>
    rw [step_hanging hs] at h
    cases h
    exact .stays ⟨.refl _, rfl, .refl _, rfl, rfl⟩
  | running =>
    have hexec (i : Instruction) := shifting_exec i m.advance
    have hstep : ∀ m', m.step = .next m' → Shifts m m' := by
      refine step_running (motive := fun t => ∀ m', t = .next m' → Shifts m m') hs ?_ ?_ ?_ ?_ ?_
        ?_
      · rintro c _ _ _ ⟨⟩
        exact .stays ⟨.refl _, rfl, .refl _, rfl, rfl⟩
      · rintro e _ _ _ ⟨⟩
      · rintro i _ _ _ ⟨⟩
        exact .stays ⟨.refl _, rfl, .refl _, rfl, rfl⟩
      · rintro i m1 _ he _ ⟨⟩
        have hm1 := hexec i
        rw [he] at hm1
        exact hm1.after (level_advance m)
      · rintro i fault m1 _ he _ ⟨⟩
        have hm1 := hexec i
        rw [he] at hm1
        exact .stays (((level_advance m).trans hm1).trans (level_throwFault m1 fault))
      · rintro i e m1 _ _ _ ⟨⟩
    exact hstep m' h

theorem Shifts.retains (h : Shifts m m') : m.realm.Retains m'.realm := by
  cases h with
  | stays hl => exact hl.realm
  | opens hr | closes hr | enters hr | leaves hr => exact hr

theorem retains_step (m : Machine) : m.realm.Retains m.step.realm := by
  refine realm_step (R := m.realm.Retains) (.refl _) (retains_of_environments rfl)
    (fun i _ _ => ?_) fun r fault h =>
      h.trans (steady_materialize (K := fun _ => True) r fault).retains
  have hm1 := shifting_exec i m.advance
  cases he : exec i m.advance with
  | ok u m1 =>
    rw [he] at hm1
    exact hm1.retains
  | error e m1 =>
    rw [he] at hm1
    exact hm1.realm

/-! ## Chains of scopes -/

/-- From `env` outward come the scopes that a frame has opened, with the environments to go back to
at the end of each, and then the environment `base` in which it began. -/
inductive Chain (r : Realm) (base : EnvRef) : EnvRef → List EnvRef → Prop where
  | base : Chain r base base []
  | scope {env outer : EnvRef} {scopes : List EnvRef} :
    r.HasEnv env → (r.env env).outer = some outer → Chain r base outer scopes →
    Chain r base env (outer :: scopes)

theorem Chain.mono {r r' : Realm} {base env : EnvRef} {scopes : List EnvRef}
    (h : Chain r base env scopes) (hr : r.Retains r') : Chain r' base env scopes := by
  induction h with
  | base => exact .base
  | scope he ho _ ih =>
    exact .scope (Nat.lt_of_lt_of_le he hr.size) ((hr.outer he).trans ho) ih

/-- A machine is in a call with `depth` frames below that of the function, which began in `base`:
the frame works in a scope opened inside `base`, and each frame of a unit in one opened inside the
environment that the frame below works in. -/
inductive InCall (r : Realm) (base : EnvRef) (depth : Nat) :
    EnvRef → Frame → List Frame → Prop where
  | function {env : EnvRef} {f : Frame} {callers : List Frame} :
    callers.length = depth → Chain r base env f.scopes → InCall r base depth env f callers
  | unit {env : EnvRef} {f caller : Frame} {callers : List Frame} :
    f.resume = .unit → Chain r f.callerEnv env f.scopes →
    InCall r base depth f.callerEnv caller callers → InCall r base depth env f (caller :: callers)
  | call {env : EnvRef} {f caller : Frame} {callers : List Frame} :
    f.resume ≠ .unit → InCall r base depth f.callerEnv caller callers →
    InCall r base depth env f (caller :: callers)

namespace InCall

variable {r r' : Realm} {base env : EnvRef} {depth : Nat} {f f' : Frame} {callers : List Frame}

theorem mono (h : InCall r base depth env f callers) (hr : r.Retains r') :
    InCall r' base depth env f callers := by
  induction h with
  | function hd hc => exact .function hd (hc.mono hr)
  | unit hf hc _ ih => exact .unit hf (hc.mono hr) ih
  | call hf _ ih => exact .call hf ih

theorem depth_le (h : InCall r base depth env f callers) : depth ≤ callers.length := by
  induction h with
  | function hd _ => exact Nat.le_of_eq hd.symm
  | unit _ _ _ ih | call _ _ ih => exact Nat.le_succ_of_le ih

theorem rescope (h : InCall r base depth env f callers) (hf : f.Alike f') {env' : EnvRef}
    (hc : ∀ {b}, Chain r b env f.scopes → Chain r b env' f'.scopes) :
    InCall r base depth env' f' callers := by
  cases h with
  | function hd hchain => exact .function hd (hc hchain)
  | unit hunit hchain hrest =>
    rw [← hf.callerEnv] at hchain hrest
    exact .unit (hf.resume.trans hunit) (hc hchain) hrest
  | call hcall hrest =>
    rw [← hf.callerEnv] at hrest
    exact .call (by rwa [hf.resume]) hrest

theorem alike (h : InCall r base depth env f callers) (hf : f.Alike f')
    (hs : f'.scopes = f.scopes) : InCall r base depth env f' callers :=
  h.rescope hf fun hc => by rwa [hs]

theorem shifts {m m' : Machine}
    (h : InCall m.realm base depth m.context.env m.frame m.callers) (hs : Shifts m m')
    (hd : depth ≤ m'.callers.length) :
    InCall m'.realm base depth m'.context.env m'.frame m'.callers := by
  have h := h.mono hs.retains
  cases hs with
  | stays hl =>
    rw [hl.env, hl.callers]
    exact h.alike hl.frame hl.scopes
  | opens _ hf hc hscopes hhas houter =>
    rw [hc]
    refine h.rescope hf fun hchain => ?_
    rw [hscopes]
    exact .scope hhas houter hchain
  | closes _ hf hc hscopes =>
    rw [hc]
    refine h.rescope hf fun hchain => ?_
    rw [hscopes] at hchain
    cases hchain with
    | scope _ _ hrest => exact hrest
  | enters _ hf hscopes hc hnew _ hcaller _ hunit _ =>
    have hbelow := h.alike hf hscopes
    rw [← hcaller] at hbelow
    rw [hc]
    by_cases hu : m'.frame.resume = .unit
    · refine .unit hu ?_ hbelow
      rw [hunit hu, hnew, hcaller]
      exact .base
    · exact .call hu hbelow
  | leaves _ hc hf hscopes henv =>
    rw [hc] at h
    rw [henv]
    cases h with
    | function hlength _ =>
      rw [List.length_cons] at hlength
      omega
    | unit _ _ hrest | call _ hrest => exact hrest.alike hf hscopes

end InCall

end Machine

end TreeScript
