import TreeScript.Proofs.Machine.Guarded

/-!
# Steps of founded machines

No instruction makes up a handle, so every step of every machine keeps it founded, whatever the code
is.
-/

namespace TreeScript

open Code Realm Upkeep

namespace Machine

variable {m : Machine} {r : Realm} {c : Completion}

theorem Founded.advance (h : m.Founded) : m.advance.Founded :=
  h.withFrame ⟨h.frame.stack, h.frame.temps, h.frame.scopes, h.frame.callerEnv, h.frame.resume⟩

theorem Founded.throwFault (h : m.Founded) {fault : Fault} (hf : m.realm.Throws fault) :
    (m.throwFault fault).Founded := by
  have hg : Grows m.realm (m.realm.materialize fault).2 :=
    (steady_materialize (K := fun _ => True) m.realm fault).toGrows
  have hnew : (m.realm.materialize fault).2.Founded ∧
      (m.realm.materialize fault).2.Inside (m.realm.materialize fault).1 := by
    cases fault with
    | value v => exact ⟨h.realm, hf⟩
    | error kind message => exact ⟨h.realm.newError _ _, inside_addObject _ _⟩
  have hm := h.withRealm hg hnew.1
  refine ⟨hm.realm, hm.env, hm.this, hm.frame, hm.callers, fun c hc => ?_⟩
  cases hc
  exact ends_of_value rfl hnew.2

/-- What a step leaves of a founded machine: a founded machine, or a founded realm with a context
inside. -/
def Settles : Transition → Prop
  | .next m => m.Founded
  | .halt result r context => context.Inside r ∧ ∀ c, result = .ok c → r.Ends c

theorem Founded.exitCall (h : r.Founded) : r.exitCall.Founded := h.of_same rfl rfl

theorem inside_callResult {constructed : Option Value} (hc : r.Ends c)
    (ho : ∀ v, constructed = some v → r.Inside v) :
    match CallResult.ofCompletion c constructed with
    | .value v | .thrown v => r.Inside v
    | .escaped _ => True := by
  unfold CallResult.ofCompletion
  have hvalue : r.Inside c.valueOrUndefined := hc.valueOrUndefined
  cases c.kind with
  | «return» | normal =>
    cases constructed with
    | none => first | exact hvalue | trivial
    | some object =>
      dsimp only
      split
      · first | exact hvalue | trivial
      · exact ho object rfl
  | throw => exact hvalue
  | «break» | «continue» => trivial

theorem settles_leave (h : m.Founded) (hc : m.realm.Ends c) :
    Settles (m.leave c) := by
  cases hcallers : m.callers with
  | nil =>
    rw [leave_root c hcallers]
    refine ⟨⟨h.realm, h.frame.callerEnv, h.this⟩, fun c' hc' => ?_⟩
    cases hc'
    exact hc
  | cons caller callers =>
    have hall := h.callers
    rw [hcallers] at hall
    obtain ⟨hcaller, hrest⟩ := List.forall_mem_cons.mp hall
    cases hresume : m.frame.resume with
    | unit =>
      rw [leave_unit c hcallers hresume]
      exact ⟨h.realm, h.frame.callerEnv, h.this, hcaller.push hc, hrest, fun _ h => nomatch h⟩
    | call this strict constructed =>
      have hr := h.frame.resume
      rw [hresume] at hr
      obtain ⟨hthis, hconstructed⟩ := hr
      have hg := grows_exitCall m.realm
      have hrealm := Founded.exitCall h.realm
      have hresult := inside_callResult hc hconstructed
      rw [leave_call c hcallers hresume]
      split
      · next v hv =>
        refine ⟨hrealm, h.frame.callerEnv.mono hg.environments, hthis.mono hg.objects,
          (hcaller.mono hg).push ?_, fun f hf => (hrest f hf).mono hg, fun _ h => nomatch h⟩
        rw [hv] at hresult
        exact Inside.mono hresult hg.objects
      · next v hv =>
        refine ⟨hrealm, h.frame.callerEnv.mono hg.environments, hthis.mono hg.objects,
          hcaller.mono hg, fun f hf => (hrest f hf).mono hg, fun c hc => ?_⟩
        cases hc
        rw [hv] at hresult
        exact ends_of_value rfl (Inside.mono hresult hg.objects)
      · exact ⟨⟨hrealm, h.frame.callerEnv.mono hg.environments, hthis.mono hg.objects⟩,
          fun _ h => nomatch h⟩

theorem settles_step (h : m.Founded) : Settles m.step := by
  cases hstatus : m.status with
  | finishing c =>
    rw [step_finishing hstatus]
    exact settles_leave h (h.status c hstatus)
  | hanging =>
    rw [step_hanging hstatus]
    exact h
  | running =>
    have hexec := keeps_exec h.advance
    unfold Sustains at hexec
    refine step_running (motive := Settles) hstatus ?_ ?_ ?_ ?_ ?_ ?_
    · intro c _ hfinish
      refine ⟨h.realm, h.env, h.this, h.frame, h.callers, fun c' hc' => ?_⟩
      cases hc'
      unfold Frame.finish at hfinish
      split at hfinish
      · next hstack =>
        cases hfinish
        exact h.frame.stack (.completion c) (hstack ▸ List.mem_cons_self)
      · cases hfinish
    · exact fun e _ _ => ⟨⟨h.realm, h.env, h.this⟩, fun _ h => nomatch h⟩
    · exact fun i _ _ => ⟨h.realm, h.env, h.this, h.frame, h.callers, fun _ hc => nomatch hc⟩
    · intro i m' _ he
      have hk := hexec i
      rw [he] at hk
      exact hk.2.1
    · intro i fault m' _ he
      have hk := hexec i
      rw [he] at hk
      exact hk.2.1.throwFault hk.2.2
    · intro i e m' _ he
      have hk := hexec i
      rw [he] at hk
      exact ⟨⟨hk.2.1.realm, hk.2.1.env, hk.2.1.this⟩, fun _ h => nomatch h⟩

theorem Founded.next (h : m.Founded) {m' : Machine} (hs : m.step = .next m') : m'.Founded := by
  have hsettles := settles_step h
  rw [hs] at hsettles
  exact hsettles

end Machine

theorem Frame.founded_start {a : Artifact} {id : UnitId} {r : Realm} {context : Context} {f : Frame}
    (h : context.Inside r) (hs : Frame.start a id context.env .unit = .ok f) :
    Machine.Founded { realm := r.countRun f.unit.name, context, frame := f } := by
  have hg := Machine.grows_countRun r f.unit.name
  exact ⟨Machine.founded_countRun h.realm _, h.env.mono hg.environments, h.this.mono hg.objects,
    Frame.inside_start hs (h.env.mono hg.environments) trivial, List.forall_mem_nil _,
    fun _ h => nomatch h⟩

section

variable {fuel : Nat} {a : Artifact} {id : UnitId} {r : Realm} {context : Context}

theorem founded_of_invoke {m : Machine} (h : context.Inside r)
    (hm : invoke fuel a id r context = .exhausted m) : m.Founded := by
  obtain ⟨frame, hs, hrun⟩ := run_of_invoke hm
  exact Machine.run_exhausted (P := Machine.Founded) (fun hm hs => hm.next hs)
    (Frame.founded_start h hs) hrun

theorem inside_of_invoke {result : Except MachineError Completion} {r' : Realm} {context' : Context}
    (h : context.Inside r) (hm : invoke fuel a id r context = .halted result r' context') :
    context'.Inside r' ∧ ∀ c, result = .ok c → r'.Ends c := by
  -- The realm only grows, so a context from before the run is still inside after it.
  refine halted_of_invoke (P := fun m => Grows r m.realm ∧ m.Founded)
    (Q := fun result r' context' =>
      Grows r r' ∧ context'.Inside r' ∧ ∀ c, result = .ok c → r'.Ends c)
    (S := fun result r' context' => context'.Inside r' ∧ ∀ c, result = .ok c → r'.Ends c)
    (fun {m m'} hm hstep => ?_) (fun {m result r' context'} hm hstep => ?_)
    (fun _ hs => ⟨Machine.grows_countRun r _, Frame.founded_start h hs⟩)
    (fun _ _ => ⟨h, fun _ h => nomatch h⟩) (fun hh => ?_) (fun hh => hh.2) hm
  · have hsettles := Machine.settles_step hm.2
    have hg := m.grows_step
    rw [hstep] at hsettles hg
    exact ⟨hm.1.trans hg, hsettles⟩
  · have hsettles := Machine.settles_step hm.2
    have hg := m.grows_step
    rw [hstep] at hsettles hg
    exact ⟨hm.1.trans hg, hsettles⟩
  · obtain ⟨hg, hin, -⟩ := hh
    exact ⟨⟨hin.realm.of_same rfl rfl, h.env.mono hg.environments, h.this.mono hg.objects⟩,
      fun _ h => nomatch h⟩

end

end TreeScript
