import TreeScript.Proofs.Machine.Safety
import TreeScript.Proofs.Machine.Visits

/-!
# Stretches of code

A frame that runs a stretch of its code comes to the end of it, or ends before with a throw, or is
never done with it.  `Machine.Treads` tells where the instructions stand that the frame runs on the
way.  Units and functions that it starts meanwhile run on top of it, and what they do is not
counted: a unit ends as its own code says, and of a function nothing is known.
-/

namespace TreeScript

open Code Lowering

namespace Machine

variable {m m' m1 : Machine} {depth n : Nat} {inside inside' : Nat → Prop} {below : List Frame}

/-- The machine comes from one state to another, and what the frame with `depth` frames below it
runs on the way stands `inside`. -/
inductive Treads (depth : Nat) (inside : Nat → Prop) : Machine → Machine → Prop where
  | refl (m : Machine) : Treads depth inside m m
  | step {m m₁ m' : Machine} :
    (m.callers.length = depth → m.status = .running → inside m.frame.next) →
    m.step = .next m₁ → Treads depth inside m₁ m' → Treads depth inside m m'

namespace Treads

theorem trans (h : Treads depth inside m m1) (h' : Treads depth inside m1 m') :
    Treads depth inside m m' := by
  induction h with
  | refl => exact h'
  | step hin hs _ ih => exact .step hin hs (ih h')

theorem mono (h : Treads depth inside m m') (hi : ∀ k, inside k → inside' k) :
    Treads depth inside' m m' := by
  induction h with
  | refl => exact .refl _
  | step hin hs _ ih => exact .step (fun hd hr => hi _ (hin hd hr)) hs ih

theorem reaches (h : Treads depth inside m m') : m.Reaches m' := by
  induction h with
  | refl => exact .refl _
  | step _ hs _ ih => exact (reaches_of_step hs).trans ih

end Treads

theorem treads_of_step (hin : inside m.frame.next) (hs : m.step = .next m') :
    Treads depth inside m m' :=
  .step (fun _ _ => hin) hs (.refl m')

theorem treads_atop (h : run n m = .exhausted m') (hd : depth < below.length) :
    Treads depth inside (m.atop below) (m'.atop below) := by
  refine run_atop_rel (R := fun _ => Treads depth inside) .refl (fun hle hs h => ?_) h
  exact .step (fun hlength _ => absurd hlength (by omega)) hs h

/-- The frame of `m` has not ended at `m'`: it runs or hangs, or it waits for the frames above. -/
def Over (m m' : Machine) : Prop :=
  ∃ above frame, m'.frame :: m'.callers = above ++ frame :: m.callers ∧ m.frame.Alike frame ∧
    (above = [] → ∀ c, m'.status ≠ .finishing c)

theorem over_refl (h : ∀ c, m.status ≠ .finishing c) : m.Over m :=
  ⟨[], m.frame, rfl, .refl _, fun _ => h⟩

/-- One more state of the frame of `m`. -/
structure Persists (m m' : Machine) : Prop where
  frame : m.frame.Alike m'.frame
  callers : m'.callers = m.callers

theorem Persists.refl (m : Machine) : m.Persists m := ⟨.refl _, rfl⟩

theorem Persists.trans (h : m.Persists m1) (h' : m1.Persists m') : m.Persists m' :=
  ⟨h.frame.trans h'.frame, h'.callers.trans h.callers⟩

theorem Persists.over (h : m.Persists m1) (ho : m1.Over m') : m.Over m' := by
  obtain ⟨above, frame, hframes, ha, hr⟩ := ho
  rw [h.callers] at hframes
  exact ⟨above, frame, hframes, h.frame.trans ha, hr⟩

/-- What has become of the frame of `m` after `n` steps: it has come to a place that `stop`
describes, it has thrown, or it is still inside. -/
inductive Fares (inside : Nat → Prop) (stop : View → Prop) (n : Nat) (m : Machine) : Prop where
  | ended {m' : Machine} : Treads m.callers.length inside m m' → m.Persists m' →
    m'.status = .running → stop m'.frame.view → Fares inside stop n m
  | threw {m' : Machine} {v : Value} : Treads m.callers.length inside m m' → m.Persists m' →
    m'.status = .finishing (.throwing v) → Fares inside stop n m
  | busy : (∀ m', run n m = .exhausted m' → Treads m.callers.length inside m m' ∧ m.Over m') →
    Fares inside stop n m

section

variable {stop : View → Prop} {k : Nat}

theorem Fares.after (h : Fares inside stop n m1) (hf : m.Persists m1)
    (ht : Treads m.callers.length inside m m1) (hk : run k m = .exhausted m1) :
    Fares inside stop (k + n) m := by
  have hback {m' : Machine} (h' : Treads m1.callers.length inside m1 m') :
      Treads m.callers.length inside m m' := ht.trans (hf.callers ▸ h')
  cases h with
  | ended h' hf' hr hs => exact .ended (hback h') (hf.trans hf') hr hs
  | threw h' hf' hr => exact .threw (hback h') (hf.trans hf') hr
  | busy hb =>
    refine .busy fun m' hm' => ?_
    rw [run_add hk] at hm'
    obtain ⟨h', ho⟩ := hb m' hm'
    exact ⟨hback h', hf.over ho⟩

theorem fares_above (callee : Machine) {caller : Frame} (hin : inside m.frame.next)
    (hs : m.step = .next (callee.atop (caller :: m.callers))) (ha : m.frame.Alike caller)
    (hback : ∀ {k m1 c m2}, k < n → run k callee = .exhausted m1 → m1.callers = [] →
      m1.status = .finishing c → (m1.atop (caller :: m.callers)).step = .next m2 →
      m.Persists m2 ∧ ∀ n' ≤ n, Fares inside stop n' m2) : Fares inside stop (n + 1) m := by
  have hdepth : m.callers.length < (caller :: m.callers).length := Nat.lt_succ_self _
  have habove {k : Nat} {m1 : Machine} (hk : run k callee = .exhausted m1) :
      Treads m.callers.length inside m (m1.atop (caller :: m.callers)) :=
    .step (fun _ _ => hin) hs (treads_atop hk hdepth)
  by_cases h : ∃ k m1 c m2, k < n ∧ run k callee = .exhausted m1 ∧ m1.callers = [] ∧
      m1.status = .finishing c ∧ (m1.atop (caller :: m.callers)).step = .next m2
  · obtain ⟨k, m1, c, m2, hk, hm1, hc, hst, hm2⟩ := h
    obtain ⟨hf, hfares⟩ := hback hk hm1 hc hst hm2
    have ht : Treads m.callers.length inside m m2 := by
      refine (habove hm1).trans (.step (fun hlength _ => absurd hlength ?_) hm2 (.refl m2))
      show (m1.callers ++ caller :: m.callers).length ≠ m.callers.length
      rw [List.length_append, List.length_cons]
      omega
    have hrun : run (k + 2) m = .exhausted m2 := by
      rw [run_succ_next hs, run_add (run_atop hm1)]
      exact run_succ_next hm2 0
    have hsum : n + 1 = k + 2 + (n - (k + 1)) := by omega
    rw [hsum]
    exact (hfares _ (Nat.sub_le _ _)).after hf ht hrun
  · refine .busy fun m' hm' => ?_
    rw [run_succ_next hs] at hm'
    rcases run_atop_cases hm' with ⟨m1, hm1, rfl⟩ | hcame
    · refine ⟨habove hm1, m1.frame :: m1.callers, caller, rfl, ha, nofun⟩
    · exact absurd hcame h

end

/-! ## Safe code -/

section

variable {a : Artifact} {rules : Rules} {u u' : CodeUnit} {stop : View → Prop}

/-- What the code of `u'` needs is what the code of `u` needs there, and it stands `inside`. -/
def Covers (a : Artifact) (rules : Rules) (u' u : CodeUnit) (inside : Nat → Prop) : Prop :=
  ∀ ⦃k : Nat⦄ ⦃i : Instruction⦄, u'.instructions[k]? = some i → ∀ ⦃runs Q v⦄,
    Needs a u' rules runs Q v i →
      u.instructions[k]? = some i ∧ inside k ∧ Needs a u rules runs Q v i

theorem covers_self : Covers a rules u u fun _ => True := fun _ _ hi _ _ _ h => ⟨hi, trivial, h⟩

theorem ends_of_fares {frame : Frame} {context : Context} {r : Realm} {post : Completion → Prop}
    (hfair : Fair post) (hm : m = { realm := r, context, frame })
    (hfares : Fares (fun _ => True)
      (fun v => frame.unit.instructions[v.next]? = none ∧ Ending post v) n m)
    (hn : run n m = .exhausted m1) (hc : m1.callers = []) {c : Completion}
    (hs : m1.status = .finishing c) : post c := by
  subst hm
  have hends := ends_of_reaches ⟨n, hn⟩ hc hs
  cases hfares with
  | @ended m' ht hf hr hstop =>
    obtain ⟨hnone, c', hstack, hpost⟩ := hstop
    rw [← hf.frame.unit] at hnone
    have hstack : m'.frame.stack = [.completion c'] := hstack
    have hfinish : m'.frame.finish = .ok c' := by
      unfold Frame.finish
      rw [hstack]
    have hstep := reaches_of_step (step_ended hr hnone hfinish)
    have hends' := ends_of_reaches (ht.reaches.trans hstep) hf.callers rfl
    obtain ⟨rfl, -⟩ := hends.unique hends'
    exact hpost
  | threw ht hf hr =>
    obtain ⟨rfl, -⟩ := hends.unique (ends_of_reaches ht.reaches hf.callers hr)
    exact hfair.throwing _
  | busy hb =>
    obtain ⟨-, above, f, hframes, -, hr⟩ := hb m1 hn
    rw [hc] at hframes
    obtain rfl : above = [] := by
      cases above with
      | nil => rfl
      | cons f' above =>
        have hlength := congrArg List.length hframes
        simp at hlength
    exact absurd hs (hr rfl c)

theorem permits_all {runs : CodeUnit → (Completion → Prop) → Prop} {i : Instruction} :
    Permits rules runs (fun _ _ => True) m i where
  rebinds _ := trivial
  closure _ _ _ _ := trivial
  apply _ _ _ _ := trivial
  derive _ _ := trivial

theorem persists_advance (h : m.advance.Persists m') : m.Persists m' :=
  ⟨⟨h.frame.artifact, h.frame.unit, h.frame.temps, h.frame.callerEnv, h.frame.resume⟩, h.callers⟩

theorem Works.persists {R : Realm → Realm → Prop} (h : Works R m m') : m.Persists m' :=
  ⟨h.frame, h.callers⟩

theorem fares_call {i : Instruction} (hr : m.status = .running)
    (hi : m.frame.unit.instructions[m.frame.next]? = some i) (hh : m.hangs i = false)
    (hin : inside m.frame.next) {callee receiver : Value} {args : List Value}
    {constructed : Option Value}
    (he : exec i m.advance = enterFunction callee receiver args constructed m1)
    (hf : m.Persists m1)
    (hback : ∀ v r, ∀ n' ≤ n,
      Fares inside stop n' ⟨r, m1.context, m1.frame.push (.value v), m1.callers, .running⟩) :
    Fares inside stop (n + 1) m := by
  have hthrow {fault : Fault} {m2 : Machine} (hx : exec i m.advance = .error (.thrown fault) m2)
      (hf2 : m.Persists m2) : Fares inside stop (n + 1) m :=
    .threw (treads_of_step hin (step_throw hr hi hh hx)) ⟨hf2.frame, hf2.callers⟩ rfl
  revert he
  refine enterFunction_cases callee receiver args constructed m1 (fun he => hthrow he hf) ?_
    (fun he => hthrow he hf) ?_
  · intro _ e _ _ he
    refine .busy fun m' hm' => ?_
    rw [run_succ_halt (step_fatal hr hi hh he)] at hm'
    cases hm'
  · intro closure frame r _ hs _ _ he
    obtain ⟨u, -, rfl⟩ := start_ok_iff.mp hs
    have hstep := step_exec hr hi hh he
    rw [called, hf.callers] at hstep
    refine fares_above { realm := _, context := _, frame := _ } hin hstep hf.frame ?_
    intro k m2 c m3 _ hk hcallers hst hm3
    rw [← hf.callers, step_called rfl rfl ⟨k, hk⟩ hcallers hst] at hm3
    unfold afterCall at hm3
    cases hres : CallResult.ofCompletion c constructed with
    | value v =>
      rw [hres] at hm3
      cases hm3
      exact ⟨⟨⟨hf.frame.artifact, hf.frame.unit, hf.frame.temps, hf.frame.callerEnv,
        hf.frame.resume⟩, hf.callers⟩, hback v _⟩
    | thrown v =>
      rw [hres] at hm3
      cases hm3
      exact ⟨⟨hf.frame, hf.callers⟩, fun n' _ => .threw (.refl _) (.refl _) rfl⟩
    | escaped kind =>
      rw [hres] at hm3
      cases hm3

theorem fares_hanging {i : Instruction} (hr : m.status = .running)
    (hi : m.frame.unit.instructions[m.frame.next]? = some i) (hh : m.hangs i = true)
    (hin : inside m.frame.next) : Fares inside stop (n + 1) m := by
  have hstep := step_hang hr hi hh
  refine .busy fun m' hm' => ?_
  rw [run_succ_next hstep, run_hanging rfl] at hm'
  cases hm'
  exact ⟨treads_of_step hin hstep, [], m.frame, rfl, .refl _, nofun⟩

theorem fares_of_safe (hplain : ∀ v, rules.plain v) (n : Nat) :
    ∀ {m : Machine} {u' : CodeUnit} {inside : Nat → Prop} {stop : View → Prop},
    m.frame.artifact = a → m.frame.temps.size = m.frame.unit.tempCount → m.status = .running →
    Covers a rules u' m.frame.unit inside → Safe a rules n u' stop m.frame.view →
    Fares inside (fun v => u'.instructions[v.next]? = none ∧ stop v) n m := by
  induction n using Nat.strongRecOn with
  | ind n ih =>
    intro m u' inside stop ha ht hr hcovers hsafe
    cases n with
    | zero =>
      refine .busy fun m' hm' => ?_
      cases hm'
      exact ⟨.refl _, over_refl fun c hc => by cases hr.symm.trans hc⟩
    | succ n =>
      unfold Safe at hsafe
      cases hi' : u'.instructions[m.frame.view.next]? with
      | none =>
        rw [hi'] at hsafe
        exact .ended (.refl m) (.refl m) hr ⟨hi', hsafe⟩
      | some i =>
        rw [hi'] at hsafe
        obtain ⟨hi, hin, hneeds⟩ := hcovers hi' hsafe
        by_cases hh : m.hangs i = true
        · exact fares_hanging hr hi hh hin
        rw [Bool.not_eq_true] at hh
        -- Whatever the frame does next, its code is safe for the steps that are left.
        have hnext {n' : Nat} {m1 : Machine} (hn' : n' ≤ n) (hf : m.Persists m1)
            (hr1 : m1.status = .running) (hs : Safe a rules n u' stop m1.frame.view) :
            Fares inside (fun v => u'.instructions[v.next]? = none ∧ stop v) n' m1 := by
          refine ih n' (Nat.lt_succ_of_le hn') (hf.frame.artifact.trans ha) ?_ hr1 ?_ (hs.mono hn')
          · rw [hf.frame.temps, hf.frame.unit]
            exact ht
          · rw [hf.frame.unit]
            exact hcovers
        subst ha
        have hcomes := comes_of_needs (m := m.advance) (R := fun _ _ => True) ht hneeds
          (fun _ => hplain _) permits_all
        generalize hx : exec i m.advance = result at hcomes
        cases hcomes with
        | done hworks _ hq =>
          have hf := persists_advance hworks.persists
          have hstep := step_exec hr hi hh hx
          rw [Nat.add_comm n 1]
          exact (hnext (Nat.le_refl n) hf (hworks.status.trans hr) hq).after hf
            (treads_of_step hin hstep) (run_succ_next hstep 0)
        | thrown hworks =>
          have hf := persists_advance hworks.persists
          exact .threw (treads_of_step hin (step_throw hr hi hh hx)) ⟨hf.frame, hf.callers⟩ rfl
        | @unit id unit post hid hunit _ hfair hruns hq =>
          subst hid
          have hu : m.frame.artifact.unit? id = some unit := hunit
          have hstep := step_exec hr hi rfl (exec_invoke hunit)
          refine fares_above (m.started unit) hin hstep
            ⟨rfl, rfl, rfl, rfl, rfl⟩ ?_
          intro k m1 c m2 hk hm1 hcallers hst hm2
          have hfares : Fares (fun _ => True)
              (fun v => (m.bodyFrame unit).unit.instructions[v.next]? = none ∧ Ending post v) k
              (m.started unit) :=
            ih k (by omega) rfl Array.size_replicate rfl covers_self (hruns.mono (Nat.le_of_lt hk))
          have hpost : post c := ends_of_fares hfair rfl hfares hm1 hcallers hst
          rw [step_started hu ⟨k, hm1⟩ hcallers hst] at hm2
          cases hm2
          have hf : m.Persists ⟨m1.realm, m.context, m.advance.frame.push (.completion c),
              m.callers, .running⟩ := ⟨⟨rfl, rfl, rfl, rfl, rfl⟩, rfl⟩
          exact ⟨hf, fun n' hn' => hnext hn' hf rfl (hq c hpost)⟩
        | call callee receiver args constructed _ _ hworks _ hq =>
          have hf := persists_advance hworks.persists
          refine fares_call hr hi hh hin hx hf fun v r n' hn' => ?_
          exact hnext hn' ⟨⟨hf.frame.artifact, hf.frame.unit, hf.frame.temps, hf.frame.callerEnv,
            hf.frame.resume⟩, hf.callers⟩ rfl (hq v)

end

end Machine

end TreeScript
