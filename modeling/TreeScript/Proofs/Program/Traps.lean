import TreeScript.Proofs.Machine.Settled
import TreeScript.Proofs.Machine.Origins
import TreeScript.Proofs.Program.Arenas

/-!
# Code of any kind is reported, not tripped over

An artifact need not be compiled: its jumps can lead nowhere, its units can be missing and its stack
can run dry.  The machine reports all of this.  It comes to no index out of range and to no sum that
is too large for its word, which is to say that the guarded machine runs every artifact as the
machine does.

There is one exception.  A unit can have as many temporaries as there are numbers but one, and an
enumeration can keep its keys in the last of them.  The number of the temporary for its object is
then too large by one, and wraps around to the first temporary.
-/

namespace TreeScript

open Code Upkeep

/-- The numbers in the unit are such that the words of a machine can hold them. -/
structure Code.CodeUnit.Fits (w : Nat) (u : CodeUnit) : Prop where
  code : u.instructions.size < 2 ^ w
  arguments : ∀ op, .operate op ∈ u.instructions → op.arity < 2 ^ w
  temps : u.tempCount < 2 ^ 16

def Code.Artifact.Fits (w : Nat) (a : Artifact) : Prop := ∀ u ∈ a.units, u.Fits w

theorem Frame.Draws.fits {w : Nat} {f : Frame} (h : f.Draws (Artifact.Fits w)) : f.unit.Fits w := by
  obtain ⟨id, hid⟩ := h.unit
  exact h.artifact _ (Array.mem_of_getElem? hid)

namespace Machine

/-- The next instruction is a step of an enumeration that has its keys in the last temporary there
can be. -/
structure Wraps (m : Machine) : Prop where
  running : m.status = .running
  enumerates : ∃ l, m.frame.unit.instructions[m.frame.next]? = some (.forInStep 0xFFFE l)
  temps : m.frame.unit.tempCount = 0xFFFF

/-- Every frame has its unit in the table of its artifact, and every function its entry. -/
structure Tabled (m : Machine) : Prop where
  units : ∀ f ∈ m.frame :: m.callers, ∃ id, f.artifact.unit? id = some f.unit
  functions : ∀ c, m.realm.Holds c → ∃ id, c.artifact.function? id = some c.info

variable {m : Machine} {w n : Nat}

/-! ## The enumeration that wraps around -/

theorem temp_missing {index : Nat} (h : m.frame.temps.size ≤ index) :
    temp index m = .error (.fatal (.missingTemporary m.frame.unit.name index)) m := by
  unfold temp
  rw [get_bind, Array.getElem?_eq_none h]
  rfl

/-- The object is looked for in the first temporary, and the position in one that is not there. -/
theorem nextKey_wrapping (h : m.frame.temps.size = 0xFFFF) :
    nextKey 0xFFFE m = .error (.fatal (.missingTemporary m.frame.unit.name 0xFFFF)) m := by
  have hkeys : 0xFFFE < m.frame.temps.size := by omega
  have hobject : tempAfter 0xFFFE 2 < m.frame.temps.size := by
    show 0 < _
    omega
  have hposition : m.frame.temps.size ≤ tempAfter 0xFFFE 1 := by
    show _ ≤ 0xFFFF
    omega
  unfold nextKey
  rw [bind_ok (temp_eq hkeys), bind_ok (temp_eq hobject), get_bind,
    bind_error (temp_missing hposition)]
  rfl

theorem guarded_nextKey_wrapping (h : m.frame.temps.size = 0xFFFF) :
    Guarded.nextKey 0xFFFE m = .error (.trap .overflow) m := by
  have hkeys : Guarded.lift (temp 0xFFFE) m =
      .ok (m.frame.temps.getD 0xFFFE .undefined) m := by
    show translate id _ (temp 0xFFFE m) = _
    rw [temp_eq (by omega)]
    rfl
  unfold Guarded.nextKey
  show EStateM.bind (Guarded.lift (temp 0xFFFE)) _ m = _
  unfold EStateM.bind
  rw [hkeys]
  rfl

theorem hangs_wrapping {l : Label} (h : m.frame.temps.size = 0xFFFF) :
    m.hangs (.forInStep 0xFFFE l) = false := by
  have hnone : m.enumeration? 0xFFFE = none := by
    have hplace : m.frame.temps[tempAfter 0xFFFE 1]? = none :=
      Array.getElem?_eq_none (Nat.le_of_eq h)
    unfold enumeration?
    rw [hplace]
    cases m.frame.temps[0xFFFE]? <;> cases m.frame.temps[tempAfter 0xFFFE 2]? <;> rfl
  show (m.enumeration? 0xFFFE).any _ = false
  rw [hnone]
  rfl

theorem step_wrapping (h : m.Wraps) (htemps : m.frame.temps.size = m.frame.unit.tempCount) :
    m.step = .halt (.error (.missingTemporary m.frame.unit.name 0xFFFF)) m.realm m.context := by
  obtain ⟨l, hi⟩ := h.enumerates
  have hsize : m.advance.frame.temps.size = 0xFFFF := htemps.trans h.temps
  have hexec : exec (.forInStep 0xFFFE l) m.advance =
      .error (.fatal (.missingTemporary m.frame.unit.name 0xFFFF)) m.advance :=
    bind_error (nextKey_wrapping hsize)
  rw [step_fatal h.running hi (hangs_wrapping hsize) hexec]
  rfl

theorem guarded_step_wrapping (h : m.Wraps) (hd : m.Draws (Artifact.Fits w)) :
    Guarded.step w m = .error .overflow := by
  obtain ⟨l, hi⟩ := h.enumerates
  have hsize : m.advance.frame.temps.size = 0xFFFF := hd.frame.temps.trans h.temps
  have hexec : Guarded.exec w (.forInStep 0xFFFE l) m.advance =
      .error (.trap .overflow) m.advance := by
    show EStateM.bind (Guarded.nextKey 0xFFFE) _ m.advance = _
    unfold EStateM.bind
    rw [guarded_nextKey_wrapping hsize]
  unfold Guarded.step
  rw [h.running]
  rw [hi]
  dsimp only
  rw [hexec, show m.hangs (.forInStep 0xFFFE l) = false from hangs_wrapping hsize]
  split <;> rfl

/-! ## All other steps -/

theorem Draws.next_lt (h : m.Draws (Artifact.Fits w)) {i : Instruction}
    (hi : m.frame.unit.instructions[m.frame.next]? = some i) : m.frame.next + 1 < 2 ^ w := by
  obtain ⟨hlt, -⟩ := Array.getElem?_eq_some_iff.mp hi
  have hcode := h.frame.fits.code
  omega

/-- At the next instruction the guarded machine does what the machine does, unless it wraps. -/
theorem matches_next (h : m.Founded) (hd : m.Draws (Artifact.Fits w)) (hr : m.status = .running)
    (hw : ¬ m.Wraps) {i : Instruction} (hi : m.frame.unit.instructions[m.frame.next]? = some i) :
    m.advance.Matches w n (exec i) (Guarded.exec w i) := by
  have hfits := hd.frame.fits
  refine matches_exec h.advance ?_ ?_
  · rintro op rfl
    exact hfits.arguments op (Array.mem_of_getElem? hi)
  · rintro keys l rfl hkeys
    have htemps : m.advance.frame.temps.size = m.frame.unit.tempCount := hd.frame.temps
    have hcount := hfits.temps
    rcases Nat.lt_or_ge (keys + 2) (2 ^ 16) with hlt | hge
    · exact hlt
    · have hlast : keys = 0xFFFE := by omega
      subst hlast
      exact absurd ⟨hr, ⟨l, hi⟩, by omega⟩ hw

theorem quiet_materialize (r : Realm) (fault : Fault) : Realm.Quiet r (r.materialize fault).2 := by
  cases fault with
  | value v => exact .refl r
  | error kind message => exact ⟨Realm.grows_addObject _ _, rfl, rfl, rfl⟩

theorem quiet_exitCall (r : Realm) : Realm.Quiet r r.exitCall := ⟨grows_exitCall r, rfl, rfl, rfl⟩

theorem tallies_step (h : m.Founded) (hd : m.Draws (Artifact.Fits w)) (hw : ¬ m.Wraps) :
    Realm.Tallies m.realm m.step.realm :=
  realm_step (R := Realm.Tallies m.realm) (Realm.Quiet.refl _).tallies (quiet_exitCall _).tallies
    (fun _ hr hi => (matches_next (n := 0) h hd hr hw hi).tallies)
    fun r fault h => h.quiet (quiet_materialize r fault)

theorem guarded_step (h : m.Founded) (hd : m.Draws (Artifact.Fits w))
    (hroom : m.realm.HasRoom w (n + 1)) (hw : ¬ m.Wraps) : Guarded.step w m = .ok m.step := by
  unfold Guarded.step step proceed
  cases hstatus : m.status with
  | finishing c => rfl
  | hanging => rfl
  | running =>
    cases hi : m.frame.unit.instructions[m.frame.next]? with
    | none => rfl
    | some i =>
      dsimp only
      rw [if_pos (hd.next_lt hi), (matches_next h hd hstatus hw hi).eq hroom]
      split
      · rfl
      · cases he : exec i m.advance with
        | ok u m' => rfl
        | error e m' => cases e <;> rfl

/-! ## Runs -/

/-- The guarded machine comes as far as the machine does, or to a step that wraps, with which the
machine ends. -/
theorem guarded_run (h : m.Founded) (hd : m.Draws (Artifact.Fits w)) (hroom : m.realm.HasRoom w n) :
    (Guarded.run w n m = .ok (run n m) ∧ ∀ k < n, ∀ m', run k m = .exhausted m' → ¬ m'.Wraps) ∨
      (Guarded.run w n m = .error .overflow ∧ ∃ k < n, ∃ m', run k m = .exhausted m' ∧ m'.Wraps ∧
        run n m = .halted (.error (.missingTemporary m'.frame.unit.name 0xFFFF)) m'.realm
          m'.context) := by
  induction n generalizing m with
  | zero => exact .inl ⟨rfl, fun k hk => absurd hk (Nat.not_lt_zero k)⟩
  | succ n ih =>
    by_cases hw : m.Wraps
    · have hrun : run (n + 1) m =
          .halted (.error (.missingTemporary m.frame.unit.name 0xFFFF)) m.realm m.context := by
        unfold run
        rw [step_wrapping hw hd.frame.temps]
      have htwin : Guarded.run w (n + 1) m = .error .overflow := by
        unfold Guarded.run
        rw [guarded_step_wrapping hw hd]
        rfl
      exact .inr ⟨htwin, 0, Nat.succ_pos n, m, rfl, hw, hrun⟩
    have htwin := guarded_step h hd hroom hw
    cases hs : m.step with
    | halt result realm context =>
      have hrun (k : Nat) : run (k + 1) m = .halted result realm context := by
        unfold run
        rw [hs]
      have hguarded : Guarded.run w (n + 1) m = .ok (.halted result realm context) := by
        unfold Guarded.run
        rw [htwin, hs]
        rfl
      refine .inl ⟨hguarded.trans (congrArg _ (hrun n).symm), fun k _ m' hm' => ?_⟩
      cases k with
      | zero =>
        cases hm'
        exact hw
      | succ k =>
        rw [hrun k] at hm'
        cases hm'
    | next m1 =>
      have hrun (k : Nat) : run (k + 1) m = run k m1 := by
        rw [run]
        rw [hs]
      have hguarded : Guarded.run w (n + 1) m = Guarded.run w n m1 := by
        rw [Guarded.run]
        rw [htwin, hs]
        rfl
      have htallies := tallies_step h hd hw
      rw [hs] at htallies
      rw [hguarded, hrun n]
      rcases ih (h.next hs) (hd.next hs) (hroom.tallies htallies) with
        ⟨heq, hnot⟩ | ⟨heq, k, hk, m', hm', hwraps, hhalted⟩
      · refine .inl ⟨heq, fun k hk m' hm' => ?_⟩
        cases k with
        | zero =>
          cases hm'
          exact hw
        | succ k =>
          rw [hrun k] at hm'
          exact hnot k (Nat.lt_of_succ_lt_succ hk) m' hm'
      · exact .inr ⟨heq, k + 1, Nat.succ_lt_succ hk, m', (hrun k).trans hm', hwraps, hhalted⟩

end Machine

section

variable {w fuel : Nat} {a : Artifact} {r : Realm} {context : Context}

theorem guarded_invoke (h : context.Inside r) (hd : r.Draws (Artifact.Fits w)) (ha : a.Fits w)
    (hroom : r.HasRoom w (fuel + 1)) (id : UnitId) :
    (Guarded.invoke w fuel a id r context = .ok (invoke fuel a id r context) ∧
      ∀ n < fuel, ∀ m, invoke n a id r context = .exhausted m → ¬ m.Wraps) ∨
    (Guarded.invoke w fuel a id r context = .error .overflow ∧
      ∃ n < fuel, ∃ m, invoke n a id r context = .exhausted m ∧ m.Wraps ∧
        invoke fuel a id r context =
          .halted (.error (.missingTemporary m.frame.unit.name 0xFFFF))
            { m.realm with callDepth := min m.realm.callDepth r.callDepth } context) := by
  cases hs : Frame.start a id context.env .unit with
  | error e =>
    refine .inl ⟨?_, fun n _ m hm => ?_⟩
    · unfold Guarded.invoke invoke
      rw [hs]
    · obtain ⟨frame, hs', -⟩ := run_of_invoke hm
      rw [hs] at hs'
      cases hs'
  | ok frame =>
    have hfirst := Machine.guarded_run (Frame.founded_start h hs) (Machine.draws_start hd ha hs)
      (hroom.tallies (Realm.tallies_countRun r frame.unit.name))
    rcases hfirst with ⟨heq, hnot⟩ | ⟨heq, n, hn, m, hm, hw, hhalted⟩
    · refine .inl ⟨?_, fun n hn m hm => ?_⟩
      · unfold Guarded.invoke invoke
        rw [hs]
        dsimp only
        rw [hroom.countRun]
        show (Guarded.run w fuel _ >>= _) = _
        rw [heq]
        cases Machine.run fuel { realm := r.countRun frame.unit.name, context, frame } with
        | exhausted m => rfl
        | halted result realm context => cases result <;> rfl
      · obtain ⟨frame', hs', hrun⟩ := run_of_invoke hm
        rw [hs] at hs'
        cases hs'
        exact hnot n hn m hrun
    · refine .inr ⟨?_, n, hn, m, invoke_of_run hs hm, hw, ?_⟩
      · unfold Guarded.invoke
        rw [hs]
        dsimp only
        rw [hroom.countRun]
        show (Guarded.run w fuel _ >>= _) = _
        rw [heq]
        rfl
      · unfold invoke
        rw [hs]
        dsimp only
        rw [hhalted]

theorem tabled_of_invoke (hr : r.IsNew) {id : UnitId} {n : Nat} {m : Machine}
    (hm : invoke n a id r context = .exhausted m) : m.Tabled := by
  obtain ⟨frame, hs, hrun⟩ := run_of_invoke hm
  have honly : m.OnlyFrom fun _ => True :=
    Machine.run_exhausted (P := Machine.OnlyFrom fun _ => True) (fun hm hs => hm.next hs)
      (Machine.onlyFrom_start (fun c hc => absurd hc (hr.not_holds c)) trivial hs) hrun
  refine ⟨fun f hf => ?_, fun c hc => ?_⟩
  · rcases List.mem_cons.mp hf with rfl | hf
    · exact honly.frame.unit
    · exact (honly.callers f hf).unit
  · obtain ⟨_, -, rfl, hid⟩ := honly.only hc
    exact hid

end

theorem inside_create (maxCallDepth : Nat) (traceUnits strict : Bool) :
    (Context.global strict).Inside (.create maxCallDepth traceUnits) :=
  Context.inside_global (Realm.IsNew.founded ⟨_, _, rfl⟩) strict

theorem draws_create {A : Artifact → Prop} (maxCallDepth : Nat) (traceUnits : Bool) :
    (Realm.create maxCallDepth traceUnits).Draws A :=
  fun c hc => absurd hc (Realm.IsNew.not_holds ⟨_, _, rfl⟩ c)

theorem hasRoom_create {w n maxCallDepth : Nat} {traceUnits : Bool} (hcalls : maxCallDepth < 2 ^ w)
    (hruns : traceUnits = true → n < 2 ^ w) :
    (Realm.create maxCallDepth traceUnits).HasRoom w n := by
  refine ⟨hcalls, fun htraces unit => ?_⟩
  show 0 + n < 2 ^ w
  rw [Nat.zero_add]
  exact hruns htraces

/-- Whatever units an artifact has, every frame of a run finds its unit and every function its
entry, and the guarded machine comes to the same end as the machine.  It stops only where an
enumeration wraps around, and there the machine ends for want of a temporary. -/
theorem invoke_guarded_unless_wraps {w fuel maxCallDepth : Nat} {a : Artifact} {traceUnits : Bool}
    (ha : a.Fits w) (hcalls : maxCallDepth < 2 ^ w) (hruns : traceUnits = true → fuel + 1 < 2 ^ w)
    (id : UnitId) (strict : Bool) :
    let start := Realm.create maxCallDepth traceUnits
    let runs n := invoke n a id start (.global strict)
    let guarded := Guarded.invoke w fuel a id start (.global strict)
    (∀ n m, runs n = .exhausted m → m.Tabled) ∧
      ((guarded = .ok (runs fuel) ∧ ∀ n < fuel, ∀ m, runs n = .exhausted m → ¬ m.Wraps) ∨
        (guarded = .error .overflow ∧ ∃ n < fuel, ∃ m, runs n = .exhausted m ∧ m.Wraps ∧
          runs fuel = .halted (.error (.missingTemporary m.frame.unit.name 0xFFFF))
            { m.realm with callDepth := 0 } (.global strict))) := by
  refine ⟨fun n m => tabled_of_invoke ⟨maxCallDepth, traceUnits, rfl⟩, ?_⟩
  have hguarded := guarded_invoke (inside_create maxCallDepth traceUnits strict)
    (draws_create maxCallDepth traceUnits) ha (hasRoom_create hcalls hruns) id
  rcases hguarded with hok | ⟨hover, n, hn, m, hm, hw, hhalted⟩
  · exact .inl hok
  · refine .inr ⟨hover, n, hn, m, hm, hw, hhalted.trans ?_⟩
    show Outcome.halted _ { m.realm with callDepth := min m.realm.callDepth 0 } _ = _
    rw [Nat.min_zero]

/-- An enumeration that has its position in the last of its temporaries. -/
def shortOfTemps : Artifact where
  entry := 0
  units := #[{ name := "U", role := .program, strict := false
               instructions := #[.forInStep 1 0], operands := #[], labels := #[], tempCount := 3 }]
  functions := #[]

theorem fits_of_units {w : Nat} {u : CodeUnit} (hu : u.Fits w) {a : Artifact}
    (ha : a.units = #[u]) : a.Fits w := by
  intro u' hu'
  rw [ha] at hu'
  cases List.mem_singleton.mp (Array.mem_toList_iff.mpr hu')
  exact hu

theorem invoke_guarded_unless_wraps_shortOfTemps :
    shortOfTemps.Fits 64 ∧
      Guarded.invoke 64 1 shortOfTemps 0 (.create 16 true) (.global false) =
        .ok (.halted (.error (.missingTemporary "U" 3)) ((Realm.create 16 true).countRun "U")
          (.global false)) := by
  have hfits : shortOfTemps.Fits 64 := by
    refine fits_of_units ⟨by decide, ?_, by decide⟩ rfl
    intro op hop
    cases List.mem_singleton.mp (Array.mem_toList_iff.mpr hop)
  refine ⟨hfits, ?_⟩
  have hcalls : 16 < 2 ^ 64 := by decide
  have hruns : true = true → 1 + 1 < 2 ^ 64 := fun _ => by decide
  have hends := (invoke_guarded_unless_wraps hfits hcalls hruns 0 false).2
  rcases hends with ⟨hok, -⟩ | ⟨-, n, hn, m, hm, hw, -⟩
  · exact hok
  · cases Nat.lt_one_iff.mp hn
    cases hm
    cases hw.temps

/-- An enumeration that has its keys in the last temporary there can be. -/
def wrapping : Artifact where
  entry := 0
  units := #[{ name := "U", role := .program, strict := false
               instructions := #[.forInStep 0xFFFE 0, .normal], operands := #[], labels := #[1]
               tempCount := 0xFFFF }]
  functions := #[]

/-- The number of the missing temporary should have been `0x10000`, two after the keys. -/
theorem wrapping_overflows :
    wrapping.Fits 64 ∧
      Guarded.invoke 64 1 wrapping 0 (.create 16 false) (.global false) = .error .overflow ∧
      invoke 1 wrapping 0 (.create 16 false) (.global false) =
        .halted (.error (.missingTemporary "U" 0xFFFF)) (.create 16 false) (.global false) := by
  have hfits : wrapping.Fits 64 := by
    refine fits_of_units ⟨by decide, ?_, by decide⟩ rfl
    intro op hop
    simp at hop
  have hroom : (Realm.create 16 false).HasRoom 64 (1 + 1) := hasRoom_create (by decide) nofun
  have hguarded := guarded_invoke (inside_create 16 false false) (draws_create 16 false) hfits
    hroom 0
  refine ⟨hfits, ?_⟩
  rcases hguarded with ⟨-, hnot⟩ | ⟨hover, n, hn, m, hm, -, hhalted⟩
  · exact absurd ⟨rfl, ⟨0, rfl⟩, rfl⟩ (hnot 0 Nat.zero_lt_one _ rfl)
  · cases Nat.lt_one_iff.mp hn
    cases hm
    exact ⟨hover, hhalted⟩

end TreeScript
