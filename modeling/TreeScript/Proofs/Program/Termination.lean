import TreeScript.Proofs.Lowering.Descent
import TreeScript.Proofs.Program.Frames
import TreeScript.Proofs.Program.Lengths
import TreeScript.Proofs.Program.Texts

/-!
# Programs without loops halt

A program without `while`, `do` and `for` halts, in every realm whose functions come from such
programs too, unless it needs a text that has no end: an error can be its own message, and then the
machine hangs.  Every frame goes forward through its code.  On its way it may enter other frames,
and they do the same, but there are never more than a fixed number of frames on top of each
other.  So the argument is an induction on how many frames there is still room for, and inside it
one on the walks of the frame that runs.
-/

namespace TreeScript

open Code Syntax Lowering

namespace Machine

variable {m m' : Machine}

/-! ## What a step does to the frames -/

/-- From `m` to `m'` the running frame began to hang, ended, went on, went on and entered another
one, or was left for the one below. -/
inductive Paces (m m' : Machine) : Prop where
  | hangs : m'.status = .hanging → Paces m m'
  | ends {c : Completion} : m.status = .running → m'.status = .finishing c →
    m'.callers = m.callers → Paces m m'
  | turns : m.status = .running → m'.callers = m.callers → m'.frame.unit = m.frame.unit →
    Follows m.frame.unit m'.frame.place m.frame.place → Paces m m'
  | enters {f : Frame} : m.status = .running → m'.callers = f :: m.callers →
    f.unit = m.frame.unit → Follows m.frame.unit f.place m.frame.place → m'.frame.next = 0 →
    Paces m m'
  | leaves {f : Frame} : m.callers = f :: m'.callers → m'.frame.unit = f.unit →
    m'.frame.place = f.place → Paces m m'

theorem paces_leave {c : Completion} (h : m.leave c = .next m') : Paces m m' := by
  obtain ⟨caller, stack, hc, hf, -⟩ := leave_next h
  exact .leaves hc (hf ▸ rfl) (hf ▸ rfl)

theorem enterFunction_callers (callee receiver : Value) (args : List Value)
    (constructed : Option Value) (m : Machine) :
    (∃ m', enterFunction callee receiver args constructed m = .ok () m' ∧
      m'.callers = m.frame :: m.callers ∧ m'.frame.next = 0) ∨
    ∃ e m', enterFunction callee receiver args constructed m = .error e m' ∧
      m'.callers = m.callers := by
  refine enterFunction_cases callee receiver args constructed m (.inr ⟨_, _, rfl, rfl⟩)
    (fun _ _ _ _ => .inr ⟨_, _, rfl, rfl⟩) (.inr ⟨_, _, rfl, rfl⟩) ?_
  intro closure frame r _ hs _ _
  obtain ⟨u, -, rfl⟩ := start_ok_iff.mp hs
  exact .inl ⟨_, rfl, rfl, rfl⟩

/-- An instruction of safe code lets its frame go on, whatever it enters. -/
theorem paces_exec {P : Policy} (hclosed : ¬ P.Open) (hsound : P.Sound 1 m) (hfresh : P.Fresh m)
    (hrun : m.status = .running) {i : Instruction}
    (hi : m.frame.unit.instructions[m.frame.next]? = some i) (hs : m.step = .next m') :
    Paces m m' := by
  cases hh : m.hangs i with
  | true =>
    rw [step_hang hrun hi hh] at hs
    cases hs
    exact .hangs rfl
  | false => ?_
  obtain ⟨ht, post, hn⟩ := hsound.needs hclosed hrun hi
  have hcomes := comes_of_needs (m := m.advance) ht hn (fun h => hfresh hrun (h ▸ hi))
    (permits_steady (K := fun _ => True) fun _ _ _ => trivial)
  generalize hx : exec i m.advance = result at hcomes
  cases hcomes with
  | done hworks hturns _ =>
    rw [step_exec hrun hi hh hx] at hs
    cases hs
    exact .turns hrun hworks.callers hworks.frame.unit ⟨i, hi, hturns⟩
  | thrown hworks =>
    rw [step_throw hrun hi hh hx] at hs
    cases hs
    exact .ends hrun rfl hworks.callers
  | unit hinvoke hu _ _ _ _ =>
    rw [exec_invoke hu] at hx
    rw [step_exec hrun hi hh hx] at hs
    cases hs
    exact .enters hrun rfl rfl ⟨i, hi, hinvoke ▸ rfl⟩ rfl
  | @call m1 callee receiver args constructed hcall _ hworks hplace _ =>
    rcases enterFunction_callers callee receiver args constructed m1 with
      ⟨m2, he, hcallers, hnext⟩ | ⟨e, m2, he, hcallers⟩
    · rw [step_exec hrun hi hh (hx.trans he)] at hs
      cases hs
      rw [hworks.callers] at hcallers
      refine .enters hrun hcallers hworks.frame.unit ⟨i, hi, ?_⟩ hnext
      rcases hcall with rfl | rfl <;> exact hplace
    · cases e with
      | thrown fault =>
        rw [step_throw hrun hi hh (hx.trans he)] at hs
        cases hs
        exact .ends hrun rfl (hcallers.trans hworks.callers)
      | fatal e =>
        rw [step_fatal hrun hi hh (hx.trans he)] at hs
        cases hs

theorem paces_step {P : Policy} (hclosed : ¬ P.Open) (hsound : P.Sound 1 m) (hfresh : P.Fresh m)
    (hs : m.step = .next m') : Paces m m' := by
  cases hstatus : m.status with
  | finishing c =>
    rw [step_finishing hstatus] at hs
    exact paces_leave hs
  | hanging =>
    rw [step_hanging hstatus] at hs
    cases hs
    exact .hangs hstatus
  | running =>
    cases hi : m.frame.unit.instructions[m.frame.next]? with
    | some i => exact paces_exec hclosed hsound hfresh hstatus hi hs
    | none =>
      cases hf : m.frame.finish with
      | ok c =>
        rw [step_ended hstatus hi hf] at hs
        cases hs
        exact .ends hstatus rfl rfl
      | error e =>
        rw [step_unbalanced hstatus hi hf] at hs
        cases hs

/-! ## Hanging -/

/-- The machine hangs in an instruction that needs a text, and there is a value that has none. -/
structure Hung (m : Machine) : Prop where
  status : m.status = .hanging
  instruction : ∃ i, m.frame.unit.instructions[m.frame.next]? = some i ∧ m.hangs i = true
  endless : ∃ v, ∀ n, m.realm.writeText? n [] v = none

theorem exists_of_endlessKey {r : Realm} {list : ObjectRef} {object : Option ObjectRef}
    {n position : Nat} (h : endlessKey r list object n position = true) :
    ∃ v, r.text? v = none := by
  induction n generalizing position with
  | zero => cases h
  | succ n ih =>
    unfold endlessKey at h
    split at h
    · next hnone => exact ⟨_, hnone⟩
    · exact ih (Bool.and_eq_true_iff.mp h).2

theorem exists_of_hangs {i : Instruction} (h : m.hangs i = true) :
    ∃ v, m.realm.text? v = none := by
  cases i with
  | operate op =>
    obtain ⟨args, -, hargs⟩ := (Option.any_eq_true _ _).mp h
    exact Realm.exists_of_endless hargs
  | forInStep keys exhausted =>
    obtain ⟨⟨list, object, cursor⟩, -, h⟩ := (Option.any_eq_true _ _).mp h
    rcases Bool.or_eq_true_iff.mp h with h | h
    · exact Realm.exists_of_endless h
    · obtain ⟨ref, -, href⟩ := (Option.any_eq_true _ _).mp h
      exact exists_of_endlessKey href
  | _ => cases h

theorem status_leave {c : Completion} (h : m.leave c = .next m') : m'.status ≠ .hanging := by
  cases hc : m.callers with
  | nil =>
    rw [leave_root c hc] at h
    cases h
  | cons caller callers =>
    cases hr : m.frame.resume with
    | unit =>
      rw [leave_unit c hc hr] at h
      cases h
      exact nofun
    | call this strict constructed =>
      rw [leave_call c hc hr] at h
      split at h <;> cases h <;> exact nofun

/-- A step that begins to hang has come to such an instruction. -/
theorem hung_of_step (hs : m.step = .next m') (hm : m.status ≠ .hanging)
    (hstatus : m'.status = .hanging) : m'.Hung := by
  cases hst : m.status with
  | hanging => exact absurd hst hm
  | finishing c =>
    rw [step_finishing hst] at hs
    exact absurd hstatus (status_leave hs)
  | running =>
    revert hs
    refine step_running (motive := fun t => t = .next m' → m'.Hung) hst ?_ ?_ ?_ ?_ ?_ ?_
    · rintro c _ _ ⟨⟩
      cases hstatus
    · rintro e _ _ ⟨⟩
    · rintro i hi hh ⟨⟩
      obtain ⟨v, hv⟩ := exists_of_hangs hh
      exact ⟨rfl, ⟨i, hi, hh⟩, v, Realm.writeText?_of_text? hv⟩
    · rintro i m1 hi he ⟨⟩
      have hexec : (stateOf (exec i m.advance)).status = .running := by
        refine exec_preserves (P := fun m' => m'.status = .running) (fun hstays => ?_)
          fun henters => ?_
        · exact hstays.status.trans hst
        · cases henters with
          | unit => rfl
          | call hcalls =>
            cases hcalls
            rfl
      rw [he] at hexec
      cases hexec.symm.trans hstatus
    · rintro i fault m1 hi he ⟨⟩
      cases hstatus
    · rintro i e m1 hi he ⟨⟩

/-! ## Stopping -/

/-- The machine makes only finitely many steps before it halts or hangs. -/
def Stops (m : Machine) : Prop :=
  Acc (fun m' m => m.status ≠ .hanging ∧ m.step = .next m') m

theorem Stops.settles (h : m.Stops) (hm : m.status ≠ .hanging) :
    (∃ fuel result realm context, run fuel m = .halted result realm context) ∨
      ∃ fuel m', run fuel m = .exhausted m' ∧ m'.Hung := by
  induction h with
  | intro m _ ih =>
    cases hs : m.step with
    | halt result realm context => exact .inl ⟨1, result, realm, context, run_succ_halt hs 0⟩
    | next m' =>
      by_cases hm' : m'.status = .hanging
      · exact .inr ⟨1, m', run_succ_next hs 0, hung_of_step hs hm hm'⟩
      · rcases ih m' ⟨hm, hs⟩ hm' with ⟨fuel, result, realm, context, hrun⟩ | ⟨fuel, m1, hrun, hung⟩
        · exact .inl ⟨fuel + 1, result, realm, context, (run_succ_next hs fuel).trans hrun⟩
        · exact .inr ⟨fuel + 1, m1, (run_succ_next hs fuel).trans hrun, hung⟩

theorem stops_of_hanging (h : m.status = .hanging) : m.Stops :=
  .intro m fun _ hm => absurd h hm.1

/-- States in `I` have fewer than `limit` frames below the running one, and all walks through the
unit of the running frame come to an end. -/
structure Bounded (I : Machine → Prop) (limit : Nat) : Prop where
  next : ∀ {m m'}, I m → m.step = .next m' → I m' ∧ Paces m m'
  few : ∀ {m}, I m → m.callers.length < limit
  ends : ∀ {m}, I m → ∀ temps, Ends m.frame.unit ⟨0, temps⟩

def StopsAt (I : Machine → Prop) (u : CodeUnit) (p : Place) (callers : List Frame) : Prop :=
  ∀ m, I m → m.frame.unit = u → m.frame.place = p → m.callers = callers → m.Stops

/-- States in `I` stop once they have come back to the first of these frames. -/
def StopsBelow (I : Machine → Prop) : List Frame → Prop
  | [] => True
  | f :: callers => StopsAt I f.unit f.place callers

variable {I : Machine → Prop} {limit : Nat}

theorem stops_of_finishing (hI : Bounded I limit) (h : I m) {c : Completion}
    (hs : m.status = .finishing c) (hbelow : StopsBelow I m.callers) : m.Stops := by
  refine .intro m fun m' hm => ?_
  obtain ⟨h', hpaces⟩ := hI.next h hm.2
  cases hpaces with
  | hangs hhangs => exact stops_of_hanging hhangs
  | ends hrun _ _ | turns hrun _ _ _ | enters hrun _ _ _ _ =>
    rw [hs] at hrun
    cases hrun
  | leaves hcallers hunit hplace =>
    rw [hcallers] at hbelow
    exact hbelow m' h' hunit hplace rfl

/-- The induction on the frames that there is room for, and on the walks of the running one. -/
theorem stopsAt_of_ends (hI : Bounded I limit) {room : Nat} {u : CodeUnit} {p : Place}
    {callers : List Frame} (hroom : limit ≤ callers.length + room)
    (hbelow : StopsBelow I callers) (hends : Ends u p) : StopsAt I u p callers := by
  induction room generalizing u p callers with
  | zero =>
    intro m h _ _ hcallers
    have := hI.few h
    rw [hcallers] at this
    omega
  | succ room ihroom =>
    induction hends with
    | intro p _ ihp =>
      rintro m h rfl rfl rfl
      refine .intro m fun m' hm => ?_
      obtain ⟨h', hpaces⟩ := hI.next h hm.2
      cases hpaces with
      | hangs hhangs => exact stops_of_hanging hhangs
      | ends _ hs hcallers => exact stops_of_finishing hI h' hs (hcallers ▸ hbelow)
      | turns _ hcallers hunit hfollows => exact ihp _ hfollows m' h' hunit rfl hcallers
      | @enters f _ hcallers hunit hfollows hnext =>
        have hcaller : StopsBelow I (f :: m.callers) := by
          show StopsAt I f.unit f.place m.callers
          rw [hunit]
          exact ihp _ hfollows
        have hplace : m'.frame.place = ⟨0, m'.frame.temps⟩ := hnext ▸ rfl
        refine ihroom ?_ hcaller (hI.ends h' _) m' h' rfl hplace hcallers
        rw [List.length_cons]
        omega
      | leaves hcallers hunit hplace =>
        rw [hcallers] at hbelow
        exact hbelow m' h' hunit hplace rfl

/-! ## Programs without loops -/

/-- A state of a run in which nothing but code of programs without loops takes part. -/
structure Loopless (context : Context) (base limit n : Nat) (m : Machine) : Prop where
  sound : ∀ k, (Policy.compiled False).Sound k m
  layers : m.Layers n
  unwinds : m.Unwinds context base limit
  only : m.OnlyFrom (Artifact.CompiledFrom fun p => p.loopFree = true)

variable {context : Context} {base n : Nat}

theorem Loopless.callers_lt (h : m.Loopless context base limit n) :
    m.callers.length < max limit base * n + n := by
  obtain ⟨id, hframes⟩ := h.layers.frames
  have hcount : (m.frame :: m.callers).countP (·.resume.isCall) ≤ max limit base := by
    have := h.unwinds.nested.depth_eq
    have := h.unwinds.bounded
    omega
  have hlength := hframes.length_le
  have := Nat.mul_le_mul_right n hcount
  have := hframes.lt
  rw [List.length_cons] at hlength
  omega

theorem Loopless.ends (h : m.Loopless context base limit n) (temps : Array Value) :
    Ends m.frame.unit ⟨0, temps⟩ := by
  obtain ⟨id, hframes⟩ := h.layers.frames
  obtain ⟨p, strict, hp, hcompile⟩ := h.only.frame.artifact
  exact ends_of_loopFree hcompile hp hframes.runs.unit temps

theorem bounded_loopless : Bounded (Loopless context base limit n) (max limit base * n + n) where
  next h hs :=
    ⟨⟨Policy.sound_next (Policy.fresh_of_lax _) h.sound hs, h.layers.step hs, h.unwinds.next hs,
      h.only.next hs⟩, paces_step not_open_compiled (h.sound 1) (Policy.fresh_of_lax _) hs⟩
  few := Loopless.callers_lt
  ends := Loopless.ends

end Machine

theorem Outcome.exhausted_of_hangs {o : Outcome} (h : o.hangs = true) :
    ∃ m, o = .exhausted m ∧ m.status = .hanging := by
  cases o with
  | halted result r context => cases h
  | exhausted m =>
    obtain ⟨realm, context, frame, callers, status⟩ := m
    cases status with
    | hanging => exact ⟨_, rfl, rfl⟩
    | running | finishing c => cases h

section

variable {artifact : Artifact} {id : UnitId} {realm : Realm} {context : Context} {fuel : Nat}
  {m : Machine} (h : invoke fuel artifact id realm context = .exhausted m)
  (hm : m.status = .hanging)
include h hm

theorem invoke_hanging (n : Nat) : invoke (fuel + n) artifact id realm context = .exhausted m := by
  obtain ⟨frame, hs, hrun⟩ := run_of_invoke h
  exact invoke_of_run hs ((Machine.run_add hrun n).trans (Machine.run_hanging hm n))

/-- What hangs at some time never halts. -/
theorem exhausted_of_hanging (n : Nat) :
    ∃ m', invoke n artifact id realm context = .exhausted m' := by
  obtain ⟨frame, hs, hrun⟩ := run_of_invoke h
  cases hn : Machine.run n { realm := realm.countRun frame.unit.name, context, frame } with
  | exhausted m' => exact ⟨m', invoke_of_run hs hn⟩
  | halted result r' context' =>
    have hlater := Machine.run_add_halted hn fuel
    rw [Nat.add_comm, Machine.run_add hrun, Machine.run_hanging hm] at hlater
    cases hlater

end

/-- The artifacts of the functions in a realm are all below some size. -/
theorem Realm.exists_units_le (r : Realm) : ∃ n, ∀ c, r.Holds c → c.artifact.units.size ≤ n := by
  let size (o : Object) : Nat := (o.closure?.map (·.artifact.units.size)).getD 0
  refine ⟨(r.objects.toList.map size).max?.getD 0, ?_⟩
  rintro c ⟨ref, hc⟩
  unfold Realm.object at hc
  rw [Array.getD_eq_getD_getElem?] at hc
  cases ho : r.objects[ref.index]? with
  | none =>
    rw [ho] at hc
    cases hc
  | some o =>
    rw [ho] at hc
    have hc : o.closure? = some c := hc
    have hsize : size o = c.artifact.units.size := by
      show (o.closure?.map _).getD 0 = _
      rw [hc]
      rfl
    rw [← hsize]
    exact List.le_max?_getD_of_mem (List.mem_map_of_mem (Array.mem_toList_iff.mpr
      (Array.mem_of_getElem? ho)))

theorem Machine.loopless_start {p : Program} {strict : Bool} {a : Artifact} {r : Realm}
    {context : Context} {f : Frame} {n : Nat} (hc : compile p strict = .ok a)
    (hp : p.loopFree = true) (hn : a.units.size ≤ n)
    (hr : r.OnlyFrom (Artifact.CompiledFrom fun q => q.loopFree = true))
    (hunits : ∀ c, r.Holds c → c.artifact.units.size ≤ n)
    (hs : Frame.start a a.entry context.env .unit = .ok f) :
    Machine.Loopless context r.callDepth r.maxCallDepth n
      { realm := r.countRun f.unit.name, context, frame := f } where
  sound := Policy.sound_start (hr.trusts fun _ _ h => h.elim) (trusts_entry hc False.elim) hs
  layers := by
    refine ⟨⟨a.entry, .root (.start ⟨⟨p, strict, hc⟩, hn⟩ hs)⟩, fun {c} hholds => ?_⟩
    rcases (Realm.steady_countRun (K := fun _ => False) r f.unit.name).holds hholds with hholds | h
    · obtain ⟨a', ⟨p', strict', -, hc'⟩, hof⟩ := hr hholds
      refine ⟨a', ⟨⟨p', strict', hc'⟩, ?_⟩, hof⟩
      rw [← hof.1]
      exact hunits c hholds
    · exact h.elim
  unwinds := unwinds_start r hs
  only := onlyFrom_start hr ⟨p, strict, hp, hc⟩ hs

/-- A program without `while`, `do` and `for` halts, in every realm whose functions come from such
programs, whatever the limit of calls is there.  If it does not, it comes after finitely many steps
to an instruction that needs a text which has no end, and hangs there. -/
theorem runProgram_loopFree_halts_or_hangs {p : Program} {strict : Bool} {a : Artifact} {r : Realm}
    (hc : compile p strict = .ok a) (hp : p.loopFree = true)
    (hr : r.OnlyFrom (Artifact.CompiledFrom fun q => q.loopFree = true)) (global : Bool) :
    (∃ fuel result r' context, runProgram fuel a r global = .halted result r' context) ∨
      ∃ fuel m, (∀ n, runProgram (fuel + n) a r global = .exhausted m) ∧ m.Hung := by
  obtain ⟨n, hunits⟩ := r.exists_units_le
  obtain ⟨f, hs⟩ : ∃ f, Frame.start a a.entry (Context.global global).env .unit = .ok f := by
    obtain ⟨u, hu, -⟩ := compile_entry hc
    exact ⟨_, Machine.start_ok_iff.mpr ⟨u, hu, rfl⟩⟩
  have hstart := Machine.loopless_start hc hp (Nat.le_max_right n _) hr
    (fun c hholds => Nat.le_trans (hunits c hholds) (Nat.le_max_left _ _)) hs
  have hplace : f.place = ⟨0, f.temps⟩ := by
    obtain ⟨u, -, rfl⟩ := Machine.start_ok_iff.mp hs
    rfl
  have hstops := Machine.stopsAt_of_ends Machine.bounded_loopless (Nat.le_add_left _ _)
    (show Machine.StopsBelow _ [] from trivial) (hstart.ends f.temps) _ hstart rfl hplace rfl
  rcases Machine.Stops.settles hstops nofun with
    ⟨fuel, result, r', context, hrun⟩ | ⟨fuel, m, hrun, hm⟩
  · exact .inl ⟨fuel, invoke_halted_of_run hs hrun⟩
  · exact .inr ⟨fuel, m, fun n => invoke_hanging (invoke_of_run hs hrun) hm.status n, hm⟩

/-- `try { missing } catch (e) { e.message = e; "" + e }` -/
def writingItself : Program where
  body := [.tryCatch [.expression (.identifier "missing")]
    (some (.mk "e" [.expression (.assignment .assign
      (.member (.identifier "e") (.identifier "message") false) (.identifier "e")),
      .expression (.binary .add (.string "") (.identifier "e"))])) none]

/-- A program without loops that never halts: the text of an error which is its own message has no
end. -/
theorem runProgram_writingItself_never_halts :
    writingItself.loopFree = true ∧
      (Realm.create 16 false).OnlyFrom (Artifact.CompiledFrom fun q => q.loopFree = true) ∧
      ∃ a, compile writingItself false = .ok a ∧
        ∀ fuel, ∃ m, runProgram fuel a (.create 16 false) false = .exhausted m := by
  have hnew : Realm.IsNew (.create 16 false) := ⟨16, false, rfl⟩
  have hrun : ((compile writingItself false).toOption.map fun a =>
      (runProgram 100 a (.create 16 false) false).hangs) = some true := by
    decide +kernel
  obtain ⟨a, ha, hhangs⟩ := Option.map_eq_some_iff.mp hrun
  refine ⟨by decide +kernel, hnew.onlyFrom, a, ok_of_toOption ha, fun fuel => ?_⟩
  obtain ⟨m, hout, hm⟩ := Outcome.exhausted_of_hangs hhangs
  exact exhausted_of_hanging hout hm fuel

/-- `function f() { try { f() } catch (e) { f() } }` -/
def retrying : Program where
  body := [.function (.mk (some "f") [] [.tryCatch [.expression (.call (.identifier "f") [])]
    (some (.mk "e" [.expression (.call (.identifier "f") [])])) none] false)]

/-- `for (var k in { a: null, b: null }) f()` -/
def retryingForKeys : Program where
  body := [.forIn (.declaration [.mk "k" none])
    (.object [.value (.identifier "a") .null, .value (.identifier "b") .null])
    (.expression (.call (.identifier "f") []))]

theorem retrying_compiles :
    ((compile retrying false).toOption.bind fun a =>
      (runProgram 100 a (.create 1000 false) false).realm?.bind fun _ =>
        (compile retryingForKeys false).toOption).isSome = true := by
  decide +kernel

/-- Each call that is refused is tried once more, at every depth, so this takes more than `2 ^ 1000`
steps. -/
theorem runProgram_loopFree_halts_or_hangs_retrying :
    ∃ a r b, compile retrying false = .ok a ∧
      (∃ c context, runProgram 100 a (.create 1000 false) false = .halted (.ok c) r context) ∧
      r.OnlyFrom (Artifact.CompiledFrom fun q => q.loopFree = true) ∧
      compile retryingForKeys false = .ok b ∧ retryingForKeys.loopFree = true ∧
      ((∃ fuel result r' context, runProgram fuel b r false = .halted result r' context) ∨
        ∃ fuel m, (∀ n, runProgram (fuel + n) b r false = .exhausted m) ∧ m.Hung) := by
  obtain ⟨b, h⟩ := Option.isSome_iff_exists.mp retrying_compiles
  obtain ⟨a, ha, h⟩ := Option.bind_eq_some_iff.mp h
  obtain ⟨r, hr, hb⟩ := Option.bind_eq_some_iff.mp h
  have ha := ok_of_toOption ha
  have hb := ok_of_toOption hb
  obtain ⟨c, context, hrun⟩ := Outcome.of_realm? hr
  have hnew : Realm.IsNew (.create 1000 false) := ⟨1000, false, rfl⟩
  have honly : r.OnlyFrom (Artifact.CompiledFrom fun q => q.loopFree = true) :=
    onlyFrom_of_invoke hnew.onlyFrom ⟨retrying, false, by decide +kernel, ha⟩ hrun
  have hfree : retryingForKeys.loopFree = true := by decide +kernel
  exact ⟨a, r, b, ha, ⟨c, context, hrun⟩, honly, hb, hfree,
    runProgram_loopFree_halts_or_hangs hb hfree honly false⟩

end TreeScript
