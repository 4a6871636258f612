import TreeScript.Proofs.Machine.Reach
import TreeScript.Proofs.Machine.Safety

/-!
# Runs of trusted code

What safe code does when the machine runs it, beside code about which nothing is known.  A `Policy`
says which units are foreign, and how all others that are called or run as programs end.  The state
of the machine is sound if every frame can go on as soon as it gets what it waits for, and a step
keeps it sound.
-/

namespace TreeScript

open Code Lowering

structure Policy extends Rules where
  fair : Fair ends
  foreign : Artifact → UnitId → Prop
  reaches : ∀ {a id}, foreign a id → ∀ id', foreign a id' ∨
    ∃ u, a.unit? id' = some u ∧ ∀ n, Safe a toRules n u (Ending ends) .start

variable {a : Artifact} {id : UnitId} {context : Context} {resume : Resume} {env : EnvRef}
  {i : Instruction}

namespace Policy

variable (P : Policy)

def Open : Prop := ∃ a id, P.foreign a id

def Trusts (n : Nat) (a : Artifact) (id : UnitId) : Prop :=
  P.foreign a id ∨ ∃ u, a.unit? id = some u ∧ Safe a P.toRules n u (Ending P.ends) .start

def TrustsAll (n : Nat) (r : Realm) : Prop :=
  ∀ ⦃c⦄, r.Holds c → P.Trusts n c.artifact c.info.unit

def IsForeign (f : Frame) : Prop :=
  ∃ id, f.artifact.unit? id = some f.unit ∧ P.foreign f.artifact id

/-- A frame may end as `post` says. -/
inductive MayEnd (f : Frame) (post : Completion → Prop) : Prop where
  | own : Fair post → (isDeclaring f.unit.role = true → ∀ c, post c → P.ends c) → MayEnd f post
  | foreign : P.IsForeign f → (∀ c, post c) → MayEnd f post

def Ready (n : Nat) (post : Completion → Prop) (f : Frame) : Prop :=
  P.IsForeign f ∧ (∀ c, post c) ∨
    f.temps.size = f.unit.tempCount ∧ Safe f.artifact P.toRules n f.unit (Ending post) f.view

/-- What comes of a call, or of a program, that ends as `post` says. -/
def Closed (post : Completion → Prop) : Prop := P.Open ∨ ∀ c, post c → P.ends c

/-- The frames that wait for one which ends as `post` says can then go on for `n` steps. -/
inductive Waits (n : Nat) : Resume → (Completion → Prop) → List Frame → Prop where
  | root {resume : Resume} {post : Completion → Prop} : P.Closed post → Waits n resume post []
  | unit {post post' : Completion → Prop} {caller : Frame} {callers : List Frame} :
    P.MayEnd caller post' → (∀ c, post c → P.Ready n post' (caller.push (.completion c))) →
    Waits n caller.resume post' callers → Waits n .unit post (caller :: callers)
  | call {post post' : Completion → Prop} {caller : Frame} {callers : List Frame} {this : Value}
      {strict : Bool} {constructed : Option Value} :
    P.Closed post → P.MayEnd caller post' →
    (∀ v, P.Ready n post' (caller.push (.value v))) → Waits n caller.resume post' callers →
    Waits n (.call this strict constructed) post (caller :: callers)

/-- Whether the running frame can go on for `n` steps, or has ended as it may. -/
def Goes (n : Nat) (post : Completion → Prop) (f : Frame) : Status → Prop
  | .running => P.Ready n post f
  | .finishing c => post c
  | .hanging => True

/-- A state from which the machine does nothing wrong for `n` steps. -/
structure Sound (n : Nat) (m : Machine) : Prop where
  realm : P.TrustsAll n m.realm
  frame : ∃ post, P.MayEnd m.frame post ∧ P.Waits n m.frame.resume post m.callers ∧
    P.Goes n post m.frame m.status

variable {P} {n : Nat} {m m' : Machine} {f f' : Frame} {post : Completion → Prop}

/-! ## Fewer steps -/

theorem Trusts.pred (h : P.Trusts (n + 1) a id) : P.Trusts n a id := by
  rcases h with h | ⟨u, hu, hs⟩
  · exact .inl h
  · exact .inr ⟨u, hu, hs.pred⟩

theorem Ready.pred (h : P.Ready (n + 1) post f) : P.Ready n post f := by
  rcases h with h | ⟨ht, hs⟩
  · exact .inl h
  · exact .inr ⟨ht, hs.pred⟩

theorem Waits.pred {callers : List Frame} (h : P.Waits (n + 1) resume post callers) :
    P.Waits n resume post callers := by
  induction h with
  | root hc => exact .root hc
  | unit hm hr _ ih => exact .unit hm (fun c hc => (hr c hc).pred) ih
  | call hc hm hr _ ih => exact .call hc hm (fun v => (hr v).pred) ih

/-! ## The running frame -/

theorem IsForeign.alike (h : P.IsForeign f) (ha : f.Alike f') : P.IsForeign f' := by
  obtain ⟨id, hu, hf⟩ := h
  refine ⟨id, ?_, ?_⟩
  · rw [ha.artifact, ha.unit]
    exact hu
  · rw [ha.artifact]
    exact hf

theorem MayEnd.alike (h : P.MayEnd f post) (ha : f.Alike f') : P.MayEnd f' post := by
  cases h with
  | own hf hd => exact .own hf (ha.unit ▸ hd)
  | foreign hf hp => exact .foreign (hf.alike ha) hp

theorem MayEnd.throwing (h : P.MayEnd f post) (v : Value) : post (.throwing v) := by
  cases h with
  | own hf _ => exact hf.throwing v
  | foreign _ hp => exact hp _

variable {r r' : Realm}

theorem TrustsAll.steady {K : Closure → Prop} (h : P.TrustsAll n r) (hr : Realm.Steady K r r')
    (hK : ∀ {c}, K c → P.Trusts n c.artifact c.info.unit) : P.TrustsAll n r' :=
  fun _ hc => (hr.holds hc).elim (h ·) hK

theorem TrustsAll.same (h : P.TrustsAll n r) (hr : Realm.Steady (fun _ => False) r r') :
    P.TrustsAll n r' :=
  h.steady hr False.elim

theorem ready_start (h : P.Trusts n a id) (hs : Frame.start a id env resume = .ok f) :
    ∃ post, P.MayEnd f post ∧ P.Closed post ∧ P.Ready n post f := by
  obtain ⟨u, hu, rfl⟩ := Machine.start_ok_iff.mp hs
  rcases h with hf | ⟨u', hu', hsafe⟩
  · exact ⟨fun _ => True, .foreign ⟨id, hu, hf⟩ fun _ => trivial, .inl ⟨_, id, hf⟩,
      .inl ⟨⟨id, hu, hf⟩, fun _ => trivial⟩⟩
  · obtain rfl : u = u' := Option.some.inj (hu.symm.trans hu')
    exact ⟨P.ends, .own P.fair fun _ _ hc => hc, .inr fun _ hc => hc,
      .inr ⟨Array.size_replicate, hsafe⟩⟩

theorem ready_of_alike (ha : f.Alike f') (ht : f.temps.size = f.unit.tempCount)
    (hs : Safe f.artifact P.toRules n f.unit (Ending post) f'.view) : P.Ready n post f' := by
  refine .inr ⟨?_, ?_⟩
  · rw [ha.temps, ha.unit]
    exact ht
  · rw [ha.artifact, ha.unit]
    exact hs

/-! ## What an instruction leaves -/

/-- The frame that runs an instruction which does not go through may still end. -/
def Leaves (P : Policy) (n : Nat) : EStateM.Result Interrupt Machine Unit → Prop
  | .ok _ m => P.Sound n m
  | .error (.thrown _) m => P.TrustsAll n m.realm ∧
    ∃ post, P.MayEnd m.frame post ∧ P.Waits n m.frame.resume post m.callers
  | .error (.fatal _) m => P.TrustsAll n m.realm ∧ P.Open

theorem sound_called {closure : Closure} {constructed : Option Value} {callee : Frame}
    {this : Value} (hr : P.TrustsAll n r) (hc : P.Trusts n closure.artifact closure.info.unit)
    (hs : Frame.start closure.artifact closure.info.unit m.context.env
      (.call m.context.this m.context.strict constructed) = .ok callee)
    (hm : P.MayEnd m.frame post) (hw : P.Waits n m.frame.resume post m.callers)
    (hq : ∀ v, P.Ready n post (m.frame.push (.value v))) :
    P.Sound n (m.called r env this closure.info.strict callee) := by
  obtain ⟨post', hm', hc', hr'⟩ := ready_start hc hs
  obtain ⟨u, -, rfl⟩ := Machine.start_ok_iff.mp hs
  exact ⟨hr.same (Realm.steady_countRun r _), post', hm', .call hc' hm hq hw, hr'⟩

theorem leaves_enterFunction (callee receiver : Value) (args : List Value)
    (constructed : Option Value) (hr : P.TrustsAll n m.realm) (hm : P.MayEnd m.frame post)
    (hw : P.Waits n m.frame.resume post m.callers)
    (hq : ∀ v, P.Ready n post (m.frame.push (.value v))) :
    P.Leaves n (Machine.enterFunction callee receiver args constructed m) := by
  refine Machine.enterFunction_cases callee receiver args constructed m ⟨hr, post, hm, hw⟩ ?_
    ⟨hr, post, hm, hw⟩ ?_
  · intro closure e hh hs
    refine ⟨hr, ?_⟩
    rcases hr hh with hf | ⟨u, hu, -⟩
    · exact ⟨_, _, hf⟩
    · rw [Frame.start, hu] at hs
      cases hs
  · intro closure frame r hh hs _ hnew
    have hmoves := Machine.moves_newCallEnv (K := fun _ => False) closure args
      { m.realm with callDepth := m.realm.callDepth + 1 }
    rw [hnew] at hmoves
    have hr' : P.TrustsAll n { m.realm with callDepth := m.realm.callDepth + 1 } := hr
    exact sound_called (hr'.same hmoves) (hr hh) hs hm hw hq

theorem leaves_own (hr : P.TrustsAll n m.realm) (hm : P.MayEnd m.frame post)
    (hw : P.Waits n m.frame.resume post m.callers) (hrun : m.status = .running)
    (ht : m.frame.temps.size = m.frame.unit.tempCount)
    (hn : Needs m.frame.artifact m.frame.unit P.toRules
      (fun u' post' => Safe m.frame.artifact P.toRules n u' (Ending post') .start)
      (Safe m.frame.artifact P.toRules n m.frame.unit (Ending post)) m.frame.view i)
    (hnew : i = .operate .newObject → P.plain (.object ⟨m.realm.objects.size⟩)) :
    P.Leaves n (Machine.exec i m) := by
  have hcomes := Machine.comes_of_needs ht hn hnew
    (Machine.permits_steady (K := fun c => P.Trusts n c.artifact c.info.unit)
      fun _ hu hs => .inr ⟨_, hu, hs⟩)
  -- Whatever the frame has done so far, it may end as before and is waited for as before.
  have hkeep : ∀ {m'},
      Machine.Works (Realm.Steady fun c => P.Trusts n c.artifact c.info.unit) m m' →
      P.TrustsAll n m'.realm ∧ P.MayEnd m'.frame post ∧
        P.Waits n m'.frame.resume post m'.callers := by
    intro m' h
    refine ⟨hr.steady h.realm fun hc => hc, hm.alike h.frame, ?_⟩
    rw [h.frame.resume, h.callers]
    exact hw
  generalize hx : Machine.exec i m = result at hcomes
  cases hcomes with
  | done hworks _ hq =>
    obtain ⟨hr', hm', hw'⟩ := hkeep hworks
    refine ⟨hr', post, hm', hw', ?_⟩
    rw [hworks.status, hrun]
    exact ready_of_alike hworks.frame ht hq
  | thrown hworks =>
    obtain ⟨hr', hm', hw'⟩ := hkeep hworks
    exact ⟨hr', post, hm', hw'⟩
  | @unit id u post' _ hu hd hfair hs hq =>
    rw [Machine.exec_invoke hu]
    refine ⟨hr.same (Realm.steady_countRun _ _), post', .own hfair fun h => ?_, ?_, ?_⟩
    · rw [hd] at h
      cases h
    · refine .unit hm (fun c hc => ?_) hw
      exact ready_of_alike (f := m.frame) ⟨rfl, rfl, rfl, rfl, rfl⟩ ht (hq c hc)
    · exact .inr ⟨Array.size_replicate, hs⟩
  | call callee receiver args constructed _ _ hworks _ hq =>
    obtain ⟨hr', hm', hw'⟩ := hkeep hworks
    refine leaves_enterFunction callee receiver args constructed hr' hm' hw' fun v => ?_
    refine ready_of_alike (f := m.frame) ?_ ht (hq v)
    exact hworks.frame.trans ⟨rfl, rfl, rfl, rfl, rfl⟩

theorem leaves_foreign (i : Instruction) (hf : P.IsForeign m.frame) (hr : P.TrustsAll n m.realm)
    (hp : ∀ c, post c) (hw : P.Waits n m.frame.resume post m.callers)
    (hrun : m.status = .running) : P.Leaves n (Machine.exec i m) := by
  obtain ⟨id, hu, hforeign⟩ := hf
  have hreach : ∀ id', P.Trusts n m.frame.artifact id' := by
    intro id'
    rcases P.reaches hforeign id' with h | ⟨u, hu', hs⟩
    · exact .inl h
    · exact .inr ⟨u, hu', hs n⟩
  have hkeep : ∀ {m'}, Machine.Stays m m' →
      P.TrustsAll n m'.realm ∧ P.IsForeign m'.frame ∧
        P.Waits n m'.frame.resume post m'.callers := by
    intro m' h
    refine ⟨hr.steady h.realm ?_, IsForeign.alike ⟨id, hu, hforeign⟩ h.frame, ?_⟩
    · rintro c ⟨ha, -⟩
      rw [ha]
      exact hreach _
    · rw [h.frame.resume, h.callers]
      exact hw
  rcases (Machine.effective_exec i).effect m with hs | ⟨m', he, hin⟩
  · cases hx : Machine.exec i m with
    | ok _ m' =>
      rw [hx] at hs
      have hs : Machine.Stays m m' := hs
      obtain ⟨hr', hf', hw'⟩ := hkeep hs
      refine ⟨hr', post, .foreign hf' hp, hw', ?_⟩
      rw [hs.status, hrun]
      exact .inl ⟨hf', hp⟩
    | error e m' =>
      rw [hx] at hs
      obtain ⟨hr', hf', hw'⟩ := hkeep hs
      cases e with
      | thrown fault => exact ⟨hr', post, .foreign hf' hp, hw'⟩
      | fatal e => exact ⟨hr', _, _, hforeign⟩
  · rw [he]
    cases hin with
    | unit _ hs =>
      obtain ⟨post', hm', -, hr'⟩ := ready_start (hreach _) hs
      obtain ⟨u, -, rfl⟩ := Machine.start_ok_iff.mp hs
      refine ⟨hr.same (Realm.steady_countRun _ _), post', hm', ?_, hr'⟩
      exact .unit (.foreign ⟨id, hu, hforeign⟩ hp) (fun c _ => .inl ⟨⟨id, hu, hforeign⟩, hp⟩) hw
    | call hc =>
      obtain @⟨m1, closure, _, callee, r, _, hl, hh, hs, -, hsteady⟩ := hc
      obtain ⟨hr1, hf1, hw1⟩ := hkeep hl.toStays
      have hr' : P.TrustsAll n { m1.realm with callDepth := m1.realm.callDepth + 1 } := hr1
      exact sound_called (hr'.same (hsteady _)) (hr1 hh) hs (.foreign hf1 hp) hw1
        fun v => .inl ⟨hf1.alike ⟨rfl, rfl, rfl, rfl, rfl⟩, hp⟩

/-! ## Steps and runs -/

def Fresh (P : Policy) (m : Machine) : Prop :=
  m.status = .running → m.frame.unit.instructions[m.frame.next]? = some (.operate .newObject) →
    P.plain (.object ⟨m.realm.objects.size⟩)

/-- Properties may be defined on anything. -/
class Lax (P : Policy) : Prop where
  plain : ∀ v, P.plain v

theorem fresh_of_lax [P.Lax] (m : Machine) : P.Fresh m := fun _ _ => Lax.plain _

/-- How a run may halt: as a program may end, or because a body ended with a jump that it may end
with. -/
def MayHalt (P : Policy) : Except MachineError Completion → Prop
  | .ok c => P.ends c
  | .error e => ∃ c name, e = .escapedCompletion c.kind name ∧ P.ends c ∧
    (c.kind = .break ∨ c.kind = .continue)

def Steps (P : Policy) (n : Nat) : Transition → Prop
  | .next m => P.Sound n m
  | .halt result realm _ => P.TrustsAll n realm ∧ (P.Open ∨ P.MayHalt result)

theorem sound_throwFault (fault : Fault) (hr : P.TrustsAll n m.realm) (hm : P.MayEnd m.frame post)
    (hw : P.Waits n m.frame.resume post m.callers) : P.Sound n (m.throwFault fault) :=
  ⟨hr.same (Realm.steady_materialize m.realm fault), post, hm, hw, hm.throwing _⟩

theorem escaped_kind {c : Completion} {constructed : Option Value} {kind : CompletionKind}
    (h : CallResult.ofCompletion c constructed = .escaped kind) :
    c.kind = kind ∧ (c.kind = .break ∨ c.kind = .continue) := by
  unfold CallResult.ofCompletion at h
  cases hk : c.kind with
  | normal | «return» => cases constructed <;> simp [hk] at h
  | throw => simp [hk] at h
  | «break» => simpa [hk] using h
  | «continue» => simpa [hk] using h

theorem steps_leave {c : Completion} (hr : P.TrustsAll n m.realm) (hc : post c)
    (hw : P.Waits n m.frame.resume post m.callers) : P.Steps n (m.leave c) := by
  generalize hres : m.frame.resume = resume at hw
  generalize hcallers : m.callers = callers at hw
  cases hw with
  | root hclosed =>
    rw [Machine.leave_root c hcallers]
    refine ⟨hr, ?_⟩
    rcases hclosed with ho | he
    · exact .inl ho
    · exact .inr (he c hc)
  | unit hm hq hw' =>
    rw [Machine.leave_unit c hcallers hres]
    exact ⟨hr, _, hm.alike ⟨rfl, rfl, rfl, rfl, rfl⟩, hw', hq c hc⟩
  | call hclosed hm hq hw' =>
    rw [Machine.leave_call c hcallers hres]
    split
    · exact ⟨hr, _, hm.alike ⟨rfl, rfl, rfl, rfl, rfl⟩, hw', hq _⟩
    · exact ⟨hr, _, hm, hw', hm.throwing _⟩
    · next kind hk =>
      refine ⟨hr, ?_⟩
      rcases hclosed with ho | he
      · exact .inl ho
      · obtain ⟨rfl, hjump⟩ := escaped_kind hk
        exact .inr ⟨c, _, rfl, he c hc, hjump⟩

theorem steps_of_leaves (hi : m.frame.unit.instructions[m.frame.next]? = some i)
    (hrun : m.status = .running) (hhang : P.Sound n { m with status := .hanging })
    (h : P.Leaves n (Machine.exec i m.advance)) : P.Steps n m.step := by
  cases hh : m.hangs i with
  | true =>
    rw [Machine.step_hang hrun hi hh]
    exact hhang
  | false =>
    rw [Machine.step_eq hrun hi hh]
    cases he : Machine.exec i m.advance with
    | ok u m' =>
      rw [he] at h
      exact h
    | error e m' =>
      rw [he] at h
      cases e with
      | thrown fault =>
        obtain ⟨hr, post, hm, hw⟩ := h
        exact sound_throwFault fault hr hm hw
      | fatal e => exact ⟨h.1, .inl h.2⟩

/-- At the end of its code a frame that is safe has the completion that it may end with, and a
foreign one may end anyhow. -/
theorem steps_end (hi : m.frame.unit.instructions[m.frame.next]? = none)
    (hrun : m.status = .running) (hr : P.TrustsAll n m.realm) (hm : P.MayEnd m.frame post)
    (hw : P.Waits n m.frame.resume post m.callers) (hready : P.Ready (n + 1) post m.frame) :
    P.Steps n m.step := by
  have hends : (P.Open ∧ ∀ c, post c) ∨ ∃ c, m.frame.finish = .ok c ∧ post c := by
    rcases hready with ⟨⟨id, -, hf⟩, hp⟩ | ⟨-, hs⟩
    · exact .inl ⟨⟨_, id, hf⟩, hp⟩
    · have hv : m.frame.unit.instructions[m.frame.view.next]? = none := hi
      unfold Safe at hs
      rw [hv] at hs
      obtain ⟨c, hstack, hc⟩ := hs
      have hstack : m.frame.stack = [.completion c] := hstack
      refine .inr ⟨c, ?_, hc⟩
      unfold Frame.finish
      rw [hstack]
  cases hfin : m.frame.finish with
  | ok c =>
    rw [Machine.step_ended hrun hi hfin]
    refine ⟨hr, post, hm, hw, ?_⟩
    rcases hends with ⟨-, hp⟩ | ⟨c', hc', hp⟩
    · exact hp c
    · rw [hfin] at hc'
      cases hc'
      exact hp
  | error e =>
    rw [Machine.step_unbalanced hrun hi hfin]
    refine ⟨hr, .inl ?_⟩
    rcases hends with ⟨ho, -⟩ | ⟨c, hc, -⟩
    · exact ho
    · rw [hfin] at hc
      cases hc

theorem steps_step (h : P.Sound (n + 1) m) (hfresh : P.Fresh m) : P.Steps n m.step := by
  obtain ⟨hr, post, hm, hw, hgo⟩ := h
  have hr : P.TrustsAll n m.realm := fun _ hc => (hr hc).pred
  have hw := hw.pred
  cases hstatus : m.status with
  | finishing c =>
    rw [hstatus] at hgo
    rw [Machine.step_finishing hstatus]
    exact steps_leave hr hgo hw
  | hanging =>
    rw [Machine.step_hanging hstatus]
    refine ⟨hr, post, hm, hw, ?_⟩
    rw [hstatus]
    trivial
  | running =>
    rw [hstatus] at hgo
    have hready : P.Ready (n + 1) post m.frame := hgo
    cases hi : m.frame.unit.instructions[m.frame.next]? with
    | none => exact steps_end hi hstatus hr hm hw hready
    | some i =>
      refine steps_of_leaves hi hstatus ⟨hr, post, hm, hw, trivial⟩ ?_
      rcases hready with ⟨hf, hp⟩ | ⟨ht, hs⟩
      · exact leaves_foreign i (m := m.advance) (hf.alike ⟨rfl, rfl, rfl, rfl, rfl⟩) hr hp hw
          hstatus
      · have hv : m.frame.unit.instructions[m.frame.view.next]? = some i := hi
        unfold Safe at hs
        rw [hv] at hs
        exact leaves_own (m := m.advance) hr (hm.alike ⟨rfl, rfl, rfl, rfl, rfl⟩) hw hstatus ht hs
          fun h => hfresh hstatus (hi.trans (congrArg some h))

/-- The code of a sound state finds what its next instruction needs, if no code is foreign. -/
theorem Sound.needs (h : P.Sound (n + 1) m) (hclosed : ¬ P.Open) (hrun : m.status = .running)
    (hi : m.frame.unit.instructions[m.frame.next]? = some i) :
    m.frame.temps.size = m.frame.unit.tempCount ∧ ∃ post,
      Needs m.frame.artifact m.frame.unit P.toRules
        (fun u' post' => Safe m.frame.artifact P.toRules n u' (Ending post') .start)
        (Safe m.frame.artifact P.toRules n m.frame.unit (Ending post)) m.advance.frame.view i := by
  obtain ⟨-, post, -, -, hgo⟩ := h
  rw [hrun] at hgo
  rcases hgo with ⟨⟨id, -, hf⟩, -⟩ | ⟨ht, hs⟩
  · exact absurd ⟨_, id, hf⟩ hclosed
  · have hv : m.frame.unit.instructions[m.frame.view.next]? = some i := hi
    unfold Safe at hs
    rw [hv] at hs
    exact ⟨ht, post, hs⟩

theorem sound_next (hfresh : P.Fresh m) (h : ∀ n, P.Sound n m) (hs : m.step = .next m') :
    ∀ n, P.Sound n m' := by
  intro n
  have hstep := steps_step (h (n + 1)) hfresh
  rw [hs] at hstep
  exact hstep

def Halts (P : Policy) (result : Except MachineError Completion) (r : Realm) : Prop :=
  (∀ n, P.TrustsAll n r) ∧ (P.Open ∨ P.MayHalt result)

theorem halts_of_step {result : Except MachineError Completion} (hfresh : P.Fresh m)
    (h : ∀ n, P.Sound n m) (hs : m.step = .halt result r context) :
    P.Halts result r := by
  have hstep (n : Nat) : P.TrustsAll n r ∧ (P.Open ∨ P.MayHalt result) := by
    have := steps_step (h (n + 1)) hfresh
    rw [hs] at this
    exact this
  exact ⟨fun n => (hstep n).1, (hstep 0).2⟩

theorem sound_start (hr : ∀ n, P.TrustsAll n r) (h : ∀ n, P.Trusts n a id)
    (hs : Frame.start a id context.env .unit = .ok f) (n : Nat) :
    P.Sound n { realm := r.countRun f.unit.name, context, frame := f } := by
  obtain ⟨post, hm, hc, hready⟩ := ready_start (h n) hs
  exact ⟨(hr n).same (Realm.steady_countRun r _), post, hm, .root hc, hready⟩

theorem invoke_sound [P.Lax] {fuel : Nat} (hr : ∀ n, P.TrustsAll n r) (h : ∀ n, P.Trusts n a id)
    (hm : invoke fuel a id r context = .exhausted m) : ∀ n, P.Sound n m := by
  obtain ⟨frame, hs, hrun⟩ := run_of_invoke hm
  exact Machine.run_exhausted (P := fun m => ∀ n, P.Sound n m) (sound_next (fresh_of_lax _))
    (sound_start hr h hs) hrun

theorem invoke_halts [P.Lax] {fuel : Nat} {context' : Context}
    {result : Except MachineError Completion} (hr : ∀ n, P.TrustsAll n r)
    (h : ∀ n, P.Trusts n a id) (hm : invoke fuel a id r context = .halted result r' context') :
    P.Halts result r' := by
  refine halted_of_invoke (P := fun m => ∀ n, P.Sound n m) (Q := fun result r _ => P.Halts result r)
    (S := fun result r _ => P.Halts result r) (sound_next (fresh_of_lax _))
    (halts_of_step (fresh_of_lax _)) (fun _ hs => sound_start hr h hs)
    (fun e hs => ⟨hr, .inl ?_⟩) (fun hh => hh) (fun hh => hh) hm
  rcases h 0 with hf | ⟨u, hu, -⟩
  · exact ⟨a, id, hf⟩
  · rw [Frame.start, hu] at hs
    cases hs

end Policy

end TreeScript
