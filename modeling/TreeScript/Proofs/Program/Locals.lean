import TreeScript.Proofs.Lowering.Prologue
import TreeScript.Proofs.Machine.Unwinding
import TreeScript.Proofs.Program.Arenas
import TreeScript.Proofs.Program.Strictness

/-!
# Declared names stay local

The names that the body of a function declares belong to each call of it.  Whatever the call does,
and whatever it calls, a write to such a name from code of the function ends in the environment of
the call or in one of its catch scopes.  Names can be deleted in the global environment only, so
what the call has bound stays until it returns, and longer.
-/

namespace TreeScript

open Code Realm Syntax Lowering Machine

/-! ## Runs -/

section

variable {fuel : Nat} {a : Artifact} {id : UnitId} {r : Realm} {context : Context}

theorem retains_of_exhausted {m : Machine} (h : invoke fuel a id r context = .exhausted m) :
    r.Retains m.realm := by
  obtain ⟨frame, -, hrun⟩ := run_of_invoke h
  exact run_exhausted (P := fun m => r.Retains m.realm)
    (fun hm hs => hm.trans (shifts_step hs).retains)
    (rebinds_countRun r frame.unit.name).retains hrun

theorem retains_of_halted {result : Except MachineError Completion} {r' : Realm}
    {context' : Context} (h : invoke fuel a id r context = .halted result r' context') :
    r.Retains r' :=
  realm_of_invoke (P := fun m => r.Retains m.realm) (R := r.Retains)
    (fun hm hs => hm.trans (shifts_step hs).retains)
    (fun {m _ r' _} hm hs =>
      hm.trans (show m.realm.Retains (Transition.realm (.halt _ r' _)) from hs ▸ m.retains_step))
    (fun hr => hr.trans (Realm.retains_of_environments rfl)) (.refl r)
    (fun frame _ => (rebinds_countRun r frame.unit.name).retains) h

end

theorem Realm.IsNew.anchored {r : Realm} (h : r.IsNew) : r.Anchored := by
  obtain ⟨maxCallDepth, traceUnits, rfl⟩ := h
  rintro ⟨index⟩ name hne hloose
  cases index with
  | zero => exact hne rfl
  | succ index => cases hloose

theorem Realm.Reached.anchored {r : Realm} {Q : Program → Prop}
    (h : Realm.Reached Realm.IsNew Q r) : r.Anchored := by
  induction h with
  | first hr => exact hr.anchored
  | run _ _ _ hrun ih => exact ih.retains (retains_of_halted hrun)
  | takeOutput _ ih => exact ih

/-! ## Calls -/

namespace Machine

variable {m0 m1 m2 m : Machine} {a : Artifact} {id : UnitId}

theorem CallsUnit.founded (h : CallsUnit a id m0 m1) (hf : m0.Founded) : m1.Founded := by
  have hstep := settles_step hf
  rw [h.step] at hstep
  exact hstep

theorem CallsUnit.ne_globalEnv (h : CallsUnit a id m0 m1) (hf : m0.Founded) :
    m1.context.env ≠ globalEnv := by
  intro henv
  have hnew := h.enters.2.2.2
  have hglobal : globalEnv.index < m0.realm.environments.size := hf.realm.global
  rw [henv] at hnew
  exact Nat.not_le.mpr hglobal hnew

theorem CallsUnit.declaring (h : CallsUnit a id m0 m1) :
    Declaring m1.frame.unit m1.context.env m1.callers.length m1 := by
  obtain ⟨-, hnext, hstatus, -⟩ := h.enters
  by_cases hp : m1.frame.unit.prologue = 0
  · exact .done fun hlt => by omega
  · refine .running hstatus rfl rfl (by omega) rfl fun hlt => by omega

theorem CallsUnit.resolve (h : CallsUnit a id m0 m1) (hf : m0.Founded) (ha : m0.realm.Anchored)
    (h2 : During m1.callers.length m1 m2) (hrunning : m2.status = .running)
    (hpast : m1.frame.unit.prologue ≤ m2.frame.next) (hm : During m1.callers.length m2 m)
    {offset : Nat} {name : String} (hlt : offset < m1.frame.unit.prologue)
    (hb : m1.frame.unit.BindsAt offset name) {env : EnvRef} {f : Frame} {callers : List Frame}
    {opened : List EnvRef} (hw : m.HasFrame env f callers)
    (hbelongs : Belongs m1.callers.length env f callers opened) :
    ∃ ref, m.realm.resolve env name = some ref ∧ (ref = m1.context.env ∨ ref ∈ opened) ∧
      m0.realm.environments.size ≤ ref.index := by
  have hne := h.ne_globalEnv hf
  have hf1 := h.founded hf
  have ha1 := ha.retains (shifts_step h.step).retains
  have hduring := h2.trans hm
  have hfixed2 : (m2.realm.env m1.context.env).Fixed name := by
    cases h2.declaring h.declaring hf1 ha1 hne with
    | done hall => exact hall hlt hb
    | running _ _ _ hnext => omega
    | thrown hst =>
      rw [hrunning] at hst
      cases hst
  have hfixed := hm.retains.fixed hfixed2
  have hhas : m.realm.HasEnv m1.context.env :=
    Nat.lt_of_lt_of_le hf1.env hduring.retains.size
  obtain ⟨scopes, hchain, rfl⟩ :=
    ((hduring.inCall h.inCall).hasFrame hw hbelongs.depth_le).chain hbelongs
  obtain ⟨ref, hresolve, hwhere, hle⟩ := hchain.resolve (hduring.founded hf1).realm hhas hfixed
  exact ⟨ref, hresolve, hwhere, Nat.le_trans h.enters.2.2.2 hle⟩

/-- Takes steps, if the machine never returns to fewer than `depth` frames below the running one. -/
def within (depth : Nat) : Nat → Machine → Option Machine
  | 0, m => some m
  | n + 1, m =>
    match m.step with
    | .next m' => if depth ≤ m'.callers.length then within depth n m' else none
    | .halt _ _ _ => none

theorem within_succ {depth n : Nat} (h : within depth (n + 1) m1 = some m) :
    ∃ m', m1.step = .next m' ∧ depth ≤ m'.callers.length ∧ within depth n m' = some m := by
  unfold within at h
  cases hs : m1.step with
  | halt result r context =>
    rw [hs] at h
    cases h
  | next m' =>
    rw [hs] at h
    dsimp only at h
    by_cases hd : depth ≤ m'.callers.length
    · rw [if_pos hd] at h
      exact ⟨m', rfl, hd, h⟩
    · rw [if_neg hd] at h
      cases h

theorem during_of_within {depth n : Nat} (h : within depth n m1 = some m) : During depth m1 m := by
  induction n generalizing m1 with
  | zero =>
    cases h
    exact .start
  | succ n ih =>
    obtain ⟨m', hs, hd, h⟩ := within_succ h
    exact (During.start.step hs hd).trans (ih h)

end Machine

/-! ## Programs -/

/-- Deletes a name that the function around it declares, and then assigns to it. -/
def deletingHandler : List Stmt :=
  [.expression (.unary .delete (.identifier "x")), .declaration [.mk "x" (some (.boolean true))]]

def deletingLocal : FunctionDef :=
  .mk none [] [.tryCatch [.throw .null] (some (.mk "e" deletingHandler)) none] false

def callingDeleting : Program where
  body := [.expression (.call (.function deletingLocal) [])]

def callingDeletingParts : List Part :=
  [.body callingDeleting.body, .stmt (.expression (.call (.function deletingLocal) [])),
    .expr (.call (.function deletingLocal) []), .expr (.function deletingLocal),
    .function deletingLocal, .body deletingLocal.body,
    .stmt (.tryCatch [.throw .null] (some (.mk "e" deletingHandler)) none),
    .body [.throw .null], .body deletingHandler, .stmt (.throw .null), .expr .null,
    .stmt (.expression (.unary .delete (.identifier "x"))),
    .expr (.unary .delete (.identifier "x")), .expr (.identifier "x"),
    .stmt (.declaration [.mk "x" (some (.boolean true))]), .expr (.boolean true)]

theorem parts_callingDeleting {x : Part} (h : x ∈ callingDeletingParts) :
    x.parts ⊆ callingDeletingParts := by
  revert x
  simp [callingDeletingParts, Part.parts, Part.ofStmt, Part.ofExpr, Part.initializers,
    callingDeleting, deletingLocal, deletingHandler, FunctionDef.body, CatchClause.body]

theorem eq_of_mem_callingDeletingParts {f : FunctionDef}
    (h : .function f ∈ callingDeletingParts) : f = deletingLocal := by
  simpa [callingDeletingParts] using h

theorem mem_callingDeletingParts {fs : List FunctionDef} {x : Part}
    (h : callingDeleting.Stands fs x) : x ∈ callingDeletingParts := by
  induction h with
  | top => exact List.mem_cons_self
  | part _ hy ih => exact parts_callingDeleting ih hy
  | inside _ ih =>
    rw [eq_of_mem_callingDeletingParts ih]
    simp [callingDeletingParts]

theorem declares_deletingLocal : (Part.body deletingLocal.body).Declares "x" := by
  have htry : (Part.body deletingLocal.body).Holds
      (.stmt (.tryCatch [.throw .null] (some (.mk "e" deletingHandler)) none)) :=
    .part .self List.mem_cons_self
  have hhandler : (Part.body deletingLocal.body).Holds (.body deletingHandler) :=
    htry.part (List.mem_cons_of_mem _ List.mem_cons_self)
  exact ⟨.declaration [.mk "x" (some (.boolean true))],
    hhandler.part (List.mem_cons_of_mem _ List.mem_cons_self), List.mem_cons_self⟩

/-- The names that the body of a function declares stay local to its calls.  Once the declarations
of a call have run and until it returns, each of them is found, from wherever a frame of the call
works, in the environment of the call or in a catch scope that is open in it.  A write to it goes
through and changes nothing else.  For only the global environment of a reached realm has bindings
that can be deleted, and no other binding ever disappears. -/
theorem declared_resolve_in_call {r : Realm} (hr : Realm.Reached Realm.IsNew (fun _ => True) r) :
    r.Anchored ∧ ∀ {fuel b strict₁},
    (∀ {result r' context}, runProgram fuel b r strict₁ = .halted result r' context →
      r.KeepsBindings r') ∧
    ∀ {m₀}, runProgram fuel b r strict₁ = .exhausted m₀ →
      m₀.realm.Anchored ∧ r.KeepsBindings m₀.realm ∧
      (∀ {m}, During 0 m₀ m → m₀.realm.KeepsBindings m.realm) ∧
      ∀ {p strict a n info}, compile p strict = .ok a → a.function? n = some info →
        ∃ fs f, p.Stands fs (.function f) ∧ Describes (strict || p.strict) fs f info ∧
          Placed a p (strict || p.strict) (f :: fs) (.declaring f.body) info.unit ∧
          ∀ {m₁ m₂ m}, CallsUnit a info.unit m₀ m₁ → During m₁.callers.length m₁ m₂ →
            m₂.status = .running → m₂.callers.length = m₁.callers.length →
            m₁.frame.unit.prologue ≤ m₂.frame.next → During m₁.callers.length m₂ m →
            ∀ {name env frame callers opened}, (Part.body f.body).Declares name →
              m.HasFrame env frame callers →
              Belongs m₁.callers.length env frame callers opened →
              ∃ ref, m.realm.resolve env name = some ref ∧
                (ref = m₁.context.env ∨ ref ∈ opened) ∧
                m₀.realm.environments.size ≤ ref.index ∧
                ∀ v strict', ∃ r', Realm.assign env name v strict' m.realm = .ok () r' ∧
                  ∀ ref', ref' ≠ ref → r'.env ref' = m.realm.env ref' := by
  have ha := hr.anchored
  have hf : r.Founded := hr.founded fun _ hnew => hnew.founded
  refine ⟨ha, fun {fuel b strict₁} => ⟨fun h => ha.keepsBindings (retains_of_halted h), ?_⟩⟩
  intro m₀ hrun
  have hretains := retains_of_exhausted hrun
  have ha₀ := ha.retains hretains
  have hf₀ := founded_of_invoke (Context.inside_global hf strict₁) hrun
  refine ⟨ha₀, ha.keepsBindings hretains, fun hm => ha₀.keepsBindings hm.retains, ?_⟩
  intro p strict a n info hc hn
  obtain ⟨fs, f, hstands, hdesc, hplaced⟩ := described_of_function hc hn
  refine ⟨fs, f, hstands, hdesc, hplaced, ?_⟩
  intro m₁ m₂ m hcalls h₂ hrunning hdepth hpast hm name env frame callers opened hd hw hbelongs
  cases hplaced with
  | intro hunit _ hcompiles =>
    cases hunit.symm.trans hcalls.unit
    obtain ⟨offset, hlt, hb⟩ := bindsAt_of_declares hcompiles hd
    obtain ⟨ref, hresolve, hwhere, hnew⟩ :=
      hcalls.resolve hf₀ ha₀ h₂ hrunning hpast hm hlt hb hw hbelongs
    refine ⟨ref, hresolve, hwhere, hnew, fun v strict' => ?_⟩
    exact ⟨_, assign_of_resolve hresolve v strict', fun ref' hne => env_modifyEnv_of_ne _ hne _⟩

def Status.isRunning : Status → Bool
  | .running => true
  | .finishing _ | .hanging => false

/-- States of a run: before and after a call, after its declarations, and later. -/
structure CallStates where
  before : Machine
  start : Machine
  declared : Machine
  later : Machine

def callingDeletingStates (a : Artifact) : Option CallStates := do
  let before ← (runProgram 3 a (.create 16 false) false).state?
  let start ← within 1 1 before
  let declared ← within 1 1 start
  let later ← within 1 20 declared
  return { before, start, declared, later }

/-- The function is called, its declarations have run, and its handler is running. -/
def CallStates.InHandler (s : CallStates) : Prop :=
  s.before.callers.length = 0 ∧ s.start.callers.length = 1 ∧ s.start.frame.resume.isCall = true ∧
    s.start.frame.unit.name = "Function_0" ∧ s.start.frame.unit.prologue = 1 ∧
    s.declared.status.isRunning = true ∧ s.declared.callers.length = 1 ∧
    s.declared.frame.next = 1 ∧ s.later.frame.resume.isCall = false ∧ s.later.callers.length = 2

instance (s : CallStates) : Decidable s.InHandler := inferInstanceAs (Decidable (_ ∧ _))

theorem callingDeleting_runs :
    ((compile callingDeleting false).toOption.bind fun a => (callingDeletingStates a).map fun s =>
      (a.units.toList.map CodeUnit.name, a.functions.toList.map FunctionInfo.unit,
        decide s.InHandler)) =
      some (["Program_0", "Function_0", "Body_0", "Catch_0"], [1], true) := by
  decide +kernel

theorem callsUnit_callingDeleting {a : Artifact} {m0 m1 : Machine} {fuel : Nat} {strict : Bool}
    (hnames : a.units.toList.map CodeUnit.name = ["Program_0", "Function_0", "Body_0", "Catch_0"])
    (hrun : runProgram fuel a (.create 16 false) strict = .exhausted m0)
    (hs : within 1 1 m0 = some m1)
    (hd : m1.callers.length = m0.callers.length + 1) (hcall : m1.frame.resume.isCall = true)
    (hname : m1.frame.unit.name = "Function_0") : CallsUnit a 1 m0 m1 := by
  obtain ⟨_, hs, -, ⟨⟩⟩ := within_succ hs
  obtain ⟨frame, hstart, hrun⟩ := run_of_invoke hrun
  have hnew : Realm.IsNew (.create 16 false) := ⟨16, false, rfl⟩
  have hdraws : m0.Draws (· = a) := run_exhausted (fun hm hs => hm.next hs)
    (draws_start (fun c hc => absurd hc (hnew.not_holds c)) rfl hstart) hrun
  have hdraws := (hdraws.next hs).frame
  have hartifact : m1.frame.artifact = a := hdraws.artifact
  obtain ⟨id, hid⟩ := hdraws.unit
  rw [hartifact] at hid
  refine ⟨hs, hd, ?_, hartifact, ?_⟩
  · intro hunit
    rw [hunit] at hcall
    cases hcall
  · have hget : (a.units.toList.map CodeUnit.name)[id]? = some "Function_0" := by
      rw [List.getElem?_map, Array.getElem?_toList, ← hname]
      exact congrArg (Option.map CodeUnit.name) hid
    rw [hnames] at hget
    have hone : id = 1 := by
      match id with
      | 1 => rfl
      | 0 | 2 | 3 => exact absurd hget (by decide)
      | _ + 4 => cases hget
    rw [← hone]
    exact hid

/-- In the handler of `deletingLocal`, after it has tried to delete the name. -/
theorem declared_resolve_in_call_callingDeleting :
    ∃ a s opened, compile callingDeleting false = .ok a ∧ callingDeletingStates a = some s ∧
      CallsUnit a 1 s.before s.start ∧ s.InHandler ∧
      Belongs s.start.callers.length s.later.context.env s.later.frame s.later.callers opened ∧
      ∃ ref, s.later.realm.resolve s.later.context.env "x" = some ref ∧
        (ref = s.start.context.env ∨ ref ∈ opened) ∧
        s.before.realm.environments.size ≤ ref.index ∧
        ∀ v strict, ∃ r', Realm.assign s.later.context.env "x" v strict s.later.realm = .ok () r' ∧
          ∀ ref', ref' ≠ ref → r'.env ref' = s.later.realm.env ref' := by
  obtain ⟨a, ha, hruns⟩ := Option.bind_eq_some_iff.mp callingDeleting_runs
  have ha := ok_of_toOption ha
  obtain ⟨s, hs, hfacts⟩ := Option.map_eq_some_iff.mp hruns
  obtain ⟨hnames, hunits, hin⟩ : _ ∧ _ ∧ _ := by simpa only [Prod.mk.injEq] using hfacts
  have hin : s.InHandler := of_decide_eq_true hin
  obtain ⟨m₀, h₀, hstates⟩ := Option.bind_eq_some_iff.mp hs
  obtain ⟨m₁, h₁, hstates⟩ := Option.bind_eq_some_iff.mp hstates
  obtain ⟨m₂, h₂, hstates⟩ := Option.bind_eq_some_iff.mp hstates
  obtain ⟨m, h, hstates⟩ := Option.bind_eq_some_iff.mp hstates
  cases hstates
  obtain ⟨hc₀, hc₁, hcall, hname, hprologue, hrunning, hc₂, hnext, hresume, hc⟩ := id hin
  have hcalls := callsUnit_callingDeleting hnames (Outcome.of_state? h₀) h₁
    (by rw [hc₁, hc₀]) hcall hname
  have hduring : During m₁.callers.length m₁ m₂ ∧ During m₁.callers.length m₂ m := by
    rw [hc₁]
    exact ⟨during_of_within h₂, during_of_within h⟩
  have hstatus : m₂.status = .running := by
    cases hst : m₂.status with
    | running => rfl
    | finishing _ | hanging =>
      rw [hst] at hrunning
      cases hrunning
  obtain ⟨caller, callers, hcallers, hlength⟩ :
      ∃ caller callers, m.callers = caller :: callers ∧ callers.length = 1 := by
    cases hm : m.callers with
    | nil =>
      rw [hm] at hc
      cases hc
    | cons caller callers =>
      rw [hm] at hc
      exact ⟨caller, callers, rfl, Nat.succ.inj hc⟩
  have hunit : m.frame.resume = .unit := by
    cases hr : m.frame.resume with
    | unit => rfl
    | call this strict constructed =>
      rw [hr] at hresume
      cases hresume
  have hbelongs : Belongs m₁.callers.length m.context.env m.frame m.callers
      (m.frame.openScopes m.context.env ++ caller.openScopes m.frame.callerEnv) := by
    rw [hcallers]
    exact .unit hunit (.function (hlength.trans hc₁.symm))
  obtain ⟨info, hinfo, hone⟩ : ∃ info, a.function? 0 = some info ∧ info.unit = 1 := by
    have hget : (a.functions.toList.map FunctionInfo.unit)[0]? = some 1 := by
      rw [hunits]
      rfl
    rw [List.getElem?_map, Array.getElem?_toList] at hget
    exact Option.map_eq_some_iff.mp hget
  obtain ⟨-, hall⟩ := declared_resolve_in_call (.first ⟨16, false, rfl⟩)
  obtain ⟨-, -, -, hfunctions⟩ := hall.2 (Outcome.of_state? h₀)
  obtain ⟨fs, f, hstands, -, -, hresolves⟩ := hfunctions ha hinfo
  obtain rfl := eq_of_mem_callingDeletingParts (mem_callingDeletingParts hstands)
  rw [hone] at hresolves
  exact ⟨a, _, _, ha, hs, hcalls, hin, hbelongs, hresolves hcalls hduring.1 hstatus
    (hc₂.trans hc₁.symm) (Nat.le_of_eq (hprologue.trans hnext.symm)) hduring.2
    declares_deletingLocal .top hbelongs⟩

end TreeScript
