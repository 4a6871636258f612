import TreeScript.Engine
import TreeScript.Proofs.Lowering.Hardened
import TreeScript.Proofs.Lowering.Strictness
import TreeScript.Proofs.Machine.Units
import TreeScript.Proofs.Program.Lengths

/-!
# Strictness of programs

The strictness of a program goes down to all its code when it is compiled, and is found again when
that code runs: the context is always as strict as the unit that works in it.  A frame that was
called keeps the strictness of its caller, so each frame below has a strictness to go back to, and
that agrees with its unit too.
-/

namespace TreeScript

open Code Syntax Lowering

/-- The units of an artifact are as strict as those that invoke them, and the bodies of functions
as strict as the functions. -/
structure Code.Artifact.Uniform (a : Artifact) : Prop where
  invoke : ∀ {id id' : UnitId} {u u' : CodeUnit}, a.unit? id = some u →
    .invoke id' ∈ u.instructions → a.unit? id' = some u' → u'.strict = u.strict
  function : ∀ {n : FunctionId} {info : FunctionInfo} {u : CodeUnit}, a.function? n = some info →
    a.unit? info.unit = some u → u.strict = info.strict

variable {A : Artifact → Prop} {strict : Bool}

theorem uniform_of_compile {p : Program} {a : Artifact} (h : compile p strict = .ok a) :
    a.Uniform where
  invoke := strict_of_invoke h
  function hn hu := by
    obtain ⟨u, hu', -, hstrict⟩ := body_of_function h hn
    cases hu.symm.trans hu'
    exact hstrict

def Resume.strictBelow (strict : Bool) : Resume → Bool
  | .unit => strict
  | .call _ strict _ => strict

/-- Each frame is as strict as the context it works in, the running one in a context with this
strictness. -/
def FramesAgree : Bool → Frame → List Frame → Prop
  | strict, f, [] => f.unit.strict = strict
  | strict, f, caller :: callers =>
    f.unit.strict = strict ∧ FramesAgree (f.resume.strictBelow strict) caller callers

theorem FramesAgree.top {f : Frame} {callers : List Frame} (h : FramesAgree strict f callers) :
    f.unit.strict = strict := by
  cases callers with
  | nil => exact h
  | cons caller callers => exact h.1

theorem FramesAgree.congr {f f' : Frame} {callers : List Frame} (h : FramesAgree strict f callers)
    (hu : f'.unit = f.unit) (hr : f'.resume = f.resume) :
    FramesAgree strict f' callers := by
  cases callers with
  | nil => exact (congrArg CodeUnit.strict hu).trans h
  | cons caller callers =>
    refine ⟨(congrArg CodeUnit.strict hu).trans h.1, ?_⟩
    rw [hr]
    exact h.2

namespace Machine

variable {m m' : Machine}

def Agrees (m : Machine) : Prop := FramesAgree m.context.strict m.frame m.callers

namespace Agrees

theorem stays (h : m.Agrees) (hs : Stays m m') : m'.Agrees := by
  unfold Agrees
  rw [hs.strict, hs.callers]
  exact h.congr hs.frame.unit hs.frame.resume

theorem throwFault (h : m.Agrees) (fault : Fault) : (m.throwFault fault).Agrees := h

theorem enters (hA : ∀ a, A a → a.Uniform) (h : m.Agrees) (hm : m.OnlyFrom A) {i : Instruction}
    (hi : i ∈ m.frame.unit.instructions) (he : Enters i m m') : m'.Agrees := by
  cases he with
  | unit hinvoke hs =>
    subst hinvoke
    obtain ⟨id', hid'⟩ := hm.frame.unit
    obtain ⟨u, hu, rfl⟩ := start_ok_iff.mp hs
    exact ⟨((hA _ hm.frame.artifact).invoke hid' hi hu).trans h.top, h⟩
  | call hc =>
    obtain @⟨m1, closure, _, callee, r, _, hl, hholds, hs, -, -⟩ := hc
    obtain ⟨a, ha, hca, n, hn⟩ :=
      hm.only.steady hl.toStays.realm (·.oneOf hm.frame.artifact) hholds
    obtain ⟨u, hu, rfl⟩ := start_ok_iff.mp hs
    rw [hca] at hu
    exact ⟨(hA a ha).function hn hu, h.stays hl.toStays⟩

theorem exec (hA : ∀ a, A a → a.Uniform) (h : m.Agrees) (hm : m.OnlyFrom A)
    {i : Instruction} (hi : i ∈ m.frame.unit.instructions) :
    (stateOf (Machine.exec i m)).Agrees :=
  exec_preserves h.stays (h.enters hA hm hi)

theorem leave (h : m.Agrees) (c : Completion) (hs : m.leave c = .next m') : m'.Agrees := by
  obtain ⟨caller, stack, hc, hf, -, hr⟩ := leave_next hs
  unfold Agrees at h ⊢
  rw [hc] at h
  have hstrict : m.frame.resume.strictBelow m.context.strict = m'.context.strict := by
    rcases hr with ⟨hr, hstrict, -⟩ | ⟨⟨_, hr⟩, -⟩ <;> rw [hr]
    · exact hstrict.symm
    · rfl
  exact hstrict ▸ h.2.congr (hf ▸ rfl) (hf ▸ rfl)

theorem next (hA : ∀ a, A a → a.Uniform) (h : m.Agrees) (hm : m.OnlyFrom A)
    (hs : m.step = .next m') : m'.Agrees :=
  step_next hs h.leave (fun _ => h) (fun _ hi => exec (m := m.advance) hA
    (FramesAgree.congr h rfl rfl) ⟨hm.advance, hm.only⟩ (Array.mem_of_getElem? hi))
    fun _ fault h => h.throwFault fault

end Agrees

end Machine

/-! ## Runs -/

theorem Realm.Reached.onlyFrom {Q : Program → Prop} {r : Realm}
    (h : Realm.Reached Realm.IsNew Q r) : r.OnlyFrom (Artifact.CompiledFrom Q) := by
  induction h with
  | first hr => exact hr.onlyFrom
  | run _ hp hc hrun ih => exact onlyFrom_of_invoke ih ⟨_, _, hp, hc⟩ hrun
  | takeOutput _ ih => exact ih

/-- A run of an artifact in an engine comes to this state. -/
def Engine.ComesTo (e : Engine) (a : Artifact) (m : Machine) : Prop :=
  ∃ fuel, runProgram fuel a e.realm (a.entryUnit?.any CodeUnit.strict) = .exhausted m

theorem agrees_of_comesTo (hA : ∀ a, A a → a.Uniform) {e : Engine} (he : e.realm.OnlyFrom A)
    {a : Artifact} (ha : A a) {m : Machine} (h : e.ComesTo a m) :
    m.Agrees := by
  obtain ⟨fuel, hrun⟩ := h
  obtain ⟨frame, hs, hrun⟩ := run_of_invoke hrun
  obtain ⟨u, hentry, rfl⟩ := Machine.start_ok_iff.mp hs
  refine (Machine.run_exhausted (P := fun m => m.OnlyFrom A ∧ m.Agrees)
    (fun hm hs => ⟨hm.1.next hs, hm.2.next hA hm.1 hs⟩)
    ⟨Machine.onlyFrom_start he ha hs, ?_⟩ hrun).2
  rw [show a.entryUnit? = some u from hentry]
  rfl

/-! ## Programs -/

def callingStrict : Program where
  body := [
    .function (.mk (some "f") [] [.expression (.assignment .assign (.identifier "x") .null)] true),
    .expression (.call (.identifier "f") [])]

def Outcome.state? : Outcome → Option Machine
  | .exhausted m => some m
  | .halted _ _ _ => none

theorem Outcome.of_state? {o : Outcome} {m : Machine} (h : o.state? = some m) :
    o = .exhausted m := by
  cases o with
  | exhausted m' =>
    cases h
    rfl
  | halted result r context => cases h

theorem callingStrict_calls :
    ((compile callingStrict false).toOption.bind fun a =>
      (runProgram 10 a (.create 256 false) (a.entryUnit?.any CodeUnit.strict)).state?.map fun m =>
        (m.frame.unit.name, m.frame.unit.strict)) = some ("Function_0", true) := by
  decide +kernel

/-- Strictness goes through the compiler and is found again at run time.  A program compiled as
strict code differs in its flags alone.  All flags of a unit say whether the program or a function
around its code is strict, and those of a function also whether it is strict itself.  Whenever a
compiled program runs in an engine that has run compiled programs only, the context is as strict as
the running unit. -/
theorem compile_strictness (p : Program) :
    compile p true = (compile p false).map Artifact.hardened ∧
    ∀ {strict a}, compile p strict = .ok a →
      Placed a p (strict || p.strict) [] (.declaring p.body) a.entry ∧
      (∀ id u, a.unit? id = some u →
        ∃ fs source, Placed a p (strict || p.strict) fs source id) ∧
      (∀ n info, a.function? n = some info →
        ∃ fs f, p.Stands fs (.function f) ∧ Describes (strict || p.strict) fs f info ∧
          Placed a p (strict || p.strict) (f :: fs) (.declaring f.body) info.unit) ∧
      ∀ e : Engine, Realm.Reached Realm.IsNew (fun _ => True) e.realm →
        ∀ m, e.ComesTo a m → m.context.strict = m.frame.unit.strict := by
  refine ⟨compile_hardened p, fun {strict a} h => ⟨placed_entry h,
    fun id u hu => placed_of_unit h hu, fun n info hn => described_of_function h hn,
    fun e he m hm => ?_⟩⟩
  have hagrees : m.Agrees := agrees_of_comesTo
    (fun a ⟨p, strict, _, hc⟩ => uniform_of_compile hc) he.onlyFrom ⟨p, strict, trivial, h⟩ hm
  exact hagrees.top.symm

/-- Inside a strict function that code which is not strict has called. -/
theorem compile_strictness_callingStrict :
    ∃ a m, compile callingStrict false = .ok a ∧ (Engine.create {}).ComesTo a m ∧
      m.frame.unit.strict = true ∧ m.context.strict = m.frame.unit.strict ∧
      Placed a callingStrict false [] (.declaring callingStrict.body) a.entry ∧
      compile callingStrict true = .ok a.hardened := by
  obtain ⟨a, ha, hcalls⟩ := Option.bind_eq_some_iff.mp callingStrict_calls
  have ha := ok_of_toOption ha
  obtain ⟨m, hm, hunit⟩ := Option.map_eq_some_iff.mp hcalls
  have hcomes : (Engine.create {}).ComesTo a m := ⟨10, Outcome.of_state? hm⟩
  obtain ⟨hhardened, hcompiled⟩ := compile_strictness callingStrict
  obtain ⟨hentry, -, -, hruns⟩ := hcompiled ha
  rw [ha] at hhardened
  exact ⟨a, m, ha, hcomes, congrArg Prod.snd hunit, hruns _ (.first ⟨256, false, rfl⟩) m hcomes,
    hentry, hhardened⟩

end TreeScript
