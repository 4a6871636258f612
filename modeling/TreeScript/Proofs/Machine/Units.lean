import TreeScript.Proofs.Machine.Effect
import TreeScript.Proofs.Machine.Reach

/-!
# Which code a machine runs

Every frame runs a unit of its artifact, with as many temporaries as the unit asks for, and every
artifact that a frame or a function belongs to is one of those that a run started with.  This is so
for all code, compiled or not.
-/

namespace TreeScript

open Code

variable {A : Artifact → Prop}

structure Frame.Draws (A : Artifact → Prop) (f : Frame) : Prop where
  artifact : A f.artifact
  unit : ∃ id, f.artifact.unit? id = some f.unit
  temps : f.temps.size = f.unit.tempCount

theorem Frame.Draws.alike {f f' : Frame} (h : f.Draws A) (ha : f.Alike f') : f'.Draws A := by
  constructor
  · rw [ha.artifact]
    exact h.artifact
  · rw [ha.artifact, ha.unit]
    exact h.unit
  · rw [ha.temps, ha.unit]
    exact h.temps

theorem Frame.draws_start {a : Artifact} {id : UnitId} {env : EnvRef} {resume : Resume} {f : Frame}
    (ha : A a) (h : Frame.start a id env resume = .ok f) : f.Draws A := by
  obtain ⟨u, hu, rfl⟩ := Machine.start_ok_iff.mp h
  exact ⟨ha, ⟨id, hu⟩, Array.size_replicate⟩

/-- Every function is of one of these artifacts. -/
def Realm.Draws (A : Artifact → Prop) (r : Realm) : Prop := ∀ ⦃c⦄, r.Holds c → A c.artifact

theorem Realm.Draws.steady {r r' : Realm} (h : r.Draws A) {K : Closure → Prop}
    (hr : Realm.Steady K r r') (hK : ∀ {c}, K c → A c.artifact) : r'.Draws A :=
  fun _ hc => (hr.holds hc).elim (h ·) hK

structure Machine.Draws (A : Artifact → Prop) (m : Machine) : Prop where
  realm : m.realm.Draws A
  frame : m.frame.Draws A
  callers : ∀ f ∈ m.callers, f.Draws A

namespace Machine

variable {m m' : Machine}

namespace Draws

theorem stays (h : m.Draws A) (hs : Stays m m') : m'.Draws A := by
  refine ⟨h.realm.steady hs.realm ?_, h.frame.alike hs.frame, ?_⟩
  · rintro c ⟨ha, -⟩
    rw [ha]
    exact h.frame.artifact
  · rw [hs.callers]
    exact h.callers

theorem enters {i : Instruction} (h : m.Draws A) (he : Enters i m m') : m'.Draws A := by
  cases he with
  | unit _ hs =>
    refine ⟨h.realm.steady (Realm.steady_countRun (K := fun _ => False) _ _) False.elim,
      Frame.draws_start h.frame.artifact hs, ?_⟩
    exact List.forall_mem_cons.mpr ⟨h.frame, h.callers⟩
  | call hc =>
    obtain @⟨m1, closure, _, callee, r, _, hl, hholds, hs, -, hr⟩ := hc
    have h1 := h.stays hl.toStays
    have hrealm : ({ m1.realm with callDepth := m1.realm.callDepth + 1 } : Realm).Draws A :=
      h1.realm
    have hsteady := (hr fun _ => False).trans (Realm.steady_countRun r callee.unit.name)
    exact ⟨hrealm.steady hsteady False.elim, Frame.draws_start (h1.realm hholds) hs,
      List.forall_mem_cons.mpr ⟨h1.frame, h1.callers⟩⟩

theorem exec (h : m.Draws A) (i : Instruction) : (stateOf (Machine.exec i m)).Draws A :=
  exec_preserves h.stays h.enters

theorem throwFault (h : m.Draws A) (fault : Fault) : (m.throwFault fault).Draws A :=
  ⟨h.realm.steady (Realm.steady_materialize (K := fun _ => False) _ _) False.elim, h.frame,
    h.callers⟩

theorem leave (h : m.Draws A) {c : Completion} (hs : m.leave c = .next m') : m'.Draws A := by
  obtain ⟨caller, stack, hc, hf, -, hr⟩ := leave_next hs
  obtain ⟨hcaller, hrest⟩ := List.forall_mem_cons.mp (hc ▸ h.callers)
  refine ⟨?_, hf ▸ ⟨hcaller.artifact, hcaller.unit, hcaller.temps⟩, hrest⟩
  rcases hr with ⟨-, -, hr⟩ | ⟨-, hr⟩ <;> rw [hr] <;> exact h.realm

theorem advance (h : m.Draws A) : m.advance.Draws A :=
  ⟨h.realm, ⟨h.frame.artifact, h.frame.unit, h.frame.temps⟩, h.callers⟩

theorem next (h : m.Draws A) (hs : m.step = .next m') : m'.Draws A :=
  step_next hs (fun _ => h.leave) (fun _ => ⟨h.realm, h.frame, h.callers⟩)
    (fun i _ => h.advance.exec i) fun _ fault h => h.throwFault fault

end Draws

theorem draws_start {a : Artifact} {id : UnitId} {r : Realm} {context : Context} {f : Frame}
    (hr : r.Draws A) (ha : A a) (hs : Frame.start a id context.env .unit = .ok f) :
    Draws A { realm := r.countRun f.unit.name, context, frame := f } :=
  ⟨hr.steady (Realm.steady_countRun (K := fun _ => False) _ _) False.elim,
    Frame.draws_start ha hs, List.forall_mem_nil _⟩

end Machine

end TreeScript
