import TreeScript.Proofs.Machine.Units

/-!
# Where code comes from

A machine makes functions only of the artifacts that its frames run, and runs only units of these
and of the functions in its realm.  So the artifacts that a run starts with are all that it ever
comes by.
-/

namespace TreeScript

open Code

variable {A : Artifact → Prop}

def Closure.OneOf (A : Artifact → Prop) (c : Closure) : Prop := ∃ a, A a ∧ c.Of a

def Realm.OnlyFrom (A : Artifact → Prop) (r : Realm) : Prop := ∀ ⦃c⦄, r.Holds c → c.OneOf A

theorem Realm.OnlyFrom.steady {r r' : Realm} (h : r.OnlyFrom A) {K : Closure → Prop}
    (hr : Realm.Steady K r r') (hK : ∀ {c}, K c → c.OneOf A) : r'.OnlyFrom A :=
  fun _ hc => (hr.holds hc).elim (h ·) hK

theorem Closure.Of.oneOf {a : Artifact} {c : Closure} (h : c.Of a) (ha : A a) : c.OneOf A :=
  ⟨a, ha, h⟩

theorem Closure.OneOf.artifact {c : Closure} (h : c.OneOf A) : A c.artifact := by
  obtain ⟨a, ha, rfl, -⟩ := h
  exact ha

theorem Realm.OnlyFrom.draws {r : Realm} (h : r.OnlyFrom A) : r.Draws A :=
  fun _ hc => (h hc).artifact

namespace Machine

structure OnlyFrom (A : Artifact → Prop) (m : Machine) : Prop extends m.Draws A where
  only : m.realm.OnlyFrom A

variable {m m' : Machine}

theorem OnlyFrom.exec (h : m.OnlyFrom A) (i : Instruction) :
    (stateOf (exec i m)).realm.OnlyFrom A := by
  have hcount (r : Realm) (name : String) (hr : r.OnlyFrom A) : (r.countRun name).OnlyFrom A :=
    hr.steady (Realm.steady_countRun (K := fun _ => False) _ _) False.elim
  refine exec_preserves (P := fun m => m.realm.OnlyFrom A)
    (fun hs => h.only.steady hs.realm (·.oneOf h.frame.artifact)) fun hin => ?_
  cases hin with
  | unit _ hs => exact hcount _ _ h.only
  | call hc =>
    obtain @⟨m1, _, _, _, r, _, hl, -, -, -, hr⟩ := hc
    have h1 := h.only.steady hl.toStays.realm (·.oneOf h.frame.artifact)
    have hrealm : ({ m1.realm with callDepth := m1.realm.callDepth + 1 } : Realm).OnlyFrom A := h1
    exact hcount _ _ (hrealm.steady (hr fun _ => False) False.elim)

theorem OnlyFrom.step (h : m.OnlyFrom A) : m.step.realm.OnlyFrom A :=
  realm_step (R := Realm.OnlyFrom A) h.only h.only
    (fun i _ _ => OnlyFrom.exec (m := m.advance) ⟨h.advance, h.only⟩ i)
    fun _ _ hr => hr.steady (Realm.steady_materialize (K := fun _ => False) _ _) False.elim

theorem OnlyFrom.next (h : m.OnlyFrom A) (hs : m.step = .next m') : m'.OnlyFrom A :=
  ⟨h.toDraws.next hs, show (Transition.next m').realm.OnlyFrom A from hs ▸ h.step⟩

theorem onlyFrom_start {a : Artifact} {id : UnitId} {r : Realm} {context : Context} {f : Frame}
    (hr : r.OnlyFrom A) (ha : A a) (hs : Frame.start a id context.env .unit = .ok f) :
    OnlyFrom A { realm := r.countRun f.unit.name, context, frame := f } :=
  ⟨draws_start hr.draws ha hs,
    hr.steady (Realm.steady_countRun (K := fun _ => False) _ _) False.elim⟩

end Machine

theorem onlyFrom_of_invoke {fuel : Nat} {a : Artifact} {id : UnitId} {r r' : Realm}
    {context context' : Context} {result : Except MachineError Completion} (hr : r.OnlyFrom A)
    (ha : A a) (h : invoke fuel a id r context = .halted result r' context') : r'.OnlyFrom A := by
  refine realm_of_invoke (P := Machine.OnlyFrom A) (R := Realm.OnlyFrom A) (fun hm hs => hm.next hs)
    (fun {_ _ _ _} hm hs => show (Transition.realm (.halt ..)).OnlyFrom A from hs ▸ hm.step)
    (fun hr => hr) hr
    (fun frame hs => Machine.onlyFrom_start hr ha hs) h

end TreeScript
