import TreeScript.Proofs.Machine.Mirrors
import TreeScript.Proofs.Realm.Founded

/-!
# A realm without one of its globals

`Realm.without` takes the global binding of one name away.  Operations that are given other names
do the same before and after that, and they leave the binding as it is.  The operations on objects
do not look at environments at all: whatever the environments are, they do the same to the rest.
-/

namespace TreeScript

open Code (Operation)
open Upkeep

namespace Environment

variable {name z : String}

theorem find?_erase_of_ne (e : Environment) (h : name ≠ z) :
    (e.erase z).bindings.find? name = e.bindings.find? name := by
  unfold erase
  rw [KeyTable.find?_erase, if_neg h]

theorem has_erase_of_ne (e : Environment) (h : name ≠ z) : (e.erase z).has name = e.has name := by
  unfold has
  rw [KeyTable.contains_eq_isSome_find?, KeyTable.contains_eq_isSome_find?, e.find?_erase_of_ne h]

theorem get?_erase_of_ne (e : Environment) (h : name ≠ z) :
    (e.erase z).get? name = e.get? name := by
  unfold get?
  rw [e.find?_erase_of_ne h]

theorem canDelete_erase_of_ne (e : Environment) (h : name ≠ z) :
    (e.erase z).canDelete name = e.canDelete name := by
  unfold canDelete
  rw [e.find?_erase_of_ne h]

theorem bind_erase (e : Environment) (h : name ≠ z) (v : Value) :
    (e.erase z).bind name v = (e.bind name v).erase z := by
  have hflag := congrArg (Option.any Binding.deletable) (e.find?_erase_of_ne h)
  unfold bind
  rw [hflag]
  exact congrArg (Environment.mk · e.outer) (KeyTable.insert_erase _ h _)

theorem declare_erase (e : Environment) (h : name ≠ z) (deletable : Bool) :
    (e.erase z).declare name deletable = (e.declare name deletable).erase z := by
  unfold declare
  rw [e.has_erase_of_ne h]
  split
  · rfl
  · exact congrArg (Environment.mk · e.outer) (KeyTable.insert_erase _ h _)

theorem erase_erase (e : Environment) (name z : String) :
    (e.erase z).erase name = (e.erase name).erase z := by
  exact congrArg (Environment.mk · e.outer) (KeyTable.erase_erase _ _ _)

theorem erase_bind (e : Environment) (z : String) (v : Value) :
    (e.bind z v).erase z = e.erase z := by
  exact congrArg (Environment.mk · e.outer) (KeyTable.erase_insert _ _ _)

end Environment

variable {ref : EnvRef} {x : RealmM α} {f : Environment → Environment}

namespace Realm

/-- The realm with the global binding of a name taken away. -/
def without (z : String) (r : Realm) : Realm := r.modifyEnv globalEnv (·.erase z)

def globalBinding (r : Realm) (z : String) : Option Binding :=
  (r.env globalEnv).bindings.find? z

/-- The realms differ at most in the global binding of a name. -/
def SameBut (z : String) (r r' : Realm) : Prop := r.without z = r'.without z

variable {r r' : Realm} {z name : String}

theorem SameBut.symm (h : r.SameBut z r') : r'.SameBut z r := Eq.symm h

theorem SameBut.objects (h : r.SameBut z r') : r'.objects = r.objects :=
  (congrArg Realm.objects h).symm

theorem SameBut.output (h : r.SameBut z r') : r'.output = r.output :=
  (congrArg Realm.output h).symm

theorem SameBut.hasEnv (h : r.SameBut z r') (hr : r.HasEnv ref) : r'.HasEnv ref := by
  have hsize : r'.environments.size = r.environments.size := by
    rw [← size_modifyEnv r' globalEnv (·.erase z), ← size_modifyEnv r globalEnv (·.erase z)]
    exact congrArg (·.environments.size) h.symm
  unfold HasEnv
  rw [hsize]
  exact hr

/-! ## Changing environments -/

theorem modifyEnv_modifyEnv (r : Realm) (ref : EnvRef) (f g : Environment → Environment) :
    (r.modifyEnv ref f).modifyEnv ref g = r.modifyEnv ref fun e => g (f e) := by
  unfold modifyEnv
  refine congrArg (fun environments => { r with environments }) (Array.ext_getElem? fun i => ?_)
  simp only [Array.getElem?_modify]
  split
  · exact Option.map_map _ _ _
  · rfl

theorem modifyEnv_comm (r : Realm) {ref' : EnvRef} (h : ref' ≠ ref)
    (f g : Environment → Environment) :
    (r.modifyEnv ref f).modifyEnv ref' g = (r.modifyEnv ref' g).modifyEnv ref f := by
  have hne : ref'.index ≠ ref.index := fun hi => h (by cases ref'; cases hi; rfl)
  unfold modifyEnv
  refine congrArg (fun environments => { r with environments }) (Array.ext_getElem? fun i => ?_)
  grind

theorem sameBut_bind (r : Realm) (z : String) (v : Value) :
    r.SameBut z (r.modifyEnv globalEnv (·.bind z v)) := by
  unfold SameBut without
  rw [modifyEnv_modifyEnv]
  simp only [Environment.erase_bind]

theorem env_without (r : Realm) (z : String) (ref : EnvRef) :
    (r.without z).env ref = if ref = globalEnv then (r.env ref).erase z else r.env ref := by
  split
  · next h =>
    subst h
    rw [env_eq, env_eq]
    unfold without modifyEnv
    rw [Array.getElem?_modify, if_pos rfl]
    cases r.environments[globalEnv.index]? <;> rfl
  · next h => exact env_modifyEnv_of_ne r h _

theorem outer_without (r : Realm) (z : String) (ref : EnvRef) :
    ((r.without z).env ref).outer = (r.env ref).outer := by
  rw [env_without]
  split <;> rfl

theorem modifyEnv_without (r : Realm) (ref : EnvRef)
    (hf : ∀ e : Environment, f (e.erase z) = (f e).erase z) :
    (r.without z).modifyEnv ref f = (r.modifyEnv ref f).without z := by
  unfold without
  by_cases h : ref = globalEnv
  · subst h
    rw [modifyEnv_modifyEnv, modifyEnv_modifyEnv]
    simp only [hf]
  · exact modifyEnv_comm r h _ _

theorem globalBinding_modifyEnv (hr : r.HasEnv globalEnv) (ref : EnvRef)
    (hf : ∀ e : Environment, (f e).bindings.find? z = e.bindings.find? z) :
    (r.modifyEnv ref f).globalBinding z = r.globalBinding z := by
  unfold globalBinding
  by_cases h : ref = globalEnv
  · subst h
    rw [env_modifyEnv_self hr, hf]
  · rw [env_modifyEnv_of_ne r (Ne.symm h)]

theorem addEnv_without (hr : r.HasEnv globalEnv) (z : String) (outer : Option EnvRef) :
    (r.without z).addEnv outer = ((r.addEnv outer).1, (r.addEnv outer).2.without z) := by
  unfold addEnv without modifyEnv
  refine Prod.ext ?_ ?_
  · simp
  · refine congrArg (fun environments => { r with environments }) (Array.ext_getElem? fun i => ?_)
    have hsize : 0 < r.environments.size := hr
    simp only [Array.getElem?_push, Array.getElem?_modify, Array.size_modify, globalEnv]
    grind

theorem globalBinding_addEnv (hr : r.HasEnv globalEnv) (z : String) (outer : Option EnvRef) :
    (r.addEnv outer).2.globalBinding z = r.globalBinding z := by
  have hsize : 0 < r.environments.size := hr
  unfold globalBinding
  rw [env_eq, env_eq]
  unfold addEnv
  have hne : globalEnv.index ≠ r.environments.size := Nat.ne_of_lt hsize
  rw [Array.getElem?_push, if_neg hne]

/-! ## Names -/

theorem scopesFrom_without (r : Realm) (z : String) (n : Nat) (env : Option EnvRef) :
    (r.without z).scopesFrom n env = r.scopesFrom n env := by
  induction n generalizing env with
  | zero => rfl
  | succ n ih =>
    cases env with
    | none => rfl
    | some ref =>
      unfold scopesFrom
      rw [outer_without, ih]

theorem has_without (r : Realm) (h : name ≠ z) (ref : EnvRef) :
    ((r.without z).env ref).has name = (r.env ref).has name := by
  rw [env_without]
  split
  · exact Environment.has_erase_of_ne _ h
  · rfl

theorem resolve_without (r : Realm) (h : name ≠ z) (env : EnvRef) :
    (r.without z).resolve env name = r.resolve env name := by
  have hsize : (r.without z).environments.size = r.environments.size := Array.size_modify
  unfold resolve scopes
  simp only [has_without r h, scopesFrom_without, hsize]

theorem lookup_without (r : Realm) (h : name ≠ z) (env : EnvRef) :
    (r.without z).lookup env name = r.lookup env name := by
  unfold lookup
  rw [resolve_without r h]
  cases r.resolve env name with
  | none => rfl
  | some ref =>
    show ((r.without z).env ref).get? name = (r.env ref).get? name
    rw [env_without]
    split
    · exact Environment.get?_erase_of_ne _ h
    · rfl

theorem valueOf_without (r : Realm) (h : name ≠ z) (env : EnvRef) :
    (r.without z).valueOf env name = r.valueOf env name := by
  unfold valueOf
  rw [lookup_without r h]

theorem canDelete_without (r : Realm) (h : name ≠ z) (ref : EnvRef) :
    ((r.without z).env ref).canDelete name = (r.env ref).canDelete name := by
  rw [env_without]
  split
  · exact Environment.canDelete_erase_of_ne _ h
  · rfl

/-! ## Operations on objects -/

/-- A computation that does the same whatever the environments are, and leaves them alone. -/
abbrev Envless (x : RealmM α) : Prop := Commutes (fun es r => withEnvs r es) x

theorem envless_modify {f : Realm → Realm} (hf : ∀ r es, f (r.withEnvs es) = (f r).withEnvs es) :
    Envless (modify f) :=
  fun r es => congrArg (EStateM.Result.ok ()) (hf r es)

theorem envless_allocate {f : Realm → ObjectRef × Realm}
    (hf : ∀ r es, f (r.withEnvs es) = ((f r).1, (f r).2.withEnvs es)) : Envless (allocate f) := by
  intro r es
  show EStateM.Result.ok (Value.object (f (r.withEnvs es)).1) (f (r.withEnvs es)).2 = _
  rw [hf]
  rfl

theorem Acts.envless (h : Acts x) : Envless x := by
  induction h with
  | pure a | throw fault => exact fun _ _ => rfl
  | bind _ _ ih ih' => exact ih.bind ih'
  | get hf _ ih => exact commutes_get hf ih
  | modifyObject ref _ => exact envless_modify fun _ _ => rfl
  | allocate _ => exact envless_allocate fun _ _ => rfl
  | print line => exact envless_modify fun _ _ => rfl

/-! ## Computations that spare a global -/

def sparing (z : String) : Upkeep Fault Realm where
  along r r' := r'.globalBinding z = r.globalBinding z
  refl _ := rfl
  trans h h' := h'.trans h
  holds r := r.HasEnv globalEnv
  fails _ _ := True

/-- From `r` a computation does the same with the global binding of the name and without it, and
does not touch it. -/
abbrev Spares (z : String) (r : Realm) (x : RealmM α) (A : Realm → α → Prop) : Prop :=
  (sparing z).Mirrors (without z) id r x x A

theorem spares_of_envless (hx : Envless x) (hr : r.HasEnv globalEnv) :
    r.Spares z x fun _ _ => True := by
  refine mirrors_of_commutes (i := r.environments) (j := (r.without z).environments) hx rfl rfl
    (fun r' h => ?_) (fun _ _ _ => trivial) fun _ _ => trivial
  have h := congrArg Realm.environments h
  show r'.globalBinding z = r.globalBinding z ∧ r'.HasEnv globalEnv ∧
    r'.withEnvs (r.without z).environments = r'.without z
  unfold globalBinding env HasEnv withEnvs without modifyEnv
  rw [← h]
  exact ⟨rfl, hr, rfl⟩

theorem spares_addEnv (hr : r.HasEnv globalEnv) (outer : Option EnvRef) :
    r.Spares z (modifyGet (·.addEnv outer)) fun _ env => env ≠ globalEnv := by
  have hsize : 0 < r.environments.size := hr
  refine mirrors_modifyGet (globalBinding_addEnv hr z outer) ?_ ?_ (addEnv_without hr z outer)
  · exact hr.mono (by simp [addEnv])
  · intro henv
    exact Nat.ne_of_gt hsize (congrArg EnvRef.index henv)

theorem spares_modifyLocal (hr : r.HasEnv globalEnv) (href : ref ≠ globalEnv)
    (f : Environment → Environment) :
    r.Spares z (modify (·.modifyEnv ref f)) fun _ _ => True := by
  refine mirrors_modify ?_ ?_ trivial (modifyEnv_comm r href _ f)
  · show (r.modifyEnv ref f).globalBinding z = r.globalBinding z
    unfold globalBinding
    rw [env_modifyEnv_of_ne r (Ne.symm href)]
  · exact hr.mono (Nat.le_of_eq (size_modifyEnv r ref f).symm)

theorem spares_modifyEnv (hr : r.HasEnv globalEnv) (ref : EnvRef)
    (hf : ∀ e : Environment, f (e.erase z) = (f e).erase z)
    (hz : ∀ e : Environment, (f e).bindings.find? z = e.bindings.find? z) :
    r.Spares z (modify (·.modifyEnv ref f)) fun _ _ => True :=
  mirrors_modify (globalBinding_modifyEnv hr ref hz)
    (hr.mono (Nat.le_of_eq (size_modifyEnv r ref f).symm)) trivial (modifyEnv_without r ref hf)

theorem spares_bind (hr : r.HasEnv globalEnv) (h : name ≠ z) (ref : EnvRef) (v : Value) :
    r.Spares z (modify (·.modifyEnv ref (·.bind name v))) fun _ _ => True :=
  spares_modifyEnv hr ref (fun e => e.bind_erase h v) fun e => e.find?_bind_of_ne h v

theorem spares_declare (hr : r.HasEnv globalEnv) (h : name ≠ z) (ref : EnvRef) (deletable : Bool) :
    r.Spares z (modify (·.modifyEnv ref (·.declare name deletable))) fun _ _ => True :=
  spares_modifyEnv hr ref (fun e => e.declare_erase h deletable)
    fun e => e.find?_declare_of_ne h deletable

theorem spares_assign (hr : r.HasEnv globalEnv) (h : name ≠ z) (env : EnvRef) (v : Value)
    (strict : Bool) : r.Spares z (assign env name v strict) fun _ _ => True := by
  refine mirrors_get ?_
  rw [resolve_without r h]
  cases r.resolve env name with
  | some ref => exact spares_bind hr h ref v
  | none =>
    cases strict with
    | true => exact mirrors_throw hr trivial rfl
    | false =>
      refine spares_modifyEnv hr globalEnv (fun e => ?_) fun e => ?_
      · rw [e.declare_erase h, Environment.bind_erase _ h]
      · rw [Environment.find?_bind_of_ne _ h, e.find?_declare_of_ne h]

theorem spares_deleteBinding (hr : r.HasEnv globalEnv) (h : name ≠ z) (env : EnvRef) :
    r.Spares z (deleteBinding env name) fun _ _ => True := by
  refine mirrors_get ?_
  rw [resolve_without r h]
  cases r.resolve env name with
  | none => exact mirrors_pure hr trivial
  | some ref =>
    dsimp only
    rw [canDelete_without r h]
    cases (r.env ref).canDelete name with
    | true =>
      refine (spares_modifyEnv hr ref (fun e => e.erase_erase name z) fun e => ?_).bind
        fun _ r' _ hr' _ => mirrors_pure hr' trivial
      unfold Environment.erase
      rw [KeyTable.find?_erase, if_neg (Ne.symm h)]
    | false => exact mirrors_pure hr trivial

end Realm

end TreeScript
