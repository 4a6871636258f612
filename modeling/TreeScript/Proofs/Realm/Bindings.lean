import TreeScript.Machine.Exec
import TreeScript.Proofs.KeyTable

/-!
# Bindings that stay

A name that code declares is bound for good.  Only an assignment to a name that is bound nowhere
makes a binding that can be deleted, and it makes it in the global environment.  `Realm.Retains`
says what every operation leaves of the environments: each keeps its place among the others and all
that was bound for good, and none but the global one gets a binding that can be deleted.
-/

namespace TreeScript

namespace Environment

/-- Whether the binding of a name can be deleted. -/
def deletable? (e : Environment) (name : String) : Option Bool :=
  (e.bindings.find? name).map Binding.deletable

def Fixed (e : Environment) (name : String) : Prop := e.deletable? name = some false

/-- The name is bound, but can be deleted. -/
def Loose (e : Environment) (name : String) : Prop := e.deletable? name = some true

variable {e e' e'' : Environment} {name : String}

theorem has_eq (e : Environment) (name : String) : e.has name = (e.deletable? name).isSome := by
  unfold Environment.has deletable?
  rw [KeyTable.contains_eq_isSome_find?, Option.isSome_map]

theorem Fixed.has (h : e.Fixed name) : e.has name = true := by
  rw [has_eq, h]
  rfl

theorem fixed_or_loose (h : e.has name = true) : e.Fixed name ∨ e.Loose name := by
  rw [has_eq] at h
  obtain ⟨deletable, hd⟩ := Option.isSome_iff_exists.mp h
  cases deletable with
  | false => exact .inl hd
  | true => exact .inr hd

theorem canDelete_eq (e : Environment) (name : String) :
    e.canDelete name = (e.deletable? name).getD true := by
  unfold canDelete deletable?
  cases e.bindings.find? name <;> rfl

theorem eq_true_of_getD {d : Option Bool} (h : some (d.getD false) = some true) :
    d = some true := by
  cases d with
  | none => cases h
  | some d => exact h

theorem getD_eq_false {d : Option Bool} (h : d ≠ some true) : some (d.getD false) = some false := by
  cases d with
  | none => rfl
  | some d =>
    cases d with
    | false => rfl
    | true => exact absurd rfl h

theorem find?_bind_of_ne (e : Environment) {z : String} (h : name ≠ z) (v : Value) :
    (e.bind name v).bindings.find? z = e.bindings.find? z := by
  unfold bind
  rw [KeyTable.find?_insert, if_neg (Ne.symm h)]

theorem find?_declare_of_ne (e : Environment) {z : String} (h : name ≠ z) (deletable : Bool) :
    (e.declare name deletable).bindings.find? z = e.bindings.find? z := by
  unfold declare
  split
  · rfl
  · rw [KeyTable.find?_insert, if_neg (Ne.symm h)]

/-- A name that is bound keeps to what it is; a new one is bound for good. -/
theorem deletable?_bind (e : Environment) (name : String) (v : Value) (name' : String) :
    (e.bind name v).deletable? name' =
      if name' = name then some ((e.deletable? name).getD false) else e.deletable? name' := by
  unfold deletable?
  by_cases h : name' = name
  · rw [if_pos h, h]
    unfold Environment.bind
    rw [KeyTable.find?_insert, if_pos rfl]
    cases e.bindings.find? name <;> rfl
  · rw [if_neg h, find?_bind_of_ne e (Ne.symm h)]

theorem deletable?_declare (e : Environment) (name : String) (deletable : Bool) (name' : String) :
    (e.declare name deletable).deletable? name' =
      if name' = name then some ((e.deletable? name).getD deletable) else e.deletable? name' := by
  by_cases h : name' = name
  · rw [if_pos h, h]
    unfold declare
    by_cases hh : e.has name
    · rw [if_pos hh]
      rw [has_eq] at hh
      obtain ⟨b, hb⟩ := Option.isSome_iff_exists.mp hh
      rw [hb]
      rfl
    · rw [if_neg hh]
      rw [has_eq, Bool.not_eq_true, Option.isSome_eq_false_iff, Option.isNone_iff_eq_none] at hh
      rw [hh]
      unfold deletable?
      rw [KeyTable.find?_insert, if_pos rfl]
      rfl
  · rw [if_neg h]
    unfold deletable?
    rw [find?_declare_of_ne e (Ne.symm h)]

theorem deletable?_erase (e : Environment) (name name' : String) :
    (e.erase name).deletable? name' = if name' = name then none else e.deletable? name' := by
  unfold deletable? erase
  rw [KeyTable.find?_erase]
  split <;> rfl

/-- From `e` to `e'` names that are bound for good stay, and no binding comes in that can be
deleted. -/
structure Retains (e e' : Environment) : Prop where
  outer : e'.outer = e.outer
  fixed : ∀ {name}, e.Fixed name → e'.Fixed name
  loose : ∀ {name}, e'.Loose name → e.Loose name

theorem Retains.refl (e : Environment) : e.Retains e := ⟨rfl, id, id⟩

theorem Retains.trans (h : e.Retains e') (h' : e'.Retains e'') : e.Retains e'' :=
  ⟨h'.outer.trans h.outer, fun hf => h'.fixed (h.fixed hf), fun hl => h.loose (h'.loose hl)⟩

theorem retains_bind (e : Environment) (name : String) (v : Value) : e.Retains (e.bind name v) := by
  refine ⟨rfl, fun {name'} h => ?_, fun {name'} h => ?_⟩
  · unfold Fixed at h ⊢
    rw [deletable?_bind]
    split
    · next hn =>
      rw [← hn, h]
      rfl
    · exact h
  · unfold Loose at h ⊢
    rw [deletable?_bind] at h
    split at h
    · next hn =>
      rw [hn]
      exact eq_true_of_getD h
    · exact h

theorem fixed_declare (h : e.Fixed name) (name' : String) (deletable : Bool) :
    (e.declare name' deletable).Fixed name := by
  unfold Fixed at h ⊢
  rw [deletable?_declare]
  split
  · next hn =>
    rw [← hn, h]
    rfl
  · exact h

theorem outer_declare (e : Environment) (name : String) (deletable : Bool) :
    (e.declare name deletable).outer = e.outer := by
  unfold declare
  split <;> rfl

theorem retains_declare (e : Environment) (name : String) : e.Retains (e.declare name false) := by
  refine ⟨outer_declare e name false, fun h => fixed_declare h _ _, fun {name'} h => ?_⟩
  unfold Loose at h ⊢
  rw [deletable?_declare] at h
  split at h
  · next hn =>
    rw [hn]
    exact eq_true_of_getD h
  · exact h

theorem retains_erase (h : e.canDelete name = true) : e.Retains (e.erase name) := by
  refine ⟨rfl, fun {name'} hf => ?_, fun {name'} hl => ?_⟩
  · unfold Fixed at hf ⊢
    rw [deletable?_erase, if_neg]
    · exact hf
    · intro hn
      rw [canDelete_eq, ← hn, hf] at h
      cases h
  · unfold Loose at hl ⊢
    rw [deletable?_erase] at hl
    split at hl
    · cases hl
    · exact hl

theorem retains_foldl {f : Environment → α → Environment} (h : ∀ e x, Retains e (f e x))
    (xs : List α) (e : Environment) : e.Retains (xs.foldl f e) := by
  induction xs generalizing e with
  | nil => exact .refl e
  | cons x xs ih => exact (h e x).trans (ih (f e x))

theorem retains_bindParameters (e : Environment) (arguments : Value) (params : List String)
    (args : List Value) : e.Retains (Machine.bindParameters e arguments params args) := by
  refine (retains_bind e _ _).trans (retains_foldl (fun e p => ?_) _ _)
  exact retains_bind e p.1 _

theorem fixed_declare_self (h : ¬ e.Loose name) : (e.declare name false).Fixed name := by
  unfold Fixed
  rw [deletable?_declare, if_pos rfl]
  exact getD_eq_false h

theorem fixed_bind_self (h : ¬ e.Loose name) (v : Value) : (e.bind name v).Fixed name := by
  unfold Fixed
  rw [deletable?_bind, if_pos rfl]
  exact getD_eq_false h

end Environment

namespace Realm

def HasEnv (r : Realm) (env : EnvRef) : Prop := env.index < r.environments.size

/-- From `r` to `r'` environments keep their places and what is bound in them for good, and only the
global one can get a binding that can be deleted. -/
structure Retains (r r' : Realm) : Prop where
  size : r.environments.size ≤ r'.environments.size
  outer : ∀ {ref}, r.HasEnv ref → (r'.env ref).outer = (r.env ref).outer
  fixed : ∀ {ref name}, (r.env ref).Fixed name → (r'.env ref).Fixed name
  loose : ∀ {ref name}, ref ≠ globalEnv → (r'.env ref).Loose name → (r.env ref).Loose name

/-- Only the global environment has bindings that can be deleted. -/
def Anchored (r : Realm) : Prop := ∀ ⦃ref name⦄, ref ≠ globalEnv → ¬ (r.env ref).Loose name

/-- No binding disappears from another environment than the global one. -/
def KeepsBindings (r r' : Realm) : Prop :=
  ∀ ⦃ref name⦄, ref ≠ globalEnv → (r.env ref).has name = true → (r'.env ref).has name = true

variable {r r' : Realm}

theorem Retains.refl (r : Realm) : r.Retains r :=
  ⟨Nat.le_refl _, fun _ => rfl, id, fun _ => id⟩

theorem Retains.trans {r'' : Realm} (h : r.Retains r') (h' : r'.Retains r'') : r.Retains r'' where
  size := Nat.le_trans h.size h'.size
  outer he := (h'.outer (Nat.lt_of_lt_of_le he h.size)).trans (h.outer he)
  fixed hf := h'.fixed (h.fixed hf)
  loose hne hl := h.loose hne (h'.loose hne hl)

theorem Anchored.retains (h : r.Anchored) (hr : r.Retains r') : r'.Anchored :=
  fun _ _ hne hl => h hne (hr.loose hne hl)

theorem Anchored.keepsBindings (h : r.Anchored) (hr : r.Retains r') : r.KeepsBindings r' :=
  fun _ _ hne hh => (hr.fixed ((Environment.fixed_or_loose hh).resolve_right (h hne))).has

theorem retains_of_environments (h : r'.environments = r.environments) : r.Retains r' := by
  have henv (ref : EnvRef) : r'.env ref = r.env ref := by
    unfold env
    rw [h]
  refine ⟨Nat.le_of_eq (by rw [h]), fun _ => ?_, fun hf => ?_, fun _ hl => ?_⟩
  · rw [henv]
  · rwa [henv]
  · rwa [← henv]

theorem size_modifyEnv (r : Realm) (ref : EnvRef) (f : Environment → Environment) :
    (r.modifyEnv ref f).environments.size = r.environments.size :=
  Array.size_modify

theorem environments_countRun (r : Realm) (name : String) :
    (r.countRun name).environments = r.environments := by
  unfold countRun
  split <;> rfl

theorem env_eq (r : Realm) (ref : EnvRef) : r.env ref = (r.environments[ref.index]?).getD {} := by
  unfold env
  rw [Array.getD_eq_getD_getElem?]

theorem modify_push_environment (environments : Array Environment) (e : Environment)
    (f : Environment → Environment) :
    (environments.push e).modify environments.size f = environments.push (f e) := by
  refine Array.ext_getElem? fun i => ?_
  rw [Array.getElem?_modify, Array.getElem?_push, Array.getElem?_push]
  by_cases hi : i = environments.size
  · rw [if_pos hi, if_pos hi, if_pos hi.symm]
    rfl
  · rw [if_neg hi, if_neg hi, if_neg (Ne.symm hi)]

theorem env_modifyEnv_of_ne (r : Realm) {ref ref' : EnvRef} (h : ref' ≠ ref)
    (f : Environment → Environment) : (r.modifyEnv ref f).env ref' = r.env ref' := by
  have hne : ref.index ≠ ref'.index := fun hi => h (by cases ref; cases ref'; cases hi; rfl)
  rw [env_eq, env_eq]
  unfold modifyEnv
  rw [Array.getElem?_modify, if_neg hne]

theorem env_modifyEnv_self {ref : EnvRef} (h : r.HasEnv ref) (f : Environment → Environment) :
    (r.modifyEnv ref f).env ref = f (r.env ref) := by
  rw [env_eq, env_eq]
  unfold modifyEnv
  rw [Array.getElem?_modify, if_pos rfl, Array.getElem?_eq_getElem h]
  rfl

theorem env_of_not_hasEnv {ref : EnvRef} (h : ¬ r.HasEnv ref) : r.env ref = {} := by
  rw [env_eq, Array.getElem?_eq_none (Nat.le_of_not_lt h)]
  rfl

theorem env_modifyEnv_cases (r : Realm) (ref ref' : EnvRef) (f : Environment → Environment) :
    ref' = ref ∧ r.HasEnv ref ∧ (r.modifyEnv ref f).env ref' = f (r.env ref) ∨
      (r.modifyEnv ref f).env ref' = r.env ref' := by
  by_cases h : ref' = ref
  · subst h
    by_cases he : r.HasEnv ref'
    · exact .inl ⟨rfl, he, env_modifyEnv_self he f⟩
    · have he' : ¬ (r.modifyEnv ref' f).HasEnv ref' := by
        unfold HasEnv
        rw [size_modifyEnv]
        exact he
      exact .inr ((env_of_not_hasEnv he').trans (env_of_not_hasEnv he).symm)
  · exact .inr (env_modifyEnv_of_ne r h f)

theorem retains_modifyEnv {ref : EnvRef} {f : Environment → Environment}
    (houter : (f (r.env ref)).outer = (r.env ref).outer)
    (hfixed : ∀ {name}, (r.env ref).Fixed name → (f (r.env ref)).Fixed name)
    (hloose : ref ≠ globalEnv → ∀ {name}, (f (r.env ref)).Loose name → (r.env ref).Loose name) :
    r.Retains (r.modifyEnv ref f) := by
  refine ⟨Nat.le_of_eq (size_modifyEnv r ref f).symm, fun {ref'} _ => ?_, fun {ref' name} hf => ?_,
    fun {ref' name} hne hl => ?_⟩
  · rcases env_modifyEnv_cases r ref ref' f with ⟨rfl, -, he⟩ | he
    · rw [he, houter]
    · rw [he]
  · rcases env_modifyEnv_cases r ref ref' f with ⟨rfl, -, he⟩ | he
    · rw [he]
      exact hfixed hf
    · rwa [he]
  · rcases env_modifyEnv_cases r ref ref' f with ⟨rfl, -, he⟩ | he
    · rw [he] at hl
      exact hloose hne hl
    · rwa [he] at hl

theorem retains_update (ref : EnvRef) {f : Environment → Environment}
    (h : (r.env ref).Retains (f (r.env ref))) : r.Retains (r.modifyEnv ref f) :=
  retains_modifyEnv h.outer h.fixed fun _ _ => h.loose

theorem env_addEnv (r : Realm) (outer : Option EnvRef) (ref : EnvRef) :
    (r.addEnv outer).2.env ref =
      if ref.index = r.environments.size then { outer } else r.env ref := by
  rw [env_eq, env_eq]
  show ((r.environments.push { outer })[ref.index]?).getD {} = _
  rw [Array.getElem?_push]
  split <;> rfl

theorem retains_addEnv (r : Realm) (outer : Option EnvRef) : r.Retains (r.addEnv outer).2 := by
  have hnew {ref : EnvRef} (h : ref.index = r.environments.size) : ¬ r.HasEnv ref :=
    fun hr => Nat.ne_of_lt hr h
  refine ⟨by simp [addEnv], fun {ref} he => ?_, fun {ref name} hf => ?_,
    fun {ref name} _ hl => ?_⟩
  · rw [env_addEnv, if_neg fun h => hnew h he]
  · rw [env_addEnv]
    split
    · next h =>
      rw [env_of_not_hasEnv (hnew h)] at hf
      cases hf
    · exact hf
  · rw [env_addEnv] at hl
    split at hl
    · cases hl
    · exact hl

end Realm

end TreeScript
