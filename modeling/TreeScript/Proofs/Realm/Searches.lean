import TreeScript.Proofs.Realm.Founded

/-!
# Searches along links

Reading a property goes from an object to its prototypes, and looking up a name goes from an
environment to those around it.  Such a search ends if it comes to a hit or to something without a
link, and it is at fault if it comes to a handle that leads nowhere.  `Walk` and `Search` are the
searches that end and are not at fault, however many steps they take.

The functions of a realm stop after as many steps as there are objects or environments.  In a
founded realm every link goes down, so none of them is ever stopped: `Founded.searchable` says that
each does what the search without a limit does.
-/

namespace TreeScript

section

variable {ρ ε β : Type} (find? : ρ → Option ε) (link : ε → Option ρ)

/-- From a handle the links lead over the handles of the list to where there is none. -/
inductive Walk : Option ρ → List ρ → Prop where
  | done : Walk none []
  | step {ref : ρ} {e : ε} {refs : List ρ} :
    find? ref = some e → Walk (link e) refs → Walk (some ref) (ref :: refs)

/-- Along the links from a handle the search comes to the first hit, or to the end without one. -/
inductive Search (hit : ρ → ε → Option β) : Option ρ → Option β → Prop where
  | missed : Search hit none none
  | found {ref : ρ} {e : ε} {b : β} :
    find? ref = some e → hit ref e = some b → Search hit (some ref) (some b)
  | further {ref : ρ} {e : ε} {result : Option β} :
    find? ref = some e → hit ref e = none → Search hit (link e) result →
    Search hit (some ref) result

variable {find? link}

/-- Links that go down come to an end, and `n` steps are enough from any handle below `n`. -/
theorem walk_of_descending (rank : ρ → Nat) {go : Nat → Option ρ → List ρ}
    (hnone : ∀ n, go n none = [])
    (hsome : ∀ {n ref e}, find? ref = some e → go (n + 1) (some ref) = ref :: go n (link e))
    (hdown : ∀ {ref e ref'}, find? ref = some e → link e = some ref' →
      rank ref' < rank ref ∧ (find? ref').isSome)
    {n : Nat} {start : Option ρ}
    (hstart : ∀ ref, start = some ref → rank ref < n ∧ (find? ref).isSome) :
    Walk find? link start (go n start) := by
  induction n generalizing start with
  | zero =>
    cases start with
    | none =>
      rw [hnone]
      exact .done
    | some ref => exact absurd (hstart ref rfl).1 (Nat.not_lt_zero _)
  | succ n ih =>
    cases start with
    | none =>
      rw [hnone]
      exact .done
    | some ref =>
      obtain ⟨hrank, hfound⟩ := hstart ref rfl
      obtain ⟨e, he⟩ := Option.isSome_iff_exists.mp hfound
      rw [hsome he]
      refine .step he (ih fun ref' hlink => ?_)
      obtain ⟨hlt, hthere⟩ := hdown he hlink
      exact ⟨Nat.lt_of_lt_of_le hlt (Nat.le_of_lt_succ hrank), hthere⟩

theorem Walk.unique {start : Option ρ} {refs refs' : List ρ} (h : Walk find? link start refs)
    (h' : Walk find? link start refs') : refs' = refs := by
  induction h generalizing refs' with
  | done =>
    cases h'
    rfl
  | step he _ ih =>
    cases h' with
    | step he' hrest =>
      cases he.symm.trans he'
      rw [ih hrest]

theorem Walk.search {start : Option ρ} {refs : List ρ} (h : Walk find? link start refs)
    {hit : ρ → ε → Option β} {f : ρ → Option β}
    (hf : ∀ {ref e}, find? ref = some e → f ref = hit ref e) :
    Search find? link hit start (refs.findSome? f) := by
  induction h with
  | done => exact .missed
  | @step ref e refs he _ ih =>
    rw [List.findSome?_cons, hf he]
    cases hhit : hit ref e with
    | some b => exact .found he hhit
    | none => exact .further he hhit ih

theorem Search.unique {hit : ρ → ε → Option β} {start : Option ρ} {result result' : Option β}
    (h : Search find? link hit start result) (h' : Search find? link hit start result') :
    result = result' := by
  induction h with
  | missed =>
    cases h'
    rfl
  | found he hhit =>
    cases h' with
    | found he' hhit' =>
      cases he.symm.trans he'
      exact hhit.symm.trans hhit'
    | further he' hhit' =>
      cases he.symm.trans he'
      cases hhit.symm.trans hhit'
  | further he hhit _ ih =>
    cases h' with
    | found he' hhit' =>
      cases he.symm.trans he'
      cases hhit.symm.trans hhit'
    | further he' _ hrest =>
      cases he.symm.trans he'
      exact ih hrest

theorem Search.hit_of_some {hit : ρ → ε → Option β} {start : Option ρ} {b : β}
    (h : Search find? link hit start (some b)) :
    ∃ ref e, find? ref = some e ∧ hit ref e = some b := by
  generalize hresult : some b = result at h
  induction h with
  | missed => cases hresult
  | found he hhit =>
    exact ⟨_, _, he, hhit⟩
  | further _ _ _ ih => exact ih hresult

end

namespace Realm

def env? (r : Realm) (ref : EnvRef) : Option Environment := r.environments[ref.index]?

variable {r : Realm}

theorem object_of_object? {ref : ObjectRef} {o : Object} (h : r.object? ref = some o) :
    r.object ref = o := by
  unfold object? at h
  unfold object
  rw [Array.getD_eq_getD_getElem?, h]
  rfl

theorem env_of_env? {ref : EnvRef} {e : Environment} (h : r.env? ref = some e) : r.env ref = e := by
  unfold env? at h
  unfold env
  rw [Array.getD_eq_getD_getElem?, h]
  rfl

theorem object?_of_inside {ref : ObjectRef} (h : r.Inside (.object ref)) :
    r.object? ref = some (r.object ref) := by
  unfold object? object
  rw [Array.getD_eq_getD_getElem?, Array.getElem?_eq_getElem h]
  rfl

theorem env?_of_hasEnv {ref : EnvRef} (h : r.HasEnv ref) : r.env? ref = some (r.env ref) := by
  unfold env? env
  rw [Array.getD_eq_getD_getElem?, Array.getElem?_eq_getElem h]
  rfl

theorem Founded.walk_ancestors (h : r.Founded) (start : Option ObjectRef)
    (hs : ∀ ref, start = some ref → r.Inside (.object ref)) :
    Walk r.object? Object.prototype start (r.ancestors start) := by
  have hthere {ref : ObjectRef} (hin : r.Inside (.object ref)) : (r.object? ref).isSome := by
    rw [object?_of_inside hin]
    rfl
  refine walk_of_descending ObjectRef.index (fun n => by cases n <;> rfl)
    (fun {n ref e} he => ?_) (fun {ref e ref'} he hlink => ?_) fun ref href => ?_
  · show ref :: follow _ n (r.object ref).prototype = _
    rw [object_of_object? he]
  · have hlt := (h.objects he).prototype ref' hlink
    have hsize : ref.index < r.objects.size := (Array.getElem?_eq_some_iff.mp he).1
    exact ⟨hlt, hthere (Nat.lt_trans hlt hsize)⟩
  · exact ⟨hs ref href, hthere (hs ref href)⟩

theorem Founded.walk_scopes (h : r.Founded) {env : EnvRef} (he : r.HasEnv env) :
    Walk r.env? Environment.outer (some env) (r.scopes env) := by
  have hthere {ref : EnvRef} (hin : r.HasEnv ref) : (r.env? ref).isSome := by
    rw [env?_of_hasEnv hin]
    rfl
  refine walk_of_descending EnvRef.index (fun n => by cases n <;> rfl)
    (fun {n ref e} he => ?_) (fun {ref e ref'} he hlink => ?_) fun ref href => ?_
  · show ref :: r.scopesFrom n (r.env ref).outer = _
    rw [env_of_env? he]
  · have hlt := (h.environments he).outer ref' hlink
    have hsize : ref.index < r.environments.size := (Array.getElem?_eq_some_iff.mp he).1
    exact ⟨hlt, hthere (Nat.lt_trans hlt hsize)⟩
  · cases href
    exact ⟨he, hthere he⟩

/-! ## What the functions of a realm search for -/

abbrev Inherits (r : Realm) (ref : ObjectRef) (key : String) : Option Property → Prop :=
  Search r.object? Object.prototype (fun _ o => o.own? key) (some ref)

abbrev Resolves (r : Realm) (env : EnvRef) (name : String) : Option EnvRef → Prop :=
  Search r.env? Environment.outer (fun ref e => if e.has name then some ref else none) (some env)

/-- Every function that follows links does what the search without a limit does. -/
structure Searchable (r : Realm) : Prop where
  getFrom : ∀ {ref}, r.Inside (.object ref) → ∀ key, ∃ found, r.Inherits ref key found ∧
    r.getFrom ref key = (found.map Property.value).getD .undefined
  hasProperty : ∀ {ref}, r.Inside (.object ref) → ∀ key, ∃ found, r.Inherits ref key found ∧
    r.hasProperty ref key = found.isSome
  enumerateKeys : ∀ {ref}, r.Inside (.object ref) →
    ∃ refs, Walk r.object? Object.prototype (some ref) refs ∧
      r.enumerateKeys (.object ref) = enumerateKeys.go [] (refs.map r.object)
  instanceOf : ∀ {ref constructor target}, r.Inside (.object ref) →
    r.isCallable constructor = true → r.read constructor "prototype" = .ok (.object target) →
    ∃ found, Search r.object? Object.prototype (fun ref _ => if ref = target then some () else none)
      (r.object ref).prototype found ∧ r.instanceOf (.object ref) constructor = .ok found.isSome
  resolve : ∀ {env}, r.HasEnv env → ∀ name, r.Resolves env name (r.resolve env name)
  lookup : ∀ {env}, r.HasEnv env → ∀ name, ∃ found, r.Resolves env name found ∧
    r.lookup env name = found.bind fun ref => (r.env? ref).bind (·.get? name)
  assign : ∀ {env}, r.HasEnv env → ∀ name v strict, ∃ found, r.Resolves env name found ∧
    (∀ ref, found = some ref → r.HasEnv ref) ∧
    Realm.assign env name v strict r = match found with
      | some ref => .ok () (r.modifyEnv ref (·.bind name v))
      | none => if strict then .error (.notDefined name) r
        else .ok () (r.modifyEnv globalEnv fun e => (e.declare name true).bind name v)
  deleteBinding : ∀ {env}, r.HasEnv env → ∀ name, ∃ found, r.Resolves env name found ∧
    (∀ ref, found = some ref → r.HasEnv ref) ∧
    Realm.deleteBinding env name r = match found with
      | none => .ok true r
      | some ref => if (r.env ref).canDelete name then .ok true (r.modifyEnv ref (·.erase name))
        else .ok false r

theorem Founded.inherits (h : r.Founded) {ref : ObjectRef} (hr : r.Inside (.object ref))
    (key : String) : r.Inherits ref key ((r.lineage ref).findSome? (·.own? key)) := by
  have hwalk := h.walk_ancestors (some ref) fun ref' href => by
    cases href
    exact hr
  unfold lineage
  rw [List.findSome?_map]
  refine hwalk.search fun he => ?_
  show Object.own? (r.object _) key = _
  rw [object_of_object? he]

theorem Founded.resolves (h : r.Founded) {env : EnvRef} (he : r.HasEnv env) (name : String) :
    r.Resolves env name (r.resolve env name) := by
  unfold resolve
  rw [List.find?_eq_findSome?_guard]
  refine (h.walk_scopes he).search fun {ref e} hfound => ?_
  show (if (r.env ref).has name then some ref else none) = _
  rw [env_of_env? hfound]

theorem hasEnv_of_resolves {env ref : EnvRef} {name : String} (h : r.Resolves env name (some ref)) :
    r.HasEnv ref := by
  obtain ⟨ref', e, he, hhit⟩ := h.hit_of_some
  split at hhit
  · cases hhit
    exact (Array.getElem?_eq_some_iff.mp he).1
  · cases hhit

theorem assign_eq (r : Realm) (env : EnvRef) (name : String) (v : Value) (strict : Bool) :
    Realm.assign env name v strict r = match r.resolve env name with
      | some ref => .ok () (r.modifyEnv ref (·.bind name v))
      | none => if strict then .error (.notDefined name) r
        else .ok () (r.modifyEnv globalEnv fun e => (e.declare name true).bind name v) := by
  show (match r.resolve env name with
    | some ref => _
    | none => _ : RealmM Unit) r = _
  cases r.resolve env name with
  | some ref => rfl
  | none => cases strict <;> rfl

theorem deleteBinding_eq (r : Realm) (env : EnvRef) (name : String) :
    Realm.deleteBinding env name r = match r.resolve env name with
      | none => .ok true r
      | some ref => if (r.env ref).canDelete name then .ok true (r.modifyEnv ref (·.erase name))
        else .ok false r := by
  show (match r.resolve env name with
    | none => _
    | some ref => _ : RealmM Bool) r = _
  cases r.resolve env name with
  | none => rfl
  | some ref =>
    dsimp only
    split <;> rfl

/-- No search in a founded realm is stopped, and none leaves it. -/
theorem Founded.searchable (h : r.Founded) : r.Searchable where
  getFrom {ref} hr key := by
    refine ⟨_, h.inherits hr key, ?_⟩
    unfold Realm.getFrom
    cases (r.lineage ref).findSome? (·.own? key) <;> rfl
  hasProperty {ref} hr key := by
    refine ⟨_, h.inherits hr key, ?_⟩
    rw [List.isSome_findSome?]
    refine congrArg _ (funext fun o => ?_)
    exact KeyTable.contains_eq_isSome_find? _ _
  enumerateKeys {ref} hr := by
    refine ⟨_, h.walk_ancestors _ fun ref' href => ?_, rfl⟩
    cases href
    exact hr
  instanceOf {ref constructor target} hr hcall hread := by
    have hwalk := h.walk_ancestors (r.object ref).prototype fun p hp => ?_
    · refine ⟨_, hwalk.search fun _ => rfl, ?_⟩
      unfold Realm.instanceOf
      rw [if_pos hcall, hread]
      show Except.ok ((r.ancestors (r.object ref).prototype).contains target) = _
      rw [List.isSome_findSome?, List.contains_eq_any_beq]
      refine congrArg Except.ok (congrArg _ (funext fun ref' => ?_))
      by_cases heq : ref' = target
      · simp [heq]
      · simp [heq, Ne.symm heq]
    · exact Nat.lt_trans ((h.objects (object?_of_inside hr)).prototype p hp) hr
  resolve he name := h.resolves he name
  lookup {env} he name := by
    refine ⟨_, h.resolves he name, ?_⟩
    unfold Realm.lookup
    cases hfound : r.resolve env name with
    | none => rfl
    | some ref =>
      have hthere := env?_of_hasEnv (hasEnv_of_resolves (hfound ▸ h.resolves he name))
      simp only [Option.bind_eq_bind, Option.bind_some, hthere]
  assign he name v strict :=
    ⟨_, h.resolves he name, fun _ href => hasEnv_of_resolves (href ▸ h.resolves he name),
      assign_eq r _ name v strict⟩
  deleteBinding he name :=
    ⟨_, h.resolves he name, fun _ href => hasEnv_of_resolves (href ▸ h.resolves he name),
      deleteBinding_eq r _ name⟩

end Realm

end TreeScript
