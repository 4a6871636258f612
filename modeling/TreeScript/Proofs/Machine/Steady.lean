import TreeScript.Machine.Apply
import TreeScript.Proofs.Realm.Bindings

/-!
# What stays in a realm

The operations of the language change objects and environments, but they take none away and make no
array of what is none.  They do not touch the depth of calls, and the only functions they bring into
a realm are those they make.  `Realm.Steady` says so of two realms, and `Moves` carries it along a
computation.

`Upkeep` is for what holds only under conditions on the state: an invariant that a computation keeps
from a state, a relation along which it moves, and what it gives or fails with.
-/

namespace TreeScript

open Code (Operation)

/-- The state that a computation leaves, whether or not it goes through. -/
def stateOf : EStateM.Result ε σ α → σ
  | .ok _ s => s
  | .error _ s => s

/-- A computation moves its state only along `R`. -/
def Moves (R : σ → σ → Prop) (x : EStateM ε σ α) : Prop := ∀ s, R s (stateOf (x s))

section

variable {R : σ → σ → Prop}

theorem moves_pure [Std.Refl R] (a : α) : Moves R (pure a : EStateM ε σ α) :=
  fun s => Std.Refl.refl s

theorem moves_throw [Std.Refl R] (e : ε) : Moves R (throw e : EStateM ε σ α) :=
  fun s => Std.Refl.refl s

theorem moves_get [Std.Refl R] : Moves R (get : EStateM ε σ σ) := fun s => Std.Refl.refl s

theorem moves_modify {f : σ → σ} (h : ∀ s, R s (f s)) : Moves R (modify f : EStateM ε σ Unit) :=
  fun s => h s

theorem moves_modifyGet {f : σ → α × σ} (h : ∀ s, R s (f s).2) :
    Moves R (modifyGet f : EStateM ε σ α) :=
  fun s => h s

theorem moves_get_bind {f : σ → EStateM ε σ α} (h : ∀ s, R s (stateOf (f s s))) :
    Moves R (get >>= f) :=
  h

theorem moves_liftExcept [Std.Refl R] (x : Except ε α) :
    Moves R (liftExcept x : EStateM ε σ α) := by
  intro s
  cases x <;> exact Std.Refl.refl s

theorem Moves.mono {R' : σ → σ → Prop} {x : EStateM ε σ α} (h : Moves R x)
    (hR : ∀ {s s'}, R s s' → R' s s') : Moves R' x :=
  fun s => hR (h s)

theorem Moves.bind [Trans R R R] {x : EStateM ε σ α} {f : α → EStateM ε σ β} (hx : Moves R x)
    (hf : ∀ a, Moves R (f a)) : Moves R (x >>= f) := by
  intro s
  have hs := hx s
  show R s (stateOf (EStateM.bind x f s))
  unfold EStateM.bind
  cases h : x s with
  | error e s1 =>
    rw [h] at hs
    exact hs
  | ok a s1 =>
    rw [h] at hs
    exact Trans.trans hs (hf a s1)

end

/-- How a computation ends, with its state and its failure translated. -/
def translate (φ : σ → σ') (ψ : ε → ε') : EStateM.Result ε σ α → EStateM.Result ε' σ' α
  | .ok a s => .ok a (φ s)
  | .error e s => .error (ψ e) (φ s)

/-- A computation that does to the images of a state under `φ` what it does to the state. -/
def Commutes (φ : ι → σ → σ) (x : EStateM ε σ α) : Prop :=
  ∀ s i, x (φ i s) = translate (φ i) id (x s)

section

variable {φ : ι → σ → σ}

theorem Commutes.bind {x : EStateM ε σ α} {f : α → EStateM ε σ β} (hx : Commutes φ x)
    (hf : ∀ a, Commutes φ (f a)) : Commutes φ (x >>= f) := by
  intro s i
  show EStateM.bind x f (φ i s) = translate _ _ (EStateM.bind x f s)
  unfold EStateM.bind
  rw [hx s i]
  cases x s with
  | ok a s' => exact hf a s' i
  | error e s' => rfl

theorem commutes_get {f : σ → EStateM ε σ α} (hf : ∀ s i, f (φ i s) = f s)
    (h : ∀ s, Commutes φ (f s)) : Commutes φ (get >>= f) := by
  intro s i
  show f (φ i s) (φ i s) = _
  rw [hf]
  exact h s s i

end

/-! ## Computations that keep an invariant -/

/-- An invariant of the states of a computation, with the way these states develop. -/
structure Upkeep (ε σ : Type) where
  along : σ → σ → Prop
  refl : ∀ s, along s s
  trans : ∀ {s s' s''}, along s s' → along s' s'' → along s s''
  holds : σ → Prop
  fails : σ → ε → Prop

namespace Upkeep

variable {ε σ α β : Type} (U : Upkeep ε σ)

/-- From `s` a computation comes to a state where the invariant holds, with a result for which `A`
holds there. -/
def Sustains (s : σ) (x : EStateM ε σ α) (A : σ → α → Prop) : Prop :=
  match x s with
  | .ok a s' => U.along s s' ∧ U.holds s' ∧ A s' a
  | .error e s' => U.along s s' ∧ U.holds s' ∧ U.fails s' e

variable {U} {s : σ} {A : σ → α → Prop}

theorem sustains_pure {a : α} (h : U.holds s) (ha : A s a) : U.Sustains s (pure a) A :=
  ⟨U.refl s, h, ha⟩

theorem sustains_throw {e : ε} (h : U.holds s) (he : U.fails s e) :
    U.Sustains s (throw e : EStateM ε σ α) A :=
  ⟨U.refl s, h, he⟩

theorem sustains_get {f : σ → EStateM ε σ α} (h : U.Sustains s (f s) A) :
    U.Sustains s (get >>= f) A := h

theorem sustains_modify {f : σ → σ} {A : σ → Unit → Prop} (hs : U.along s (f s))
    (h : U.holds (f s)) (ha : A (f s) ()) : U.Sustains s (modify f) A :=
  ⟨hs, h, ha⟩

theorem sustains_modifyGet {f : σ → α × σ} (hs : U.along s (f s).2) (h : U.holds (f s).2)
    (ha : A (f s).2 (f s).1) : U.Sustains s (modifyGet f : EStateM ε σ α) A :=
  ⟨hs, h, ha⟩

theorem sustains_liftExcept {x : Except ε α} (h : U.holds s) (ha : ∀ a, x = .ok a → A s a)
    (he : ∀ e, x = .error e → U.fails s e) : U.Sustains s (liftExcept x : EStateM ε σ α) A := by
  cases x with
  | ok a => exact ⟨U.refl s, h, ha a rfl⟩
  | error e => exact ⟨U.refl s, h, he e rfl⟩

theorem Sustains.bind {x : EStateM ε σ α} {f : α → EStateM ε σ β} {B : σ → β → Prop}
    (hx : U.Sustains s x A)
    (hf : ∀ a s', U.along s s' → U.holds s' → A s' a → U.Sustains s' (f a) B) :
    U.Sustains s (x >>= f) B := by
  show match EStateM.bind x f s with
    | .ok b s' => U.along s s' ∧ U.holds s' ∧ B s' b
    | .error e s' => U.along s s' ∧ U.holds s' ∧ U.fails s' e
  unfold Sustains at hx
  unfold EStateM.bind
  cases h : x s with
  | error e s1 =>
    rw [h] at hx
    exact hx
  | ok a s1 =>
    rw [h] at hx
    obtain ⟨hs, hi, ha⟩ := hx
    have hrest := hf a s1 hs hi ha
    unfold Sustains at hrest
    dsimp only
    cases hy : f a s1 with
    | ok b s2 | error e s2 =>
      rw [hy] at hrest
      exact ⟨U.trans hs hrest.1, hrest.2⟩

end Upkeep

namespace Realm

/-- A realm has a function with this closure. -/
def Holds (r : Realm) (c : Closure) : Prop := ∃ ref, (r.object ref).closure? = some c

/-- From `r` to `r'` objects and environments are only added, and the arrays among them stay what
they are. -/
structure Grows (r r' : Realm) : Prop where
  objects : r.objects.size ≤ r'.objects.size
  environments : r.environments.size ≤ r'.environments.size
  arrays : ∀ {ref}, ref.index < r.objects.size → (r'.object ref).isArray = (r.object ref).isArray

theorem Grows.refl (r : Realm) : Grows r r := ⟨Nat.le_refl _, Nat.le_refl _, fun _ => rfl⟩

theorem Grows.trans {r s t : Realm} (h : Grows r s) (h' : Grows s t) : Grows r t where
  objects := Nat.le_trans h.objects h'.objects
  environments := Nat.le_trans h.environments h'.environments
  arrays hlt := (h'.arrays (Nat.lt_of_lt_of_le hlt h.objects)).trans (h.arrays hlt)

theorem grows_of_objects {r r' : Realm} (ho : r'.objects = r.objects)
    (he : r.environments.size ≤ r'.environments.size) : Grows r r' := by
  refine ⟨Nat.le_of_eq (congrArg Array.size ho).symm, he, fun _ => ?_⟩
  unfold object
  rw [ho]

/-- From `r` to `r'` the depth of calls, its limit and what is bound for good stay, and every new
function has a closure for which `K` holds. -/
structure Steady (K : Closure → Prop) (r r' : Realm) : Prop extends Grows r r' where
  retains : Retains r r'
  depth : r'.callDepth = r.callDepth
  limit : r'.maxCallDepth = r.maxCallDepth
  holds : ∀ {c}, r'.Holds c → r.Holds c ∨ K c

variable {K : Closure → Prop}

theorem Steady.refl (r : Realm) : Steady K r r := ⟨.refl r, .refl r, rfl, rfl, Or.inl⟩

theorem Steady.trans {r s t : Realm} (h : Steady K r s) (h' : Steady K s t) : Steady K r t where
  toGrows := h.toGrows.trans h'.toGrows
  retains := h.retains.trans h'.retains
  depth := h'.depth.trans h.depth
  limit := h'.limit.trans h.limit
  holds hc := (h'.holds hc).elim h.holds Or.inr

/-- From `r` to `r'` only the environments change. -/
structure Rebinds (r r' : Realm) : Prop where
  objects : r'.objects = r.objects
  retains : Retains r r'
  depth : r'.callDepth = r.callDepth
  limit : r'.maxCallDepth = r.maxCallDepth

theorem Rebinds.refl (r : Realm) : Rebinds r r := ⟨rfl, .refl r, rfl, rfl⟩

theorem Rebinds.trans {r s t : Realm} (h : Rebinds r s) (h' : Rebinds s t) : Rebinds r t where
  objects := h'.objects.trans h.objects
  retains := h.retains.trans h'.retains
  depth := h'.depth.trans h.depth
  limit := h'.limit.trans h.limit

instance : Std.Refl Rebinds := ⟨Rebinds.refl⟩

instance : Trans Rebinds Rebinds Rebinds := ⟨Rebinds.trans⟩

instance : Std.Refl (Steady K) := ⟨Steady.refl⟩

instance : Trans (Steady K) (Steady K) (Steady K) := ⟨Steady.trans⟩

/-! ## Objects and environments -/

theorem Rebinds.steady {r r' : Realm} (h : Rebinds r r') : Steady K r r' := by
  refine ⟨grows_of_objects h.objects h.retains.size, h.retains, h.depth, h.limit, ?_⟩
  rintro c ⟨ref, hc⟩
  refine Or.inl ⟨ref, ?_⟩
  rw [← hc]
  unfold object
  rw [h.objects]

theorem rebinds_modifyEnv (ref : EnvRef) {r : Realm} {f : Environment → Environment}
    (h : (r.env ref).Retains (f (r.env ref))) : Rebinds r (r.modifyEnv ref f) :=
  ⟨rfl, retains_update ref h, rfl, rfl⟩

theorem rebinds_addEnv (r : Realm) (outer : Option EnvRef) : Rebinds r (r.addEnv outer).2 :=
  ⟨rfl, retains_addEnv r outer, rfl, rfl⟩

theorem rebinds_print (r : Realm) (line : String) : Rebinds r (r.print line) :=
  ⟨rfl, retains_of_environments rfl, rfl, rfl⟩

theorem rebinds_countRun (r : Realm) (name : String) : Rebinds r (r.countRun name) := by
  unfold countRun
  split
  · exact ⟨rfl, retains_of_environments rfl, rfl, rfl⟩
  · exact .refl r

theorem steady_addEnv (r : Realm) (outer : Option EnvRef) : Steady K r (r.addEnv outer).2 :=
  (rebinds_addEnv r outer).steady

theorem steady_countRun (r : Realm) (name : String) : Steady K r (r.countRun name) :=
  (rebinds_countRun r name).steady

theorem object_modifyObject (r : Realm) (ref ref' : ObjectRef) (f : Object → Object) :
    (r.modifyObject ref f).object ref' = r.object ref' ∨
      (r.modifyObject ref f).object ref' = f (r.object ref') := by
  simp only [modifyObject, object, Array.getD_eq_getD_getElem?, Array.getElem?_modify]
  by_cases h : ref.index = ref'.index
  · rw [if_pos h]
    cases r.objects[ref'.index]? with
    | none => exact Or.inl rfl
    | some o => exact Or.inr rfl
  · rw [if_neg h]
    exact Or.inl rfl

theorem grows_modifyObject (r : Realm) (ref : ObjectRef) {f : Object → Object}
    (h : ∀ o, (f o).kind = o.kind) : Grows r (r.modifyObject ref f) := by
  refine ⟨Nat.le_of_eq Array.size_modify.symm, Nat.le_refl _, fun {ref'} _ => ?_⟩
  rcases object_modifyObject r ref ref' f with he | he
  · rw [he]
  · rw [he]
    unfold Object.isArray
    rw [h]

theorem steady_modifyObject (r : Realm) (ref : ObjectRef) {f : Object → Object}
    (h : ∀ o, (f o).kind = o.kind) : Steady K r (r.modifyObject ref f) := by
  refine ⟨grows_modifyObject r ref h, retains_of_environments rfl, rfl, rfl, ?_⟩
  rintro c ⟨ref', hc⟩
  refine Or.inl ⟨ref', ?_⟩
  rcases object_modifyObject r ref ref' f with he | he
  · rw [he] at hc
    exact hc
  · rw [he] at hc
    unfold Object.closure? at hc ⊢
    rw [h] at hc
    exact hc

theorem object_addObject (r : Realm) (o : Object) (ref : ObjectRef) :
    (r.addObject o).2.object ref = if ref.index = r.objects.size then o else r.object ref := by
  simp only [addObject, object, Array.getD_eq_getD_getElem?, Array.getElem?_push]
  by_cases h : ref.index = r.objects.size
  · rw [if_pos h, if_pos h]
    rfl
  · rw [if_neg h, if_neg h]

theorem grows_addObject (r : Realm) (o : Object) : Grows r (r.addObject o).2 := by
  refine ⟨by simp [addObject], Nat.le_refl _, fun hlt => ?_⟩
  rw [object_addObject, if_neg (Nat.ne_of_lt hlt)]

theorem steady_addObject (r : Realm) {o : Object} (h : ∀ c, o.closure? = some c → K c) :
    Steady K r (r.addObject o).2 := by
  refine ⟨grows_addObject r o, retains_of_environments rfl, rfl, rfl, ?_⟩
  rintro c ⟨ref, hc⟩
  rw [object_addObject] at hc
  by_cases hr : ref.index = r.objects.size
  · rw [if_pos hr] at hc
    exact Or.inr (h c hc)
  · rw [if_neg hr] at hc
    exact Or.inl ⟨ref, hc⟩

theorem steady_newArray (r : Realm) (elements : List Value) : Steady K r (r.newArray elements).2 :=
  steady_addObject r (fun _ hc => nomatch hc)

theorem steady_derive (r : Realm) (prototype : Value) : Steady K r (r.derive prototype).2 :=
  steady_addObject r (fun _ hc => nomatch hc)

theorem steady_newFunction (r : Realm) {closure : Closure} (h : K closure) :
    Steady K r (r.newFunction closure).2 := by
  have h1 := steady_addObject (K := K) r
    (o := (({ kind := .function closure, prototype := functionPrototype } : Object)
      |>.define "prototype" (.hidden (.object ⟨r.objects.size + 1⟩))
      |>.define "length" (.hidden (.number (Number.ofNat closure.info.params.length)))
      |>.define "name" (.hidden (.string (closure.info.name.getD "")))))
    (fun c hc => by
      cases hc
      exact h)
  exact h1.trans (steady_addObject _ (fun _ hc => nomatch hc))

theorem steady_materialize (r : Realm) (fault : Fault) : Steady K r (r.materialize fault).2 := by
  cases fault with
  | value v => exact .refl r
  | error kind message => exact steady_addObject r (fun _ hc => nomatch hc)

/-! ## Operations -/

theorem rebinds_assign (env : EnvRef) (name : String) (v : Value) (strict : Bool) :
    Moves Rebinds (assign env name v strict) := by
  have hglobal (r : Realm) :
      Rebinds r (r.modifyEnv globalEnv fun e => (e.declare name true).bind name v) := by
    refine ⟨rfl, retains_modifyEnv ?_ (fun hf => ?_) fun hne => absurd rfl hne, rfl, rfl⟩
    · exact Environment.outer_declare _ name true
    · exact (Environment.retains_bind _ name v).fixed (Environment.fixed_declare hf name true)
  refine moves_get.bind fun r => ?_
  split
  · exact moves_modify fun r => rebinds_modifyEnv _ (Environment.retains_bind _ name v)
  · cases strict
    · exact moves_modify hglobal
    · exact (moves_throw _).bind fun _ => moves_modify hglobal

theorem moves_assign (env : EnvRef) (name : String) (v : Value) (strict : Bool) :
    Moves (Steady K) (assign env name v strict) :=
  (rebinds_assign env name v strict).mono Rebinds.steady

theorem rebinds_deleteBinding (env : EnvRef) (name : String) :
    Moves Rebinds (deleteBinding env name) := by
  refine moves_get_bind fun r => ?_
  cases r.resolve env name with
  | none => exact .refl r
  | some ref =>
    dsimp only
    split
    · next h => exact rebinds_modifyEnv ref (Environment.retains_erase h)
    · exact .refl r

theorem moves_deleteBinding (env : EnvRef) (name : String) :
    Moves (Steady K) (deleteBinding env name) :=
  (rebinds_deleteBinding env name).mono Rebinds.steady

theorem kind_write (o : Object) (key : String) (v : Value) : (o.write key v).kind = o.kind := by
  unfold Object.write
  split <;> rfl

theorem kind_growTo (o : Object) (index : Nat) : (growTo o index).kind = o.kind := by
  unfold growTo
  split <;> rfl

/-! ## Operations on objects -/

def withEnvs (r : Realm) (environments : Array Environment) : Realm := { r with environments }

theorem writeText?_withEnvs (r : Realm) (es : Array Environment) (n : Nat)
    (visiting : List ObjectRef) (v : Value) :
    (r.withEnvs es).writeText? n visiting v = r.writeText? n visiting v := by
  induction n generalizing visiting v with
  | zero => cases v <;> rfl
  | succ n ih =>
    cases v with
    | object ref =>
      have hobject : (r.withEnvs es).object ref = r.object ref := rfl
      have hget : (r.withEnvs es).getFrom ref = r.getFrom ref := rfl
      simp only [writeText?, hobject, hget, ih]
    | _ => rfl

theorem text?_withEnvs (r : Realm) (es : Array Environment) (v : Value) :
    (r.withEnvs es).text? v = r.text? v :=
  writeText?_withEnvs r es _ _ _

theorem endless_withEnvs (r : Realm) (es : Array Environment) (vs : List Value) :
    (r.withEnvs es).endless vs = r.endless vs := by
  unfold endless
  simp only [text?_withEnvs]

@[simp]
theorem toText_withEnvs (r : Realm) (es : Array Environment) (v : Value) :
    (r.withEnvs es).toText v = r.toText v := by
  unfold toText
  rw [text?_withEnvs]

@[simp]
theorem toPrimitive_withEnvs (r : Realm) (es : Array Environment) (v : Value) :
    (r.withEnvs es).toPrimitive v = r.toPrimitive v := by
  cases v with
  | object ref => exact congrArg Value.string (toText_withEnvs r es _)
  | _ => rfl

@[simp]
theorem toNumber_withEnvs (r : Realm) (es : Array Environment) (v : Value) :
    (r.withEnvs es).toNumber v = r.toNumber v := by
  unfold toNumber
  rw [toPrimitive_withEnvs]

theorem evaluate_withEnvs (r : Realm) (es : Array Environment) (op : Operation) (a b : Value) :
    evaluate (r.withEnvs es) op a b = evaluate r op a b := by
  have htype : (r.withEnvs es).typeName a = r.typeName a := rfl
  unfold evaluate
  simp only [add, toWord, compares, looseEquals, less?, htype, toText_withEnvs,
    toPrimitive_withEnvs, toNumber_withEnvs]

/-- Computations that change objects and add some that are no functions, but have nothing to do with
environments. -/
inductive Acts : {α : Type} → RealmM α → Prop where
  | pure {α : Type} (a : α) : Acts (pure a)
  | throw {α : Type} (fault : Fault) : Acts (throw fault : RealmM α)
  | bind {α β : Type} {x : RealmM α} {f : α → RealmM β} :
    Acts x → (∀ a, Acts (f a)) → Acts (x >>= f)
  | get {α : Type} {f : Realm → RealmM α} :
    (∀ r es, f (r.withEnvs es) = f r) → (∀ r, Acts (f r)) → Acts (get >>= f)
  | modifyObject (ref : ObjectRef) {f : Object → Object} :
    (∀ o, (f o).kind = o.kind) → Acts (modify (·.modifyObject ref f))
  | allocate {o : Object} : o.closure? = none → Acts (allocate (·.addObject o))
  | print (line : String) : Acts (modify (·.print line))

theorem acts_liftExcept (x : Except Fault α) : Acts (liftExcept x) := by
  cases x with
  | ok a => exact .pure a
  | error e => exact .throw e

theorem acts_setLength (ref : ObjectRef) (v : Value) : Acts (setLength ref v) := by
  refine .get (fun r es => by simp only [toNumber_withEnvs]) fun r => ?_
  dsimp only
  split
  · exact .modifyObject ref fun _ => rfl
  · exact .throw _

theorem acts_putOwn (ref : ObjectRef) (key : String) (v : Value) (strict : Bool) :
    Acts (putOwn ref key v strict) := by
  refine .get (fun _ _ => rfl) fun r => ?_
  split
  · exact .modifyObject ref fun o => kind_write o key v
  · split
    · exact .throw _
    · exact .pure _

theorem acts_put (base : Value) (key : String) (v : Value) (strict : Bool) :
    Acts (put base key v strict) := by
  cases base with
  | undefined | null => exact .throw _
  | boolean _ | number _ | string _ =>
    cases strict
    · exact .pure _
    · exact .throw _
  | object ref =>
    refine .get (fun _ _ => rfl) fun r => ?_
    split
    · split
      · exact acts_setLength ref v
      · split
        · exact acts_putOwn ref key v strict
        · next index _ =>
          exact (Acts.modifyObject ref (kind_growTo · index)).bind fun _ =>
            acts_putOwn ref key v strict
    · exact acts_putOwn ref key v strict

theorem acts_delete (base : Value) (key : String) (strict : Bool) :
    Acts (delete base key strict) := by
  cases base with
  | undefined | null => exact .throw _
  | boolean _ | number _ | string _ => exact .pure _
  | object ref =>
    refine .get (fun _ _ => rfl) fun r => ?_
    split
    · exact (Acts.modifyObject ref (f := (·.erase key)) fun _ => rfl).bind fun _ => .pure _
    · split
      · exact .throw _
      · exact .pure _

theorem acts_apply (op : Operation) (args : List Value) : Acts (apply op args) := by
  cases op with
  | newArray n | newObject => exact .get (fun _ _ => rfl) fun _ => .allocate rfl
  | newRegExp =>
    refine .get (fun r es => by simp only [toText_withEnvs]) fun r => ?_
    dsimp only
    split
    · exact .throw _
    · exact .allocate rfl
  | «in» =>
    refine .get (fun r es => ?_) fun r => ?_
    · simp only [toText_withEnvs]
      rfl
    · dsimp only
      split
      · exact .throw _
      · exact .pure _
  | instanceOf =>
    exact .get (fun _ _ => rfl) fun r => (acts_liftExcept _).bind fun _ => .pure _
  | getProperty =>
    refine .get (fun r es => ?_) fun r => acts_liftExcept _
    simp only [toText_withEnvs]
    rfl
  | putProperty strict =>
    exact .get (fun r es => by simp only [toText_withEnvs]) fun r =>
      (acts_put _ _ _ strict).bind fun _ => .pure _
  | deleteProperty strict =>
    exact .get (fun r es => by simp only [toText_withEnvs]) fun r =>
      (acts_delete _ _ strict).bind fun _ => .pure _
  | defineProperty =>
    refine .get (fun r es => by simp only [toText_withEnvs]) fun r => ?_
    dsimp only
    split
    · exact .throw _
    · exact .bind (.modifyObject _ fun _ => rfl) fun _ => .pure _
  | enumerateKeys => exact .get (fun _ _ => rfl) fun r => .allocate rfl
  | print =>
    exact .get (fun r es => by simp only [toText_withEnvs]) fun r =>
      (Acts.print _).bind fun _ => .pure _
  | call argc | construct argc => exact .get (fun _ _ => rfl) fun _ => .throw _
  | _ => exact .get (fun r es => by simp only [evaluate_withEnvs]) fun r => .pure _

end Realm

open Realm

variable {K : Closure → Prop}

theorem moves_allocate {f : Realm → ObjectRef × Realm} (h : ∀ r, Steady K r (f r).2) :
    Moves (Steady K) (allocate f) :=
  (moves_modifyGet (R := Steady K) h).bind fun _ => moves_pure _

theorem Realm.Acts.moves {x : RealmM α} (h : Acts x) : Moves (Steady K) x := by
  induction h with
  | pure a => exact moves_pure a
  | throw fault => exact moves_throw fault
  | bind _ _ ih ih' => exact ih.bind ih'
  | get _ _ ih => exact moves_get.bind ih
  | modifyObject ref hf => exact moves_modify fun r => steady_modifyObject r ref hf
  | allocate ho =>
    refine moves_allocate fun r => steady_addObject r fun c hc => ?_
    rw [ho] at hc
    cases hc
  | print line => exact moves_modify fun r => (rebinds_print r line).steady

end TreeScript
