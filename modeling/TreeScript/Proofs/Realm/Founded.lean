import TreeScript.Proofs.Machine.Steady
import TreeScript.Proofs.Realm.Keys

/-!
# Founded realms

A realm is founded if every handle in it leads to an object or an environment that it has, and every
link to a prototype or to an outer environment leads to an older one.  Whatever is made has a higher
number than all there was before, and links are never changed once they are made, so every operation
keeps a realm founded, provided that the values it is given are inside.
-/

namespace TreeScript

open Upkeep

namespace Realm

/-! ## Handles -/

/-- If a value is an object, the realm has it. -/
def Inside (r : Realm) : Value → Prop
  | .object ref => ref.index < r.objects.size
  | _ => True

/-- What is thrown is inside. -/
def Throws (r : Realm) : Fault → Prop
  | .value v => r.Inside v
  | .error _ _ => True

/-- The object with the number `index` is well linked. -/
structure HasObject (r : Realm) (index : Nat) (o : Object) : Prop where
  prototype : ∀ p, o.prototype = some p → p.index < index
  properties : o.properties.All fun _ property => r.Inside property.value
  closure : ∀ c, o.closure? = some c → r.HasEnv c.env

/-- The environment with the number `index` is well linked; only the first one has no outer one. -/
structure HasScope (r : Realm) (index : Nat) (e : Environment) : Prop where
  outer : ∀ o, e.outer = some o → o.index < index
  global : e.outer = none → index = 0
  bindings : e.bindings.All fun _ binding => r.Inside binding.value

/-- Every object and every environment is well linked, and the first ones are there. -/
structure Founded (r : Realm) : Prop where
  objects : ∀ {i o}, r.objects[i]? = some o → r.HasObject i o
  environments : ∀ {i e}, r.environments[i]? = some e → r.HasScope i e
  first : globalObject.index < r.objects.size
  global : r.HasEnv globalEnv

variable {r r' : Realm} {v : Value} {o : Object} {e : Environment} {i : Nat}

theorem Inside.mono (h : r.Inside v) (ho : r.objects.size ≤ r'.objects.size) : r'.Inside v := by
  cases v with
  | object ref => exact Nat.lt_of_lt_of_le h ho
  | _ => trivial

theorem HasEnv.mono {env : EnvRef} (h : r.HasEnv env)
    (he : r.environments.size ≤ r'.environments.size) : r'.HasEnv env :=
  Nat.lt_of_lt_of_le h he

theorem HasObject.mono (h : r.HasObject i o) (ho : r.objects.size ≤ r'.objects.size)
    (he : r.environments.size ≤ r'.environments.size) : r'.HasObject i o where
  prototype := h.prototype
  properties := h.properties.mono fun _ _ hp => hp.mono ho
  closure c hc := (h.closure c hc).mono he

theorem HasScope.mono (h : r.HasScope i e) (ho : r.objects.size ≤ r'.objects.size) :
    r'.HasScope i e where
  outer := h.outer
  global := h.global
  bindings := h.bindings.mono fun _ _ hb => hb.mono ho

theorem inside_getD {vs : List Value} (h : ∀ v ∈ vs, r.Inside v) (k : Nat) :
    r.Inside (vs.getD k .undefined) := by
  rw [List.getD_eq_getElem?_getD]
  cases hk : vs[k]? with
  | none => trivial
  | some v => exact h v (List.mem_of_getElem? hk)

theorem Founded.of_same (h : r.Founded) (ho : r'.objects = r.objects)
    (he : r'.environments = r.environments) : r'.Founded := by
  have hobjects : r.objects.size ≤ r'.objects.size := Nat.le_of_eq (by rw [ho])
  have henvs : r.environments.size ≤ r'.environments.size := Nat.le_of_eq (by rw [he])
  refine ⟨fun hi => ?_, fun hi => ?_, Nat.lt_of_lt_of_le h.first hobjects, h.global.mono henvs⟩
  · rw [ho] at hi
    exact (h.objects hi).mono hobjects henvs
  · rw [he] at hi
    exact (h.environments hi).mono hobjects

/-! ## One object, one environment -/

theorem HasObject.define (h : r.HasObject i o) (key : String) {p : Property}
    (hp : r.Inside p.value) : r.HasObject i (o.define key p) :=
  ⟨h.prototype, h.properties.insert hp, h.closure⟩

theorem HasObject.write (h : r.HasObject i o) (key : String) (hv : r.Inside v) :
    r.HasObject i (o.write key v) := by
  unfold Object.write
  split <;> exact h.define key hv

theorem HasObject.erase (h : r.HasObject i o) (key : String) : r.HasObject i (o.erase key) :=
  ⟨h.prototype, h.properties.erase key, h.closure⟩

theorem HasObject.truncate (h : r.HasObject i o) (length : Nat) :
    r.HasObject i (o.truncate length) :=
  ⟨h.prototype, Object.all_truncate h.properties length, h.closure⟩

theorem HasObject.growTo (h : r.HasObject i o) (index : Nat) : r.HasObject i (growTo o index) := by
  unfold Realm.growTo
  split
  · exact h.define _ trivial
  · exact h

theorem HasScope.bind (h : r.HasScope i e) (name : String) (hv : r.Inside v) :
    r.HasScope i (e.bind name v) :=
  ⟨h.outer, h.global, h.bindings.insert hv⟩

theorem HasScope.declare (h : r.HasScope i e) (name : String) (deletable : Bool) :
    r.HasScope i (e.declare name deletable) := by
  unfold Environment.declare
  split
  · exact h
  · exact ⟨h.outer, h.global, h.bindings.insert trivial⟩

theorem HasScope.erase (h : r.HasScope i e) (name : String) : r.HasScope i (e.erase name) :=
  ⟨h.outer, h.global, h.bindings.erase name⟩

theorem hasObject_bare {kind : ObjectKind} {prototype : Option ObjectRef}
    (hp : ∀ p, prototype = some p → p.index < i)
    (hk : ∀ c, Object.closure? { kind, prototype } ≠ some c) : r.HasObject i { kind, prototype } :=
  ⟨hp, KeyTable.all_empty, fun c hc => absurd hc (hk c)⟩

theorem hasObject_ofElements {prototype : ObjectRef} {elements : List Value}
    (hp : prototype.index < i) (he : ∀ v ∈ elements, r.Inside v) :
    r.HasObject i (.ofElements prototype elements) := by
  refine ⟨fun p h => ?_, fun key property h => ?_, nofun⟩
  · cases h
    exact hp
  · rcases (Object.lists_ofElements prototype elements).cases h with ⟨-, rfl⟩ | ⟨k, v, -, hv, rfl⟩
    · trivial
    · exact he v (List.mem_of_getElem? hv)

/-! ## Reading -/

theorem Founded.properties (h : r.Founded) (ref : ObjectRef) :
    (r.object ref).properties.All fun _ property => r.Inside property.value := by
  unfold object
  rw [Array.getD_eq_getD_getElem?]
  cases ho : r.objects[ref.index]? with
  | none => exact KeyTable.all_empty
  | some o => exact (h.objects ho).properties

theorem Founded.bindings (h : r.Founded) (ref : EnvRef) :
    (r.env ref).bindings.All fun _ binding => r.Inside binding.value := by
  unfold env
  rw [Array.getD_eq_getD_getElem?]
  cases he : r.environments[ref.index]? with
  | none => exact KeyTable.all_empty
  | some e => exact (h.environments he).bindings

theorem Founded.closure (h : r.Founded) {c : Closure} (hc : r.Holds c) : r.HasEnv c.env := by
  obtain ⟨ref, hc⟩ := hc
  unfold object at hc
  rw [Array.getD_eq_getD_getElem?] at hc
  cases ho : r.objects[ref.index]? with
  | none =>
    rw [ho] at hc
    cases hc
  | some o =>
    rw [ho] at hc
    exact (h.objects ho).closure c hc

theorem Founded.inside_getFrom (h : r.Founded) (ref : ObjectRef) (key : String) :
    r.Inside (r.getFrom ref key) := by
  unfold getFrom
  split
  · next property hfound =>
    obtain ⟨o, ho, hown⟩ := List.exists_of_findSome?_eq_some hfound
    obtain ⟨ref', -, rfl⟩ := List.mem_map.mp ho
    exact h.properties ref' _ _ hown
  · trivial

theorem Founded.inside_read (h : r.Founded) {base : Value} {key : String}
    (hv : r.read base key = .ok v) : r.Inside v := by
  cases base with
  | undefined => cases hv
  | null => cases hv
  | object ref =>
    cases hv
    exact h.inside_getFrom ref key
  | string s =>
    unfold read at hv
    dsimp only at hv
    split at hv
    · cases hv
      trivial
    · cases hv
      cases Number.indexOf? key >>= Text.unitAt s <;> trivial
  | boolean b | number x =>
    cases hv
    trivial

theorem throws_read {base : Value} {key : String} {fault : Fault}
    (h : r.read base key = .error fault) : r.Throws fault := by
  cases base with
  | undefined | null =>
    cases h
    trivial
  | string s =>
    unfold read at h
    dsimp only at h
    split at h <;> cases h
  | boolean b | number x | object ref => cases h

theorem Founded.inside_lookup (h : r.Founded) {env : EnvRef} {name : String}
    (hv : r.lookup env name = some v) : r.Inside v := by
  obtain ⟨ref, -, hget⟩ := Option.bind_eq_some_iff.mp hv
  obtain ⟨binding, hfound, rfl⟩ := Option.map_eq_some_iff.mp hget
  exact h.bindings ref _ _ hfound

/-! ## Changing and adding -/

theorem Founded.modifyObject (h : r.Founded) (ref : ObjectRef) {f : Object → Object}
    (hf : ∀ {i o}, r.HasObject i o → r.HasObject i (f o)) : (r.modifyObject ref f).Founded := by
  have hsize : r.objects.size ≤ (r.modifyObject ref f).objects.size :=
    Nat.le_of_eq Array.size_modify.symm
  refine ⟨fun {i o} ho => ?_, fun he => (h.environments he).mono hsize, ?_, h.global⟩
  · have ho : (r.objects.modify ref.index f)[i]? = some o := ho
    rw [Array.getElem?_modify] at ho
    have hnew : r.HasObject i o := by
      split at ho
      · obtain ⟨o0, ho0, rfl⟩ := Option.map_eq_some_iff.mp ho
        exact hf (h.objects ho0)
      · exact h.objects ho
    exact hnew.mono hsize (Nat.le_refl _)
  · exact Nat.lt_of_lt_of_le h.first hsize

theorem Founded.modifyEnv (h : r.Founded) (ref : EnvRef) {f : Environment → Environment}
    (hf : ∀ {i e}, r.HasScope i e → r.HasScope i (f e)) : (r.modifyEnv ref f).Founded := by
  have hsize : r.environments.size ≤ (r.modifyEnv ref f).environments.size :=
    Nat.le_of_eq Array.size_modify.symm
  refine ⟨fun ho => (h.objects ho).mono (Nat.le_refl _) hsize, fun {i e} he => ?_, h.first,
    h.global.mono hsize⟩
  have he : (r.environments.modify ref.index f)[i]? = some e := he
  rw [Array.getElem?_modify] at he
  have hnew : r.HasScope i e := by
    split at he
    · obtain ⟨e0, he0, rfl⟩ := Option.map_eq_some_iff.mp he
      exact hf (h.environments he0)
    · exact h.environments he
  exact hnew.mono (Nat.le_refl _)

theorem Founded.addEnv (h : r.Founded) {outer : EnvRef} (ho : r.HasEnv outer) :
    (r.addEnv (some outer)).2.Founded ∧
      (r.addEnv (some outer)).2.HasEnv (r.addEnv (some outer)).1 := by
  have hsize : r.environments.size + 1 = (r.addEnv (some outer)).2.environments.size :=
    (Array.size_push _).symm
  have hle : r.environments.size ≤ (r.addEnv (some outer)).2.environments.size := by omega
  refine ⟨⟨fun hobject => (h.objects hobject).mono (Nat.le_refl _) hle, fun {i e} he => ?_, h.first,
    h.global.mono hle⟩, ?_⟩
  · have he : (r.environments.push { outer := some outer })[i]? = some e := he
    rw [Array.getElem?_push] at he
    split at he
    · next hi =>
      cases he
      refine ⟨fun p hp => ?_, nofun, KeyTable.all_empty⟩
      cases hp
      exact hi ▸ ho
    · exact (h.environments he).mono (Nat.le_refl _)
  · show r.environments.size < _
    omega

/-- Objects that are added have to be well linked in the realm that has them. -/
theorem Founded.push (h : r.Founded) {os : Array Object}
    (hos : ∀ i o, os[i]? = some o →
      HasObject { r with objects := r.objects ++ os } (r.objects.size + i) o) :
    Founded { r with objects := r.objects ++ os } := by
  have hsize : r.objects.size ≤ (r.objects ++ os).size := by
    rw [Array.size_append]
    omega
  refine ⟨fun {i o} ho => ?_, fun he => (h.environments he).mono hsize,
    Nat.lt_of_lt_of_le h.first hsize, h.global⟩
  by_cases hi : i < r.objects.size
  · rw [Array.getElem?_append_left hi] at ho
    exact (h.objects ho).mono hsize (Nat.le_refl _)
  · rw [Array.getElem?_append_right (Nat.le_of_not_lt hi)] at ho
    have hnew := hos _ o ho
    rwa [Nat.add_sub_cancel' (Nat.le_of_not_lt hi)] at hnew

theorem Founded.addObject (h : r.Founded) (ho : r.HasObject r.objects.size o) :
    (r.addObject o).2.Founded := by
  have hpush : (r.addObject o).2 = { r with objects := r.objects ++ #[o] } := by
    show { r with objects := r.objects.push o } = _
    rw [Array.push_eq_append]
  rw [hpush]
  refine h.push fun i o' ho' => ?_
  match i with
  | 0 =>
    cases ho'
    exact ho.mono (by rw [Array.size_append]; omega) (Nat.le_refl _)
  | i + 1 => simp at ho'

theorem inside_addObject (r : Realm) (o : Object) :
    (r.addObject o).2.Inside (.object (r.addObject o).1) := by
  show r.objects.size < (r.objects.push o).size
  rw [Array.size_push]
  omega

theorem first_lt (h : r.Founded) {ref : ObjectRef} (href : ref.index ≤ globalObject.index) :
    ref.index < r.objects.size :=
  Nat.lt_of_le_of_lt href h.first

theorem hasObject_plain (hi : objectPrototype.index < i) : r.HasObject i plainObject :=
  hasObject_bare (fun p hp => by cases hp; exact hi) nofun

theorem Founded.newObject (h : r.Founded) : r.newObject.2.Founded := 
  h.addObject (hasObject_plain (first_lt h (by decide)))

theorem Founded.derive (h : r.Founded) (hv : r.Inside v) : (r.derive v).2.Founded := by
  refine h.addObject (hasObject_bare (fun p hp => ?_) nofun)
  cases v with
  | object ref =>
    cases hp
    exact hv
  | _ =>
    cases hp
    show objectPrototype.index < _
    exact first_lt h (by decide)

theorem Founded.newArray (h : r.Founded) {elements : List Value}
    (he : ∀ v ∈ elements, r.Inside v) : (r.newArray elements).2.Founded :=
  h.addObject (hasObject_ofElements (first_lt h (by decide)) he)

theorem Founded.newError (h : r.Founded) (name message : String) :
    (r.newError name message).2.Founded := by
  have hbare : r.HasObject r.objects.size { kind := .error, prototype := errorPrototype } :=
    hasObject_bare (fun p hp => by cases hp; exact first_lt h (by decide)) nofun
  exact h.addObject ((hbare.define "name" (p := .hidden (.string name)) trivial).define "message"
    (p := .hidden (.string message)) trivial)

theorem Founded.newRegExp (h : r.Founded) (pattern flags : String) :
    (r.newRegExp pattern flags).2.Founded := by
  have hbare : r.HasObject r.objects.size
      { kind := .regExp pattern flags, prototype := objectPrototype } :=
    hasObject_bare (fun p hp => by cases hp; exact first_lt h (by decide)) nofun
  have hflag (c : Char) : r.Inside (Property.hidden (.boolean (flags.toList.contains c))).value :=
    trivial
  have hsource := hbare.define "source" (p := .hidden (.string pattern)) trivial
  have hflags := ((hsource.define "global" (hflag 'g')).define "ignoreCase" (hflag 'i')).define
    "multiline" (hflag 'm')
  exact h.addObject (hflags.define "lastIndex" (p := .hidden (.number (Number.zero false))) trivial)

/-- A function and the prototype that comes with it know each other, so neither is well linked
before both are there. -/
theorem Founded.newFunction (h : r.Founded) {closure : Closure} (hc : r.HasEnv closure.env) :
    (r.newFunction closure).2.Founded := by
  let function : Object := ({ kind := .function closure, prototype := functionPrototype } : Object)
    |>.define "prototype" (.hidden (.object ⟨r.objects.size + 1⟩))
    |>.define "length" (.hidden (.number (Number.ofNat closure.info.params.length)))
    |>.define "name" (.hidden (.string (closure.info.name.getD "")))
  let prototype : Object := plainObject.define "constructor"
    ⟨.object ⟨r.objects.size⟩, true, false, true⟩
  have hpush : (r.newFunction closure).2 =
      { r with objects := r.objects ++ #[function, prototype] } := by
    show { r with objects := (r.objects.push function).push prototype } = _
    rfl
  have hsize : (r.objects ++ #[function, prototype]).size = r.objects.size + 2 := Array.size_append
  rw [hpush]
  refine h.push fun i o ho => ?_
  match i with
  | 0 =>
    cases ho
    have hbare : HasObject { r with objects := r.objects ++ #[function, prototype] } r.objects.size
        { kind := .function closure, prototype := functionPrototype } := by
      refine ⟨fun p hp => ?_, KeyTable.all_empty, fun c hc' => ?_⟩
      · cases hp
        exact first_lt h (by decide)
      · cases hc'
        exact hc
    refine ((hbare.define "prototype" ?_).define "length" ?_).define "name" ?_
    · show r.objects.size + 1 < (r.objects ++ #[function, prototype]).size
      omega
    · trivial
    · trivial
  | 1 =>
    cases ho
    refine (hasObject_plain (Nat.succ_pos _)).define "constructor" ?_
    show r.objects.size < (r.objects ++ #[function, prototype]).size
    omega
  | i + 2 => simp at ho

theorem inside_newFunction (r : Realm) (closure : Closure) :
    (r.newFunction closure).2.Inside (.object (r.newFunction closure).1) := by
  show r.objects.size < ((r.objects.push _).push _).size
  rw [Array.size_push, Array.size_push]
  omega

/-! ## Operations -/

theorem grows_modifyEnv (r : Realm) (ref : EnvRef) (f : Environment → Environment) :
    Grows r (r.modifyEnv ref f) :=
  grows_of_objects rfl (Nat.le_of_eq (size_modifyEnv r ref f).symm)

theorem inside_evaluate (r : Realm) (op : Code.Operation) (a b : Value) :
    r.Inside ((evaluate r op a b).getD .undefined) := by
  cases op with
  | add =>
    show r.Inside (r.add a b)
    unfold add
    split <;> trivial
  | _ => trivial

theorem instanceOf_throws {a b : Value} {fault : Fault} (h : r.instanceOf a b = .error fault) :
    r.Throws fault := by
  unfold instanceOf at h
  split at h
  · cases hread : r.read b "prototype" with
    | error f =>
      rw [hread] at h
      cases h
      exact throws_read hread
    | ok v =>
      rw [hread] at h
      cases hv : v.object? with
      | none =>
        simp only [bind, Except.bind, hv] at h
        cases h
        trivial
      | some target =>
        simp only [bind, Except.bind, hv] at h
        split at h <;> cases h
  · cases h
    trivial

end Realm

end TreeScript
