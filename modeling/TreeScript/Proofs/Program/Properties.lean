import TreeScript.Proofs.Program.Arenas
import TreeScript.Proofs.Program.Lengths

/-!
# Reading, writing and deleting properties

What a write does to an object is part of its law, and so is what it leaves alone: the other
objects, the other properties and the order of keys.  The length of an array is one of its
properties, so a write to an index can change two of them, and a new length can take many away.

Nothing that a program can do makes a property read-only or takes the length of an array away.
So a write fails for one reason only, and an operation that fails has done nothing: the length of an
array grows before the property is written, but then the write goes through.
-/

namespace TreeScript

open Code Syntax Lowering

/-! ## Realms that programs meet -/

theorem Realm.Reached.through {first : Realm → Prop} {Q : Program → Prop} {r : Realm}
    (h : Reached first Q r) : ReachedThrough first Q (fun _ => True) r := by
  induction h with
  | first hr => exact .first hr
  | run _ hp hc hrun ih => exact .run ih hp hc (fun _ _ _ => trivial) hrun
  | takeOutput _ ih => exact .takeOutput ih

/-- The realms that compiled programs leave behind, and those that there are while they run. -/
inductive Realm.Met : Realm → Prop where
  | between {r : Realm} : Reached IsNew (fun _ => True) r → Met r
  | during {r : Realm} {p : Program} {strict strict' : Bool} {a : Artifact} {fuel : Nat}
      {m : Machine} :
    Reached IsNew (fun _ => True) r → compile p strict = .ok a →
    runProgram fuel a r strict' = .exhausted m → Met m.realm

namespace Realm

theorem Met.founded {r : Realm} (h : r.Met) : r.Founded := by
  cases h with
  | between hr => exact hr.founded fun _ hnew => hnew.founded
  | during hr _ hm =>
    have hf := hr.founded fun _ hnew => hnew.founded
    exact (founded_of_invoke (Context.inside_global hf _) hm).realm

theorem Met.tidy {r : Realm} (h : r.Met) : r.Tidy False := by
  cases h with
  | between hr => exact (hr.through.tidy False.elim).2
  | during hr hc hm =>
    obtain ⟨hfrom, htidy⟩ := hr.through.tidy False.elim
    exact (tidy_of_invoke hfrom (fun plain => defining_trusts_entry hc False.elim) False.elim
      htidy).1 _ _ hm

/-! ## What may change -/

/-- From `r` to `r'` nothing has changed but the properties of one object. -/
structure Alters (r : Realm) (ref : ObjectRef) (r' : Realm) : Prop where
  rest : r' = { r with objects := r'.objects }
  size : r'.objects.size = r.objects.size
  others : ∀ ref', ref' ≠ ref → r'.object ref' = r.object ref'
  kind : (r'.object ref).kind = (r.object ref).kind
  prototype : (r'.object ref).prototype = (r.object ref).prototype

/-- A property has been given a value.  It keeps its attributes, and its place among the keys; a new
one has all attributes and comes last.  The length of an array is above the index of the property.
-/
structure Stores (r : Realm) (ref : ObjectRef) (key : String) (v : Value) (r' : Realm) : Prop
    extends Alters r ref r' where
  old : ∀ p, (r.object ref).own? key = some p →
    (r'.object ref).own? key = some { p with value := v }
  new : (r.object ref).own? key = none → (r'.object ref).own? key = some ⟨v, true, true, true⟩
  keys : (r'.object ref).ownKeys = if key ∈ (r.object ref).ownKeys then (r.object ref).ownKeys
    else (r.object ref).ownKeys ++ [key]
  length : (r.object ref).isArray = true → ∀ i, Number.indexOf? key = some i →
    (r'.object ref).arrayLength = max (r.object ref).arrayLength (i + 1) ∧
    ∃ p, (r.object ref).own? "length" = some p ∧ (r'.object ref).own? "length" = some
      (if i < (r.object ref).arrayLength then p
        else { p with value := .number (Number.ofNat (i + 1)) })
  same : ∀ key', key' ≠ key →
    ((r.object ref).isArray = true → (Number.indexOf? key).isSome → key' ≠ "length") →
    (r'.object ref).own? key' = (r.object ref).own? key'

/-- Whether a key is an index that an array of this length has no place for. -/
def beyond (length : Nat) (key : String) : Bool := (Number.indexOf? key).any (length ≤ ·)

/-- An array has been given a length, and has lost what is beyond it. -/
structure Resizes (r : Realm) (ref : ObjectRef) (n : Nat) (r' : Realm) : Prop
    extends Alters r ref r' where
  length : ∃ p, (r.object ref).own? "length" = some p ∧
    (r'.object ref).own? "length" = some { p with value := .number (Number.ofNat n) }
  own : ∀ key, key ≠ "length" → (r'.object ref).own? key =
    if beyond n key then none else (r.object ref).own? key
  keys : (r'.object ref).ownKeys = (r.object ref).ownKeys.filter (!beyond n ·)

/-- A property is gone. -/
structure Removes (r : Realm) (ref : ObjectRef) (key : String) (r' : Realm) : Prop
    extends Alters r ref r' where
  own : ∀ key', (r'.object ref).own? key' = if key' = key then none else (r.object ref).own? key'
  keys : (r'.object ref).ownKeys = (r.object ref).ownKeys.filter (· != key)

variable {r : Realm} {ref : ObjectRef} {key : String}

theorem alters_modifyObject (hin : ref.index < r.objects.size) {f : Object → Object}
    (hkind : (f (r.object ref)).kind = (r.object ref).kind)
    (hprototype : (f (r.object ref)).prototype = (r.object ref).prototype) :
    r.Alters ref (r.modifyObject ref f) where
  rest := rfl
  size := Array.size_modify
  others _ h := object_modifyObject_of_ne h f
  kind := by rw [object_modifyObject_self hin, hkind]
  prototype := by rw [object_modifyObject_self hin, hprototype]

theorem modifyObject_modifyObject (f g : Object → Object) :
    (r.modifyObject ref f).modifyObject ref g = r.modifyObject ref fun o => g (f o) := by
  refine congrArg (fun objects => { r with objects }) (Array.ext_getElem? fun i => ?_)
  simp only [modifyObject, Array.getElem?_modify]
  split
  · rw [Option.map_map]
    rfl
  · rfl

end Realm

/-! ## One object -/

namespace Object

variable {o : Object} {B : Prop} {key : String}

theorem Tidy.canWrite (h : o.Tidy B) (key : String) : o.canWrite key = true := by
  unfold Object.canWrite
  split
  · rfl
  · next p hp => exact h.writable _ _ hp

/-- A property as it is after an assignment. -/
def assigned (o : Object) (key : String) (v : Value) : Property :=
  ((o.own? key).map fun p => { p with value := v }).getD (.data v)

theorem write_eq_define (o : Object) (key : String) (v : Value) :
    o.write key v = o.define key (o.assigned key v) := by
  unfold write assigned
  cases o.own? key <;> rfl

theorem own?_write (o : Object) (key : String) (v : Value) (key' : String) :
    (o.write key v).own? key' = if key' = key then some (o.assigned key v) else o.own? key' := by
  rw [write_eq_define, own?_define]

theorem Agrees.ownKeys_define_of_own? (h : o.Agrees) {p p' : Property}
    (hown : o.own? key = some p) : (o.define key p').ownKeys = o.ownKeys :=
  (h.ownKeys_define key p').trans
    (if_pos ((h.mem_iff key).mpr (Option.isSome_of_eq_some hown)))

theorem arrayLength_congr {o' : Object} (hkind : o'.kind = o.kind)
    (h : o'.own? "length" = o.own? "length") : o'.arrayLength = o.arrayLength := by
  unfold arrayLength isArray
  rw [hkind, h]

theorem own?_growTo {index : Nat} (hkey : key ≠ "length") :
    (Realm.growTo o index).own? key = o.own? key := by
  unfold Realm.growTo
  split
  · rw [own?_define, if_neg hkey]
  · rfl

/-- An index is given room by nothing but the value of the length. -/
theorem Tidy.growTo (h : o.Tidy B) (ha : o.isArray = true) {i : Nat} (hi : i < 0xFFFFFFFF) :
    (Realm.growTo o i).ownKeys = o.ownKeys ∧
    (Realm.growTo o i).arrayLength = max o.arrayLength (i + 1) ∧
    ∃ p, o.own? "length" = some p ∧ (Realm.growTo o i).own? "length" =
      some (if i < o.arrayLength then p
        else { p with value := .number (Number.ofNat (i + 1)) }) := by
  obtain ⟨n, hn⟩ := h.measured ha
  unfold Realm.growTo
  by_cases hle : o.arrayLength ≤ i
  · rw [if_pos hle]
    refine ⟨h.agrees.ownKeys_define_of_own? hn.length, ?_, _, hn.length, ?_⟩
    · unfold arrayLength at hle ⊢
      rw [if_pos (show (o.define "length" _).isArray = true from ha), own?_define, if_pos rfl]
      exact (Number.saturated32_ofNat hi).trans (Nat.max_eq_right (Nat.le_succ_of_le hle)).symm
    · rw [own?_define, if_pos rfl, if_neg (Nat.not_lt_of_le hle)]
      rfl
  · have hlt := Nat.lt_of_not_le hle
    rw [if_neg hle]
    refine ⟨rfl, (Nat.max_eq_left hlt).symm, _, hn.length, ?_⟩
    rw [if_pos hlt]
    exact hn.length

/-- Shortening an array goes by keys alone. -/
theorem Measures.isPast_eq {n : Nat} (h : o.Measures B n) (length : Nat) {p : Property}
    (hown : o.own? key = some p) : isPast length o.properties key = Realm.beyond length key := by
  have hproperty : o.properties.find? key = some p := hown
  unfold isPast Realm.beyond
  cases hi : Number.indexOf? key with
  | none => rfl
  | some i =>
    rw [hproperty]
    show (_ && p.configurable) = _
    rw [(h.indices key p hown i hi).2, Bool.and_true]

end Object

namespace Realm

variable {B : Prop} {r : Realm} {ref : ObjectRef} {key : String}

/-! ## Writing -/

theorem putOwn_of_canWrite (h : (r.object ref).canWrite key = true) (v : Value) (strict : Bool) :
    putOwn ref key v strict r = .ok () (r.modifyObject ref (·.write key v)) := by
  show (if (r.object ref).canWrite key then modify (·.modifyObject ref (·.write key v))
    else _ : RealmM Unit) r = _
  rw [if_pos h]
  rfl

/-- A write to an object that first is made ready for it. -/
theorem stores_write (hin : ref.index < r.objects.size) (v : Value) {f : Object → Object}
    (hagrees : (f (r.object ref)).Agrees)
    (hkind : (f (r.object ref)).kind = (r.object ref).kind)
    (hprototype : (f (r.object ref)).prototype = (r.object ref).prototype)
    (hown : (f (r.object ref)).own? key = (r.object ref).own? key)
    (hkeys : (f (r.object ref)).ownKeys = (r.object ref).ownKeys)
    (hlength : (r.object ref).isArray = true → ∀ i, Number.indexOf? key = some i →
      (f (r.object ref)).arrayLength = max (r.object ref).arrayLength (i + 1) ∧
      ∃ p, (r.object ref).own? "length" = some p ∧ (f (r.object ref)).own? "length" = some
        (if i < (r.object ref).arrayLength then p
          else { p with value := .number (Number.ofNat (i + 1)) }))
    (hsame : ∀ key', ((r.object ref).isArray = true → (Number.indexOf? key).isSome →
      key' ≠ "length") → (f (r.object ref)).own? key' = (r.object ref).own? key') :
    r.Stores ref key v (r.modifyObject ref fun o => (f o).write key v) := by
  have hobject := object_modifyObject_self hin fun o => (f o).write key v
  have hassigned : (f (r.object ref)).assigned key v = (r.object ref).assigned key v := by
    unfold Object.assigned
    rw [hown]
  refine ⟨alters_modifyObject hin ?_ ?_, fun p hp => ?_, fun hnone => ?_, ?_, fun ha i hi => ?_,
    fun key' hne hfree => ?_⟩
  · rw [kind_write, hkind]
  · rw [Object.write_eq_define]
    exact hprototype
  · rw [hobject, Object.own?_write, if_pos rfl, hassigned, Object.assigned, hp]
    rfl
  · rw [hobject, Object.own?_write, if_pos rfl, hassigned, Object.assigned, hnone]
    rfl
  · rw [hobject, Object.write_eq_define, ← hkeys]
    exact hagrees.ownKeys_define key _
  · have hkey : "length" ≠ key := by
      rintro rfl
      cases Number.indexOf?_length.symm.trans hi
    obtain ⟨hmax, p, hp, hp'⟩ := hlength ha i hi
    have hkept : ((f (r.object ref)).write key v).own? "length" =
        (f (r.object ref)).own? "length" := by
      rw [Object.own?_write, if_neg hkey]
    rw [hobject, Object.arrayLength_congr (kind_write _ key v) hkept, hkept]
    exact ⟨hmax, p, hp, hp'⟩
  · rw [hobject, Object.own?_write, if_neg hne]
    exact hsame key' hfree

theorem put_of_not_isArray (h : r.Tidy B) (ha : ¬ (r.object ref).isArray = true) (key : String)
    (v : Value) (strict : Bool) :
    put (.object ref) key v strict r = .ok () (r.modifyObject ref (·.write key v)) := by
  show (if (r.object ref).isArray then _ else putOwn ref key v strict : RealmM Unit) r = _
  rw [if_neg ha]
  exact putOwn_of_canWrite ((h ref).canWrite key) v strict

theorem put_stores (h : r.Tidy B) (hin : ref.index < r.objects.size)
    (hne : ¬ ((r.object ref).isArray = true ∧ key = "length")) (v : Value) (strict : Bool) :
    ∃ r', put (.object ref) key v strict r = .ok () r' ∧ r.Stores ref key v r' := by
  by_cases ha : (r.object ref).isArray = true
  · have hkey : key ≠ "length" := fun hkey => hne ⟨ha, hkey⟩
    show ∃ r', (if (r.object ref).isArray then (if key = "length" then _ else _) else _ :
      RealmM Unit) r = .ok () r' ∧ _
    rw [if_pos ha, if_neg hkey]
    cases hi : Number.indexOf? key with
    | none =>
      refine ⟨_, putOwn_of_canWrite ((h ref).canWrite key) v strict, ?_⟩
      refine stores_write (f := id) hin v (h ref).agrees rfl rfl rfl rfl (fun _ i hi' => ?_)
        fun _ _ => rfl
      cases hi.symm.trans hi'
    | some i =>
      have hlt := Number.lt_of_indexOf? hi
      obtain ⟨hkeys, hmax, hp⟩ := (h ref).growTo ha hlt
      have hgrown : (r.modifyObject ref (growTo · i)).object ref = growTo (r.object ref) i :=
        object_modifyObject_self hin _
      have hwrite : (growTo (r.object ref) i).canWrite key = true := by
        unfold Object.canWrite
        rw [Object.own?_growTo hkey]
        exact (h ref).canWrite key
      rw [← hgrown] at hwrite
      refine ⟨_, (putOwn_of_canWrite hwrite v strict).trans (congrArg _
        (modifyObject_modifyObject _ _)), ?_⟩
      refine stores_write hin v (agrees_growTo (h ref).agrees i) (kind_growTo _ i) ?_
        (Object.own?_growTo hkey) hkeys (fun _ i' hi' => ?_)
        fun key' hfree => Object.own?_growTo (hfree ha ?_)
      · unfold growTo
        split <;> rfl
      · cases hi.symm.trans hi'
        exact ⟨hmax, hp⟩
      · rw [hi]
        rfl
  · refine ⟨_, put_of_not_isArray h ha key v strict, ?_⟩
    exact stores_write (f := id) hin v (h ref).agrees rfl rfl rfl rfl (fun ha' => absurd ha' ha)
      fun _ _ => rfl

theorem put_length (ha : (r.object ref).isArray = true) (v : Value) (strict : Bool) :
    put (.object ref) "length" v strict r = setLength ref v r := by
  show (if (r.object ref).isArray then (if "length" = "length" then setLength ref v else _)
    else _ : RealmM Unit) r = _
  rw [if_pos ha, if_pos rfl]

theorem put_resizes (h : r.Tidy B) (ha : (r.object ref).isArray = true) {v : Value} {n : Nat}
    (hn : n ≤ 0xFFFFFFFF) (hv : (Number.ofNat n == r.toNumber v) = true) (strict : Bool) :
    ∃ r', put (.object ref) "length" v strict r = .ok () r' ∧ r.Resizes ref n r' := by
  have hin := lt_size_of_isArray ha
  have hcut := Number.saturated32_eq_of_beq hn hv
  obtain ⟨k, hk⟩ := (h ref).measured ha
  have hset : setLength ref v r = .ok () (r.modifyObject ref fun o =>
      (o.truncate n).define "length" (.hidden (.number (Number.ofNat n)))) := by
    show (if Number.ofNat (Number.saturated32 (r.toNumber v)) == r.toNumber v then _
      else _ : RealmM Unit) r = _
    rw [hcut, if_pos hv]
    rfl
  have hobject := object_modifyObject_self hin fun o =>
    (o.truncate n).define "length" (.hidden (.number (Number.ofNat n)))
  have hlength : beyond n "length" = false := by
    unfold beyond
    rfl
  have hown (key : String) : ((r.object ref).truncate n).own? key =
      if beyond n key then none else (r.object ref).own? key := by
    rw [(h ref).agrees.own?_truncate]
    cases hfound : (r.object ref).own? key with
    | none => rw [ite_self, ite_self]
    | some p => rw [hk.isPast_eq n hfound]
  refine ⟨_, (put_length ha v strict).trans hset, alters_modifyObject hin rfl rfl,
    ⟨_, hk.length, ?_⟩, fun key hkey => ?_, ?_⟩
  · rw [hobject, Object.own?_define, if_pos rfl]
    rfl
  · rw [hobject, Object.own?_define, if_neg hkey, hown]
  · have hkept := hown "length"
    rw [hlength, if_neg Bool.false_ne_true, hk.length] at hkept
    rw [hobject, ((h ref).agrees.truncate n).ownKeys_define_of_own? hkept,
      (h ref).agrees.ownKeys_truncate]
    refine List.filter_congr fun key hmem => ?_
    obtain ⟨p, hp⟩ := Option.isSome_iff_exists.mp (((h ref).agrees.mem_iff key).mp hmem)
    rw [hk.isPast_eq n hp]

theorem put_invalid (ha : (r.object ref).isArray = true) {v : Value}
    (hv : ¬ ∃ n, n ≤ 0xFFFFFFFF ∧ (Number.ofNat n == r.toNumber v) = true) (strict : Bool) :
    put (.object ref) "length" v strict r = .error .invalidLength r := by
  rw [put_length ha]
  show (if Number.ofNat (Number.saturated32 (r.toNumber v)) == r.toNumber v then _
    else throw .invalidLength : RealmM Unit) r = _
  rw [if_neg (mt Number.ofNat_saturated32_beq_iff.mp hv)]
  rfl

/-! ## Deleting -/

theorem delete_eq (key : String) (strict : Bool) :
    delete (.object ref) key strict r =
      if (r.object ref).canDelete key then .ok true (r.modifyObject ref (·.erase key))
      else if strict then .error (.cannotDelete key) r else .ok false r := by
  show (if (r.object ref).canDelete key then _ else _ : RealmM Bool) r = _
  split
  · rfl
  · cases strict <;> rfl

theorem removes_erase (hin : ref.index < r.objects.size) (key : String) :
    r.Removes ref key (r.modifyObject ref (·.erase key)) := by
  have hobject := object_modifyObject_self hin (·.erase key)
  refine ⟨alters_modifyObject hin rfl rfl, fun key' => ?_, ?_⟩
  · rw [hobject]
    exact Object.own?_erase _ _ _
  · rw [hobject]
    exact Object.ownKeys_erase _ _

theorem modifyObject_erase_of_own? (ho : (r.object ref).Agrees)
    (h : (r.object ref).own? key = none) :
    r.modifyObject ref (·.erase key) = r := by
  refine congrArg (fun objects => { r with objects }) (Array.ext_getElem? fun i => ?_)
  rw [Array.getElem?_modify]
  split
  · next hi =>
    subst hi
    cases hobject : r.objects[ref.index]? with
    | none => rfl
    | some o =>
      rw [object_of_object? hobject] at ho h
      rw [Option.map_some, ho.erase_of_own? h]
  · rfl

theorem delete_none (ho : (r.object ref).Agrees) (h : (r.object ref).own? key = none)
    (strict : Bool) :
    delete (.object ref) key strict r = .ok true r := by
  have hdelete : (r.object ref).canDelete key = true := by
    unfold Object.canDelete
    rw [h]
  rw [delete_eq, if_pos hdelete, modifyObject_erase_of_own? ho h]

theorem delete_some {p : Property} (h : (r.object ref).own? key = some p) (strict : Bool) :
    delete (.object ref) key strict r =
      if p.configurable then .ok true (r.modifyObject ref (·.erase key))
      else if strict then .error (.cannotDelete key) r else .ok false r := by
  have hdelete : (r.object ref).canDelete key = p.configurable := by
    unfold Object.canDelete
    rw [h]
  rw [delete_eq, hdelete]

end Realm

/-- The law of properties, in every realm that compiled programs come to.  Writing goes through,
unless it gives an array a length that is none.  It changes the property, and the length of an array
for a property at an index.  A new length takes away what is at indices beyond it.  Deleting takes a
property away if it is there and can be deleted, and else changes nothing.  Reading gives the value
in the first object that has the property, from the object itself along its prototypes. -/
theorem met_properties {r : Realm} (hr : r.Met) {ref : ObjectRef}
    (hin : ref.index < r.objects.size) (key : String) :
    (∀ v strict, ¬ ((r.object ref).isArray = true ∧ key = "length") →
      ∃ r', Realm.put (.object ref) key v strict r = .ok () r' ∧ r.Stores ref key v r') ∧
    (∀ v strict, (r.object ref).isArray = true → key = "length" →
      (∀ n, n ≤ 0xFFFFFFFF → (Number.ofNat n == r.toNumber v) = true →
        ∃ r', Realm.put (.object ref) key v strict r = .ok () r' ∧ r.Resizes ref n r') ∧
      ((¬ ∃ n, n ≤ 0xFFFFFFFF ∧ (Number.ofNat n == r.toNumber v) = true) →
        Realm.put (.object ref) key v strict r = .error .invalidLength r)) ∧
    (∀ strict, (r.object ref).own? key = none →
      Realm.delete (.object ref) key strict r = .ok true r) ∧
    (∀ strict p, (r.object ref).own? key = some p → p.configurable = true →
      ∃ r', Realm.delete (.object ref) key strict r = .ok true r' ∧ r.Removes ref key r') ∧
    (∀ strict p, (r.object ref).own? key = some p → p.configurable = false →
      Realm.delete (.object ref) key strict r =
        if strict then .error (.cannotDelete key) r else .ok false r) ∧
    ∃ found, r.Inherits ref key found ∧
      r.read (.object ref) key = .ok ((found.map Property.value).getD .undefined) := by
  have htidy := hr.tidy
  refine ⟨fun v strict hne => Realm.put_stores htidy hin hne v strict, ?_,
    fun strict hnone => Realm.delete_none (htidy ref).agrees hnone strict, fun strict p hp hc => ?_,
    fun strict p hp hc => ?_, ?_⟩
  · rintro v strict ha rfl
    exact ⟨fun n hn hv => Realm.put_resizes htidy ha hn hv strict,
      fun hv => Realm.put_invalid ha hv strict⟩
  · refine ⟨_, ?_, Realm.removes_erase hin key⟩
    rw [Realm.delete_some hp, if_pos hc]
  · rw [Realm.delete_some hp, if_neg (Bool.eq_false_iff.mp hc)]
  · obtain ⟨found, hfound, hget⟩ := hr.founded.searchable.getFrom hin key
    exact ⟨found, hfound, congrArg Except.ok hget⟩

/-- An array that a program has made, with the last index that there is. -/
theorem met_lastIndex : ∃ r ref, Realm.Met r ∧ ref.index < r.objects.size ∧
    (r.object ref).isArray = true ∧ ((r.object ref).own? "4294967294").isSome := by
  obtain ⟨ref, hends⟩ := Option.isSome_iff_exists.mp fillingLastIndex_ends
  obtain ⟨a, ha, hends⟩ := Option.bind_eq_some_iff.mp hends
  unfold Outcome.arrayWith? at hends
  split at hends
  · next c r context hrun =>
    obtain ⟨-, harray⟩ := Option.filter_eq_some_iff.mp hends
    obtain ⟨harray, hown⟩ := Bool.and_eq_true_iff.mp harray
    exact ⟨r, ref, .between (.run (.first ⟨16, false, rfl⟩) trivial (ok_of_toOption ha) hrun),
      Realm.lt_size_of_isArray harray, harray, hown⟩
  · cases hends

/-- An array of the greatest length is made as short as can be. -/
theorem met_properties_lastIndex : ∃ r ref r', Realm.Met r ∧ ref.index < r.objects.size ∧
    ((r.object ref).own? "4294967294").isSome ∧
    Realm.put (.object ref) "length" (.number (Number.zero true)) true r = .ok () r' ∧
    (r'.object ref).own? "4294967294" = none := by
  obtain ⟨r, ref, hr, hin, ha, hown⟩ := met_lastIndex
  obtain ⟨-, hlength, -⟩ := met_properties hr hin "length"
  obtain ⟨r', hput, hresized⟩ := (hlength (.number (Number.zero true)) true ha rfl).1 0
    (Nat.zero_le _) (by show (Number.ofNat 0 == Number.zero true) = true; decide +kernel)
  refine ⟨r, ref, r', hr, hin, hown, hput, ?_⟩
  rw [hresized.own _ (by decide), if_pos (by decide +kernel)]

/-! ## Operations that fail -/

def Spares (r : Realm) (x : RealmM α) : Prop := ∀ fault r', x r = .error fault r' → r' = r

section

variable {r : Realm}

theorem spares_throw (fault : Fault) : Spares r (throw fault : RealmM α) := by
  rintro _ _ ⟨⟩
  rfl

theorem spares_liftExcept (x : Except Fault α) : Spares r (liftExcept x : RealmM α) := by
  intro fault r' h
  cases x with
  | ok a => cases h
  | error e =>
    cases h
    rfl

theorem Spares.map {x : RealmM α} (h : Spares r x) (f : α → β) :
    Spares r (x >>= fun a => pure (f a)) := by
  intro fault r' hx
  change EStateM.bind x _ r = _ at hx
  unfold EStateM.bind at hx
  cases hx' : x r with
  | ok a r1 =>
    rw [hx'] at hx
    cases hx
  | error e r1 =>
    rw [hx'] at hx
    cases hx
    exact h _ _ hx'

theorem spares_put {B : Prop} (h : r.Tidy B) (base : Value) (key : String) (v : Value)
    (strict : Bool) : Spares r (Realm.put base key v strict) := by
  cases base with
  | undefined | null => exact spares_throw _
  | boolean b | number x | string s =>
    cases strict
    · rintro _ _ ⟨⟩
    · exact spares_throw _
  | object ref =>
    intro fault r' hput
    by_cases hlength : (r.object ref).isArray = true ∧ key = "length"
    · obtain ⟨ha, rfl⟩ := hlength
      by_cases hv : ∃ n, n ≤ 0xFFFFFFFF ∧ (Number.ofNat n == r.toNumber v) = true
      · obtain ⟨n, hn, hv⟩ := hv
        obtain ⟨r1, hok, -⟩ := Realm.put_resizes h ha hn hv strict
        cases hok.symm.trans hput
      · cases (Realm.put_invalid ha hv strict).symm.trans hput
        rfl
    · by_cases ha : (r.object ref).isArray = true
      · obtain ⟨r1, hok, -⟩ :=
          Realm.put_stores h (Realm.lt_size_of_isArray ha) hlength v strict
        cases hok.symm.trans hput
      · cases (Realm.put_of_not_isArray h ha key v strict).symm.trans hput

theorem spares_delete (base : Value) (key : String) (strict : Bool) :
    Spares r (Realm.delete base key strict) := by
  cases base with
  | undefined | null => exact spares_throw _
  | boolean b | number x | string s => rintro _ _ ⟨⟩
  | object ref =>
    intro fault r' hdelete
    rw [Realm.delete_eq] at hdelete
    split at hdelete
    · cases hdelete
    · cases strict <;> cases hdelete
      rfl

theorem spares_get {f : Realm → RealmM α} (h : Spares r (f r)) : Spares r (get >>= f) := h

theorem spares_apply {B : Prop} (h : r.Tidy B) (op : Operation) (args : List Value) :
    Spares r (apply op args) := by
  refine spares_get ?_
  cases op with
  | newRegExp | «in» | defineProperty =>
    dsimp only
    split
    · exact spares_throw _
    · rintro _ _ ⟨⟩
  | instanceOf => exact (spares_liftExcept _).map _
  | getProperty => exact spares_liftExcept _
  | putProperty strict => exact (spares_put h _ _ _ strict).map _
  | deleteProperty strict => exact (spares_delete _ _ strict).map _
  | call argc | construct argc => exact spares_throw _
  | _ => rintro _ _ ⟨⟩

end

/-- An operation that fails has changed nothing, in any realm that compiled programs come to. -/
theorem met_apply_fault {r : Realm} (hr : r.Met) {op : Operation} {args : List Value}
    {fault : Fault} {r' : Realm} (h : apply op args r = .error fault r') : r' = r :=
  spares_apply hr.tidy op args fault r' h

/-- The length of an array cannot be `undefined`. -/
theorem met_apply_fault_lastIndex : ∃ r ref fault r', Realm.Met r ∧
    (r.object ref).isArray = true ∧
    apply (.putProperty true) [.object ref, .string "length", .undefined] r = .error fault r' ∧
    r' = r := by
  obtain ⟨r, ref, hr, -, ha, -⟩ := met_lastIndex
  have hnone : ¬ ∃ n, n ≤ 0xFFFFFFFF ∧ (Number.ofNat n == r.toNumber .undefined) = true := by
    rw [← Number.ofNat_saturated32_beq_iff]
    show ¬ (Number.ofNat (Number.saturated32 Number.notANumber) == Number.notANumber) = true
    decide +kernel
  have hput := Realm.put_invalid ha hnone true
  have happly : apply (.putProperty true) [.object ref, .string "length", .undefined] r =
      .error .invalidLength r := by
    show EStateM.bind (Realm.put (.object ref) "length" .undefined true) _ r = _
    unfold EStateM.bind
    rw [hput]
  exact ⟨r, ref, _, r, hr, ha, happly, met_apply_fault hr happly⟩

end TreeScript
