import TreeScript.Proofs.Machine.Steady
import TreeScript.Proofs.Number.Whole
import TreeScript.Proofs.Realm.Keys

/-!
# The length of arrays

The `length` of an array is a property like others.  Writing to an index, setting the length and
making an array keep it above every index the array has, each in its own way, and nothing else may
change it.  `Object.Measures` says that the length is right, and `Realm.Tidy` that it is right for
every array of a realm.

Shortening an array takes away only what can be deleted, so it has to be known, too, that the
properties at indices can be.  No property of any object is ever made read-only.

A list of keys can be too long for an array.  So what is said of the size of a length is said under
a condition `B`, and the rest holds without it.
-/

namespace TreeScript

/-! ## One array -/

variable {elements : List Value}

namespace Object

/-- The length is `n`, and what stands at an index can be deleted.  If `B`, every index is below the
length. -/
structure Measures (o : Object) (B : Prop) (n : Nat) : Prop where
  length : o.own? "length" = some (.hidden (.number (Number.ofNat n)))
  bound : B → n ≤ 0xFFFFFFFF
  indices : o.properties.All fun key property =>
    ∀ i, Number.indexOf? key = some i → (B → i < n) ∧ property.configurable = true

/-- Every property can be written, the keys in order are those of the properties, and the length of
an array is right. -/
structure Tidy (o : Object) (B : Prop) : Prop where
  writable : o.properties.All fun _ property => property.writable = true
  agrees : o.Agrees
  measured : o.isArray = true → ∃ n, o.Measures B n

variable {o : Object} {B : Prop} {n : Nat} {key : String}

theorem Measures.arrayLength (h : o.Measures B n) (ha : o.isArray = true) (hB : B) :
    o.arrayLength = n := by
  unfold Object.arrayLength
  rw [if_pos ha, h.length]
  exact Number.saturated32_ofNat (h.bound hB)

theorem Measures.define (h : o.Measures B n) (hkey : key ≠ "length") {p : Property}
    (hp : ∀ i, Number.indexOf? key = some i → (B → i < n) ∧ p.configurable = true) :
    (o.define key p).Measures B n := by
  refine ⟨?_, h.bound, h.indices.insert hp⟩
  rw [own?_define, if_neg (Ne.symm hkey)]
  exact h.length

theorem Measures.write (h : o.Measures B n) (hkey : key ≠ "length")
    (hi : ∀ i, Number.indexOf? key = some i → B → i < n) (v : Value) :
    (o.write key v).Measures B n := by
  unfold Object.write
  split
  · exact h.define hkey fun i hindex => ⟨hi i hindex, rfl⟩
  · next property hown =>
    refine h.define hkey fun i hindex => ⟨hi i hindex, ?_⟩
    exact (h.indices _ _ hown i hindex).2

theorem Measures.erase (h : o.Measures B n) (hkey : key ≠ "length") :
    (o.erase key).Measures B n := by
  refine ⟨?_, h.bound, h.indices.erase key⟩
  rw [own?_erase, if_neg (Ne.symm hkey)]
  exact h.length

theorem Measures.ne_length_of_canDelete (h : o.Measures B n) (hd : o.canDelete key = true) :
    key ≠ "length" := by
  rintro rfl
  unfold Object.canDelete at hd
  rw [h.length] at hd
  cases hd

/-- A new length for indices that are all below it. -/
theorem measures_define_length (hbound : n ≤ 0xFFFFFFFF)
    (hindices : o.properties.All fun key property =>
      ∀ i, Number.indexOf? key = some i → (B → i < n) ∧ property.configurable = true) :
    (o.define "length" (.hidden (.number (Number.ofNat n)))).Measures B n := by
  refine ⟨?_, fun _ => hbound, hindices.insert fun i hi => ?_⟩
  · rw [own?_define, if_pos rfl]
  · cases hi

theorem Measures.shorten (h : o.Measures B n) (ho : o.Agrees) {length : Nat}
    (hl : length ≤ 0xFFFFFFFF) :
    ((o.truncate length).define "length" (.hidden (.number (Number.ofNat length)))).Measures B
      length := by
  refine measures_define_length hl fun key property hfound i hi => ?_
  change (o.truncate length).own? key = some property at hfound
  rw [ho.own?_truncate] at hfound
  split at hfound
  · cases hfound
  · next hkeep =>
    obtain ⟨-, hconfigurable⟩ := h.indices _ _ hfound i hi
    refine ⟨fun _ => ?_, hconfigurable⟩
    have hproperty : o.properties.find? key = some property := hfound
    simpa [isPast, hi, hproperty, hconfigurable] using hkeep

theorem Measures.growTo (h : o.Measures B n) (ha : o.isArray = true) {index : Nat}
    (hi : index < 0xFFFFFFFF) :
    ∃ n', (B → index < n') ∧ (Realm.growTo o index).Measures B n' := by
  unfold Realm.growTo
  split
  · next hle =>
    refine ⟨index + 1, fun _ => Nat.lt_succ_self _, measures_define_length hi (h.indices.mono ?_)⟩
    intro key property hold i hindex
    obtain ⟨hlt, hconfigurable⟩ := hold i hindex
    refine ⟨fun hB => ?_, hconfigurable⟩
    rw [h.arrayLength ha hB] at hle
    exact Nat.lt_succ_of_lt (Nat.lt_of_lt_of_le (hlt hB) hle)
  · next hgt =>
    refine ⟨n, fun hB => ?_, h⟩
    rw [h.arrayLength ha hB] at hgt
    exact Nat.lt_of_not_le hgt

/-! ## One object -/

theorem tidy_new {kind : ObjectKind} {prototype : Option ObjectRef}
    (h : isArray { kind, prototype } = false) : Tidy { kind, prototype } B :=
  ⟨KeyTable.all_empty, agrees_new kind prototype, fun ha => by
    rw [h] at ha
    cases ha⟩

theorem Tidy.define (h : o.Tidy B) (ha : o.isArray = false) {p : Property}
    (hp : p.writable = true) : (o.define key p).Tidy B :=
  ⟨h.writable.insert hp, h.agrees.define key p, fun ha' => by
    cases ha.symm.trans ha'⟩

theorem Tidy.write (h : o.Tidy B) (hkey : o.isArray = true → key ≠ "length")
    (hi : ∀ {n i}, o.isArray = true → o.Measures B n → Number.indexOf? key = some i → B → i < n)
    (v : Value) : (o.write key v).Tidy B := by
  refine ⟨?_, ?_, fun ha => ?_⟩
  · unfold Object.write
    split
    · exact h.writable.insert rfl
    · next property hown =>
      have hp : property.writable = true := h.writable _ _ hown
      exact h.writable.insert hp
  · unfold Object.write
    split <;> exact h.agrees.define _ _
  · have ha : o.isArray = true := by
      unfold Object.write at ha
      split at ha <;> exact ha
    obtain ⟨n, hn⟩ := h.measured ha
    exact ⟨n, hn.write (hkey ha) (fun i => hi ha hn) v⟩

theorem Tidy.erase (h : o.Tidy B) (hd : o.canDelete key = true) : (o.erase key).Tidy B := by
  refine ⟨h.writable.erase key, h.agrees.erase key, fun ha => ?_⟩
  obtain ⟨n, hn⟩ := h.measured ha
  exact ⟨n, hn.erase (hn.ne_length_of_canDelete hd)⟩

theorem Tidy.shorten (h : o.Tidy B) {length : Nat} (hl : length ≤ 0xFFFFFFFF) :
    ((o.truncate length).define "length" (.hidden (.number (Number.ofNat length)))).Tidy B := by
  refine ⟨KeyTable.All.insert (all_truncate h.writable length) rfl,
    (h.agrees.truncate length).define _ _, fun ha => ?_⟩
  obtain ⟨n, hn⟩ := h.measured ha
  exact ⟨length, hn.shorten h.agrees hl⟩

/-! ## New arrays -/

theorem measures_ofElements (prototype : ObjectRef) (h : B → elements.length ≤ 0xFFFFFFFF) :
    (Object.ofElements prototype elements).Measures B elements.length := by
  have hlists := lists_ofElements prototype elements
  refine ⟨hlists.length, h, fun key property hown i hi => ?_⟩
  rcases hlists.cases hown with ⟨rfl, rfl⟩ | ⟨k, v, rfl, hv, rfl⟩
  · cases hi
  · rw [Number.eq_of_indexOf?_toString hi]
    exact ⟨fun _ => (List.getElem?_eq_some_iff.mp hv).1, rfl⟩

theorem tidy_ofElements (prototype : ObjectRef) (h : B → elements.length ≤ 0xFFFFFFFF) :
    (Object.ofElements prototype elements).Tidy B := by
  refine ⟨fun key property hown => ?_, agrees_ofElements prototype elements,
    fun _ => ⟨_, measures_ofElements prototype h⟩⟩
  rcases (lists_ofElements prototype elements).cases hown with ⟨-, rfl⟩ | ⟨_, _, -, -, rfl⟩ <;> rfl

end Object

/-! ## All objects of a realm -/

open Upkeep

namespace Realm

/-- Every property can be written, and the length of every array is right. -/
def Tidy (r : Realm) (B : Prop) : Prop := ∀ ref, (r.object ref).Tidy B

variable {r r' : Realm} {B : Prop} {ref : ObjectRef} {key : String} {v : Value}

theorem Tidy.of_same (h : r.Tidy B) (ho : r'.objects = r.objects) : r'.Tidy B := by
  intro ref
  unfold object
  rw [ho]
  exact h ref

variable {o : Object}

theorem Tidy.addObject (h : r.Tidy B) (ho : o.Tidy B) : (r.addObject o).2.Tidy B := by
  intro ref
  rw [object_addObject]
  split
  · exact ho
  · exact h ref

theorem Tidy.newArray (h : r.Tidy B) (he : B → elements.length ≤ 0xFFFFFFFF) :
    (r.newArray elements).2.Tidy B :=
  h.addObject (Object.tidy_ofElements _ he)

theorem Tidy.derive (h : r.Tidy B) (prototype : Value) : (r.derive prototype).2.Tidy B :=
  h.addObject (Object.tidy_new rfl)

theorem Tidy.newRegExp (h : r.Tidy B) (pattern flags : String) :
    (r.newRegExp pattern flags).2.Tidy B :=
  h.addObject <| (Object.tidy_new rfl).define rfl rfl |>.define rfl rfl |>.define rfl rfl
    |>.define rfl rfl |>.define rfl rfl

theorem Tidy.newFunction (h : r.Tidy B) (closure : Closure) : (r.newFunction closure).2.Tidy B := by
  have hfunction : Object.Tidy (({ kind := .function closure, prototype := functionPrototype } :
      Object)
      |>.define "prototype" (.hidden (.object ⟨r.objects.size + 1⟩))
      |>.define "length" (.hidden (.number (Number.ofNat closure.info.params.length)))
      |>.define "name" (.hidden (.string (closure.info.name.getD "")))) B :=
    (Object.tidy_new rfl).define rfl rfl |>.define rfl rfl |>.define rfl rfl
  exact (h.addObject hfunction).addObject ((Object.tidy_new rfl).define rfl rfl)

theorem Tidy.materialize (h : r.Tidy B) (fault : Fault) : (r.materialize fault).2.Tidy B := by
  cases fault with
  | value v => exact h
  | error kind message =>
    exact h.addObject ((Object.tidy_new rfl).define rfl rfl |>.define rfl rfl)

theorem object_modifyObject_of_ne {ref' : ObjectRef} (h : ref' ≠ ref) (f : Object → Object) :
    (r.modifyObject ref f).object ref' = r.object ref' := by
  have hindex : ref.index ≠ ref'.index := by
    rintro heq
    exact h (congrArg ObjectRef.mk heq.symm)
  simp only [modifyObject, object, Array.getD_eq_getD_getElem?, Array.getElem?_modify,
    if_neg hindex]

theorem object_modifyObject_self (h : ref.index < r.objects.size) (f : Object → Object) :
    (r.modifyObject ref f).object ref = f (r.object ref) := by
  simp [modifyObject, object, Array.getD_eq_getD_getElem?, Array.getElem_modify, h]

theorem lt_size_of_isArray (h : (r.object ref).isArray = true) : ref.index < r.objects.size := by
  refine Nat.lt_of_not_le fun hle => ?_
  unfold object at h
  rw [Array.getD_eq_getD_getElem?, Array.getElem?_eq_none hle] at h
  cases h

theorem Tidy.modifyObject (h : r.Tidy B) {f : Object → Object} (hf : (f (r.object ref)).Tidy B) :
    (r.modifyObject ref f).Tidy B := by
  intro ref'
  by_cases heq : ref' = ref
  · subst heq
    rcases object_modifyObject r ref' ref' f with hsame | hnew
    · rw [hsame]
      exact h ref'
    · rw [hnew]
      exact hf
  · rw [object_modifyObject_of_ne heq]
    exact h ref'

def tidying (B : Prop) : Upkeep Fault Realm where
  along _ _ := True
  refl _ := trivial
  trans _ _ := trivial
  holds r := r.Tidy B
  fails _ _ := True

abbrev Tidies (r : Realm) (B : Prop) (x : RealmM α) : Prop :=
  (tidying B).Sustains r x fun _ _ => True

theorem Tidies.tidy {x : RealmM α} (h : r.Tidies B x) : (stateOf (x r)).Tidy B := by
  unfold Tidies Sustains at h
  cases hx : x r with
  | ok a r' | error e r' =>
    rw [hx] at h
    exact h.2.1

theorem tidies_modifyObject (h : r.Tidy B) {f : Object → Object} (hf : (f (r.object ref)).Tidy B) :
    r.Tidies B (modify (·.modifyObject ref f)) :=
  sustains_modify (U := tidying B) trivial (h.modifyObject hf) trivial

theorem tidies_allocate {f : Realm → ObjectRef × Realm} (h : (f r).2.Tidy B) :
    r.Tidies B (allocate f) :=
  (sustains_modifyGet (U := tidying B) (A := fun _ _ => True) trivial h trivial).bind
    fun _ _ _ hr _ => sustains_pure hr trivial

theorem tidies_liftExcept (h : r.Tidy B) (x : Except Fault α) : r.Tidies B (liftExcept x) :=
  sustains_liftExcept h (fun _ _ => trivial) fun _ _ => trivial

theorem tidies_setLength (h : r.Tidy B) (ref : ObjectRef) (v : Value) :
    r.Tidies B (setLength ref v) := by
  refine sustains_get ?_
  dsimp only
  split
  · exact tidies_modifyObject h ((h ref).shorten (Number.saturated32_le _))
  · exact sustains_throw h trivial

theorem tidies_putOwn (h : r.Tidy B) (hkey : (r.object ref).isArray = true → key ≠ "length")
    (hi : ∀ {n i}, (r.object ref).isArray = true → (r.object ref).Measures B n →
      Number.indexOf? key = some i → B → i < n) (v : Value) (strict : Bool) :
    r.Tidies B (putOwn ref key v strict) := by
  refine sustains_get ?_
  split
  · exact tidies_modifyObject h ((h ref).write hkey hi v)
  · split
    · exact sustains_throw h trivial
    · exact sustains_pure h trivial

theorem writable_growTo (h : o.properties.All fun _ p => p.writable = true) (index : Nat) :
    (growTo o index).properties.All fun _ p => p.writable = true := by
  unfold growTo
  split
  · exact h.insert rfl
  · exact h

theorem agrees_growTo (h : o.Agrees) (index : Nat) : (growTo o index).Agrees := by
  unfold growTo
  split
  · exact h.define _ _
  · exact h

theorem tidies_put (h : r.Tidy B) (base : Value) (key : String) (v : Value) (strict : Bool) :
    r.Tidies B (put base key v strict) := by
  cases base with
  | undefined | null => exact sustains_throw h trivial
  | boolean b | number x | string s =>
    cases strict
    · exact sustains_pure h trivial
    · exact sustains_throw h trivial
  | object ref =>
    refine sustains_get ?_
    split
    · next ha =>
      split
      · exact tidies_setLength h ref v
      · next hkey =>
        split
        · next hindex =>
          refine tidies_putOwn h (fun _ => hkey) (fun _ _ hi => ?_) v strict
          cases hindex.symm.trans hi
        · next index hindex =>
          have hlt := Number.lt_of_indexOf? hindex
          obtain ⟨n0, hn0⟩ := (h ref).measured ha
          obtain ⟨n', hlt', hn'⟩ := hn0.growTo ha hlt
          have hgrown : (r.modifyObject ref (growTo · index)).Tidy B :=
            h.modifyObject ⟨writable_growTo (h ref).writable index,
              agrees_growTo (h ref).agrees index, fun _ => ⟨n', hn'⟩⟩
          -- The array has room for the index now, so its length need not change once more.
          refine tidies_putOwn hgrown (fun _ => hkey) (fun {n i} ha' hn hi hB => ?_) v strict
          cases hindex.symm.trans hi
          rw [object_modifyObject_self (lt_size_of_isArray ha)] at ha' hn
          rw [← hn.arrayLength ha' hB, hn'.arrayLength ha' hB]
          exact hlt' hB
    · next ha =>
      exact tidies_putOwn h (fun ha' => absurd ha' ha) (fun ha' => absurd ha' ha) v strict

theorem tidies_delete (h : r.Tidy B) (base : Value) (key : String) (strict : Bool) :
    r.Tidies B (delete base key strict) := by
  cases base with
  | undefined | null => exact sustains_throw h trivial
  | boolean b | number x | string s => exact sustains_pure h trivial
  | object ref =>
    refine sustains_get ?_
    split
    · next hd =>
      exact (tidies_modifyObject h (f := (·.erase key)) ((h ref).erase hd)).bind
        fun _ _ _ hr _ => sustains_pure hr trivial
    · split
      · exact sustains_throw h trivial
      · exact sustains_pure h trivial

/-- An array that an operation makes at once is not too long. -/
def Brief (r : Realm) (B : Prop) : Code.Operation → List Value → Prop
  | .newArray _, args => args.length ≤ 0xFFFFFFFF
  | .enumerateKeys, args => B → (r.enumerateKeys (args.getD 0 .undefined)).length ≤ 0xFFFFFFFF
  | _, _ => True

theorem tidies_apply (h : r.Tidy B) {op : Code.Operation} {args : List Value}
    (hdefine : op = .defineProperty → ∀ ref, (args.getD 0 .undefined).object? = some ref →
      (r.object ref).isArray = false) (hbrief : r.Brief B op args) :
    r.Tidies B (apply op args) := by
  refine sustains_get ?_
  cases op with
  | newArray n => exact tidies_allocate (h.newArray fun _ => hbrief)
  | newObject => exact tidies_allocate (h.addObject (Object.tidy_new rfl))
  | newRegExp =>
    dsimp only
    split
    · exact sustains_throw h trivial
    · exact tidies_allocate (h.newRegExp _ _)
  | «in» =>
    dsimp only
    split
    · exact sustains_throw h trivial
    · exact sustains_pure h trivial
  | instanceOf =>
    exact (tidies_liftExcept h _).bind fun _ _ _ hr _ => sustains_pure hr trivial
  | getProperty => exact tidies_liftExcept h _
  | putProperty strict =>
    exact (tidies_put h _ _ _ strict).bind fun _ _ _ hr _ => sustains_pure hr trivial
  | deleteProperty strict =>
    exact (tidies_delete h _ _ strict).bind fun _ _ _ hr _ => sustains_pure hr trivial
  | defineProperty =>
    dsimp only
    split
    · exact sustains_throw h trivial
    · next ref href =>
      exact (tidies_modifyObject h (f := (·.define (r.toText (args.getD 1 .undefined))
        (.data (args.getD 2 .undefined)))) ((h ref).define (hdefine rfl ref href) rfl)).bind
        fun _ _ _ hr _ => sustains_pure hr trivial
  | enumerateKeys =>
    refine tidies_allocate (h.newArray fun hB => ?_)
    rw [List.length_map]
    exact hbrief hB
  | print =>
    exact (sustains_modify (U := tidying B) (A := fun _ _ => True) trivial (h.of_same rfl)
      trivial).bind fun _ _ _ hr _ => sustains_pure hr trivial
  | call argc | construct argc => exact sustains_throw h trivial
  | _ => exact sustains_pure h trivial

end Realm

end TreeScript
