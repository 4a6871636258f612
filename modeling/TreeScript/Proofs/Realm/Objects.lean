import TreeScript.Proofs.Program.Properties

/-!
# Objects and the order of their keys

Every `Change` keeps the map of an object and its order in step, so they have the same keys after
any number of changes to an empty object.

`changed_object` adds what each single change does to both views.

Some changes go by the index that a key stands for, and so does reading the units of a text.
`indices_canonical_or_signed` says which keys these are.
-/

namespace TreeScript

namespace Object

/-- A property is found for `key`, which keeps its place or comes last. -/
structure Places (o : Object) (key : String) (p : Property) (o' : Object) : Prop where
  own : ∀ key', o'.own? key' = if key' = key then some p else o.own? key'
  keys : o'.ownKeys = if key ∈ o.ownKeys then o.ownKeys else o.ownKeys ++ [key]

/-- The properties that are `gone` are no longer found, and the rest keep their order. -/
structure Drops (o : Object) (gone : String → Property → Prop) (o' : Object) : Prop where
  own : ∀ key p, o'.own? key = some p ↔ o.own? key = some p ∧ ¬ gone key p
  keys : o'.ownKeys.Sublist o.ownKeys

/-- One change of the properties. -/
inductive Change where
  | set (key : String) (v : Value)
  | define (key : String) (p : Property)
  | delete (key : String)
  | truncate (length : Nat)

/-- The object after a change.  One that is refused leaves it as it is. -/
def change (o : Object) : Change → Object
  | .set key v => (o.set? key v).getD o
  | .define key p => o.define key p
  | .delete key => (o.delete? key).getD o
  | .truncate length => o.truncate length

variable {o : Object} {key : String}

/-! ## Single changes -/

theorem Agrees.places_define (h : o.Agrees) (key : String) (p : Property) :
    o.Places key p (o.define key p) :=
  ⟨own?_define o key p, h.ownKeys_define key p⟩

theorem drops_erase (o : Object) (key : String) :
    o.Drops (fun key' _ => key' = key) (o.erase key) where
  own key' p := by
    rw [own?_erase]
    by_cases hkey : key' = key <;> simp [hkey]
  keys := by
    rw [ownKeys_erase]
    exact List.filter_sublist

theorem Agrees.drops_truncate (h : o.Agrees) (length : Nat) : o.Drops
    (fun key p => p.configurable = true ∧ ∃ i, Number.indexOf? key = some i ∧ length ≤ i)
    (o.truncate length) := by
  refine ⟨fun key p => ?_, ?_⟩
  · rw [h.own?_truncate, ite_eq_iff]
    have hpast (hown : o.own? key = some p) : isPast length o.properties key = true ↔
        p.configurable = true ∧ ∃ i, Number.indexOf? key = some i ∧ length ≤ i := by
      have hproperty : o.properties.find? key = some p := hown
      simp [isPast, hproperty, Option.any_eq_true, and_comm]
    constructor
    · rintro (⟨-, hnone⟩ | ⟨hstays, hown⟩)
      · cases hnone
      · exact ⟨hown, mt (hpast hown).mpr hstays⟩
    · rintro ⟨hown, hstays⟩
      exact .inr ⟨mt (hpast hown).mp hstays, hown⟩
  · rw [h.ownKeys_truncate]
    exact List.filter_sublist

theorem set?_eq (o : Object) (key : String) (v : Value) :
    o.set? key v = if (o.own? key).all Property.writable then some (o.define key (o.assigned key v))
      else none := by
  rw [← write_eq_define, set?, canWrite]
  cases o.own? key <;> rfl

theorem delete?_eq (o : Object) (key : String) :
    o.delete? key =
      if (o.own? key).all Property.configurable then some (o.erase key) else none := by
  rw [delete?, canDelete]
  cases o.own? key <;> rfl

/-! ## Histories -/

theorem Agrees.change (h : o.Agrees) (c : Change) : (o.change c).Agrees := by
  cases c with
  | set key v =>
    show ((o.set? key v).getD o).Agrees
    rw [set?_eq]
    split
    · exact h.define key _
    · exact h
  | define key p => exact h.define key p
  | delete key =>
    show ((o.delete? key).getD o).Agrees
    rw [delete?_eq]
    split
    · exact h.erase key
    · exact h
  | truncate length => exact h.truncate length

theorem Agrees.changes (h : o.Agrees) (cs : List Change) : (cs.foldl Object.change o).Agrees := by
  induction cs generalizing o with
  | nil => exact h
  | cons c cs ih => exact ih (h.change c)

/-- However an empty object has been changed, its keys are in order.  The next change does to them
and to the properties what it is for, and nothing if a property may not be written or deleted. -/
theorem changed_object (kind : ObjectKind) (prototype : Option ObjectRef) (cs : List Change) :
    let o := cs.foldl Object.change { kind, prototype }
    o.Agrees ∧
    (∀ key v, (o.own? key).all Property.writable = false →
      o.set? key v = none ∧ o.change (.set key v) = o) ∧
    (∀ key v, (o.own? key).all Property.writable = true →
      ∃ o', o.set? key v = some o' ∧ o.Places key (o.assigned key v) o') ∧
    (∀ key p, o.Places key p (o.define key p)) ∧
    (∀ key, (o.own? key).all Property.configurable = false →
      o.delete? key = none ∧ o.change (.delete key) = o) ∧
    (∀ key, (o.own? key).all Property.configurable = true →
      ∃ o', o.delete? key = some o' ∧ o.Drops (fun key' _ => key' = key) o') ∧
    ∀ length, o.Drops
      (fun key p => p.configurable = true ∧ ∃ i, Number.indexOf? key = some i ∧ length ≤ i)
      (o.truncate length) := by
  intro o
  have hagrees : o.Agrees := (agrees_new kind prototype).changes cs
  refine ⟨hagrees, fun key v h => ?_, fun key v h => ⟨_, ?_, hagrees.places_define key _⟩,
    hagrees.places_define, fun key h => ?_, fun key h => ⟨_, ?_, drops_erase o key⟩,
    hagrees.drops_truncate⟩
  · have hnone : o.set? key v = none := by rw [set?_eq, h, if_neg Bool.false_ne_true]
    exact ⟨hnone, congrArg (Option.getD · o) hnone⟩
  · rw [set?_eq, if_pos h]
  · have hnone : o.delete? key = none := by rw [delete?_eq, h, if_neg Bool.false_ne_true]
    exact ⟨hnone, congrArg (Option.getD · o) hnone⟩
  · rw [delete?_eq, if_pos h]

end Object

/-! ## Keys of indices -/

namespace Realm

variable {r r' : Realm} {ref : ObjectRef} {key : String} {v : Value}

theorem getFrom_of_own? (hin : ref.index < r.objects.size) {p : Property}
    (h : (r.object ref).own? key = some p) : r.getFrom ref key = p.value := by
  obtain ⟨n, hn⟩ := Nat.exists_eq_add_one_of_ne_zero (Nat.ne_zero_of_lt hin)
  unfold getFrom lineage ancestors
  rw [hn, follow, List.map_cons, List.findSome?_cons, h]

theorem Stores.read (h : r.Stores ref key v r') (hin : ref.index < r.objects.size) :
    r'.read (.object ref) key = .ok v := by
  obtain ⟨p, hp, rfl⟩ : ∃ p, (r'.object ref).own? key = some p ∧ p.value = v := by
    cases hown : (r.object ref).own? key with
    | none => exact ⟨_, h.new hown, rfl⟩
    | some p => exact ⟨_, h.old p hown, rfl⟩
  exact congrArg _ (getFrom_of_own? (h.size ▸ hin) hp)

/-- Only an index gives an array a length, which is then just above the index. -/
theorem Stores.grows (h : r.Stores ref key v r') (ha : (r.object ref).isArray = true)
    (hkey : key ≠ "length") (hlt : (r.object ref).arrayLength < (r'.object ref).arrayLength) :
    ∃ i, Number.indexOf? key = some i ∧ (r'.object ref).arrayLength = i + 1 := by
  cases hi : Number.indexOf? key with
  | some i =>
    have hmax := (h.length ha i hi).1
    exact ⟨i, rfl, by omega⟩
  | none =>
    have hsame := h.same "length" (Ne.symm hkey) fun _ hsome => by
      rw [hi] at hsome
      cases hsome
    exact absurd (Object.arrayLength_congr h.kind hsame) (Nat.ne_of_gt hlt)

theorem index_of_read {s unit : String} (h : r.read (.string s) key = .ok (.string unit)) :
    ∃ i, Number.indexOf? key = some i ∧ Text.unitAt s i = some unit := by
  change (if key = "length" then _ else _) = _ at h
  split at h
  · cases h
  · cases hunit : Number.indexOf? key >>= Text.unitAt s with
    | none =>
      rw [hunit] at h
      cases h
    | some unit' =>
      rw [hunit] at h
      cases h
      exact Option.bind_eq_some_iff.mp hunit

end Realm

open Number (IsIndexKey IsSigned)

/-- The keys of an index are its decimal form and, with a plus, any digits for it.  These alone make
an array longer when they are written, are taken away by a shorter length, and are keys of the units
of a text. -/
theorem indices_canonical_or_signed {r : Realm} (hr : r.Met) (key : String) :
    (∀ i, Number.indexOf? key = some i ↔ i ≤ 0xFFFFFFFE ∧ (key = toString i ∨ IsSigned key i)) ∧
    (∀ key' i, Number.indexOf? key = some i → Number.indexOf? key' = some i →
      key = key' ∨ IsSigned key i ∨ IsSigned key' i) ∧
    (∀ ref v strict r', (r.object ref).isArray = true → key ≠ "length" →
      Realm.put (.object ref) key v strict r = .ok () r' →
      (r.object ref).arrayLength < (r'.object ref).arrayLength →
      ∃ i, IsIndexKey key i ∧ (r'.object ref).arrayLength = i + 1 ∧
        r'.read (.object ref) key = .ok v) ∧
    (∀ ref length p, (r.object ref).own? key = some p →
      ((r.object ref).truncate length).own? key = none → ∃ i, IsIndexKey key i ∧ length ≤ i) ∧
    ∀ s unit, r.read (.string s) key = .ok (.string unit) →
      ∃ i, IsIndexKey key i ∧ Text.unitAt s i = some unit := by
  refine ⟨fun i => Number.indexOf?_eq_some_iff, fun key' i h h' => ?_,
    fun ref v strict r' ha hkey hput hgrows => ?_, fun ref length p hown hgone => ?_,
    fun s unit hread => ?_⟩
  · obtain ⟨-, rfl | hsigned⟩ := Number.indexOf?_eq_some_iff.mp h
    · obtain ⟨-, rfl | hsigned⟩ := Number.indexOf?_eq_some_iff.mp h'
      · exact .inl rfl
      · exact .inr (.inr hsigned)
    · exact .inr (.inl hsigned)
  · have hin := Realm.lt_size_of_isArray ha
    obtain ⟨r₁, hr₁, hstores⟩ := Realm.put_stores hr.tidy hin (fun h => hkey h.2) v strict
    cases hput.symm.trans hr₁
    obtain ⟨i, hi, hlength⟩ := hstores.grows ha hkey hgrows
    exact ⟨i, Number.indexOf?_eq_some_iff.mp hi, hlength, hstores.read hin⟩
  · have hdrops := ((hr.tidy ref).agrees.drops_truncate length).own key p
    rw [hgone] at hdrops
    obtain ⟨-, i, hi, hle⟩ := not_not.mp fun hstays =>
      absurd (hdrops.mpr ⟨hown, hstays⟩) (Option.some_ne_none p).symm
    exact ⟨i, Number.indexOf?_eq_some_iff.mp hi, hle⟩
  · obtain ⟨i, hi, hunit⟩ := Realm.index_of_read hread
    exact ⟨i, Number.indexOf?_eq_some_iff.mp hi, hunit⟩

/-- The last index there is, in a realm that a program has come to. -/
theorem indices_lastIndex : ∃ r, Realm.Met r ∧ Number.indexOf? "4294967294" = some 4294967294 := by
  obtain ⟨r, -, hr, -⟩ := met_lastIndex
  obtain ⟨hindex, -⟩ := indices_canonical_or_signed hr "4294967294"
  exact ⟨r, hr, (hindex _).mpr ⟨Nat.le_refl _, .inl (by decide)⟩⟩

/-- Two keys of one index. -/
theorem indexOf?_plus : Number.indexOf? "+5" = some 5 ∧ Number.indexOf? "5" = some 5 := by decide

end TreeScript
