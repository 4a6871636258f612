import TreeScript.Proofs.KeyTable
import TreeScript.Proofs.Number.Indices
import TreeScript.Realm.Object

/-!
# The keys of an object

An object has its properties in a map and its keys in an order, and each change touches both of
them.  `Object.Agrees` says that the two have the same keys.  What a change does to the order can be
told under this condition, and every change keeps it.

Shortening goes through the order while it takes properties from the map.  `foldl_retain` says what
is left of both.
-/

namespace TreeScript.Object

/-- The keys in order are those that a property is found for, each of them once. -/
structure Agrees (o : Object) : Prop where
  nodup : o.ownKeys.Nodup
  mem_iff : ∀ key, key ∈ o.ownKeys ↔ (o.own? key).isSome = true

variable {o : Object} {key : String} {P : String → Property → Prop}

theorem hasOwn_eq_isSome (o : Object) (key : String) : o.hasOwn key = (o.own? key).isSome :=
  KeyTable.contains_eq_isSome_find? _ _

theorem agrees_new (kind : ObjectKind) (prototype : Option ObjectRef) :
    Agrees { kind, prototype } :=
  ⟨List.nodup_nil, fun _ => ⟨nofun, nofun⟩⟩

/-! ## Defining -/

theorem own?_define (o : Object) (key : String) (p : Property) (key' : String) :
    (o.define key p).own? key' = if key' = key then some p else o.own? key' :=
  KeyTable.find?_insert _ _ _ _

theorem Agrees.ownKeys_define (h : o.Agrees) (key : String) (p : Property) :
    (o.define key p).ownKeys = if key ∈ o.ownKeys then o.ownKeys else o.ownKeys ++ [key] := by
  show (if o.hasOwn key then o.order else o.order.push key).toList = _
  rw [hasOwn_eq_isSome]
  by_cases hkey : key ∈ o.ownKeys
  · rw [if_pos hkey, if_pos ((h.mem_iff key).mp hkey)]
    rfl
  · rw [if_neg hkey, if_neg (mt (h.mem_iff key).mpr hkey)]
    exact Array.toList_push

theorem Agrees.define (h : o.Agrees) (key : String) (p : Property) : (o.define key p).Agrees := by
  refine ⟨?_, fun key' => ?_⟩
  · rw [h.ownKeys_define]
    split
    · exact h.nodup
    · next hnew =>
      refine List.nodup_append.mpr ⟨h.nodup, List.pairwise_singleton _ key, fun a ha b hb => ?_⟩
      rw [List.mem_singleton.mp hb]
      rintro rfl
      exact hnew ha
  · rw [h.ownKeys_define, own?_define]
    by_cases heq : key' = key
    · subst heq
      split <;> simp_all
    · rw [if_neg heq, ← h.mem_iff]
      split <;> simp [heq]

/-! ## Erasing -/

theorem own?_erase (o : Object) (key key' : String) :
    (o.erase key).own? key' = if key' = key then none else o.own? key' :=
  KeyTable.find?_erase _ _ _

theorem ownKeys_erase (o : Object) (key : String) :
    (o.erase key).ownKeys = o.ownKeys.filter (· != key) :=
  Array.toList_filter

theorem Agrees.erase (h : o.Agrees) (key : String) : (o.erase key).Agrees := by
  refine ⟨?_, fun key' => ?_⟩
  · rw [ownKeys_erase]
    exact h.nodup.sublist List.filter_sublist
  · rw [ownKeys_erase, own?_erase, List.mem_filter, h.mem_iff]
    by_cases heq : key' = key <;> simp [heq]

theorem Agrees.erase_of_own? (h : o.Agrees) (hown : o.own? key = none) : o.erase key = o := by
  have horder : o.order.filter (· != key) = o.order := by
    refine Array.filter_eq_self.mpr fun key' hmem => bne_iff_ne.mpr ?_
    rintro rfl
    have hsome := (h.mem_iff key').mp hmem.val
    rw [hown] at hsome
    cases hsome
  unfold Object.erase
  rw [horder, KeyTable.erase_of_find? hown]

/-! ## Shortening -/

theorem isPast_erase {length : Nat} {t : KeyTable Property} {key' : String} (hne : key' ≠ key) :
    isPast length (t.erase key) key' = isPast length t key' := by
  unfold isPast
  rw [KeyTable.find?_erase, if_neg hne]

/-- Each key is looked at once, so what was taken away before does not count for it. -/
theorem foldl_retain (length : Nat) {keys : List String} (h : keys.Nodup) (t : KeyTable Property)
    (order : Array String) :
    (∀ key, (keys.foldl (retain length) (t, order)).1.find? key =
      if key ∈ keys ∧ isPast length t key = true then none else t.find? key) ∧
    (keys.foldl (retain length) (t, order)).2.toList =
      order.toList ++ keys.filter (!isPast length t ·) := by
  induction keys generalizing t order with
  | nil => simp
  | cons k keys ih =>
    obtain ⟨hnot, h⟩ := List.nodup_cons.mp h
    rw [List.foldl_cons, retain]
    by_cases hpast : isPast length t k = true
    · obtain ⟨hfind, horder⟩ := ih h (t.erase k) order
      rw [if_pos hpast]
      refine ⟨fun key => ?_, ?_⟩
      · rw [hfind, KeyTable.find?_erase]
        by_cases hkey : key = k
        · simp [hkey, hpast]
        · rw [isPast_erase hkey, if_neg hkey]
          simp [hkey]
      · rw [horder, List.filter_cons_of_neg (by simp [hpast])]
        refine congrArg _ (List.filter_congr fun key hkey => ?_)
        rw [isPast_erase (ne_of_mem_of_not_mem hkey hnot)]
    · obtain ⟨hfind, horder⟩ := ih h t (order.push k)
      rw [if_neg hpast]
      refine ⟨fun key => ?_, ?_⟩
      · rw [hfind]
        by_cases hkey : key = k
        · simp [hkey, hpast]
        · simp [hkey]
      · rw [horder, List.filter_cons_of_pos (by simp [hpast])]
        simp

theorem foldl_order (o : Object) (length : Nat) :
    o.order.foldl (retain length) (o.properties, #[]) =
      o.ownKeys.foldl (retain length) (o.properties, #[]) :=
  (Array.foldl_toList _).symm

theorem Agrees.own?_truncate (h : o.Agrees) (length : Nat) (key : String) :
    (o.truncate length).own? key =
      if isPast length o.properties key then none else o.own? key := by
  show (o.order.foldl (retain length) (o.properties, #[])).1.find? key = _
  rw [foldl_order, (foldl_retain length h.nodup o.properties #[]).1]
  have hmem : isPast length o.properties key = true → key ∈ o.ownKeys := by
    intro hpast
    obtain ⟨-, hany⟩ := Bool.and_eq_true_iff.mp hpast
    exact (h.mem_iff key).mpr (Option.isSome_of_any hany)
  by_cases hpast : isPast length o.properties key = true
  · rw [if_pos ⟨hmem hpast, hpast⟩, if_pos hpast]
  · rw [if_neg fun h => hpast h.2, if_neg hpast]
    rfl

theorem Agrees.ownKeys_truncate (h : o.Agrees) (length : Nat) :
    (o.truncate length).ownKeys = o.ownKeys.filter (!isPast length o.properties ·) := by
  show (o.order.foldl (retain length) (o.properties, #[])).2.toList = _
  rw [foldl_order, (foldl_retain length h.nodup o.properties #[]).2]
  rfl

theorem Agrees.truncate (h : o.Agrees) (length : Nat) : (o.truncate length).Agrees := by
  refine ⟨?_, fun key => ?_⟩
  · rw [h.ownKeys_truncate]
    exact h.nodup.sublist List.filter_sublist
  · rw [h.ownKeys_truncate, h.own?_truncate, List.mem_filter, h.mem_iff]
    cases isPast length o.properties key <;> simp

theorem all_truncate (h : o.properties.All P) (length : Nat) :
    (o.truncate length).properties.All P := by
  have hfold (keys : List String) (t : KeyTable Property) (order : Array String) (ht : t.All P) :
      (keys.foldl (retain length) (t, order)).1.All P := by
    induction keys generalizing t order with
    | nil => exact ht
    | cons k keys ih =>
      rw [List.foldl_cons, retain]
      split
      · exact ih _ _ (ht.erase k)
      · exact ih _ _ ht
  show (o.order.foldl (retain length) (o.properties, #[])).1.All P
  rw [foldl_order]
  exact hfold _ _ _ h

/-! ## The elements of a new array -/

/-- An array with just these elements. -/
structure Lists (o : Object) (vs : List Value) : Prop where
  array : o.isArray = true
  length : o.own? "length" = some (.hidden (.number (Number.ofNat vs.length)))
  elements : ∀ i : Nat, o.own? (toString i) = vs[i]?.map .data
  others : ∀ key, key ≠ "length" → (∀ i : Nat, key ≠ toString i) → o.own? key = none

theorem find?_zipIdx (vs : List Value) (k i : Nat) :
    ((vs.zipIdx k).map fun (v, j) => (toString j, Property.data v)).find?
      (·.1 == toString (k + i)) = vs[i]?.map fun v => (toString (k + i), .data v) := by
  induction vs generalizing k i with
  | nil => rfl
  | cons v vs ih =>
    rw [List.zipIdx_cons, List.map_cons, List.find?_cons]
    cases i with
    | zero => simp
    | succ i =>
      have hne : (toString k == toString (k + (i + 1))) = false :=
        beq_false_of_ne fun h => by
          have := Number.toString_inj h
          omega
      have hnext : k + (i + 1) = k + 1 + i := by omega
      rw [hne]
      rw [hnext, ih, List.getElem?_cons_succ]

theorem own?_ofElements (prototype : ObjectRef) (vs : List Value) (key : String) :
    (ofElements prototype vs).own? key =
      if key = "length" then some (.hidden (.number (Number.ofNat vs.length)))
      else ((vs.zipIdx.map fun (v, j) => (toString j, Property.data v)).find?
        (·.1 == key)).map Prod.snd := by
  show KeyTable.find? ⟨(_ :: _).toArray⟩ key = _
  unfold KeyTable.find?
  rw [List.find?_toArray, List.find?_cons]
  by_cases hkey : key = "length"
  · simp [hkey]
  · have hne : ("length" == key) = false := beq_false_of_ne (Ne.symm hkey)
    rw [if_neg hkey, hne]

theorem lists_ofElements (prototype : ObjectRef) (vs : List Value) :
    (ofElements prototype vs).Lists vs where
  array := rfl
  length := by rw [own?_ofElements, if_pos rfl]
  elements i := by
    have h := find?_zipIdx vs 0 i
    rw [Nat.zero_add] at h
    rw [own?_ofElements, if_neg (Number.toString_ne_length i), h, Option.map_map]
    rfl
  others key hlength hi := by
    rw [own?_ofElements, if_neg hlength, Option.map_eq_none_iff, List.find?_eq_none]
    intro entry hentry
    obtain ⟨⟨v, j⟩, -, rfl⟩ := List.mem_map.mp hentry
    simpa using (hi j).symm

theorem Lists.cases {elements : List Value} (h : o.Lists elements) {p : Property}
    (hown : o.own? key = some p) :
    (key = "length" ∧ p = .hidden (.number (Number.ofNat elements.length))) ∨
      ∃ (i : Nat) (v : Value), key = toString i ∧ elements[i]? = some v ∧ p = .data v := by
  by_cases hlength : key = "length"
  · subst hlength
    exact .inl ⟨rfl, Option.some.inj (hown.symm.trans h.length)⟩
  · by_cases hindex : ∃ i : Nat, key = toString i
    · obtain ⟨i, rfl⟩ := hindex
      obtain ⟨v, hv, hp⟩ := Option.map_eq_some_iff.mp ((h.elements i).symm.trans hown)
      exact .inr ⟨i, v, rfl, hv, hp.symm⟩
    · have hnone := h.others key hlength fun i hi => hindex ⟨i, hi⟩
      cases hnone.symm.trans hown

theorem agrees_ofElements (prototype : ObjectRef) (vs : List Value) :
    (ofElements prototype vs).Agrees := by
  have hlists := lists_ofElements prototype vs
  have hkeys :
      (ofElements prototype vs).ownKeys = "length" :: (List.range vs.length).map toString := rfl
  refine ⟨?_, fun key => ?_⟩
  · rw [hkeys]
    refine List.nodup_cons.mpr ⟨fun hmem => ?_, List.pairwise_map.mpr ?_⟩
    · obtain ⟨k, -, heq⟩ := List.mem_map.mp hmem
      exact Number.toString_ne_length k heq
    · have hrange : (List.range vs.length).Nodup := List.nodup_range
      exact hrange.imp fun hne heq => hne (Number.toString_inj heq)
  · rw [hkeys, List.mem_cons, List.mem_map]
    constructor
    · rintro (rfl | ⟨i, hi, rfl⟩)
      · rw [hlists.length]
        rfl
      · rw [hlists.elements, Option.isSome_map]
        rw [List.getElem?_eq_getElem (List.mem_range.mp hi)]
        rfl
    · intro hsome
      obtain ⟨p, hp⟩ := Option.isSome_iff_exists.mp hsome
      rcases hlists.cases hp with ⟨rfl, -⟩ | ⟨i, v, rfl, hv, -⟩
      · exact .inl rfl
      · exact .inr ⟨i, List.mem_range.mpr (List.getElem?_eq_some_iff.mp hv).1, rfl⟩

end TreeScript.Object
