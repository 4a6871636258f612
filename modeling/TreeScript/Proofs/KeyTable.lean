import TreeScript.KeyTable

/-!
# What tables hold

`find?_insert` and `find?_erase` say what is found in a table that was changed, and erasing one key
can be put off until another one is written.  `KeyTable.All` says something of all that is found,
and writing and erasing keep it.
-/

namespace TreeScript.KeyTable

variable {t : KeyTable α} {P : String → α → Prop}

/-! ## The place of a key -/

theorem ext_toList {t t' : KeyTable α} (h : t.entries.toList = t'.entries.toList) : t = t' :=
  congrArg KeyTable.mk (Array.toList_inj.mp h)

theorem toList_erase (t : KeyTable α) (key : String) :
    (t.erase key).entries.toList = t.entries.toList.filter (·.1 != key) :=
  Array.toList_filter

variable {key : String} {old : α} {pre post : List (String × α)}

theorem present_or_absent (t : KeyTable α) (key : String) :
    (∃ pre old post, t.entries.toList = pre ++ (key, old) :: post ∧ ∀ e ∈ pre, e.1 ≠ key) ∨
      ∀ e ∈ t.entries.toList, e.1 ≠ key := by
  cases hf : t.entries.toList.find? (·.1 == key) with
  | none => exact .inr (by simpa using hf)
  | some e =>
    obtain ⟨hkey, pre, post, ht, hpre⟩ := List.find?_eq_some_iff_append.mp hf
    obtain rfl := beq_iff_eq.mp hkey
    exact .inl ⟨pre, e.2, post, ht, fun e he => by simpa using hpre e he⟩

theorem insert_present (ht : t.entries.toList = pre ++ (key, old) :: post)
    (hpre : ∀ e ∈ pre, e.1 ≠ key) (value : α) :
    (t.insert key value).entries.toList = pre ++ (key, value) :: post := by
  have hnone : pre.findIdx? (·.1 == key) = none :=
    List.findIdx?_eq_none_iff.mpr fun e he => beq_false_of_ne (hpre e he)
  have hfirst : t.entries.toList.findIdx? (·.1 == key) = some pre.length := by
    simp [ht, List.findIdx?_append, List.findIdx?_cons, hnone]
  have hp : t.position? key = some pre.length := by
    rw [← List.findIdx?_toArray] at hfirst
    exact hfirst
  simp [insert, hp, ht]

theorem insert_absent (h : ∀ e ∈ t.entries.toList, e.1 ≠ key) (value : α) :
    (t.insert key value).entries.toList = t.entries.toList ++ [(key, value)] := by
  have hp : t.position? key = none := by
    simpa [position?, Array.findIdx?_eq_none_iff] using h
  simp [insert, hp]

/-! ## Finding -/

theorem contains_eq_isSome_find? (t : KeyTable α) (key : String) :
    t.contains key = (t.find? key).isSome := by
  unfold contains find?
  rw [Option.isSome_map, Array.isSome_find?]

theorem find?_insert (t : KeyTable α) (key : String) (value : α) (key' : String) :
    (t.insert key value).find? key' = if key' = key then some value else t.find? key' := by
  unfold find?
  rw [← Array.find?_toList, ← Array.find?_toList]
  rcases t.present_or_absent key with ⟨pre, old, post, ht, hpre⟩ | h
  · have hnone : pre.find? (·.1 == key) = none := by simpa using hpre
    rw [insert_present ht hpre, ht]
    by_cases hk : key' = key
    · simp [hk, hnone]
    · have hne : (key == key') = false := beq_false_of_ne (Ne.symm hk)
      simp [hk, hne]
  · have hnone : t.entries.toList.find? (·.1 == key) = none := by simpa using h
    rw [insert_absent h]
    by_cases hk : key' = key
    · rw [hk, List.find?_append, hnone]
      simp
    · have hne : (key == key') = false := beq_false_of_ne (Ne.symm hk)
      simp [hk, hne]

theorem find?_erase (t : KeyTable α) (key key' : String) :
    (t.erase key).find? key' = if key' = key then none else t.find? key' := by
  unfold find?
  rw [← Array.find?_toList, toList_erase, List.find?_filter, ← Array.find?_toList]
  by_cases hk : key' = key
  · subst hk
    simp
  · rw [if_neg hk]
    refine congrArg _ (congrArg (List.find? · _) (funext fun e => ?_))
    by_cases he : e.1 = key'
    · simp [he, hk]
    · simp [he]

theorem erase_of_find? {key : String} (h : t.find? key = none) : t.erase key = t := by
  have hnone := Array.find?_eq_none.mp (Option.map_eq_none_iff.mp h)
  refine congrArg KeyTable.mk (Array.filter_eq_self.mpr fun e he => ?_)
  exact bne_iff_ne.mpr fun heq => hnone e he (beq_iff_eq.mpr heq)

/-! ## What all keys have -/

def All (t : KeyTable α) (P : String → α → Prop) : Prop :=
  ∀ key value, t.find? key = some value → P key value

theorem all_empty : (empty : KeyTable α).All P := nofun

theorem All.mono {P' : String → α → Prop} (h : t.All P)
    (hP : ∀ key value, P key value → P' key value) : t.All P' :=
  fun key value hv => hP key value (h key value hv)

theorem All.insert (h : t.All P) {key : String} {value : α} (hv : P key value) :
    (t.insert key value).All P := by
  intro key' value' hfound
  rw [find?_insert] at hfound
  split at hfound
  · next hkey =>
    cases hfound
    rw [hkey]
    exact hv
  · exact h key' value' hfound

theorem All.erase (h : t.All P) (key : String) : (t.erase key).All P := by
  intro key' value' hfound
  rw [find?_erase] at hfound
  split at hfound
  · cases hfound
  · exact h key' value' hfound

/-! ## Entries of other keys -/

theorem insert_erase (t : KeyTable α) {key key' : String} (hne : key ≠ key') (value : α) :
    (t.erase key').insert key value = (t.insert key value).erase key' := by
  have hkeep : (key != key') = true := bne_iff_ne.mpr hne
  apply ext_toList
  rcases t.present_or_absent key with ⟨pre, old, post, ht, hpre⟩ | h
  · have ht' : (t.erase key').entries.toList = pre.filter (·.1 != key') ++
        (key, old) :: post.filter (·.1 != key') := by
      rw [toList_erase, ht, List.filter_append, List.filter_cons, if_pos hkeep]
    rw [insert_present ht' fun e he => hpre e (List.mem_filter.mp he).1, toList_erase,
      insert_present ht hpre, List.filter_append, List.filter_cons, if_pos hkeep]
  · have h' : ∀ e ∈ (t.erase key').entries.toList, e.1 ≠ key := by
      rw [toList_erase]
      exact fun e he => h e (List.mem_filter.mp he).1
    rw [insert_absent h', toList_erase, toList_erase, insert_absent h, List.filter_append]
    simp [hne]

theorem erase_insert (t : KeyTable α) (key : String) (value : α) :
    (t.insert key value).erase key = t.erase key := by
  apply ext_toList
  rcases t.present_or_absent key with ⟨pre, old, post, ht, hpre⟩ | h
  · simp [toList_erase, insert_present ht hpre, ht]
  · simp [toList_erase, insert_absent h]

theorem erase_erase (t : KeyTable α) (key key' : String) :
    (t.erase key').erase key = (t.erase key).erase key' := by
  apply ext_toList
  simp [toList_erase, Bool.and_comm]

end TreeScript.KeyTable
