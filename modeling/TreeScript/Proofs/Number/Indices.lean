import TreeScript.Number.Literal

/-!
# The keys that are indices

An index has a key of its own, the decimal form of the number.  But a number may also be read with a
plus in front, and then with zeros behind that, so `+5` and `+05` are keys of the index 5 as well.
`indexOf?_eq_some_iff` says that there are no others.
-/

namespace TreeScript.Number

variable {ds : List Char} {key : String} {n i : Nat}

/-! ## Digits -/

theorem digitChar_digitValue {c : Char} (h : c.isDigit = true) :
    digitValue c < 10 ∧ Nat.digitChar (digitValue c) = c := by
  have hrange : 48 ≤ c.toNat ∧ c.toNat ≤ 57 := by
    rw [Char.isDigit, Bool.and_eq_true, decide_eq_true_iff, decide_eq_true_iff] at h
    exact h
  have hlt : digitValue c < 10 := by
    show c.toNat - 48 < 10
    omega
  refine ⟨hlt, Char.toNat_inj.mp ?_⟩
  rw [Nat.toNat_digitChar_of_lt_ten hlt]
  show 48 + (c.toNat - 48) = c.toNat
  omega

theorem toDigits_foldl (h : ds.all Char.isDigit = true) {n : Nat} (hn : 0 < n) :
    Nat.toDigits 10 (ds.foldl (fun n c => 10 * n + digitValue c) n) = Nat.toDigits 10 n ++ ds := by
  induction ds generalizing n with
  | nil => exact (List.append_nil _).symm
  | cons c ds ih =>
    obtain ⟨hc, hds⟩ := Bool.and_eq_true_iff.mp h
    obtain ⟨hlt, hchar⟩ := digitChar_digitValue hc
    rw [List.foldl_cons, ih hds (by omega), ← Nat.toDigits_append_toDigits (by decide) hn hlt,
      Nat.toDigits_of_lt_base hlt, hchar, List.append_assoc]
    rfl

theorem toDigits_digitsValue {c : Char} (hc : c ≠ '0') (h : (c :: ds).all Char.isDigit = true) :
    Nat.toDigits 10 (digitsValue (c :: ds)) = c :: ds := by
  obtain ⟨hdigit, hds⟩ := Bool.and_eq_true_iff.mp h
  obtain ⟨hlt, hchar⟩ := digitChar_digitValue hdigit
  have hpos : 0 < digitValue c := by
    refine Nat.pos_of_ne_zero fun hzero => hc ?_
    rw [← hchar, hzero]
    rfl
  show Nat.toDigits 10 (ds.foldl _ (10 * 0 + digitValue c)) = _
  rw [Nat.mul_zero, Nat.zero_add, toDigits_foldl hds hpos, Nat.toDigits_of_lt_base hlt, hchar]
  rfl

theorem head_toDigits {n : Nat} (hn : 0 < n) : (Nat.toDigits 10 n).head? ≠ some '0' := by
  induction n using Nat.strongRecOn with
  | ind n ih =>
    by_cases hlt : n < 10
    · rw [Nat.toDigits_of_lt_base hlt]
      intro hzero
      have hnat := congrArg Char.toNat (Option.some.inj hzero)
      rw [Nat.toNat_digitChar_of_lt_ten hlt] at hnat
      change 48 + n = 48 at hnat
      omega
    · have hrest := ih (n / 10) (by omega) (by omega)
      have hsplit := Nat.toDigits_append_toDigits (by decide) (by omega : 0 < n / 10)
        (Nat.mod_lt n (by decide : 10 > 0))
      rw [Nat.div_add_mod] at hsplit
      rw [← hsplit]
      cases hdigits : Nat.toDigits 10 (n / 10) with
      | nil => exact absurd hdigits Nat.toDigits_ne_nil
      | cons c cs =>
        rw [hdigits] at hrest
        exact hrest

theorem isDigit_toDigits (n : Nat) : (Nat.toDigits 10 n).all Char.isDigit = true :=
  List.all_eq_true.mpr fun _ => Nat.isDigit_of_mem_toDigits (by decide) (by decide)

theorem digitsValue_toDigits (n : Nat) : digitsValue (Nat.toDigits 10 n) = n :=
  Nat.ofDigitChars_toDigits (by decide) (by decide)

theorem toList_toString (n : Nat) : (toString n).toList = Nat.toDigits 10 n := Nat.toList_repr

theorem toString_inj {k : Nat} (h : toString n = toString k) : n = k := by
  rw [← digitsValue_toDigits n, ← digitsValue_toDigits k, ← toList_toString, ← toList_toString, h]

theorem toString_ne_length (n : Nat) : toString n ≠ "length" := by
  intro h
  have hdigits := isDigit_toDigits n
  rw [← toList_toString, h] at hdigits
  exact absurd hdigits (by decide)

/-! ## Reading -/

def IsSigned (key : String) (i : Nat) : Prop :=
  ∃ ds, key.toList = '+' :: ds ∧ ds ≠ [] ∧ ds.all Char.isDigit = true ∧ digitsValue ds = i

/-- A key of the index `i`. -/
def IsIndexKey (key : String) (i : Nat) : Prop :=
  i ≤ 0xFFFFFFFE ∧ (key = toString i ∨ IsSigned key i)

theorem readNatural?_eq_some_iff {bound : Nat} {cs : List Char} : readNatural? bound cs = some n ↔
    ∃ ds, (cs = ds ∨ cs = '+' :: ds) ∧ ds ≠ [] ∧ ds.all Char.isDigit = true ∧ digitsValue ds = n ∧
      n < bound := by
  have hdigits {ds : List Char} : (if ds.isEmpty || !ds.all Char.isDigit then none
      else if digitsValue ds < bound then some (digitsValue ds) else none) = some n ↔
      ds ≠ [] ∧ ds.all Char.isDigit = true ∧ digitsValue ds = n ∧ n < bound := by
    rw [Option.ite_none_left_eq_some, Option.ite_none_right_eq_some]
    simp only [Bool.or_eq_true, List.isEmpty_iff, Bool.not_eq_true', not_or, Bool.not_eq_false,
      Option.some.injEq, and_assoc]
    constructor
    · rintro ⟨hne, hall, hlt, rfl⟩
      exact ⟨hne, hall, rfl, hlt⟩
    · rintro ⟨hne, hall, rfl, hlt⟩
      exact ⟨hne, hall, hlt, rfl⟩
  unfold readNatural?
  split
  · next ds =>
    refine hdigits.trans ⟨fun h => ⟨ds, .inr rfl, h⟩, ?_⟩
    rintro ⟨ds', rfl | hds, hne, hall, hrest⟩
    · cases hall
    · cases hds
      exact ⟨hne, hall, hrest⟩
  · next hplus =>
    refine hdigits.trans ⟨fun h => ⟨cs, .inl rfl, h⟩, ?_⟩
    rintro ⟨ds', rfl | hds, hrest⟩
    · exact hrest
    · exact absurd hds (hplus ds')

theorem indexOf?_toString (h : i ≤ 0xFFFFFFFE) : indexOf? (toString i) = some i := by
  have hread : readNatural? 0xFFFFFFFF (Nat.toDigits 10 i) = some i :=
    readNatural?_eq_some_iff.mpr ⟨_, .inl rfl, Nat.toDigits_ne_nil, isDigit_toDigits i,
      digitsValue_toDigits i, Nat.lt_succ_of_le h⟩
  unfold indexOf?
  rw [toList_toString]
  split
  · next hnil => exact absurd hnil Nat.toDigits_ne_nil
  · next c cs hzero =>
    obtain rfl | hpos := Nat.eq_zero_or_pos i
    · cases hzero
    · exact absurd (congrArg List.head? hzero) (head_toDigits hpos)
  · exact hread

theorem indexOf?_eq_some_iff : indexOf? key = some i ↔ IsIndexKey key i := by
  constructor
  · intro h
    unfold indexOf? at h
    split at h
    · cases h
    · cases h
    · next hnil hzero =>
      obtain ⟨ds, hds, hne, hdigits, rfl, hlt⟩ := readNatural?_eq_some_iff.mp h
      refine ⟨Nat.le_of_lt_succ hlt,
        hds.imp (fun hds => ?_) fun hds => ⟨ds, hds, hne, hdigits, rfl⟩⟩
      refine String.toList_inj.mp ?_
      rw [toList_toString, hds]
      cases ds with
      | nil => exact absurd rfl hne
      | cons c ds =>
        by_cases hc : c = '0'
        · subst hc
          cases ds with
          | nil => rfl
          | cons d ds => exact (hzero d ds hds).elim
        · exact (toDigits_digitsValue hc hdigits).symm
  · rintro ⟨hle, rfl | ⟨ds, hkey, hne, hdigits, rfl⟩⟩
    · exact indexOf?_toString hle
    · unfold indexOf?
      rw [hkey]
      exact readNatural?_eq_some_iff.mpr ⟨ds, .inr rfl, hne, hdigits, rfl, Nat.lt_succ_of_le hle⟩

theorem lt_of_indexOf? (h : indexOf? key = some i) : i < 0xFFFFFFFF :=
  Nat.lt_succ_of_le (indexOf?_eq_some_iff.mp h).1

theorem eq_of_indexOf?_toString (h : indexOf? (toString n) = some i) : i = n := by
  obtain ⟨-, hsame | ⟨ds, hkey, -⟩⟩ := indexOf?_eq_some_iff.mp h
  · exact toString_inj hsame.symm
  · have hdigits := isDigit_toDigits n
    rw [← toList_toString, hkey] at hdigits
    cases hdigits

theorem indexOf?_length : indexOf? "length" = none := by decide

end TreeScript.Number
