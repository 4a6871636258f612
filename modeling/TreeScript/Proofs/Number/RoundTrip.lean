import TreeScript.Number.Written
import TreeScript.Proofs.Number.Indices
import TreeScript.Proofs.Number.Numerals
import TreeScript.Proofs.Number.Rounding
import TreeScript.Realm.Conversion

/-!
# Texts of numbers read back

The shortest decimal of a double reads as that double, and each way of writing a decimal down is a
numeral of its value.  So the text of a number is read as the number, with one exception: whole
numbers beyond the signed 64-bit range that are still written in full all have the text of its end.
-/

namespace TreeScript.Number

variable {cs ds : List Char} {pattern : Nat} {x y : Float} {d : Dyadic}

/-! ## Digits -/

theorem foldr_joinDigits (base : Nat) (ds : List Nat) :
    (joinDigits base ds).foldr (fun d value => d + base * base * value) 0 =
      ds.foldr (fun d value => d + base * value) 0 := by
  fun_induction joinDigits base ds with
  | case1 low high ds ih =>
    rw [List.foldr_cons, List.foldr_cons, List.foldr_cons, ih, Nat.mul_add, Nat.mul_assoc,
      Nat.add_assoc]
  | case2 ds hds =>
    rcases ds with - | ⟨low, - | ⟨high, ds⟩⟩
    · rfl
    · rfl
    · exact (hds low high ds rfl).elim

theorem joinedValue_eq (n base : Nat) (ds : List Nat) :
    joinedValue n base ds = ds.foldr (fun d value => d + base * value) 0 := by
  fun_induction joinedValue n base ds with
  | case1 n base low high ds ih => rw [ih, foldr_joinDigits]
  | case2 => rfl

theorem longValue_eq (cs : List Char) : longValue cs = digitsValue cs := by
  rw [longValue, joinedValue_eq, List.foldr_map, List.foldr_reverse, digitsValue]
  simp only [Nat.add_comm]

theorem foldl_digitValue (ds : List Char) (n : Nat) :
    ds.foldl (fun n c => 10 * n + digitValue c) n = 10 ^ ds.length * n + digitsValue ds :=
  Nat.ofDigitChars_eq_ofDigitChars_zero

theorem digitsValue_append (cs ds : List Char) :
    digitsValue (cs ++ ds) = 10 ^ ds.length * digitsValue cs + digitsValue ds := by
  rw [digitsValue, List.foldl_append, foldl_digitValue]
  rfl

theorem digitsValue_zeros (n : Nat) : digitsValue (zeros n) = 0 :=
  Nat.ofDigitChars_replicate_zero.trans (Nat.mul_zero _)

theorem exponentValue_eq (h : digitsValue ds < 0x10000) : exponentValue ds = digitsValue ds := by
  unfold exponentValue digitsValue at *
  generalize 0 = n at *
  induction ds generalizing n with
  | nil => rfl
  | cons c ds ih =>
    rw [List.foldl_cons] at h
    have hle := Nat.le_mul_of_pos_left (10 * n + digitValue c)
      (Nat.pow_pos (n := ds.length) (show 0 < 10 by decide))
    have hfold := foldl_digitValue ds (10 * n + digitValue c)
    rw [List.foldl_cons, List.foldl_cons, if_pos (by omega), ih _ h]

/-! ## Numerals of a double -/

/-- A numeral without a sign that is read as the double with the given pattern. -/
def Denotes (cs : List Char) (pattern : Nat) : Prop :=
  ∃ whole point fraction exponent power, IsMantissa [] whole point fraction ∧
    readExponent? exponent = some power ∧ cs = whole ++ (point ++ (fraction ++ exponent)) ∧
    pattern = decimalBits (digitsValue (whole ++ fraction)) (power - fraction.length)

theorem trimBlank_eq_self (h : ∀ c ∈ cs, Text.isBlank c = false) : Text.trimBlank cs = cs := by
  have hself (ds : List Char) (h : ∀ c ∈ ds, Text.isBlank c = false) :
      ds.dropWhile Text.isBlank = ds := by
    cases ds with
    | nil => rfl
    | cons d ds => rw [List.dropWhile_cons_of_neg (by rw [h d List.mem_cons_self]; decide)]
  rw [Text.trimBlank, hself cs h, hself _ (fun c hc => h c (List.mem_reverse.mp hc)),
    List.reverse_reverse]

theorem IsDecimal.ofText_eq (h : IsDecimal cs) :
    ofText (String.ofList cs) = (readDecimal? cs).elim notANumber Numeral.toFloat := by
  have hplain c (hc : c ∈ cs) := isPlain_cases (h.isPlain c hc)
  have htrim : Text.trimBlank (String.ofList cs).toList = cs := by
    rw [String.toList_ofList]
    exact trimBlank_eq_self fun c hc => (hplain c hc).1
  have hinfinity : ¬ IsInfinity cs := by
    rintro ⟨sign, -, rfl⟩
    exact (hplain 'I' (List.mem_append_right _ (by decide))).2.2 (by decide)
  have hstray : ¬ cs.any isStrayLetter = true := by
    intro hany
    obtain ⟨c, hc, hs⟩ := List.any_eq_true.mp hany
    cases (hplain c hc).2.1.symm.trans hs
  rw [isInfinity_iff, ← or_assoc, not_or] at hinfinity
  rcases ofText_cases (String.ofList cs) with ⟨hcs, -⟩ | ⟨mark, cs', hmark, hcs, -⟩ | ⟨-, -, heq⟩
  · rw [htrim] at hcs
    subst hcs
    exact absurd ((readDecimal?_isSome _).mpr h) (by decide)
  · rw [htrim] at hcs
    subst hcs
    have hx := (hplain mark (by simp)).2.2
    rcases hmark with rfl | rfl <;> exact absurd (by decide) hx
  · rw [heq, htrim, readWord]
    simp only [Bool.or_eq_true, beq_iff_eq]
    rw [if_neg hinfinity.1, if_neg hinfinity.2, if_neg hstray]
    cases readDecimal? cs <;> rfl

theorem Denotes.ofText_eq (h : Denotes cs pattern) (negative : Bool) :
    ofText (String.ofList (signText negative ++ cs)) = ofPattern negative pattern := by
  obtain ⟨whole, point, fraction, exponent, power, hm, hpower, rfl, rfl⟩ := h
  have hexponent : IsExponent exponent := (readExponent?_isSome _).mp (by rw [hpower]; rfl)
  have hsigned : IsSign (signText negative) := by
    cases negative
    · exact .inl rfl
    · exact .inr (.inr rfl)
  have hm : IsMantissa (signText negative) whole point fraction := { hm with signed := hsigned }
  have hsign : (signText negative == ['-']) = negative := by cases negative <;> rfl
  have hdecimal : IsDecimal (signText negative ++ (whole ++ (point ++ (fraction ++ exponent)))) :=
    ⟨_, _, _, _, _, hm, hexponent, rfl⟩
  rw [hdecimal.ofText_eq, readDecimal?_eq hm hexponent, hpower, hsign, longValue_eq]
  rfl

/-! ## Ways to write a decimal -/

theorem areDigits_toDigits (n : Nat) : AreDigits (Nat.toDigits 10 n) :=
  areDigits_iff_all.mp (isDigit_toDigits n)

theorem areDigits_zeros (n : Nat) : AreDigits (zeros n) := by
  intro c hc
  rw [List.eq_of_mem_replicate hc]
  decide

theorem denotes_whole (hd : AreDigits ds) (hne : ds ≠ []) :
    Denotes ds (decimalBits (digitsValue ds) 0) :=
  ⟨ds, [], [], [], 0, ⟨.inl rfl, hd, List.forall_mem_nil _, by simpa using hne, .inr ⟨rfl, rfl⟩⟩,
    rfl, by simp, by simp⟩

namespace Decimal

def bits (d : Decimal) : Nat := decimalBits d.coefficient d.exponent

theorem denotes_positional (d : Decimal) : Denotes d.positional d.bits := by
  have hlength : 0 < d.digits.length := Nat.length_toDigits_pos
  have hdigits : AreDigits d.digits := areDigits_toDigits _
  have hvalue : digitsValue d.digits = d.coefficient := digitsValue_toDigits _
  unfold positional bits
  dsimp only
  split
  · next hpoint =>
    refine ⟨['0'], ['.'], zeros (-(d.exponent + d.digits.length)).toNat ++ d.digits, [], 0,
      ⟨.inl rfl, List.all_eq_true.mp (by decide),
        List.forall_mem_append.mpr ⟨areDigits_zeros _, hdigits⟩, by simp, .inl rfl⟩,
      rfl, by simp, ?_⟩
    have hzero : digitsValue ['0'] = 0 := by decide
    rw [digitsValue_append, digitsValue_append, digitsValue_zeros, hvalue, hzero, Nat.mul_zero,
      Nat.mul_zero, Nat.zero_add, Nat.zero_add, List.length_append, zeros, List.length_replicate]
    congr 2
    omega
  split
  · next hlong =>
    have heq : decimalBits d.coefficient d.exponent = decimalBits (digitsValue (d.digits ++
        zeros (d.exponent + d.digits.length - d.digits.length).toNat)) 0 := by
      rw [digitsValue_append, digitsValue_zeros, hvalue, zeros, List.length_replicate, Nat.add_zero,
        Nat.mul_comm, decimalBits_mul_pow]
      congr 1
      omega
    rw [heq]
    exact denotes_whole (List.forall_mem_append.mpr ⟨hdigits, areDigits_zeros _⟩)
      (List.append_ne_nil_of_left_ne_nil (List.ne_nil_of_length_pos hlength) _)
  · next hpoint hlong =>
    refine ⟨d.digits.take (d.exponent + d.digits.length).toNat, ['.'],
      d.digits.drop (d.exponent + d.digits.length).toNat, [], 0,
      ⟨.inl rfl, fun c hc => hdigits c (List.mem_of_mem_take hc),
        fun c hc => hdigits c (List.mem_of_mem_drop hc), ?_, .inl rfl⟩, rfl, by simp, ?_⟩
    · rw [List.take_append_drop]
      exact List.ne_nil_of_length_pos hlength
    · rw [List.take_append_drop, hvalue, List.length_drop]
      congr 2
      omega

theorem denotes_scientific {d : Decimal} (h : d.leading.natAbs < 0x10000) :
    Denotes d.scientific d.bits := by
  have hdigits : AreDigits d.digits := areDigits_toDigits _
  have hvalue : digitsValue d.digits = d.coefficient := digitsValue_toDigits _
  have hpower : readExponent? ('e' :: exponentText d.leading) = some d.leading := by
    have hexponent : exponentValue (Nat.toDigits 10 d.leading.natAbs) = d.leading.natAbs := by
      rw [exponentValue_eq (by rw [digitsValue_toDigits]; exact h), digitsValue_toDigits]
    have hread {sign : List Char} (hs : IsSign sign) := readExponent?_append (.inl rfl) hs
      (areDigits_toDigits d.leading.natAbs) Nat.toDigits_ne_nil
    unfold exponentText
    split
    · refine (hread (.inr (.inr rfl))).trans ?_
      rw [hexponent]
      exact congrArg some (show -(d.leading.natAbs : Int) = _ by omega)
    · refine (hread (.inr (.inl rfl))).trans ?_
      rw [hexponent]
      exact congrArg some (show (d.leading.natAbs : Int) = _ by omega)
  have hne : d.digits ≠ [] := Nat.toDigits_ne_nil
  have hexponent : d.exponent = d.leading - (d.digits.length - 1 : Nat) := by
    have : 0 < d.digits.length := Nat.length_toDigits_pos
    unfold leading
    omega
  unfold scientific significand bits
  rw [← hvalue, hexponent]
  generalize 'e' :: exponentText d.leading = exponent at *
  generalize d.digits = ds at *
  split
  · exact absurd rfl hne
  · exact ⟨[_], [], [], exponent, _, ⟨.inl rfl, hdigits, List.forall_mem_nil _, by simp,
      .inr ⟨rfl, rfl⟩⟩, hpower, rfl, rfl⟩
  · next c cs _ =>
    obtain ⟨hc, hcs⟩ := List.forall_mem_cons.mp hdigits
    exact ⟨[c], ['.'], cs, exponent, _, ⟨.inl rfl, List.forall_mem_singleton.mpr hc, hcs, by simp,
      .inl rfl⟩, hpower, by simp, rfl⟩

section

variable {d : Decimal} {g : Nat}

theorem not_below_of_leading (hne : d.coefficient ≠ 0) (hg : g ≤ d.leading) :
    ¬ Below (d.coefficient * power 10 d.exponent) (power 10 (-d.exponent)) g := by
  have hlow : 10 ^ (d.digits.length - 1) ≤ d.coefficient := by
    by_cases hone : d.digits.length = 1
    · rw [hone]
      exact Nat.pos_of_ne_zero hne
    · refine Nat.not_lt.mp fun hlt => ?_
      have hlength : 0 < d.digits.length := Nat.length_toDigits_pos
      have hle : d.digits.length ≤ d.digits.length - 1 :=
        (Nat.length_toDigits_le_iff (by decide) (by omega)).mpr hlt
      omega
  unfold leading at hg
  refine Nat.not_lt.mpr ?_
  rw [power_of_nonpos (show -(g : Int) ≤ 0 by omega), Nat.mul_one]
  calc power 10 (-d.exponent) * power 2 g
      ≤ 10 ^ (-d.exponent).toNat * 10 ^ g :=
        Nat.mul_le_mul_left _ (Nat.pow_le_pow_left (by decide) g)
    _ ≤ 10 ^ (d.digits.length - 1) * 10 ^ d.exponent.toNat := by
        rw [← Nat.pow_add, ← Nat.pow_add]
        exact Nat.pow_le_pow_right (by decide) (by omega)
    _ ≤ d.coefficient * power 10 d.exponent := Nat.mul_le_mul_right _ hlow

theorem below_of_leading (hg : d.leading < -g) :
    Below (d.coefficient * power 10 d.exponent) (power 10 (-d.exponent)) (-g) := by
  have hhigh : d.coefficient < 10 ^ d.digits.length :=
    (Nat.length_toDigits_le_iff (by decide) Nat.length_toDigits_pos).mp (Nat.le_refl _)
  unfold leading at hg
  show _ * power 2 (- -(g : Int)) < _
  rw [Int.neg_neg, power_of_nonpos (show -(g : Int) ≤ 0 by omega), Nat.mul_one, Nat.mul_assoc]
  calc d.coefficient * (power 10 d.exponent * power 2 g)
      < 10 ^ d.digits.length * (power 10 d.exponent * power 2 g) :=
        Nat.mul_lt_mul_of_pos_right hhigh
          (Nat.mul_pos (power_pos (by decide) _) (power_pos (by decide) _))
    _ ≤ 10 ^ d.digits.length * (10 ^ d.exponent.toNat * 10 ^ g) :=
        Nat.mul_le_mul_left _ (Nat.mul_le_mul_left _ (Nat.pow_le_pow_left (by decide) g))
    _ ≤ 10 ^ (-d.exponent).toNat := by
        rw [← Nat.pow_add, ← Nat.pow_add]
        exact Nat.pow_le_pow_right (by decide) (by omega)

/-- Where the pattern is that of a number other than zero, the power of ten of the first digit is
small. -/
theorem natAbs_leading_lt (hzero : d.bits ≠ 0) (hfinite : d.bits ≠ infinityBits) :
    d.leading.natAbs < 0x10000 := by
  have hne : d.coefficient ≠ 0 := fun h => hzero (by rw [bits, h]; rfl)
  have hpos (e : Int) : power 10 e ≠ 0 := Nat.ne_of_gt (power_pos (by decide) e)
  rw [bits, decimalBits_eq] at hzero hfinite
  have hbelow : d.leading < 1024 := Int.not_le.mp fun hle =>
    hfinite <| nearestBits_large (Nat.mul_ne_zero hne (hpos _)) (hpos _)
      (not_below_of_leading hne hle)
  have habove : -1075 ≤ d.leading := Int.not_lt.mp fun hlt =>
    hzero (nearestBits_small (hpos _) (below_of_leading hlt))
  omega

end

/-! ## The shortest decimal -/

theorem bits_stripZeros (n : Nat) (d : Decimal) : (d.stripZeros n).bits = d.bits := by
  fun_induction stripZeros n d with
  | case1 => rfl
  | case2 fuel d h ih =>
    have hten : d.coefficient / 10 * 10 ^ 1 = d.coefficient :=
      Nat.div_mul_cancel (Nat.dvd_of_mod_eq_zero (by simp at h; exact h.1))
    rw [ih, bits, bits, ← hten, decimalBits_mul_pow, hten]
    rfl
  | case3 => rfl

theorem bits_exact (m : Nat) (e : Int) :
    (exact m e).bits = nearestBits (m * power 2 e) (power 2 (-e)) := by
  unfold exact
  split
  · next he =>
    rw [power_of_nonpos (show -e ≤ 0 by omega)]
    exact decimalBits_whole _
  · next he =>
    have hten : power 10 (-e) = power 5 (-e) * power 2 (-e) := Nat.mul_pow 5 2 _
    have hne : power 2 (-e) ≠ 0 := Nat.ne_of_gt (power_pos (by decide) _)
    refine (decimalBits_eq _ _).trans ?_
    rw [power_of_nonpos (show e ≤ 0 by omega), power_of_nonpos (show e ≤ 0 by omega), hten,
      Nat.mul_one, Nat.mul_one, Nat.mul_comm m, nearestBits_mul (power_pos (by decide) _) hne]

end Decimal

section

variable {tie : Tie} {num den bits : Nat} {place : Int} {found : Decimal}

theorem bits_of_onGrid? (h : onGrid? tie num den bits place = some found) : found.bits = bits := by
  unfold onGrid? at h
  dsimp only at h
  split at h
  · next hlow =>
    cases h
    exact beq_iff_eq.mp (Bool.and_eq_true_iff.mp hlow).1
  split at h
  · next hhigh =>
    cases h
    exact beq_iff_eq.mp hhigh
  · cases h

theorem bits_of_firstGrid? {fuel : Nat} (h : firstGrid? tie num den bits fuel place = some found) :
    found.bits = bits := by
  induction fuel generalizing place with
  | zero => cases h
  | succ fuel ih =>
    rw [firstGrid?] at h
    cases hgrid : onGrid? tie num den bits place with
    | none =>
      rw [hgrid] at h
      exact ih h
    | some decimal =>
      rw [hgrid] at h
      cases h
      exact bits_of_onGrid? hgrid

theorem bits_shortest (tie : Tie) (d : Dyadic) :
    (shortest tie d).bits = nearestBits d.ratio.1 d.ratio.2 := by
  unfold shortest
  dsimp only
  split
  · next found hfound =>
    rw [Decimal.bits_stripZeros]
    exact bits_of_firstGrid? hfound
  · exact Decimal.bits_exact _ _

end

/-! ## Doubles and their patterns -/

theorem toBits_inj (h : x.toBits.toNat = y.toBits.toNat) : x = y := by
  obtain ⟨⟨a, ha⟩⟩ := x
  obtain ⟨⟨b, hb⟩⟩ := y
  obtain rfl : a = b := UInt64.toNat_inj.mp h
  rfl

theorem ofPattern_ratio (h : Dyadic.ofFloat? x = some d) :
    ofPattern d.negative (nearestBits d.ratio.1 d.ratio.2) = x := by
  obtain ⟨hsign, hbits, -⟩ := ofFloat?_spec h
  refine toBits_inj ?_
  rw [toNat_toBits_ofPattern _ (nearestBits_le _ _), hbits, hsign, magnitudeBits, isNegative,
    signBit]
  have := x.toBits.toNat_lt
  simp only [decide_eq_true_eq]
  split <;> omega

theorem isFinite_iff : x.isFinite = true ↔ ∃ d, Dyadic.ofFloat? x = some d := by
  show x.toModel.unpack.isFinite = true ↔ _
  cases seen x with
  | finite hx hd | zero hx hd =>
    rw [hx, hd]
    exact ⟨fun _ => ⟨_, rfl⟩, fun _ => rfl⟩
  | infinity hx hd | notANumber hx hd =>
    rw [hx, hd]
    constructor
    · intro h
      cases h
    · rintro ⟨d, h⟩
      cases h

/-! ## Reading texts of numbers -/

theorem wholeLimit_bounds (negative : Bool) :
    2 ^ 63 ≤ wholeLimit negative + 1 ∧ wholeLimit negative ≤ 2 ^ 63 := by
  cases negative <;> decide

/-- A number that is written as the end of the signed 64-bit range. -/
def IsCutOff (x : Float) : Prop :=
  ∃ d n, Dyadic.ofFloat? x = some d ∧ d.whole? = some n ∧ 2 ^ 63 ≤ n ∧ n < 10 ^ 21

theorem ratio_of_whole? {n : Nat} (h : d.whole? = some n) : d.ratio.1 = d.ratio.2 * n := by
  unfold Dyadic.whole? at h
  dsimp only at h
  split at h
  · next hmod =>
    cases h
    exact (Nat.mul_div_cancel' (Nat.dvd_of_mod_eq_zero (beq_iff_eq.mp hmod))).symm
  · cases h

theorem IsCutOff.mantissa_ne (h : IsCutOff x) (hd : Dyadic.ofFloat? x = some d) :
    d.mantissa ≠ 0 := by
  obtain ⟨d', n, hd', hn, hlow, -⟩ := h
  cases hd.symm.trans hd'
  intro hm
  have hratio := ratio_of_whole? hn
  have hpos := Nat.mul_pos (power_pos (b := 2) (by decide) (-d.exponent)) (show 0 < n by omega)
  rw [Dyadic.ratio, hm, Nat.zero_mul] at hratio
  exact Nat.ne_of_lt hpos hratio

theorem denotes_scriptDigits (h : Dyadic.ofFloat? x = some d) (hzero : d.mantissa ≠ 0)
    (hcut : ¬ IsCutOff x) : Denotes (scriptDigits d) (nearestBits d.ratio.1 d.ratio.2) := by
  have hbits := bits_shortest .larger d
  have hpositional := (shortest .larger d).denotes_positional
  have hscientific : Denotes (shortest .larger d).scientific (shortest .larger d).bits := by
    obtain ⟨-, hsame, hfinite, hnonzero⟩ := ofFloat?_spec h
    rw [← hsame, ← hbits] at hfinite hnonzero
    exact Decimal.denotes_scientific
      (Decimal.natAbs_leading_lt (mt hnonzero hzero) (Nat.ne_of_lt hfinite))
  rw [hbits] at hpositional hscientific
  unfold scriptDigits
  dsimp only
  split
  · next n hn =>
    split
    · next hlt =>
      have hle : n ≤ wholeLimit d.negative := by
        have hsmall : n < 2 ^ 63 := Nat.not_le.mp fun hle => hcut ⟨d, n, h, hn, hle, hlt⟩
        have := wholeLimit_bounds d.negative
        omega
      have hwhole := denotes_whole (areDigits_toDigits n) Nat.toDigits_ne_nil
      have hden : 0 < d.ratio.2 := power_pos (by decide) _
      rw [digitsValue_toDigits, decimalBits_whole, ← nearestBits_mul hden (by decide), Nat.mul_one,
        ← ratio_of_whole? hn] at hwhole
      rwa [Nat.min_eq_left hle]
    · exact hscientific
  · split
    · exact hscientific
    · exact hpositional

theorem text_eq (h : Dyadic.ofFloat? x = some d) (hzero : d.mantissa ≠ 0) :
    text x = String.ofList (signText d.negative ++ scriptDigits d) := by
  simp [text, h, hzero]

theorem ofFloat?_zero (s : Bool) : Dyadic.ofFloat? (zero s) = some ⟨s, 0, -1074⟩ := by
  cases s <;> decide +kernel

theorem text_zero (s : Bool) : text (zero s) = "0" := by
  simp [text, ofFloat?_zero]

theorem not_isCutOff_zero (s : Bool) : ¬ IsCutOff (zero s) := by
  intro h
  exact h.mantissa_ne (ofFloat?_zero s) rfl

theorem ofText_text (hx : x.isFinite = true) (hzero : ∀ s, x ≠ zero s) (hcut : ¬ IsCutOff x) :
    ofText (text x) = x := by
  obtain ⟨d, hd⟩ := isFinite_iff.mp hx
  have hmantissa : d.mantissa ≠ 0 := by
    intro hm
    refine hzero d.negative ?_
    rw [← ofPattern_ratio hd, Dyadic.ratio, hm, Nat.zero_mul]
    rfl
  rw [text_eq hd hmantissa, (denotes_scriptDigits hd hmantissa hcut).ofText_eq, ofPattern_ratio hd]

theorem text_of_isCutOff (h : IsCutOff x) : text x =
    String.ofList (signText (isNegative x) ++ Nat.toDigits 10 (wholeLimit (isNegative x))) := by
  obtain ⟨d, n, hd, hn, hlow, hhigh⟩ := id h
  rw [text_eq hd (h.mantissa_ne hd), scriptDigits, hn, (ofFloat?_spec hd).1]
  show String.ofList (_ ++ ite (n < 10 ^ 21) _ _) = _
  rw [if_pos hhigh, Nat.min_eq_right (Nat.le_trans (wholeLimit_bounds _).2 hlow)]

theorem ofText_wholeLimit (s : Bool) :
    ofText (String.ofList (signText s ++ Nat.toDigits 10 (wholeLimit s))) =
      nearest s (2 ^ 63) 1 := by
  cases s <;> rfl

theorem isCutOff_limit (s : Bool) : IsCutOff (nearest s (2 ^ 63) 1) := by
  exact ⟨⟨s, 2 ^ 52, 11⟩, 2 ^ 63, by cases s <;> decide +kernel, by cases s <;> decide +kernel,
    by decide, by decide⟩

/-- The text of a finite number is read as the number itself, unless it is a zero or its magnitude
is `2 ^ 63` or more and below `10 ^ 21`: then it is read as `2 ^ 63` with its sign.  Different
numbers have the same text, and so name the same property, if they are zeros or such numbers of one
sign. -/
theorem texts_of_numbers (r : Realm) (hx : x.isFinite = true) (hy : y.isFinite = true) :
    (∀ s, x = zero s → ofText (text x) = zero false) ∧
    ((∀ s, x ≠ zero s) → ¬ IsCutOff x → ofText (text x) = x) ∧
    (IsCutOff x → ofText (text x) = nearest (isNegative x) (2 ^ 63) 1) ∧
    (r.toText (.number x) = r.toText (.number y) ↔
      x = y ∨ (∃ s t, x = zero s ∧ y = zero t) ∨
        IsCutOff x ∧ IsCutOff y ∧ isNegative x = isNegative y) := by
  have htext (z : Float) : r.toText (.number z) = text z := by
    rfl
  have hzeros (s : Bool) : ofText (text (zero s)) = zero false := by
    rw [text_zero]
    rfl
  have hcuts {z : Float} (h : IsCutOff z) :
      ofText (text z) = nearest (isNegative z) (2 ^ 63) 1 := by
    rw [text_of_isCutOff h, ofText_wholeLimit]
  -- what is read back is of the same kind
  have hkind {z : Float} (hz : z.isFinite = true) :
      (IsCutOff (ofText (text z)) ↔ IsCutOff z) ∧
        ((∃ s, ofText (text z) = zero s) ↔ ∃ s, z = zero s) := by
    have hdisjoint {z : Float} (h : IsCutOff z) : ¬ ∃ s, z = zero s := by
      rintro ⟨s, rfl⟩
      exact not_isCutOff_zero s h
    by_cases hcut : IsCutOff z
    · rw [hcuts hcut]
      exact ⟨iff_of_true (isCutOff_limit _) hcut,
        iff_of_false (hdisjoint (isCutOff_limit _)) (hdisjoint hcut)⟩
    by_cases hzero : ∃ s, z = zero s
    · obtain ⟨s, rfl⟩ := hzero
      rw [hzeros]
      exact ⟨iff_of_false (not_isCutOff_zero _) hcut, iff_of_true ⟨_, rfl⟩ ⟨s, rfl⟩⟩
    · rw [ofText_text hz (not_exists.mp hzero) hcut]
      exact ⟨Iff.rfl, Iff.rfl⟩
  refine ⟨fun s h => h ▸ hzeros s, ofText_text hx, hcuts, ?_⟩
  rw [htext, htext]
  constructor
  · intro h
    have hread := congrArg ofText h
    have hcut : IsCutOff x ↔ IsCutOff y := by rw [← (hkind hx).1, hread, (hkind hy).1]
    have hzero : (∃ s, x = zero s) ↔ ∃ s, y = zero s := by
      rw [← (hkind hx).2, hread, (hkind hy).2]
    by_cases hxc : IsCutOff x
    · have hyc := hcut.mp hxc
      have hlimit (s : Bool) : isNegative (nearest s (2 ^ 63) 1) = s := by
        cases s <;> decide +kernel
      rw [hcuts hxc, hcuts hyc] at hread
      have hsign := congrArg isNegative hread
      rw [hlimit, hlimit] at hsign
      exact .inr (.inr ⟨hxc, hyc, hsign⟩)
    by_cases hxz : ∃ s, x = zero s
    · obtain ⟨t, ht⟩ := hzero.mp hxz
      obtain ⟨s, hs⟩ := hxz
      exact .inr (.inl ⟨s, t, hs, ht⟩)
    · rw [ofText_text hx (not_exists.mp hxz) hxc,
        ofText_text hy (not_exists.mp (mt hzero.mpr hxz)) (mt hcut.mpr hxc)] at hread
      exact .inl hread
  · rintro (rfl | ⟨s, t, rfl, rfl⟩ | ⟨hxc, hyc, hsign⟩)
    · rfl
    · rw [text_zero, text_zero]
    · rw [text_of_isCutOff hxc, text_of_isCutOff hyc, hsign]

theorem text_tenth : ofText (text (ofDecimal false 1 (-1))) = ofDecimal false 1 (-1) := by
  have hd : Dyadic.ofFloat? (ofDecimal false 1 (-1)) = some ⟨false, 7205759403792794, -56⟩ := by
    decide +kernel
  refine (texts_of_numbers default (isFinite_iff.mpr ⟨_, hd⟩) (isFinite_iff.mpr ⟨_, hd⟩)).2.1 ?_ ?_
  · intro s h
    rw [h, ofFloat?_zero] at hd
    cases hd
  · rintro ⟨d, n, hd', hn, -⟩
    cases hd.symm.trans hd'
    cases hn

/-- The texts of `1e20` and `2e20` are the same, and are read as neither. -/
theorem text_hundredQuintillion : text (ofDecimal false 1 20) = "9223372036854775807" ∧
    text (ofDecimal false 2 20) = "9223372036854775807" ∧
    (ofText "9223372036854775807" == ofDecimal false 1 20) = false := by
  decide +kernel

end TreeScript.Number
