import Mathlib.Algebra.Group.Nat.Defs
import TreeScript.Number.Shortest

/-!
# Rounding as a function of the exact value

`nearestBits` is given a fraction, and `decimalBits` a whole number and a power of ten.  What they
make of these depends only on the number that is meant: a fraction can be expanded, and a decimal
written with more zeros.  A double that is taken apart is put together again.
-/

namespace TreeScript.Number

/-! ## Powers -/

theorem power_natCast (b k : Nat) : power b k = Nat.pow b k := rfl

theorem power_of_nonpos {b : Nat} {e : Int} (h : e ≤ 0) : power b e = 1 := by
  rw [power, Int.toNat_of_nonpos h]
  rfl

theorem power_pos {b : Nat} (hb : 0 < b) (e : Int) : 0 < power b e := Nat.pow_pos hb

theorem power_le {b : Nat} (hb : 0 < b) {e e' : Int} (h : e ≤ e') : power b e ≤ power b e' :=
  Nat.pow_le_pow_right hb (Int.toNat_le_toNat h)

theorem power_add (b : Nat) {e : Int} (he : 0 ≤ e) (k : Nat) :
    power b (e + k) = power b e * b ^ k := by
  have hexponent : (e + k).toNat = e.toNat + k := by omega
  show b ^ (e + k).toNat = _
  rw [hexponent, Nat.pow_add]
  rfl

variable {num den : Nat} {g lead : Int}

/-! ## The leading bit -/

def Below (num den : Nat) (g : Int) : Prop := num * power 2 (-g) < den * power 2 g

instance : Decidable (Below num den g) := inferInstanceAs (Decidable (_ < _))

theorem Below.mono {g' : Int} (h : Below num den g) (hle : g ≤ g') : Below num den g' := by
  have hnum := Nat.mul_le_mul_left num (power_le (b := 2) (by decide) (Int.neg_le_neg hle))
  have hden := Nat.mul_le_mul_left den (power_le (b := 2) (by decide) hle)
  exact Nat.lt_of_le_of_lt hnum (Nat.lt_of_lt_of_le h hden)

/-- The power of two of the leading bit, which can be one less than the sizes tell. -/
def leadOf (num den : Nat) : Int :=
  if Below num den ((num.log2 : Int) - den.log2) then (num.log2 : Int) - den.log2 - 1
  else (num.log2 : Int) - den.log2

section

variable {k l : Nat}

theorem pow_mul_power (k l : Nat) :
    2 ^ k * power 2 (-((k : Int) - l)) = 2 ^ l * power 2 ((k : Int) - l) := by
  show 2 ^ k * 2 ^ _ = 2 ^ l * 2 ^ _
  rw [← Nat.pow_add, ← Nat.pow_add]
  congr 1
  omega

theorem below_of_lt (hnum : num < 2 ^ k) (hden : 2 ^ l ≤ den) : Below num den ((k : Int) - l) := by
  have hlt := Nat.mul_lt_mul_of_pos_right hnum (power_pos (b := 2) (by decide) (-((k : Int) - l)))
  rw [pow_mul_power] at hlt
  exact Nat.lt_of_lt_of_le hlt (Nat.mul_le_mul_right _ hden)

theorem not_below_of_le (hnum : 2 ^ k ≤ num) (hden : den ≤ 2 ^ l) :
    ¬ Below num den ((k : Int) - l) := by
  have hle := Nat.mul_le_mul_right (power 2 (-((k : Int) - l))) hnum
  rw [pow_mul_power] at hle
  exact Nat.not_lt.mpr (Nat.le_trans (Nat.mul_le_mul_right _ hden) hle)

end

theorem below_leadOf (hnum : num ≠ 0) (hden : den ≠ 0) :
    ¬ Below num den (leadOf num den) ∧ Below num den (leadOf num den + 1) := by
  have hlow : ¬ Below num den ((num.log2 : Int) - (den.log2 + 1 : Nat)) :=
    not_below_of_le (Nat.log2_self_le hnum) (Nat.le_of_lt Nat.lt_log2_self)
  have hhigh : Below num den ((num.log2 + 1 : Nat) - (den.log2 : Int)) :=
    below_of_lt Nat.lt_log2_self (Nat.log2_self_le hden)
  unfold leadOf
  split
  · next h =>
    rw [Int.sub_add_cancel]
    exact ⟨fun hb => hlow (hb.mono (by omega)), h⟩
  · next h => exact ⟨h, hhigh.mono (by omega)⟩

theorem leadOf_eq (hnum : num ≠ 0) (hden : den ≠ 0) (hlow : ¬ Below num den lead)
    (hhigh : Below num den (lead + 1)) : leadOf num den = lead := by
  obtain ⟨hlow', hhigh'⟩ := below_leadOf hnum hden
  have hle : leadOf num den ≤ lead := Int.not_lt.mp fun h => hlow' (hhigh.mono h)
  have hge : lead ≤ leadOf num den := Int.not_lt.mp fun h => hlow (hhigh'.mono h)
  omega

/-! ## Rounding -/

def halfEven (n d : Nat) : Nat :=
  if d < 2 * (n % d) || (2 * (n % d) == d && n / d % 2 == 1) then n / d + 1 else n / d

theorem div_le_halfEven (n d : Nat) : n / d ≤ halfEven n d := by
  unfold halfEven
  split
  · exact Nat.le_succ _
  · exact Nat.le_refl _

theorem halfEven_mul {k : Nat} (hk : 0 < k) (n d : Nat) :
    halfEven (k * n) (k * d) = halfEven n d := by
  have htie : (k * (2 * (n % d)) == k * d) = (2 * (n % d) == d) := by
    rw [Bool.eq_iff_iff, beq_iff_eq, beq_iff_eq, Nat.mul_right_inj (Nat.ne_of_gt hk)]
  unfold halfEven
  rw [Nat.mul_div_mul_left _ _ hk, Nat.mul_mod_mul_left, Nat.mul_left_comm 2, htie]
  simp only [Nat.mul_lt_mul_left hk]

theorem halfEven_exact (m : Nat) {d : Nat} (hd : 0 < d) : halfEven (m * d) d = m := by
  have hzero : (0 == d) = false := beq_eq_false_iff_ne.mpr (Nat.ne_of_lt hd)
  simp [halfEven, Nat.mul_div_cancel m hd, hzero]

theorem halfEven_small {n d : Nat} (h : 2 * n < d) : halfEven n d = 0 := by
  have hlt : n < d := by omega
  have htie : (2 * n == d) = false := beq_eq_false_iff_ne.mpr (Nat.ne_of_lt h)
  simp [halfEven, Nat.mod_eq_of_lt hlt, Nat.div_eq_of_lt hlt, htie, Nat.le_of_lt h]

/-- The pattern of a fraction that is rounded to a whole number of `2 ^ unit`. -/
def roundAt (num den : Nat) (unit : Int) : Nat :=
  min ((unit + 1074).toNat * fractionWeight + halfEven (num * power 2 (-unit)) (den * power 2 unit))
    infinityBits

theorem nearestBits_eq (hnum : num ≠ 0) :
    nearestBits num den = roundAt num den (max (leadOf num den - 52) (-1074)) := by
  unfold nearestBits
  rw [if_neg (by simpa using hnum)]
  rfl

theorem nearestBits_zero (den : Nat) : nearestBits 0 den = 0 := rfl

/-- Rounding depends on the value of a fraction alone. -/
theorem nearestBits_mul {k : Nat} (hk : 0 < k) (hden : den ≠ 0) :
    nearestBits (k * num) (k * den) = nearestBits num den := by
  by_cases hnum : num = 0
  · rw [hnum, Nat.mul_zero, nearestBits_zero, nearestBits_zero]
  have hbelow (g : Int) : Below (k * num) (k * den) g ↔ Below num den g := by
    unfold Below
    rw [Nat.mul_assoc, Nat.mul_assoc, Nat.mul_lt_mul_left hk]
  have hnum' : k * num ≠ 0 := Nat.mul_ne_zero (Nat.ne_of_gt hk) hnum
  obtain ⟨hlow, hhigh⟩ := below_leadOf hnum hden
  have hlead : leadOf (k * num) (k * den) = leadOf num den :=
    leadOf_eq hnum' (Nat.mul_ne_zero (Nat.ne_of_gt hk) hden) (mt (hbelow _).mp hlow)
      ((hbelow _).mpr hhigh)
  rw [nearestBits_eq hnum', nearestBits_eq hnum, hlead, roundAt, Nat.mul_assoc, Nat.mul_assoc,
    halfEven_mul hk]
  rfl

theorem nearestBits_large (hnum : num ≠ 0) (hden : den ≠ 0) (h : ¬ Below num den 1024) :
    nearestBits num den = infinityBits := by
  obtain ⟨hlow, hhigh⟩ := below_leadOf hnum hden
  have hlead : 1024 ≤ leadOf num den := Int.not_lt.mp fun hlt => h (hhigh.mono hlt)
  rw [nearestBits_eq hnum, Int.max_eq_left (by omega)]
  generalize leadOf num den = lead at *
  have hden : 0 < den * power 2 (lead - 52) :=
    Nat.mul_pos (Nat.pos_of_ne_zero hden) (power_pos (by decide) _)
  have hpow := power_add 2 (show 0 ≤ lead - 52 by omega) 52
  rw [show lead - 52 + (52 : Nat) = lead by omega] at hpow
  have hle := Nat.not_lt.mp hlow
  rw [power_of_nonpos (show -lead ≤ 0 by omega), hpow, ← Nat.mul_assoc,
    Nat.mul_comm _ (2 ^ 52)] at hle
  have hmantissa : fractionWeight ≤
      halfEven (num * power 2 (-(lead - 52))) (den * power 2 (lead - 52)) := by
    rw [power_of_nonpos (show -(lead - 52) ≤ 0 by omega)]
    exact Nat.le_trans ((Nat.le_div_iff_mul_le hden).mpr hle) (div_le_halfEven _ _)
  have hfield := Nat.mul_le_mul_right fractionWeight (show 2046 ≤ (lead - 52 + 1074).toNat by omega)
  refine Nat.min_eq_right ?_
  exact Nat.add_le_add hfield hmantissa

theorem below_half {g : Int} (hg : g ≤ 0) (h : Below num den (g - 1)) :
    2 * (num * power 2 (-g)) < den * power 2 g := by
  have hpow := power_add 2 (Int.neg_nonneg_of_nonpos hg) 1
  rw [show -g + (1 : Nat) = -(g - 1) by omega, Nat.pow_one] at hpow
  rw [Below, hpow, ← Nat.mul_assoc, Nat.mul_comm _ 2,
    power_of_nonpos (show g - 1 ≤ 0 by omega)] at h
  rwa [power_of_nonpos hg]

theorem nearestBits_small (hden : den ≠ 0) (h : Below num den (-1075)) :
    nearestBits num den = 0 := by
  by_cases hnum : num = 0
  · rw [hnum, nearestBits_zero]
  have hlead : leadOf num den ≤ -1076 :=
    Int.not_lt.mp fun hlt => (below_leadOf hnum hden).1 (h.mono hlt)
  have hbelow : Below num den (-1074 - 1) := by rwa [show (-1074 - 1 : Int) = -1075 by omega]
  rw [nearestBits_eq hnum, Int.max_eq_right (by omega), roundAt,
    halfEven_small (below_half (by omega) hbelow)]
  rfl

theorem nearestBits_dyadic {d : Dyadic} (hzero : d.mantissa ≠ 0)
    (hfits : d.mantissa < 2 * fractionWeight) (he : -1074 ≤ d.exponent)
    (hlead : d.exponent = -1074 ∨ fractionWeight ≤ d.mantissa) :
    nearestBits d.ratio.1 d.ratio.2 =
      min ((d.exponent + 1074).toNat * fractionWeight + d.mantissa) infinityBits := by
  obtain ⟨s, m, e⟩ := d
  dsimp only at hzero hfits he hlead
  have hratio : Dyadic.ratio ⟨s, m, e⟩ = (m * power 2 e, power 2 (-e)) := rfl
  have hpos (e : Int) : 0 < power 2 e := power_pos (by decide) e
  have hnum : m * power 2 e ≠ 0 := Nat.mul_ne_zero hzero (Nat.ne_of_gt (hpos e))
  have hhigh : Below (m * power 2 e) (power 2 (-e)) (e + 53) := by
    have hlt : m * power 2 e < 2 ^ (53 + e.toNat) := by
      rw [Nat.pow_add]
      exact Nat.mul_lt_mul_of_pos_right hfits (hpos e)
    have h := below_of_lt (l := (-e).toNat) hlt (Nat.le_refl _)
    rwa [show ((53 + e.toNat : Nat) : Int) - (-e).toNat = e + 53 by omega] at h
  have hlow (hle : fractionWeight ≤ m) : ¬ Below (m * power 2 e) (power 2 (-e)) (e + 52) := by
    have hle : 2 ^ (52 + e.toNat) ≤ m * power 2 e := by
      rw [Nat.pow_add]
      exact Nat.mul_le_mul_right _ hle
    have h := not_below_of_le (l := (-e).toNat) hle (Nat.le_refl _)
    rwa [show ((52 + e.toNat : Nat) : Int) - (-e).toNat = e + 52 by omega] at h
  obtain ⟨hlow', hhigh'⟩ := below_leadOf hnum (Nat.ne_of_gt (hpos (-e)))
  have hunit : max (leadOf (m * power 2 e) (power 2 (-e)) - 52) (-1074) = e := by
    have hle : leadOf (m * power 2 e) (power 2 (-e)) < e + 53 :=
      Int.not_le.mp fun hle => hlow' (hhigh.mono hle)
    rcases hlead with rfl | hm
    · omega
    · have hge : e + 52 < leadOf (m * power 2 e) (power 2 (-e)) + 1 :=
        Int.not_le.mp fun hle => hlow hm (hhigh'.mono hle)
      omega
  rw [hratio, nearestBits_eq hnum, hunit, roundAt, Nat.mul_assoc, Nat.mul_comm (power 2 (-e)),
    halfEven_exact m (Nat.mul_pos (hpos e) (hpos (-e)))]

theorem ofFloat?_spec {x : Float} {d : Dyadic} (h : Dyadic.ofFloat? x = some d) :
    d.negative = isNegative x ∧ nearestBits d.ratio.1 d.ratio.2 = magnitudeBits x ∧
      magnitudeBits x < infinityBits ∧ (magnitudeBits x = 0 → d.mantissa = 0) := by
  have hbits := Nat.div_add_mod' (magnitudeBits x) fractionWeight
  have hfraction := Nat.mod_lt (magnitudeBits x) (show 0 < fractionWeight by decide)
  have hfield : magnitudeBits x / fractionWeight < 2048 :=
    Nat.div_lt_of_lt_mul (Nat.mod_lt x.toBits.toNat (by decide))
  have hinfinity : infinityBits = 2046 * fractionWeight + fractionWeight := by decide
  unfold Dyadic.ofFloat? at h
  dsimp only at h
  generalize magnitudeBits x / fractionWeight = field at *
  generalize magnitudeBits x % fractionWeight = fraction at *
  split at h
  · cases h
  next hfinite =>
  have hfinite : field ≠ 2047 := by simpa using hfinite
  have hmul := Nat.mul_le_mul_right fractionWeight (show field ≤ 2046 by omega)
  rw [← hbits]
  split at h
  · next hsubnormal =>
    obtain rfl : field = 0 := by simpa using hsubnormal
    cases h
    refine ⟨rfl, ?_, by omega, fun h => show fraction = 0 by omega⟩
    by_cases hm : fraction = 0
    · rw [hm]
      exact nearestBits_zero _
    · rw [nearestBits_dyadic hm (show fraction < _ by omega) (Int.le_refl _) (.inl rfl)]
      exact Nat.min_eq_left (show 0 * fractionWeight + fraction ≤ _ by omega)
  · next hnormal =>
    have hnormal : field ≠ 0 := by simpa using hnormal
    have hone := Nat.mul_le_mul_right fractionWeight (show 1 ≤ field by omega)
    cases h
    refine ⟨rfl, ?_, by omega, fun h => by omega⟩
    rw [nearestBits_dyadic (show fractionWeight + fraction ≠ 0 by omega)
      (show fractionWeight + fraction < _ by omega) (show -1074 ≤ (field : Int) - 1075 by omega)
      (.inr (Nat.le_add_right ..))]
    show min (((field : Int) - 1075 + 1074).toNat * _ + (fractionWeight + fraction)) _ = _
    rw [show ((field : Int) - 1075 + 1074).toNat = field - 1 by omega, Nat.sub_mul]
    omega

/-! ## Decimals -/

/-- A decimal reads as the double closest to its value, however far out of range it is. -/
theorem decimalBits_eq (coefficient : Nat) (exponent : Int) :
    decimalBits coefficient exponent =
      nearestBits (coefficient * power 10 exponent) (power 10 (-exponent)) := by
  by_cases hc : coefficient = 0
  · rw [hc, Nat.zero_mul, nearestBits_zero]
    rfl
  have hden : power 10 (-exponent) ≠ 0 := Nat.ne_of_gt (power_pos (by decide) _)
  unfold decimalBits
  rw [if_neg (by simpa using hc)]
  split
  · next hlarge =>
    refine (nearestBits_large (Nat.mul_ne_zero hc ?_) hden ?_).symm
    · exact Nat.ne_of_gt (power_pos (by decide) _)
    · refine not_below_of_le (l := 0) ?_ (Nat.le_of_eq (power_of_nonpos (by omega)))
      calc 2 ^ 1024 ≤ power 10 311 := by decide +kernel
        _ ≤ power 10 exponent := power_le (by decide) hlarge
        _ ≤ coefficient * power 10 exponent := Nat.le_mul_of_pos_left _ (Nat.pos_of_ne_zero hc)
  split
  · next hsmall =>
    refine (nearestBits_small hden ?_).symm
    rw [power_of_nonpos (show exponent ≤ 0 by omega), Nat.mul_one]
    have height : 2 ^ (3 * (-exponent).toNat) ≤ power 10 (-exponent) := by
      rw [Nat.pow_mul]
      exact Nat.pow_le_pow_left (by decide) _
    exact (below_of_lt Nat.lt_log2_self height).mono (by omega)
  · rfl

theorem decimalBits_whole (n : Nat) : decimalBits n 0 = nearestBits n 1 := by
  rw [decimalBits_eq, power_of_nonpos (by decide), power_of_nonpos (by decide), Nat.mul_one]

theorem decimalBits_mul_pow (coefficient k : Nat) (exponent : Int) :
    decimalBits (coefficient * 10 ^ k) exponent = decimalBits coefficient (exponent + k) := by
  have hnum : coefficient * 10 ^ k * power 10 exponent =
      10 ^ ((-exponent).toNat - (-(exponent + k)).toNat) *
        (coefficient * power 10 (exponent + k)) := by
    rw [Nat.mul_assoc, Nat.mul_left_comm (10 ^ _)]
    congr 1
    show 10 ^ k * 10 ^ _ = 10 ^ _ * 10 ^ _
    rw [← Nat.pow_add, ← Nat.pow_add]
    congr 1
    omega
  have hden : power 10 (-exponent) =
      10 ^ ((-exponent).toNat - (-(exponent + k)).toNat) * power 10 (-(exponent + k)) := by
    show 10 ^ _ = 10 ^ _ * 10 ^ _
    rw [← Nat.pow_add]
    congr 1
    omega
  rw [decimalBits_eq, decimalBits_eq, hnum, hden]
  exact nearestBits_mul (Nat.pow_pos (by decide)) (Nat.ne_of_gt (power_pos (by decide) _))

end TreeScript.Number
