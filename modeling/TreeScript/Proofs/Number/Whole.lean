import TreeScript.Number.Word
import TreeScript.Proofs.Number.Rounding

/-!
# Whole numbers as doubles

A whole number below `2 ^ 53` is a double exactly, so what `ofNat` makes of it gives it back.  The
patterns of bits that `nearestBits` makes are those of normal numbers, and a normal number keeps its
pattern when it becomes a double.

Numbers are compared as they stand apart from their patterns.  Doubles that are equal so have the
same exact value, and a double that equals a length is cut to it.
-/

namespace TreeScript.Number

open Float.Model (Format)
open Float.Model.UnpackedFloat

/-! ## Patterns of normal numbers -/

theorem toBitVec_ofBitVec (b : BitVec 1) : (Sign.ofBitVec b).toBitVec = b := by
  revert b
  decide

theorem packComponents_unpack (b : BitVec Format.binary64.numBits) :
    packComponents .binary64 (.ofBitVec (unpackSign b)) (unpackExponent b) (unpackMantissa b) =
      b := by
  show (Sign.ofBitVec (unpackSign b)).toBitVec ++ unpackExponent b ++ unpackMantissa b = b
  rw [toBitVec_ofBitVec]
  show b.extractLsb' 63 1 ++ b.extractLsb' 52 11 ++ b.extractLsb' 0 52 = b
  rw [BitVec.extractLsb'_append_extractLsb'_eq_extractLsb' (show 63 = 52 + 11 from rfl),
    BitVec.extractLsb'_append_extractLsb'_eq_extractLsb' (show 52 = 0 + 52 from rfl)]
  exact BitVec.extractLsb'_eq_self

theorem toNat_unpackExponent (b : BitVec Format.binary64.numBits) :
    (unpackExponent b).toNat = b.toNat / fractionWeight % 2048 := by
  show b.toNat >>> 52 % 2048 = _
  rw [Nat.shiftRight_eq_div_pow]
  rfl

theorem toNat_implicit (m : BitVec 52) : (1#1 ++ m).toNat = fractionWeight + m.toNat := by
  rw [BitVec.toNat_append, ← Nat.shiftLeft_add_eq_or_of_lt m.isLt]
  rfl

theorem log2_implicit (m : BitVec 52) : (1#1 ++ m).toNat.log2 = 52 := by
  have hlt := m.isLt
  rw [toNat_implicit, Nat.log2_eq_iff (by simp [fractionWeight])]
  simp only [fractionWeight]
  omega

variable {x : Float} {b : BitVec Format.binary64.numBits}

/-- The pattern of a normal number is that of the double it stands for. -/
theorem pack_unpack_of_normal (hzero : b.toNat / fractionWeight % 2048 ≠ 0)
    (hones : b.toNat / fractionWeight % 2048 ≠ 2047) :
    pack .binary64 (unpack .binary64 b) = b := by
  have hexponent := toNat_unpackExponent b
  have hne_ones : unpackExponent b ≠ -1#_ := by
    intro h
    rw [h] at hexponent
    exact hones hexponent.symm
  have hne_zero : unpackExponent b ≠ 0#_ := by
    intro h
    rw [h] at hexponent
    exact hzero hexponent.symm
  have hbiased : (((unpackExponent b).toNat : Int) -
      (Format.binary64.exponentBias + Format.binary64.mantissaBitsWithoutImplicit) +
      Format.binary64.exponentBias + Format.binary64.mantissaBitsWithoutImplicit).toNat =
        (unpackExponent b).toNat := by
    omega
  have hlt : (unpackExponent b).toNat + 1 < 2048 := by
    have := Nat.mod_lt (b.toNat / fractionWeight) (show 0 < 2048 by decide)
    omega
  have hpos : 0 < (1#1 ++ unpackMantissa b).toNat := by
    rw [toNat_implicit]
    exact Nat.add_pos_left (by decide) _
  have hunpack : unpack .binary64 b = .finite (.ofBitVec (unpackSign b))
      (1#1 ++ unpackMantissa b).toNat ((unpackExponent b).toNat -
        (Format.binary64.exponentBias + Format.binary64.mantissaBitsWithoutImplicit)) hpos :=
    (if_neg hne_ones).trans (if_neg hne_zero)
  have hmantissa : BitVec.ofNat 52 (1#1 ++ unpackMantissa b).toNat = unpackMantissa b := by
    rw [toNat_implicit]
    refine BitVec.eq_of_toNat_eq ?_
    rw [BitVec.toNat_ofNat]
    have hm : (unpackMantissa b).toNat < fractionWeight := (unpackMantissa b).isLt
    show (fractionWeight + _) % fractionWeight = _
    rw [Nat.add_mod_left, Nat.mod_eq_of_lt hm]
  rw [hunpack]
  refine (if_neg ?_).trans ((if_pos (congrArg (· + 1) (log2_implicit _))).trans ?_)
  · rw [hbiased]
    exact Nat.not_le_of_lt hlt
  · rw [hmantissa, hbiased, BitVec.ofNat_toNat, BitVec.setWidth_eq]
    exact packComponents_unpack b

theorem unpackMantissa_of_ones (h : b.toNat % 0x8000000000000000 ≤ infinityBits)
    (hones : unpackExponent b = -1#_) :
    unpackMantissa b = 0#_ := by
  have hexponent := toNat_unpackExponent b
  have hmantissa : (unpackMantissa b).toNat = b.toNat % fractionWeight := rfl
  rw [hones] at hexponent
  change 2047 = _ at hexponent
  refine BitVec.eq_of_toNat_eq (hmantissa.trans ?_)
  show _ = 0
  simp only [infinityBits, fractionWeight] at h hexponent ⊢
  omega

/-- Zeros, numbers below the normal ones and infinities keep their patterns, too. -/
theorem pack_unpack (h : b.toNat % 0x8000000000000000 ≤ infinityBits) :
    pack .binary64 (unpack .binary64 b) = b := by
  have hexponent := toNat_unpackExponent b
  by_cases hones : unpackExponent b = -1#_
  · have hm := unpackMantissa_of_ones h hones
    have hunpack : unpack .binary64 b = .infinity (.ofBitVec (unpackSign b)) :=
      (if_pos hones).trans (if_pos hm)
    have hpacked := packComponents_unpack b
    rw [hones, hm] at hpacked
    rw [hunpack]
    exact hpacked
  by_cases hzero : unpackExponent b = 0#_
  · have hpacked := packComponents_unpack b
    rw [hzero] at hpacked
    by_cases hm : unpackMantissa b = 0#_
    · have hunpack : unpack .binary64 b = .zero (.ofBitVec (unpackSign b)) :=
        (if_neg hones).trans ((if_pos hzero).trans (dif_pos hm))
      rw [hm] at hpacked
      rw [hunpack]
      exact hpacked
    · have hlt : (unpackMantissa b).toNat < 2 ^ 52 := (unpackMantissa b).isLt
      have hpos : 0 < (unpackMantissa b).toNat :=
        Nat.pos_of_ne_zero fun h => hm (BitVec.eq_of_toNat_eq h)
      have hunpack : unpack .binary64 b = .finite (.ofBitVec (unpackSign b))
          (unpackMantissa b).toNat (((unpackExponent b).toNat : Int) -
            (Format.binary64.exponentBias + Format.binary64.mantissaBitsWithoutImplicit) + 1)
          hpos :=
        (if_neg hones).trans ((if_pos hzero).trans (dif_neg hm))
      rw [hunpack, hzero]
      refine (if_neg ?_).trans ?_
      · have := (Nat.log2_lt (Nat.ne_of_gt hpos)).mpr hlt
        show ¬ (unpackMantissa b).toNat.log2 + 1 = 53
        omega
      · rw [BitVec.ofNat_toNat, BitVec.setWidth_eq]
        exact hpacked
  · refine pack_unpack_of_normal (fun h => hzero ?_) fun h => hones ?_
    · exact BitVec.eq_of_toNat_eq (hexponent.trans h)
    · exact BitVec.eq_of_toNat_eq (hexponent.trans h)

theorem signBit_eq (negative : Bool) :
    signBit negative = 0 ∨ signBit negative = 0x8000000000000000 := by
  cases negative
  · exact .inl rfl
  · exact .inr rfl

theorem toNat_toBits_ofPattern (negative : Bool) {m : Nat} (hm : m ≤ infinityBits) :
    (ofPattern negative m).toBits.toNat = signBit negative + m := by
  have hinfinity : infinityBits < 0x8000000000000000 := by decide
  have hsign := signBit_eq negative
  have hbits : (UInt64.ofNat (signBit negative + m)).toNat = signBit negative + m :=
    UInt64.toNat_ofNat_of_lt (show _ < 0x10000000000000000 by omega)
  have hsame : (ofPattern negative m).toBits = UInt64.ofNat (signBit negative + m) := by
    show UInt64.ofBitVec (pack .binary64 (unpack .binary64 _)) = _
    rw [pack_unpack]
    show (UInt64.ofNat (signBit negative + m)).toNat % _ ≤ _
    omega
  rw [hsame, hbits]

theorem nearestBits_le (num den : Nat) : nearestBits num den ≤ infinityBits := by
  unfold nearestBits
  split
  · exact Nat.zero_le _
  · exact Nat.min_le_right _ _

/-! ## Whole numbers -/

section

variable {n : Nat}

def mantissaOf (n : Nat) : Nat := n * Nat.pow 2 (52 - n.log2)

theorem log2_le (h : n < 0x20000000000000) : n.log2 ≤ 52 := by
  by_cases hn : n = 0
  · simp [hn]
  · exact Nat.le_of_lt_succ ((Nat.log2_lt hn).mpr h)

theorem mantissaOf_lt (h : n < 0x20000000000000) : mantissaOf n < 2 * fractionWeight := by
  have hlog := log2_le h
  have hn : n < Nat.pow 2 (n.log2 + 1) := Nat.lt_log2_self
  have hsplit : Nat.pow 2 (n.log2 + 1) * Nat.pow 2 (52 - n.log2) = 2 * fractionWeight := by
    show 2 ^ (n.log2 + 1) * 2 ^ (52 - n.log2) = 2 * fractionWeight
    rw [← Nat.pow_add, show n.log2 + 1 + (52 - n.log2) = 53 by omega]
    rfl
  rw [← hsplit]
  exact Nat.mul_lt_mul_of_pos_right hn (Nat.pow_pos (by decide))

theorem le_mantissaOf (hn : n ≠ 0) (h : n < 0x20000000000000) : fractionWeight ≤ mantissaOf n := by
  have hlog := log2_le h
  have hle : Nat.pow 2 n.log2 ≤ n := Nat.log2_self_le hn
  have hsplit : Nat.pow 2 n.log2 * Nat.pow 2 (52 - n.log2) = fractionWeight := by
    show 2 ^ n.log2 * 2 ^ (52 - n.log2) = fractionWeight
    rw [← Nat.pow_add, show n.log2 + (52 - n.log2) = 52 by omega]
    rfl
  rw [← hsplit]
  exact Nat.mul_le_mul_right _ hle

/-- A whole number as its mantissa and the power of two of the last bit. -/
theorem ratio_mantissaOf (h : n < 0x20000000000000) :
    Dyadic.ratio ⟨false, mantissaOf n, (n.log2 : Int) - 52⟩ =
      (mantissaOf n, Nat.pow 2 (52 - n.log2)) := by
  have hlog := log2_le h
  rw [Dyadic.ratio, power_of_nonpos (show (n.log2 : Int) - 52 ≤ 0 by omega), Nat.mul_one,
    show -((n.log2 : Int) - 52) = (52 - n.log2 : Nat) by omega, power_natCast]

theorem nearestBits_one (hn : n ≠ 0) (h : n < 0x20000000000000) :
    nearestBits n 1 = (n.log2 + 1022) * fractionWeight + mantissaOf n := by
  have hlog := log2_le h
  have hlt := mantissaOf_lt h
  have hle := le_mantissaOf hn h
  have hmul : nearestBits (2 ^ (52 - n.log2) * n) (2 ^ (52 - n.log2) * 1) = nearestBits n 1 :=
    nearestBits_mul (Nat.two_pow_pos _) (by decide)
  have hbits := nearestBits_dyadic (d := ⟨false, mantissaOf n, (n.log2 : Int) - 52⟩)
    (Nat.ne_of_gt (Nat.lt_of_lt_of_le (by decide) hle)) hlt (show -1074 ≤ _ - 52 by omega)
    (.inr hle)
  have hfield : ((n.log2 : Int) - 52 + 1074).toNat = n.log2 + 1022 := by omega
  have hinf := Nat.mul_le_mul_right fractionWeight (show n.log2 + 1022 ≤ 1074 by omega)
  rw [ratio_mantissaOf h, hfield, Nat.min_eq_left] at hbits
  · rw [← hbits, ← hmul, Nat.mul_comm, Nat.mul_one]
    rfl
  · rw [show infinityBits = 2047 * fractionWeight by decide]
    show _ + mantissaOf n ≤ _
    omega

theorem div_nearestBits_one (hn : n ≠ 0) (h : n < 0x20000000000000) :
    nearestBits n 1 / fractionWeight = n.log2 + 1023 := by
  have hlt := mantissaOf_lt h
  have hle := le_mantissaOf hn h
  rw [nearestBits_one hn h, Nat.mul_comm, Nat.mul_add_div (by decide),
    Nat.div_eq_of_lt_le (k := 1) (by omega) (by omega)]

theorem mod_nearestBits_one (hn : n ≠ 0) (h : n < 0x20000000000000) :
    fractionWeight + nearestBits n 1 % fractionWeight = mantissaOf n := by
  have hlt := mantissaOf_lt h
  have hle := le_mantissaOf hn h
  rw [nearestBits_one hn h, Nat.mul_comm, Nat.mul_add_mod, Nat.mod_eq_sub_mod hle,
    Nat.mod_eq_of_lt (by omega)]
  omega

/-- The pattern that a whole number is given is the one that it has. -/
theorem toNat_toBits_ofNat (n : Nat) : (ofNat n).toBits.toNat = nearestBits n 1 :=
  (toNat_toBits_ofPattern false (nearestBits_le n 1)).trans (Nat.zero_add _)

/-- A double is the whole number `n`, and not negative. -/
def IsWhole (x : Float) (n : Nat) : Prop :=
  ∃ d, Dyadic.ofFloat? x = some d ∧ d.negative = false ∧ d.whole? = some n

theorem ofFloat?_ofNat (hn : n ≠ 0) (h : n < 0x20000000000000) :
    Dyadic.ofFloat? (ofNat n) = some ⟨false, mantissaOf n, (n.log2 : Int) - 52⟩ := by
  have hlt : nearestBits n 1 < 0x8000000000000000 :=
    Nat.lt_of_le_of_lt (nearestBits_le n 1) (by decide)
  have hlog := log2_le h
  have hmagnitude : magnitudeBits (ofNat n) = nearestBits n 1 := by
    rw [magnitudeBits, toNat_toBits_ofNat, Nat.mod_eq_of_lt hlt]
  have hsign : isNegative (ofNat n) = false := by
    rw [isNegative, toNat_toBits_ofNat]
    exact decide_eq_false (Nat.not_le_of_lt hlt)
  unfold Dyadic.ofFloat?
  simp only [hmagnitude, hsign, div_nearestBits_one hn h, mod_nearestBits_one hn h]
  have hfield : ¬ (n.log2 + 1023 == 2047) = true := by
    rw [beq_iff_eq]
    omega
  have hnormal : ¬ (n.log2 + 1023 == 0) = true := by
    rw [beq_iff_eq]
    omega
  rw [if_neg hfield, if_neg hnormal,
    show ((n.log2 + 1023 : Nat) : Int) - 1075 = n.log2 - 52 by omega]

theorem isWhole_ofNat (h : n < 0x20000000000000) : IsWhole (ofNat n) n := by
  by_cases hn : n = 0
  · subst hn
    exact ⟨⟨false, 0, -1074⟩, by decide +kernel, rfl, by decide +kernel⟩
  refine ⟨_, ofFloat?_ofNat hn h, rfl, ?_⟩
  have hpos : 0 < Nat.pow 2 (52 - n.log2) := Nat.pow_pos (by decide)
  rw [Dyadic.whole?, ratio_mantissaOf h, mantissaOf]
  simp only [Nat.mul_mod_left, Nat.mul_div_cancel n hpos]
  rfl

theorem IsWhole.saturated32_eq (h : IsWhole x n) (hn : n ≤ 0xFFFFFFFF) :
    saturated32 x = n := by
  obtain ⟨d, hd, hsign, hwhole⟩ := h
  have htruncated : d.truncated = n := by
    simp only [Dyadic.whole?] at hwhole
    split at hwhole
    · exact Option.some.inj hwhole
    · cases hwhole
  simp only [saturated32, hd, Dyadic.toInt, hsign, htruncated]
  exact Nat.min_eq_left hn

theorem saturated32_ofNat (h : n ≤ 0xFFFFFFFF) : saturated32 (ofNat n) = n :=
  (isWhole_ofNat (by omega)).saturated32_eq h

theorem saturated32_le (x : Float) : saturated32 x ≤ 0xFFFFFFFF := by
  unfold saturated32
  split
  · split
    · exact Nat.zero_le _
    · exact Nat.le_refl _
  · exact Nat.min_le_right _ _

end

/-- A double that is made of the pattern of a number, or of an infinity, is not NaN. -/
theorem isNaN_ofPattern (negative : Bool) {m : Nat} (hm : m ≤ infinityBits) :
    (ofPattern negative m).isNaN = false := by
  have hbits := toNat_toBits_ofPattern negative hm
  obtain ⟨b, hb, hnat⟩ : ∃ b : BitVec Format.binary64.numBits,
    (ofPattern negative m).toModel.unpack = unpack .binary64 b ∧
      (ofPattern negative m).toBits.toNat = b.toNat := ⟨_, rfl, rfl⟩
  show (ofPattern negative m).toModel.unpack.isNaN = false
  rw [hb]
  cases hu : unpack .binary64 b with
  | notANumber =>
    -- the one pattern of the numbers that are not is beyond those of the infinities
    have hle : b.toNat % 0x8000000000000000 ≤ infinityBits := by
      have : infinityBits < 0x8000000000000000 := by decide
      rcases signBit_eq negative with h | h <;> omega
    have hpack : pack .binary64 .notANumber = b := hu ▸ pack_unpack hle
    rw [← hpack] at hle
    exact absurd hle (by decide)
  | infinity _ | zero _ | finite _ _ _ _ => rfl

/-! ## Equal numbers -/

/-- What comparing sees of a double: a number other than zero, a zero, or nothing that is finite. -/
inductive Seen (x : Float) : Prop where
  | finite {s : Sign} {m : Nat} {e : Int} {h : 0 < m} : x.toModel.unpack = .finite s m e h →
    Dyadic.ofFloat? x = some ⟨s == .negative, m, e⟩ → Seen x
  | zero {s : Sign} : x.toModel.unpack = .zero s →
    Dyadic.ofFloat? x = some ⟨s == .negative, 0, -1074⟩ → Seen x
  | infinity {s : Sign} : x.toModel.unpack = .infinity s → Dyadic.ofFloat? x = none → Seen x
  | notANumber : x.toModel.unpack = .notANumber → Dyadic.ofFloat? x = none → Seen x

theorem seen (x : Float) : Seen x := by
  obtain ⟨b, hb, hnat⟩ : ∃ b : BitVec Format.binary64.numBits,
    x.toModel.unpack = unpack .binary64 b ∧ x.toBits.toNat = b.toNat := ⟨_, rfl, rfl⟩
  have hlt : b.toNat < 0x10000000000000000 := b.isLt
  have hexponent := toNat_unpackExponent b
  have hmantissa : (unpackMantissa b).toNat = b.toNat % fractionWeight := rfl
  have hsign : isNegative x = (Sign.ofBitVec (unpackSign b) == .negative) := by
    have hbit : (unpackSign b).toNat = b.toNat / 0x8000000000000000 := by
      show b.toNat >>> 63 % 2 = _
      rw [Nat.shiftRight_eq_div_pow]
      omega
    rw [isNegative, hnat]
    have hcases : ∀ c : BitVec 1, c = 0#1 ∨ c = 1#1 := by decide
    rcases hcases (unpackSign b) with hc | hc
    · rw [hc] at hbit ⊢
      exact decide_eq_false (by
        change 0 = _ at hbit
        omega)
    · rw [hc] at hbit ⊢
      exact decide_eq_true (by
        change 1 = _ at hbit
        omega)
  have hread : Dyadic.ofFloat? x =
      if (unpackExponent b).toNat == 2047 then none
      else if (unpackExponent b).toNat == 0 then
        some ⟨isNegative x, (unpackMantissa b).toNat, -1074⟩
      else some ⟨isNegative x, fractionWeight + (unpackMantissa b).toNat,
        ((unpackExponent b).toNat : Int) - 1075⟩ := by
    have hfield : magnitudeBits x / fractionWeight = (unpackExponent b).toNat := by
      rw [hexponent, magnitudeBits, hnat]
      simp only [fractionWeight]
      omega
    have hfraction : magnitudeBits x % fractionWeight = (unpackMantissa b).toNat := by
      rw [hmantissa, magnitudeBits, hnat]
      simp only [fractionWeight]
      omega
    unfold Dyadic.ofFloat?
    simp only [hfield, hfraction]
  rw [hsign] at hread
  by_cases hones : unpackExponent b = -1#_
  · have hnone : Dyadic.ofFloat? x = none := by
      rw [hread, hones]
      rfl
    by_cases hm : unpackMantissa b = 0#_
    · exact .infinity (hb.trans ((if_pos hones).trans (if_pos hm))) hnone
    · exact .notANumber (hb.trans ((if_pos hones).trans (if_neg hm))) hnone
  · have hne : ¬ ((unpackExponent b).toNat == 2047) = true := by
      rw [beq_iff_eq]
      exact fun h => hones (BitVec.eq_of_toNat_eq h)
    rw [if_neg hne] at hread
    by_cases hzero : unpackExponent b = 0#_
    · rw [if_pos (by rw [hzero]; rfl)] at hread
      by_cases hm : unpackMantissa b = 0#_
      · rw [hm] at hread
        exact .zero (hb.trans ((if_neg hones).trans ((if_pos hzero).trans (dif_pos hm)))) hread
      · refine .finite (hb.trans ((if_neg hones).trans ((if_pos hzero).trans (dif_neg hm)))) ?_
        rw [hread, hzero]
        rfl
    · have hne : ¬ ((unpackExponent b).toNat == 0) = true := by
        rw [beq_iff_eq]
        exact fun h => hzero (BitVec.eq_of_toNat_eq h)
      rw [if_neg hne] at hread
      refine .finite (hb.trans ((if_neg hones).trans (if_neg hzero))) ?_
      rw [hread, ← toNat_implicit]
      rfl

/-- Equal numbers are seen as the same, or both as zero. -/
theorem unpack_of_beq {y : Float} (h : (x == y) = true) :
    x.toModel.unpack = y.toModel.unpack ∨
      ∃ s t, x.toModel.unpack = .zero s ∧ y.toModel.unpack = .zero t := by
  have h : x.toModel.unpack.compare y.toModel.unpack = some .eq := eq_of_beq h
  have hsame {e e' : Int} {m m' : Nat} (heq : (compare e e').then (compare m m') = .eq) :
      e = e' ∧ m = m' := by
    rw [Ordering.then_eq_eq] at heq
    exact ⟨Int.compare_eq_eq.mp heq.1, Nat.compare_eq_eq.mp heq.2⟩
  revert h
  generalize x.toModel.unpack = a
  generalize y.toModel.unpack = b
  intro h
  cases a with
  | notANumber => cases b <;> cases h
  | zero s =>
    cases b with
    | zero t => exact .inr ⟨s, t, rfl, rfl⟩
    | notANumber => cases h
    | infinity t | finite t => cases t <;> cases h
  | infinity s =>
    cases b with
    | notANumber => cases h
    | zero t => cases s <;> cases h
    | finite t => cases s <;> cases t <;> cases h
    | infinity t =>
      cases s <;> cases t
      case negative.positive | positive.negative => cases h
      all_goals exact .inl rfl
  | finite s =>
    cases b with
    | notANumber => cases h
    | zero t => cases s <;> cases h
    | infinity t => cases s <;> cases t <;> cases h
    | finite t =>
      cases s <;> cases t
      case negative.positive | positive.negative => cases h
      case negative.negative =>
        obtain ⟨rfl, rfl⟩ := hsame (Ordering.swap_eq_eq.mp (Option.some.inj h))
        exact .inl rfl
      case positive.positive =>
        obtain ⟨rfl, rfl⟩ := hsame (Option.some.inj h)
        exact .inl rfl

theorem beq_comm (x y : Float) : (x == y) = (y == x) := by
  have hswap {x y : Float} (h : (x == y) = true) : (y == x) = true := by
    change (x.toModel.unpack.compare y.toModel.unpack == some .eq) = true at h
    show (y.toModel.unpack.compare x.toModel.unpack == some .eq) = true
    rcases unpack_of_beq h with heq | ⟨s, t, hx, hy⟩
    · rw [heq] at h ⊢
      exact h
    · rw [hx, hy]
      rfl
  exact Bool.eq_iff_iff.mpr ⟨hswap, hswap⟩

theorem saturated32_of_beq {y : Float} (h : (y == x) = true) {d : Dyadic}
    (hy : Dyadic.ofFloat? y = some d) : saturated32 x = saturated32 y := by
  have hzero {z : Float} {s : Sign} (hz : z.toModel.unpack = .zero s) : saturated32 z = 0 := by
    cases seen z with
    | @zero s _ hd =>
      simp only [saturated32, hd]
      cases s <;> decide +kernel
    | finite hz' | infinity hz' | notANumber hz' => cases hz.symm.trans hz'
  rcases unpack_of_beq h with heq | ⟨s, t, hzy, hzx⟩
  · cases seen y with
    | infinity _ hd | notANumber _ hd => cases hd.symm.trans hy
    | zero hzy => rw [hzero hzy, hzero (heq.symm.trans hzy)]
    | finite hfy hd =>
      cases seen x with
      | zero hx | infinity hx | notANumber hx => cases hfy.symm.trans (heq.trans hx)
      | finite hfx hd' =>
        cases hfy.symm.trans (heq.trans hfx)
        rw [saturated32, saturated32, hd, hd']
  · rw [hzero hzx, hzero hzy]

theorem saturated32_eq_of_beq {n : Nat} (hn : n ≤ 0xFFFFFFFF) (h : (ofNat n == x) = true) :
    saturated32 x = n := by
  obtain ⟨d, hd, -⟩ := isWhole_ofNat (n := n) (by omega)
  rw [saturated32_of_beq h hd, saturated32_ofNat hn]

/-- A number is a length if it equals one, which is then what it is cut to. -/
theorem ofNat_saturated32_beq_iff :
    (ofNat (saturated32 x) == x) = true ↔ ∃ n, n ≤ 0xFFFFFFFF ∧ (ofNat n == x) = true := by
  refine ⟨fun h => ⟨_, saturated32_le x, h⟩, ?_⟩
  rintro ⟨n, hn, h⟩
  rw [saturated32_eq_of_beq hn h]
  exact h

end TreeScript.Number
