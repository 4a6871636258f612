import TreeScript.Number.Literal
import TreeScript.Proofs.Number.Whole

/-!
# Numerals

The texts that stand for numbers, as a grammar that does not mention how they are read.
`readDecimal?_isSome` says that a decimal numeral is read if and only if the grammar has it, and
`readDecimal?_eq` what is read from its parts.
-/

namespace TreeScript.Number

open Text

/-! ## The grammar -/

/-- A sign, or nothing. -/
def IsSign (cs : List Char) : Prop := cs = [] ∨ cs = ['+'] ∨ cs = ['-']

/-- Decimal digits only. -/
def AreDigits (cs : List Char) : Prop := ∀ c ∈ cs, c.isDigit = true

/-- Nothing, or an `e` with a sign and at least one digit. -/
def IsExponent (cs : List Char) : Prop :=
  cs = [] ∨ ∃ mark sign ds, (mark = 'e' ∨ mark = 'E') ∧ IsSign sign ∧ AreDigits ds ∧ ds ≠ [] ∧
    cs = mark :: (sign ++ ds)

/-- The parts of a decimal numeral: a sign, digits with an optional point and at least one digit
among them. -/
structure IsMantissa (sign whole point fraction : List Char) : Prop where
  signed : IsSign sign
  before : AreDigits whole
  behind : AreDigits fraction
  digit : whole ++ fraction ≠ []
  pointed : point = ['.'] ∨ point = [] ∧ fraction = []

/-- A decimal numeral. -/
def IsDecimal (cs : List Char) : Prop :=
  ∃ sign whole point fraction exponent, IsMantissa sign whole point fraction ∧
    IsExponent exponent ∧ cs = sign ++ (whole ++ (point ++ (fraction ++ exponent)))

def IsInfinity (cs : List Char) : Prop := ∃ sign, IsSign sign ∧ cs = sign ++ "Infinity".toList

def IsHexDigit (c : Char) : Prop := c.isDigit = true ∨ 'a' ≤ c ∧ c ≤ 'f' ∨ 'A' ≤ c ∧ c ≤ 'F'

def hexNumber (ds : List Char) : Nat := ds.foldl (fun n c => 16 * n + (hexValue? c).getD 0) 0

/-- A hexadecimal numeral with the digits `ds`, which a plus may come before. -/
def IsHex (ds cs : List Char) : Prop :=
  ds ≠ [] ∧ (∀ c ∈ ds, IsHexDigit c) ∧ ∃ mark plus, (mark = 'x' ∨ mark = 'X') ∧
    (plus = [] ∨ plus = ['+']) ∧ cs = '0' :: mark :: (plus ++ ds)

/-! ## Parts of a numeral -/

variable {ds sign cs : List Char}

theorem areDigits_iff_all : ds.all Char.isDigit = true ↔ AreDigits ds :=
  List.all_eq_true

theorem takeSign_append (hs : IsSign sign) (hcs : ∀ c ∈ cs.head?, c ≠ '+' ∧ c ≠ '-') :
    takeSign (sign ++ cs) = (sign == ['-'], cs) := by
  rcases hs with rfl | rfl | rfl
  · cases cs with
    | nil => rfl
    | cons c cs =>
      obtain ⟨hplus, hminus⟩ := hcs c rfl
      rw [List.nil_append, takeSign]
      · rfl
      · exact fun _ h => hminus (List.cons.inj h).1
      · exact fun _ h => hplus (List.cons.inj h).1
  · rfl
  · rfl

theorem takeSign_spec (cs : List Char) : ∃ sign, IsSign sign ∧ cs = sign ++ (takeSign cs).2 := by
  unfold takeSign
  split
  · exact ⟨['-'], .inr (.inr rfl), rfl⟩
  · exact ⟨['+'], .inr (.inl rfl), rfl⟩
  · exact ⟨[], .inl rfl, rfl⟩

theorem takeDigits_append (hd : AreDigits ds) (hcs : ∀ c ∈ cs.head?, c.isDigit = false) :
    takeDigits (ds ++ cs) = (ds, cs) := by
  unfold takeDigits
  rw [List.takeWhile_append_of_pos hd, List.dropWhile_append_of_pos hd]
  cases cs with
  | nil => simp
  | cons c cs => simp [hcs c rfl]

theorem takeDigits_spec (cs : List Char) :
    AreDigits (takeDigits cs).1 ∧ cs = (takeDigits cs).1 ++ (takeDigits cs).2 :=
  ⟨areDigits_iff_all.mp List.all_takeWhile, List.takeWhile_append_dropWhile.symm⟩

theorem not_sign_of_isDigit {c : Char} (h : c.isDigit = true) : c ≠ '+' ∧ c ≠ '-' := by
  constructor <;> rintro rfl <;> revert h <;> decide

theorem readExponent?_append {mark : Char} (hmark : mark = 'e' ∨ mark = 'E') (hs : IsSign sign)
    (hd : AreDigits ds) (hne : ds ≠ []) :
    readExponent? (mark :: (sign ++ ds)) =
      some (if sign == ['-'] then -(exponentValue ds : Int) else exponentValue ds) := by
  have hsign : takeSign (sign ++ ds) = (sign == ['-'], ds) :=
    takeSign_append hs fun c hc => not_sign_of_isDigit (hd c (List.mem_of_mem_head? hc))
  unfold readExponent?
  simp [hmark, hsign, hne, areDigits_iff_all.mpr hd]

theorem readExponent?_isSome (cs : List Char) : (readExponent? cs).isSome ↔ IsExponent cs := by
  constructor
  · intro h
    cases cs with
    | nil => exact .inl rfl
    | cons mark cs =>
      obtain ⟨sign, hs, hcs⟩ := takeSign_spec cs
      unfold readExponent? at h
      dsimp only at h
      split at h
      · next hmark =>
        split at h
        · cases h
        · next hdigits =>
          simp only [Bool.or_eq_true, not_or, Bool.not_eq_true', Bool.not_eq_false,
            List.isEmpty_iff] at hdigits
          refine .inr ⟨mark, sign, (takeSign cs).2, by simpa using hmark, hs,
            areDigits_iff_all.mp hdigits.2, hdigits.1, ?_⟩
          rw [← hcs]
      · cases h
  · rintro (rfl | ⟨mark, sign, ds, hmark, hs, hd, hne, rfl⟩)
    · rfl
    · rw [readExponent?_append hmark hs hd hne]
      rfl

theorem IsExponent.head_not_isDigit (h : IsExponent cs) : ∀ c ∈ cs.head?, c.isDigit = false := by
  rintro c hc
  rcases h with rfl | ⟨mark, sign, ds, hmark, -, -, -, rfl⟩
  · cases hc
  · cases hc
    rcases hmark with rfl | rfl <;> rfl

def takeFraction : List Char → List Char × List Char
  | '.' :: cs => takeDigits cs
  | cs => ([], cs)

theorem readDecimal?_eq_map (cs : List Char) :
    readDecimal? cs =
      if (takeDigits (takeSign cs).2).1.isEmpty &&
        (takeFraction (takeDigits (takeSign cs).2).2).1.isEmpty then none
      else (readExponent? (takeFraction (takeDigits (takeSign cs).2).2).2).map fun power =>
        ⟨(takeSign cs).1, longValue ((takeDigits (takeSign cs).2).1 ++
          (takeFraction (takeDigits (takeSign cs).2).2).1),
          power - (takeFraction (takeDigits (takeSign cs).2).2).1.length⟩ := by
  rw [Option.map_eq_bind]
  rfl

theorem takeFraction_append {point fraction exponent : List Char}
    (hp : point = ['.'] ∨ point = [] ∧ fraction = []) (hf : AreDigits fraction)
    (he : IsExponent exponent) :
    takeFraction (point ++ (fraction ++ exponent)) = (fraction, exponent) := by
  rcases hp with rfl | ⟨rfl, rfl⟩
  · exact takeDigits_append hf he.head_not_isDigit
  · rcases he with rfl | ⟨mark, sign, ds, rfl | rfl, -, -, -, rfl⟩ <;> rfl

theorem takeFraction_spec (cs : List Char) : AreDigits (takeFraction cs).1 ∧
    ∃ point, (point = ['.'] ∨ point = [] ∧ (takeFraction cs).1 = []) ∧
      cs = point ++ ((takeFraction cs).1 ++ (takeFraction cs).2) := by
  unfold takeFraction
  split
  · next cs =>
    obtain ⟨hdigits, hcs⟩ := takeDigits_spec cs
    exact ⟨hdigits, ['.'], .inl rfl, congrArg _ hcs⟩
  · exact ⟨fun _ h => absurd h List.not_mem_nil, [], .inr ⟨rfl, rfl⟩, rfl⟩

theorem readDecimal?_eq {whole point fraction exponent : List Char}
    (h : IsMantissa sign whole point fraction) (he : IsExponent exponent) :
    readDecimal? (sign ++ (whole ++ (point ++ (fraction ++ exponent)))) =
      (readExponent? exponent).map fun power =>
        ⟨sign == ['-'], longValue (whole ++ fraction), power - fraction.length⟩ := by
  have hsign : takeSign (sign ++ (whole ++ (point ++ (fraction ++ exponent)))) =
      (sign == ['-'], whole ++ (point ++ (fraction ++ exponent))) := by
    refine takeSign_append h.signed fun c hc => ?_
    cases whole with
    | cons c' whole =>
      cases hc
      exact not_sign_of_isDigit (h.before _ List.mem_cons_self)
    | nil =>
      rcases h.pointed with rfl | ⟨rfl, rfl⟩
      · cases hc
        decide
      · exact absurd rfl h.digit
  have hwhole : takeDigits (whole ++ (point ++ (fraction ++ exponent))) =
      (whole, point ++ (fraction ++ exponent)) := by
    refine takeDigits_append h.before fun c hc => ?_
    rcases h.pointed with rfl | ⟨rfl, rfl⟩
    · cases hc
      rfl
    · exact he.head_not_isDigit c hc
  have hne : ¬ (whole.isEmpty && fraction.isEmpty) = true := by
    rw [Bool.and_eq_true, List.isEmpty_iff, List.isEmpty_iff, ← List.append_eq_nil_iff]
    exact h.digit
  rw [readDecimal?_eq_map, hsign, hwhole, takeFraction_append h.pointed h.behind he]
  exact if_neg hne

theorem readDecimal?_isSome (cs : List Char) : (readDecimal? cs).isSome ↔ IsDecimal cs := by
  constructor
  · intro h
    obtain ⟨sign, hs, hcs⟩ := takeSign_spec cs
    obtain ⟨hwhole, hcs1⟩ := takeDigits_spec (takeSign cs).2
    obtain ⟨hfraction, point, hpoint, hcs2⟩ := takeFraction_spec (takeDigits (takeSign cs).2).2
    rw [readDecimal?_eq_map] at h
    split at h
    · cases h
    · next hne =>
      rw [Bool.and_eq_true, List.isEmpty_iff, List.isEmpty_iff, ← List.append_eq_nil_iff] at hne
      rw [Option.isSome_map, readExponent?_isSome] at h
      refine ⟨sign, _, point, _, _, ⟨hs, hwhole, hfraction, hne, hpoint⟩, h, ?_⟩
      rw [← hcs2, ← hcs1, ← hcs]
  · rintro ⟨sign, whole, point, fraction, exponent, hm, he, rfl⟩
    rw [readDecimal?_eq hm he, Option.isSome_map]
    exact (readExponent?_isSome _).mpr he

/-! ## Characters of numerals -/

def isPlain (c : Char) : Bool := c.isDigit || ['+', '-', '.', 'e', 'E'].contains c

theorem IsSign.isPlain (h : IsSign sign) : ∀ c ∈ sign, isPlain c = true := by
  rcases h with rfl | rfl | rfl <;> exact List.all_eq_true.mp (by decide)

theorem AreDigits.isPlain (h : AreDigits ds) : ∀ c ∈ ds, isPlain c = true :=
  fun c hc => by rw [Number.isPlain, h c hc, Bool.true_or]

theorem IsDecimal.isPlain (h : IsDecimal cs) : ∀ c ∈ cs, isPlain c = true := by
  obtain ⟨sign, whole, point, fraction, exponent, hm, he, rfl⟩ := h
  have hpoint : ∀ c ∈ point, Number.isPlain c = true := by
    rcases hm.pointed with rfl | ⟨rfl, -⟩ <;> exact List.all_eq_true.mp (by decide)
  have hexponent : ∀ c ∈ exponent, Number.isPlain c = true := by
    rcases he with rfl | ⟨mark, sign, ds, hmark, hs, hd, -, rfl⟩
    · exact List.all_eq_true.mp rfl
    · refine List.forall_mem_cons.mpr ⟨?_, List.forall_mem_append.mpr ⟨hs.isPlain, hd.isPlain⟩⟩
      rcases hmark with rfl | rfl <;> decide
  simp only [List.forall_mem_append]
  exact ⟨hm.signed.isPlain, hm.before.isPlain, hpoint, hm.behind.isPlain, hexponent⟩

theorem isPlain_cases {c : Char} (h : isPlain c = true) :
    isBlank c = false ∧ isStrayLetter c = false ∧ c ∉ ['x', 'X', 'I'] := by
  have hlt : c.toNat < 128 := by
    rcases Bool.or_eq_true_iff.mp h with hd | hc
    · have hle : c.toNat ≤ 57 := (by simpa [Char.isDigit, UInt32.le_iff_toNat_le] using hd :
        48 ≤ c.toNat ∧ c.toNat ≤ 57).2
      omega
    · simp only [List.contains_eq_mem, List.mem_cons, List.not_mem_nil, or_false,
        decide_eq_true_eq] at hc
      rcases hc with rfl | rfl | rfl | rfl | rfl <;> decide
  have hall : ∀ n < 128, isPlain (Char.ofNat n) = true → isBlank (Char.ofNat n) = false ∧
      isStrayLetter (Char.ofNat n) = false ∧ Char.ofNat n ∉ ['x', 'X', 'I'] := by
    decide +kernel
  have hc := hall c.toNat hlt
  rw [Char.ofNat_toNat] at hc
  exact hc h

/-! ## Hexadecimal numerals -/

theorem isSome_hexValue? (c : Char) : (hexValue? c).isSome = true ↔ IsHexDigit c := by
  unfold hexValue? IsHexDigit
  by_cases hd : c.isDigit = true
  · simp [hd]
  · by_cases hl : 'a' ≤ c ∧ c ≤ 'f'
    · simp [hd, hl]
    · by_cases hu : 'A' ≤ c ∧ c ≤ 'F' <;> simp [hd, hl, hu]

theorem hexValueOf?_eq_some {n : Nat} :
    hexValueOf? cs = some n ↔ (∀ c ∈ cs, IsHexDigit c) ∧ hexNumber cs = n := by
  have hfold (cs : List Char) (k : Nat) :
      cs.foldl (fun n c => do return 16 * (← n) + (← hexValue? c)) (some k) = some n ↔
        (∀ c ∈ cs, IsHexDigit c) ∧
          cs.foldl (fun n c => 16 * n + (hexValue? c).getD 0) k = n := by
    induction cs generalizing k with
    | nil => simp
    | cons c cs ih =>
      have hnone : cs.foldl (fun (n : Option Nat) c => do return 16 * (← n) + (← hexValue? c))
          none = none := by
        clear ih
        induction cs with
        | nil => rfl
        | cons c cs ih => exact ih
      have hdigit := isSome_hexValue? c
      rw [List.foldl_cons, List.foldl_cons, List.forall_mem_cons, ← hdigit]
      cases hexValue? c with
      | none =>
        show List.foldl _ none cs = _ ↔ _
        rw [hnone]
        simp
      | some v =>
        show List.foldl _ (some (16 * k + v)) cs = _ ↔ _
        rw [ih]
        simp
  exact hfold cs 0

theorem readHex?_eq_some {n : Nat} :
    readHex? cs = some n ↔ ∃ plus ds, (plus = [] ∨ plus = ['+']) ∧ cs = plus ++ ds ∧ ds ≠ [] ∧
      (∀ c ∈ ds, IsHexDigit c) ∧ hexNumber ds = n ∧ n < 0x10000000000000000 := by
  have hread (ds : List Char) : (if ds.isEmpty then none
      else do
        let n ← hexValueOf? ds
        if n < 0x10000000000000000 then some n else none) = some n ↔
      ds ≠ [] ∧ (∀ c ∈ ds, IsHexDigit c) ∧ hexNumber ds = n ∧ n < 0x10000000000000000 := by
    by_cases hne : ds = []
    · simp [hne]
    · rw [if_neg (by simpa using hne), ← and_assoc (a := ∀ c ∈ ds, IsHexDigit c),
        ← hexValueOf?_eq_some]
      cases hexValueOf? ds with
      | none => simp [hne]
      | some k =>
        simp only [bind, Option.bind, ne_eq, hne, not_false_eq_true, Option.some.injEq, true_and]
        by_cases hk : k < 0x10000000000000000
        · rw [if_pos hk, Option.some.injEq]
          exact ⟨fun h => ⟨h, h ▸ hk⟩, fun h => h.1⟩
        · rw [if_neg hk]
          exact ⟨fun h => absurd h (by simp), fun h => absurd (h.1 ▸ h.2) hk⟩
  unfold readHex?
  split
  · next ds =>
    rw [hread]
    refine ⟨fun h => ⟨['+'], ds, .inr rfl, rfl, h⟩, ?_⟩
    rintro ⟨plus, ds', rfl | rfl, heq, h⟩
    · have hplus := h.2.1 '+' (by rw [← List.nil_append ds', ← heq]; exact List.mem_cons_self)
      exact absurd hplus (by unfold IsHexDigit; decide)
    · cases heq
      exact h
  · next hne =>
    rw [hread]
    refine ⟨fun h => ⟨[], cs, .inl rfl, rfl, h⟩, ?_⟩
    rintro ⟨plus, ds, rfl | rfl, heq, h⟩
    · cases heq
      exact h
    · exact absurd heq (hne ds)

/-! ## Texts that are numbers -/

theorem mem_dropWhile_head (p : Char → Bool) (cs : List Char) :
    ∀ c ∈ (cs.dropWhile p).head?, p c = false := by
  intro c hc
  have := List.head?_dropWhile_not p cs
  rw [Option.mem_def.mp hc] at this
  simpa using this

/-- `core` is `cs` without the blanks at its two ends. -/
def IsTrimmed (cs core : List Char) : Prop :=
  (∃ before after, cs = before ++ (core ++ after) ∧ ∀ c ∈ before ++ after, isBlank c = true) ∧
    ∀ c, c ∈ core.head? ∨ c ∈ core.getLast? → isBlank c = false

theorem isTrimmed_trimBlank (cs : List Char) : IsTrimmed cs (trimBlank cs) := by
  unfold trimBlank
  have hfront := (List.takeWhile_append_dropWhile (p := isBlank) (l := cs)).symm
  have hhead := mem_dropWhile_head isBlank cs
  generalize cs.dropWhile isBlank = rest at hfront hhead
  have hback := congrArg List.reverse
    (List.takeWhile_append_dropWhile (p := isBlank) (l := rest.reverse)).symm
  have hlast := mem_dropWhile_head isBlank rest.reverse
  rw [List.reverse_reverse, List.reverse_append] at hback
  refine ⟨⟨_, _, by rw [← hback]; exact hfront, ?_⟩, fun c hc => ?_⟩
  · intro c hc
    rcases List.mem_append.mp hc with h | h
    · exact List.all_eq_true.mp List.all_takeWhile c h
    · exact List.all_eq_true.mp List.all_takeWhile c (List.mem_reverse.mp h)
  · rcases hc with h | h
    · exact hhead c (by rw [hback, List.head?_append, Option.mem_def.mp h]; rfl)
    · rw [List.getLast?_reverse] at h
      exact hlast c h

theorem isNaN_ofDecimal (negative : Bool) (c : Nat) (e : Int) :
    (ofDecimal negative c e).isNaN = false := by
  refine isNaN_ofPattern negative ?_
  unfold decimalBits
  by_cases hc : (c == 0) = true
  · rw [if_pos hc]
    exact Nat.zero_le _
  by_cases hlarge : 310 < e
  · exact Nat.le_of_eq ((if_neg hc).trans (if_pos hlarge))
  by_cases hsmall : (c.log2 : Int) + 1 + 3 * e < -1080
  · rw [if_neg hc, if_neg hlarge, if_pos hsmall]
    exact Nat.zero_le _
  · rw [if_neg hc, if_neg hlarge, if_neg hsmall]
    exact nearestBits_le _ _

theorem isInfinity_iff (cs : List Char) : IsInfinity cs ↔
    String.ofList cs = "Infinity" ∨ String.ofList cs = "+Infinity" ∨
      String.ofList cs = "-Infinity" := by
  have hword (w : String) : String.ofList cs = w ↔ cs = w.toList := by
    rw [← String.toList_inj, String.toList_ofList]
  simp only [hword]
  constructor
  · rintro ⟨sign, rfl | rfl | rfl, rfl⟩
    · exact .inl rfl
    · exact .inr (.inl rfl)
    · exact .inr (.inr rfl)
  · rintro (rfl | rfl | rfl)
    · exact ⟨[], .inl rfl, rfl⟩
    · exact ⟨['+'], .inr (.inl rfl), rfl⟩
    · exact ⟨['-'], .inr (.inr rfl), rfl⟩

/-- What the text after `0x` or `0X` is read as. -/
theorem isNaN_readHex? {mark : Char} (hmark : mark = 'x' ∨ mark = 'X') (cs : List Char) :
    ((readHex? cs).elim notANumber ofNat).isNaN = false ↔
      ∃ ds, IsHex ds ('0' :: mark :: cs) ∧ hexNumber ds < 0x10000000000000000 := by
  constructor
  · cases hread : readHex? cs with
    | none => intro h; exact absurd h (by decide +kernel)
    | some n =>
      intro _
      obtain ⟨plus, ds, hplus, rfl, hne, hds, rfl, hlt⟩ := readHex?_eq_some.mp hread
      exact ⟨ds, ⟨hne, hds, mark, plus, hmark, hplus, rfl⟩, hlt⟩
  · rintro ⟨ds, ⟨hne, hds, mark', plus, -, hplus, heq⟩, hlt⟩
    cases heq
    rw [readHex?_eq_some.mpr ⟨plus, ds, hplus, rfl, hne, hds, rfl, hlt⟩]
    exact isNaN_ofPattern false (nearestBits_le _ _)

theorem isNaN_readWord (cs : List Char) :
    (readWord cs).isNaN = false ↔ IsInfinity cs ∨ IsDecimal cs := by
  have hinfinity := isInfinity_iff cs
  unfold readWord
  simp only [Bool.or_eq_true, beq_iff_eq]
  by_cases hplus : String.ofList cs = "Infinity" ∨ String.ofList cs = "+Infinity"
  · rw [if_pos hplus]
    exact ⟨fun _ => .inl (hinfinity.mpr (hplus.imp_right .inl)),
      fun _ => isNaN_ofPattern false (Nat.le_refl _)⟩
  by_cases hminus : String.ofList cs = "-Infinity"
  · rw [if_neg hplus, if_pos hminus]
    exact ⟨fun _ => .inl (hinfinity.mpr (.inr (.inr hminus))),
      fun _ => isNaN_ofPattern true (Nat.le_refl _)⟩
  have hno : ¬ IsInfinity cs := by
    rw [hinfinity, ← or_assoc]
    exact not_or.mpr ⟨hplus, hminus⟩
  rw [if_neg hplus, if_neg hminus, or_iff_right hno]
  by_cases hstray : cs.any isStrayLetter = true
  · rw [if_pos hstray]
    refine ⟨fun h => absurd h (by decide +kernel), fun h => ?_⟩
    obtain ⟨c, hc, hs⟩ := List.any_eq_true.mp hstray
    cases (isPlain_cases (h.isPlain c hc)).2.1.symm.trans hs
  · rw [if_neg hstray, ← readDecimal?_isSome]
    cases readDecimal? cs with
    | none => exact ⟨fun h => absurd h (by decide +kernel), fun h => absurd h (by decide)⟩
    | some n => exact ⟨fun _ => rfl, fun _ => isNaN_ofDecimal _ _ _⟩

theorem ofText_cases (s : String) :
    (trimBlank s.toList = [] ∧ ofText s = zero false) ∨
    (∃ mark cs, (mark = 'x' ∨ mark = 'X') ∧ trimBlank s.toList = '0' :: mark :: cs ∧
      ofText s = (readHex? cs).elim notANumber ofNat) ∨
    (trimBlank s.toList ≠ [] ∧ (∀ ds, ¬ IsHex ds (trimBlank s.toList)) ∧
      ofText s = readWord (trimBlank s.toList)) := by
  unfold ofText
  split
  · next h => exact .inl ⟨h, rfl⟩
  · next cs h => exact .inr (.inl ⟨'x', cs, .inl rfl, h, by cases readHex? cs <;> rfl⟩)
  · next cs h => exact .inr (.inl ⟨'X', cs, .inr rfl, h, by cases readHex? cs <;> rfl⟩)
  · next hne hx hX =>
    refine .inr (.inr ⟨hne, ?_, rfl⟩)
    rintro ds ⟨-, -, mark, plus, rfl | rfl, -, h⟩
    · exact hx _ h
    · exact hX _ h

/-- Beside blank texts, the texts that are numbers are the infinities, the decimal numerals, and
the hexadecimal numerals of numbers below `2 ^ 64`, with blanks around them. -/
theorem ofText_isNaN_iff (s : String) : ∃ cs, IsTrimmed s.toList cs ∧
    ((ofText s).isNaN = false ↔ cs = [] ∨ IsInfinity cs ∨ IsDecimal cs ∨
      ∃ ds, IsHex ds cs ∧ hexNumber ds < 0x10000000000000000) ∧
    (cs = [] → ofText s = zero false) ∧
    ∀ ds, IsHex ds cs → hexNumber ds < 0x10000000000000000 → ofText s = ofNat (hexNumber ds) := by
  refine ⟨_, isTrimmed_trimBlank _, ?_⟩
  rcases ofText_cases s with ⟨hcs, heq⟩ | ⟨mark, cs, hmark, hcs, heq⟩ | ⟨hne, hhex, heq⟩
  · rw [hcs, heq]
    refine ⟨⟨fun _ => .inl rfl, fun _ => isNaN_ofPattern false (Nat.zero_le _)⟩, fun _ => rfl, ?_⟩
    rintro ds ⟨-, -, mark, plus, -, -, h⟩
    cases h
  · rw [hcs, heq]
    have hinfinity : ¬ IsInfinity ('0' :: mark :: cs) := by
      rintro ⟨sign, rfl | rfl | rfl, h⟩ <;> cases h
    have hdecimal : ¬ IsDecimal ('0' :: mark :: cs) := by
      intro h
      have hplain := (isPlain_cases (h.isPlain mark (by simp))).2.2
      rcases hmark with rfl | rfl <;> exact hplain (by decide)
    refine ⟨?_, fun h => absurd h (by simp), fun ds hds hlt => ?_⟩
    · rw [isNaN_readHex? hmark, or_iff_right (by simp), or_iff_right hinfinity,
        or_iff_right hdecimal]
    · obtain ⟨hne, hds, mark', plus, -, hplus, h⟩ := hds
      cases h
      rw [readHex?_eq_some.mpr ⟨plus, ds, hplus, rfl, hne, hds, rfl, hlt⟩]
      rfl
  · rw [heq, isNaN_readWord, or_iff_right hne]
    refine ⟨or_congr Iff.rfl (or_iff_left ?_).symm, fun h => absurd h hne,
      fun ds hds => absurd hds (hhex ds)⟩
    rintro ⟨ds, hds, -⟩
    exact hhex ds hds

/-- A hexadecimal numeral can be no number, and a text with a plus among its digits can be one. -/
theorem ofText_hexadecimal_differs :
    (IsHex "10000000000000000".toList "0x10000000000000000".toList ∧
      (ofText "0x10000000000000000").isNaN = true) ∧
    (¬ (∀ c ∈ "+1F".toList, IsHexDigit c) ∧ ofText "0x+1F" = ofNat 31) := by
  refine ⟨⟨⟨by decide, (hexValueOf?_eq_some.mp rfl).1, 'x', [], .inl rfl, .inl rfl, rfl⟩,
    by decide +kernel⟩, fun h => absurd (h '+' (by decide)) (by unfold IsHexDigit; decide), rfl⟩

end TreeScript.Number
