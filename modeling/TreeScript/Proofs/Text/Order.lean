import Mathlib.Data.List.Lex
import TreeScript.Machine.Apply

/-!
# The order of texts

Texts are equal if they have the same characters, and one comes before the other by the order of
their sixteen-bit units.  The two fit together because the units tell the characters: a character
outside the basic plane begins with a unit that is no character by itself, so no character's units
begin another's (`charUnits_append`).

`texts_totally_ordered` is the result for the five operations that compare texts.
-/

namespace TreeScript

namespace Text

/-! ## Units tell characters -/

theorem toNat_char (c : Char) : c.toNat < 0xD800 ∨ 0xDFFF < c.toNat ∧ c.toNat < 0x110000 := c.valid

theorem charUnits_append {c d : Char} {as bs : List Nat}
    (h : charUnits c ++ as = charUnits d ++ bs) : c = d ∧ as = bs := by
  have hc := toNat_char c
  have hd := toNat_char d
  suffices hsame : c.toNat = d.toNat ∧ as = bs from ⟨Char.toNat_inj.mp hsame.1, hsame.2⟩
  unfold charUnits at h
  by_cases hc' : c.toNat < 0x10000 <;> by_cases hd' : d.toNat < 0x10000
  · simpa [hc', hd'] using h
  · simp only [hc', hd', if_true, if_false, List.cons_append, List.cons.injEq] at h
    omega
  · simp only [hc', hd', if_true, if_false, List.cons_append, List.cons.injEq] at h
    omega
  · simp only [hc', hd', if_false, List.cons_append, List.nil_append, List.cons.injEq] at h
    obtain ⟨hhigh, hlow, hrest⟩ := h
    exact ⟨by omega, hrest⟩

theorem units_inj {s t : String} (h : units s = units t) : s = t := by
  have hchars (cs ds : List Char) (h : cs.flatMap charUnits = ds.flatMap charUnits) : cs = ds := by
    have hne (c : Char) (as : List Nat) : charUnits c ++ as ≠ [] := by
      unfold charUnits
      split <;> simp
    induction cs generalizing ds with
    | nil =>
      cases ds with
      | nil => rfl
      | cons d ds => exact absurd h.symm (hne d _)
    | cons c cs ih =>
      cases ds with
      | nil => exact absurd h (hne c _)
      | cons d ds =>
        obtain ⟨rfl, hrest⟩ := charUnits_append h
        rw [ih ds hrest]
  exact String.toList_inj.mp (hchars _ _ h)

/-! ## Order -/

theorem unitsBefore_eq (as bs : List Nat) : unitsBefore as bs = decide (as < bs) := by
  rw [Bool.eq_iff_iff, decide_eq_true_iff]
  fun_induction unitsBefore as bs with
  | case1 as => simp
  | case2 b bs => simp
  | case3 a as b bs ih => simp [List.cons_lt_cons_iff, ih]

theorem before_eq (a b : String) : before a b = decide (units a < units b) :=
  unitsBefore_eq (units a) (units b)

/-- A character outside the basic plane comes before the last one inside it. -/
example : units "😀" = [0xD83D, 0xDE00] ∧ before "😀" "\uFFFF" = true := by decide +kernel

end Text

open Code (Operation)
open Text (units)

/-- What an operation says of two texts, if that is yes or no. -/
def verdict? (r : Realm) (op : Operation) (a b : String) : Option Bool :=
  match apply op [.string a, .string b] r with
  | .ok (.boolean answer) _ => some answer
  | _ => none

variable (r : Realm) (a b c : String)

theorem verdict?_less : verdict? r .less a b = some (decide (units a < units b)) := by
  show some (some (Text.before a b) == some true) = _
  rw [Text.before_eq]
  simp

theorem verdict?_less_iff : verdict? r .less a b = some true ↔ units a < units b := by
  simp [verdict?_less]

theorem verdict?_strictEqual_iff : verdict? r .strictEqual a b = some true ↔ a = b := by
  show some (a == b) = some true ↔ _
  simp

/-- Texts are in a strict total order, the lexicographic order of their units, and the operations
that compare texts agree with it, with each other and with equality. -/
theorem texts_totally_ordered :
    verdict? r .less a b = some (decide (units a < units b)) ∧
    (verdict? r .less a b = some true → verdict? r .less b c = some true →
      verdict? r .less a c = some true) ∧
    [verdict? r .less a b, verdict? r .strictEqual a b, verdict? r .less b a].count (some true) =
      1 ∧
    verdict? r .greater a b = verdict? r .less b a ∧
    verdict? r .lessEqual a b = (verdict? r .greater a b).map not ∧
    verdict? r .greaterEqual a b = (verdict? r .less a b).map not := by
  have hnot (x : Bool) : some (some x == some false) = (some (some x == some true)).map not := by
    cases x <;> rfl
  refine ⟨verdict?_less r a b, ?_, ?_, rfl, hnot (Text.before b a), hnot (Text.before a b)⟩
  · simp only [verdict?_less_iff]
    exact lt_trans
  · simp only [List.count_cons, List.count_nil, beq_iff_eq, verdict?_less_iff,
      verdict?_strictEqual_iff]
    rcases lt_trichotomy (units a) (units b) with hlt | heq | hgt
    · have hne : a ≠ b := fun hab => absurd hlt (hab ▸ lt_irrefl _)
      rw [if_pos hlt, if_neg hne, if_neg (lt_asymm hlt)]
    · obtain rfl := Text.units_inj heq
      rw [if_pos rfl, if_neg (lt_irrefl _)]
    · have hne : a ≠ b := fun hab => absurd hgt (hab ▸ lt_irrefl _)
      rw [if_pos hgt, if_neg hne, if_neg (lt_asymm hgt)]

end TreeScript
