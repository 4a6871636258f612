import TreeScript.Proofs.Number.Whole
import TreeScript.Proofs.Program.Texts
import TreeScript.Realm.Comparison

/-!
# Equality with conversion

`looseEquals` compares what both values convert to.  The rules of the language convert one side at a
time instead and then start again, booleans first and objects last: `equate?` follows them, for at
most so many steps.  In a realm where every object has a text they come to an end with the same
answer, and `looseEquals_extends_strictEquals` says what kind of relation that is.
-/

namespace TreeScript

namespace Value

def sameType : Value → Value → Bool
  | undefined, undefined | null, null | boolean _, boolean _ | number _, number _
  | string _, string _ | object _, object _ => true
  | _, _ => false

theorem primitiveEquals_comm (a b : Value) : a.primitiveEquals b = b.primitiveEquals a := by
  cases a <;> cases b <;> simp only [primitiveEquals, Bool.beq_comm]
  exact Number.beq_comm _ _

theorem ofBool_beq (p q : Bool) : (ofBool p == ofBool q) = (p == q) := by
  cases p <;> cases q <;> decide +kernel

end Value

namespace Realm

open Value

/-- Equality by the rules, in at most `n` steps and with at most `n` levels in a text. -/
def equate? (r : Realm) : Nat → Value → Value → Option Bool
  | 0, _, _ => none
  | n + 1, a, b =>
    if a.sameType b then some (a.strictEquals b)
    else
      match a, b with
      | .null, .undefined | .undefined, .null => some true
      | .number x, .string s | .string s, .number x => some (x == Number.ofText s)
      | .boolean p, b => equate? r n (.number (ofBool p)) b
      | a, .boolean p => equate? r n a (.number (ofBool p))
      | .number _, .object _ | .string _, .object _ => do
        equate? r n a (.string (← r.writeText? n [] b))
      | .object _, .number _ | .object _, .string _ => do
        equate? r n (.string (← r.writeText? n [] a)) b
      | _, _ => some false

/-- Every object has a text. -/
def EndsTexts (r : Realm) : Prop := ∀ ref, ∃ n, (r.writeText? n [] (.object ref)).isSome

variable {r : Realm}

theorem EndsTexts.writeText? (h : r.EndsTexts) (ref : ObjectRef) {n : Nat} (hn : r.textLevels ≤ n) :
    r.writeText? n [] (.object ref) = some (r.toText (.object ref)) := by
  obtain ⟨k, hk⟩ := h ref
  obtain ⟨text, htext⟩ := Option.isSome_iff_exists.mp (isSome_toText (not_knotted_of_isSome hk))
  rw [toText_eq htext]
  exact writeText?_of_le hn htext

/-- A boolean is counted first, then an object is written, and then primitive values are left. -/
theorem EndsTexts.equate? (h : r.EndsTexts) (a b : Value) {n : Nat} (hn : r.textLevels ≤ n) :
    r.equate? (n + 3) a b = some (r.looseEquals a b) := by
  have hwrite {k : Nat} (ref : ObjectRef) :
      r.writeText? (n + k) [] (.object ref) = some (r.toText (.object ref)) :=
    h.writeText? ref (Nat.le_add_right_of_le hn)
  cases a <;> cases b <;>
    simp [Realm.equate?, looseEquals, sameType, strictEquals, toPrimitive, countBoolean,
      primitiveEquals, ofBool_beq, hwrite]

theorem looseEquals_comm (a b : Value) : r.looseEquals a b = r.looseEquals b a := by
  cases a <;> cases b <;> simp only [looseEquals]
  case object.object x y => exact decide_eq_decide.mpr eq_comm
  all_goals exact primitiveEquals_comm _ _

theorem looseEquals_of_sameType {a b : Value} (h : a.sameType b = true) :
    r.looseEquals a b = a.strictEquals b := by
  revert h
  cases a <;> cases b <;> simp [sameType, looseEquals, toPrimitive, countBoolean, primitiveEquals,
    strictEquals, ofBool_beq]

theorem looseEquals_of_isNullish {a : Value} (h : a.isNullish = true) (b : Value) :
    r.looseEquals a b = b.isNullish := by
  revert h
  cases a <;> cases b <;> simp [isNullish, looseEquals, toPrimitive, countBoolean, primitiveEquals]

/-- Equality with conversion is symmetric and is equality without conversion on values of one type.
`undefined` and `null` are equal to themselves and each other alone, and an object is equal to a
boolean, a number or a text if its text is.  Going by the rules gives that answer in finitely many
steps. -/
theorem looseEquals_extends_strictEquals (h : r.EndsTexts) (a b : Value) :
    (∃ n, ∀ k, n ≤ k → r.equate? k a b = some (r.looseEquals a b)) ∧
    r.looseEquals a b = r.looseEquals b a ∧
    (a.sameType b = true → r.looseEquals a b = a.strictEquals b) ∧
    (a.isNullish = true → r.looseEquals a b = b.isNullish) ∧
    ∀ ref n text, a = .object ref → r.writeText? n [] a = some text →
      b.isNullish = false → b.object? = none →
      r.looseEquals a b = r.looseEquals (.string text) b := by
  refine ⟨⟨r.textLevels + 3, fun k hk => ?_⟩, looseEquals_comm a b, looseEquals_of_sameType,
    fun ha => looseEquals_of_isNullish ha b, ?_⟩
  · obtain ⟨n, rfl⟩ := Nat.exists_eq_add_of_le' (Nat.le_of_add_left_le hk)
    exact h.equate? a b (Nat.le_of_add_le_add_right hk)
  · rintro ref n text rfl htext hnullish hobject
    cases b with
    | undefined | null => cases hnullish
    | object ref' => cases hobject
    | boolean p | number x | string s => simp only [looseEquals, toPrimitive, toText_eq htext]

/-- An array that holds itself and nothing else is equal to zero. -/
theorem looseEquals_ownElement : ∃ r : Realm, r.EndsTexts ∧
    (r.getFrom ⟨1⟩ "0").object? = some ⟨1⟩ ∧
    r.looseEquals (.object ⟨1⟩) (.number (Number.zero false)) = true := by
  let r : Realm := ⟨#[{ kind := .ordinary }, .ofElements ⟨0⟩ [.object ⟨1⟩]], #[], #[], 0, 0, false,
    .empty⟩
  have htext : r.writeText? 2 [] (.object ⟨1⟩) = some "" := by decide +kernel
  have hends : r.EndsTexts := by
    rintro ⟨_ | _ | i⟩
    · exact ⟨1, rfl⟩
    · exact ⟨2, Option.isSome_of_eq_some htext⟩
    · exact ⟨1, rfl⟩
  obtain ⟨-, -, -, -, hobject⟩ :=
    looseEquals_extends_strictEquals hends (.object ⟨1⟩) (.number (Number.zero false))
  refine ⟨r, hends, by decide +kernel, ?_⟩
  decide +kernel

end Realm

end TreeScript
