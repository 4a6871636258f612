import Std.Data.TreeMap.Lemmas
import TreeScript.Proofs.Lowering.Built

/-!
# Code only grows

Generating code never takes anything back: instructions, operands, placed labels, finished units and
listed functions stay where they are.  Operands are listed once, so that an index that was given out
for an operand leads back to it.
-/

namespace TreeScript

namespace Code

def Extends (xs ys : Array α) : Prop := ∀ ⦃i : Nat⦄ ⦃x : α⦄, xs[i]? = some x → ys[i]? = some x

theorem Extends.trans {xs ys zs : Array α} (h : Extends xs ys) (h' : Extends ys zs) :
    Extends xs zs :=
  fun _ _ hx => h' (h hx)

theorem extends_refl (xs : Array α) : Extends xs xs := fun _ _ => id

theorem extends_push (xs : Array α) (x : α) : Extends xs (xs.push x) := by
  intro i y h
  have hi := (Array.getElem?_eq_some_iff.mp h).1
  rw [Array.getElem?_push, if_neg (Nat.ne_of_lt hi)]
  exact h

/-! ## Operands -/

instance : Std.TransCmp OperandKey.order := by
  unfold OperandKey.order
  infer_instance

theorem OperandKey.eq_of_order {k k' : OperandKey} (h : order k k' = .eq) : k = k' := by
  simp only [order, compareLex, compareOn, Ordering.then_eq_eq, Std.compare_eq_iff_eq] at h
  obtain ⟨hr, hw, ht⟩ := h
  cases k with
  | undefined =>
    cases k' with
    | undefined => rfl
    | _ => cases hr
  | null =>
    cases k' with
    | null => rfl
    | _ => cases hr
  | boolean b =>
    cases k' with
    | boolean b' => cases b <;> cases b' <;> first | rfl | cases hw
    | _ => cases hr
  | number bits =>
    cases k' with
    | number bits' => exact congrArg number hw
    | _ => cases hr
  | string s =>
    cases k' with
    | string s' => exact congrArg string ht
    | _ => cases hr
  | binding name =>
    cases k' with
    | binding name' => exact congrArg binding ht
    | _ => cases hr
  | temporary index =>
    cases k' with
    | temporary index' => exact congrArg temporary hw
    | _ => cases hr

theorem toBits_inj {x y : Float} (h : x.toBits.toNat = y.toBits.toNat) : x = y := by
  obtain ⟨⟨bits, hx⟩⟩ := x
  obtain ⟨⟨bits', hy⟩⟩ := y
  have : bits = bits' := UInt64.toNat_inj.mp h
  cases this
  rfl

theorem Operand.key_inj {o o' : Operand} (h : o.key = o'.key) : o = o' := by
  rcases o with (_ | _ | b | x | t) | name | index
  · rcases o' with (_ | _ | _ | _ | _) | _ | _ <;> first | rfl | cases h
  · rcases o' with (_ | _ | _ | _ | _) | _ | _ <;> first | rfl | cases h
  · rcases o' with (_ | _ | _ | _ | _) | _ | _ <;> cases h
    rfl
  · rcases o' with (_ | _ | _ | y | _) | _ | _
    case constant.number => rw [toBits_inj (OperandKey.number.inj h)]
    all_goals cases h
  · rcases o' with (_ | _ | _ | _ | _) | _ | _ <;> cases h
    rfl
  · rcases o' with (_ | _ | _ | _ | _) | _ | _ <;> cases h
    rfl
  · rcases o' with (_ | _ | _ | _ | _) | _ | _ <;> cases h
    rfl

namespace Builder

def Sound (b : Builder) : Prop :=
  ∀ {k : OperandKey} {i : OperandIndex}, b.interned[k]? = some i →
    ∃ o, b.operands[i]? = some o ∧ o.key = k

structure Le (b b' : Builder) : Prop where
  instructions : Extends b.instructions b'.instructions
  operands : Extends b.operands b'.operands
  labels : ∀ {l offset : Nat}, b.labels[l]? = some (some offset) →
    b'.labels[l]? = some (some offset)
  temps : b.tempCount ≤ b'.tempCount
  labelCount : b.labels.size ≤ b'.labels.size

theorem Sound.push {b : Builder} (hs : b.Sound) (o : Operand) : Sound { b with
    operands := b.operands.push o
    interned := b.interned.insert o.key b.operands.size } := by
  intro k i hk
  rw [Std.TreeMap.getElem?_insert] at hk
  split at hk
  · next ho =>
    cases hk
    exact ⟨o, Array.getElem?_push_size, OperandKey.eq_of_order ho⟩
  · obtain ⟨o', ho', hk'⟩ := hs hk
    exact ⟨o', extends_push _ _ ho', hk'⟩

theorem Le.refl (b : Builder) : b.Le b :=
  ⟨extends_refl _, extends_refl _, id, Nat.le_refl _, Nat.le_refl _⟩

theorem Le.trans {b b' b'' : Builder} (h : b.Le b') (h' : b'.Le b'') : b.Le b'' where
  instructions := h.instructions.trans h'.instructions
  operands := h.operands.trans h'.operands
  labels hl := h'.labels (h.labels hl)
  temps := Nat.le_trans h.temps h'.temps
  labelCount := Nat.le_trans h.labelCount h'.labelCount

end Builder

namespace Registry

structure Le (r r' : Registry) : Prop where
  slots : Extends r.slots r'.slots
  functions : Extends r.functions r'.functions

theorem Le.refl (r : Registry) : r.Le r := ⟨extends_refl _, extends_refl _⟩

theorem Le.trans {r r' r'' : Registry} (h : r.Le r') (h' : r'.Le r'') : r.Le r'' :=
  ⟨h.slots.trans h'.slots, h.functions.trans h'.functions⟩

theorem Le.units {r r' : Registry} (h : r.Le r') {id : UnitId} {u : CodeUnit}
    (hu : r.unit? id = some u) : r'.unit? id = some u := by
  obtain ⟨slot, hs, hu⟩ := Option.bind_eq_some_iff.mp hu
  exact Option.bind_eq_some_iff.mpr ⟨slot, h.slots hs, hu⟩

theorem reserve_eq {r r' : Registry} {role : Role} {id : UnitId}
    (h : r.reserve role = (.ok id, r')) :
    id = r.slots.size ∧ r' =
      ⟨r.slots.push ⟨r.nextName role, role, none⟩, r.names.insert (r.nextName role) r.slots.size,
        (r.countUp role).counters, r.functions⟩ := by
  unfold reserve at h
  dsimp only at h
  split at h
  · cases h
  · cases h
    exact ⟨rfl, rfl⟩

theorem le_reserve {r r' : Registry} {role : Role} {id : UnitId}
    (h : r.reserve role = (.ok id, r')) : r.Le r' := by
  obtain ⟨-, rfl⟩ := reserve_eq h
  exact ⟨extends_push _ _, extends_refl _⟩

section

variable {r0 r r' : Registry} {role : Role} {id : UnitId} (u : CodeUnit)

theorem slot_reserved (hr : r0.reserve role = (.ok id, r)) (hle : r.Le r') :
    r'.slots[id]? = some ⟨r0.nextName role, role, none⟩ := by
  obtain ⟨rfl, rfl⟩ := reserve_eq hr
  exact hle.slots Array.getElem?_push_size

theorem unit?_fill_self (hr : r0.reserve role = (.ok id, r)) (hle : r.Le r') :
    (r'.fill id u).unit? id = some u := by
  unfold fill unit?
  rw [Array.getElem?_modify, if_pos rfl, slot_reserved hr hle]
  rfl

theorem slots_fill_ne (r : Registry) {id' : UnitId} (h : id ≠ id') :
    (r.fill id u).slots[id']? = r.slots[id']? := by
  unfold fill
  rw [Array.getElem?_modify, if_neg h]

theorem le_fill (hr : r0.reserve role = (.ok id, r)) (hle : r.Le r') : r0.Le (r'.fill id u) := by
  have hle' := (le_reserve hr).trans hle
  obtain ⟨rfl, -⟩ := reserve_eq hr
  refine ⟨?_, hle'.functions⟩
  intro id' slot hs
  have hlt := (Array.getElem?_eq_some_iff.mp hs).1
  rw [slots_fill_ne u r' (Nat.ne_of_gt hlt)]
  exact hle'.slots hs

theorem unit?_fill_of_unit? (hr : r0.reserve role = (.ok id, r)) (hle : r.Le r') {id' : UnitId}
    {u' : CodeUnit} (hu : r'.unit? id' = some u') : (r'.fill id u).unit? id' = some u' := by
  by_cases h : id = id'
  · cases h
    unfold unit? at hu
    rw [slot_reserved hr hle] at hu
    cases hu
  · unfold unit?
    rw [slots_fill_ne u r' h]
    exact hu

end

end Registry

end Code

namespace Lowering

open Code

/-- From one stage to another nothing was taken back. -/
structure Stage.Grows (s s' : Stage) : Prop where
  builder : s.builder.Le s'.builder
  registry : s.registry.Le s'.registry
  sound : s.builder.Sound → s'.builder.Sound

namespace Stage.Grows

theorem refl (s : Stage) : s.Grows s := ⟨.refl _, .refl _, id⟩

theorem trans {s s' s'' : Stage} (h : s.Grows s') (h' : s'.Grows s'') : s.Grows s'' :=
  ⟨h.builder.trans h'.builder, h.registry.trans h'.registry, fun hs => h'.sound (h.sound hs)⟩

theorem offset_le {s s' : Stage} (h : s.Grows s') : s.offset ≤ s'.offset := by
  refine Nat.le_of_not_lt fun hlt => ?_
  have hlast : s'.offset < s.builder.instructions.size := hlt
  have hget := h.builder.instructions (Array.getElem?_eq_getElem hlast)
  exact Nat.lt_irrefl _ (Array.getElem?_eq_some_iff.mp hget).1

end Stage.Grows

theorem grows_emit (s : Stage) (i : Instruction) :
    s.Grows ⟨s.builder.emit i, s.registry⟩ :=
  ⟨⟨extends_push _ _, extends_refl _, id, Nat.le_refl _, Nat.le_refl _⟩, .refl _, id⟩

theorem grows_newLabels (s : Stage) (count : Nat) :
    s.Grows ⟨(s.builder.newLabels count).2, s.registry⟩ := by
  refine ⟨⟨extends_refl _, extends_refl _, ?_, Nat.le_refl _, ?_⟩, .refl _, id⟩
  · intro l offset hl
    have hlt := (Array.getElem?_eq_some_iff.mp hl).1
    show (s.builder.labels ++ Array.replicate count none)[l]? = _
    rw [Array.getElem?_append_left hlt]
    exact hl
  · show _ ≤ (s.builder.labels ++ Array.replicate count none).size
    rw [Array.size_append]
    exact Nat.le_add_right _ _

theorem grows_place {s : Stage} {l : Label} (h : s.builder.labels[l]? = some none) :
    s.Grows ⟨{ s.builder with labels := s.builder.labels.setIfInBounds l (some s.offset) },
      s.registry⟩ := by
  refine ⟨⟨extends_refl _, extends_refl _, ?_, Nat.le_refl _,
    Nat.le_of_eq Array.size_setIfInBounds.symm⟩, .refl _, id⟩
  intro l' offset hl
  have hne : l ≠ l' := by
    rintro rfl
    rw [h] at hl
    cases hl
  rw [Array.getElem?_setIfInBounds_ne hne]
  exact hl

theorem grows_intern {s s' : Stage} {o : Operand} {i : OperandIndex}
    (h : Yields (intern o) s i s') : s.Grows s' := by
  rcases yields_intern h with ⟨-, rfl⟩ | ⟨-, rfl, -, rfl⟩
  · exact .refl _
  · exact ⟨⟨extends_refl _, extends_push _ _, id, Nat.le_refl _, Nat.le_refl _⟩, .refl _,
      fun hs => hs.push o⟩

theorem grows_allocate (s : Stage) (count : Nat) :
    s.Grows ⟨{ s.builder with tempCount := s.temps + count }, s.registry⟩ :=
  ⟨⟨extends_refl _, extends_refl _, id, Nat.le_add_right _ _, Nat.le_refl _⟩, .refl _, id⟩

theorem sound_fresh (name : String) (registry : Registry) :
    (Stage.fresh name registry).builder.Sound := by
  intro k i hk
  exact absurd hk (by simp [Stage.fresh])

theorem grows_of_built {B : Role → Bool → Gen Unit → Prop} {α : Type} {g : Gen α} {s s' : Stage}
    {x : α} (hg : Built B g) (h : Yields g s x s') : s.Grows s' := by
  induction hg generalizing s s' with
  | pure y =>
    obtain ⟨-, rfl⟩ := yields_pure.mp h
    exact .refl s
  | bind _ _ ihg ihf =>
    obtain ⟨y, s1, h1, h2⟩ := yields_bind.mp h
    exact (ihg h1).trans (ihf y h2)
  | emit i =>
    cases yields_emit.mp h
    exact grows_emit s i
  | newLabels count =>
    obtain ⟨-, rfl⟩ := yields_newLabels.mp h
    exact grows_newLabels s count
  | place l =>
    obtain ⟨hl, rfl⟩ := yields_place.mp h
    exact grows_place hl
  | intern o => exact grows_intern h
  | allocate count =>
    obtain ⟨-, rfl, -⟩ := yields_allocate h
    exact grows_allocate s count
  | operate op supplied =>
    obtain ⟨-, rfl⟩ := yields_operate h
    exact grows_emit s _
  | inUnit _ _ ih =>
    obtain ⟨registry, s1, unit, hr, hb, -, rfl⟩ := yields_inUnit h
    exact ⟨.refl _, Registry.le_fill unit hr (ih hb).registry, id⟩
  | addFunction info =>
    obtain ⟨-, rfl⟩ := yields_addFunction.mp h
    exact ⟨.refl _, ⟨extends_refl _, extends_push _ _⟩, id⟩
  | unsupported construct => exact absurd h not_yields_unsupported
  | tooMany what => exact absurd h not_yields_tooMany

end Lowering

end TreeScript
