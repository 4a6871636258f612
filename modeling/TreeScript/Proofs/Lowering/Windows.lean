import TreeScript.Proofs.Lowering.Safety
import TreeScript.Proofs.Machine.Stretches

/-!
# Statements in their stretch of the code

Code does not depend on what was generated before it, so it can as well stand in a unit of which
nothing else is left.  There the discipline of the stack says that a statement is not left but at
its end, with one completion more on the stack.
-/

namespace TreeScript

namespace Lowering

open Code Syntax

variable {α : Type} {a : Artifact} {u : CodeUnit} {s s' : Stage} {first temp : Nat}

/-! ## Windows -/

/-- Puts a write to a temporary in place of the code up to `first`. -/
def hide (first temp : Nat) (code : Array Instruction) : Array Instruction :=
  code.mapIdx fun k i => if k < first then .storeTemp temp else i

theorem getElem?_hide (code : Array Instruction) (k : Nat) :
    (hide first temp code)[k]? =
      code[k]?.map fun i => if k < first then .storeTemp temp else i :=
  Array.getElem?_mapIdx

theorem hide_push {code : Array Instruction} (h : first ≤ code.size) (i : Instruction) :
    hide first temp (code.push i) = (hide first temp code).push i := by
  unfold hide
  rw [Array.mapIdx_push, if_neg (Nat.not_lt.mpr h)]

def Stage.hiding (first temp : Nat) (s : Stage) : Stage :=
  ⟨{ s.builder with instructions := hide first temp s.builder.instructions }, s.registry⟩

theorem offset_hiding (s : Stage) : (s.hiding first temp).offset = s.offset := Array.size_mapIdx

theorem yields_hiding {B : Role → Bool → Gen Unit → Prop} {g : Gen α} {x : α} (hg : Built B g)
    (h : Yields g s x s') (hfirst : first ≤ s.offset) :
    Yields g (s.hiding first temp) x (s'.hiding first temp) := by
  induction hg generalizing s s' with
  | pure y =>
    obtain ⟨rfl, rfl⟩ := yields_pure.mp h
    exact yields_pure.mpr ⟨rfl, rfl⟩
  | bind hg _ ihg ihf =>
    obtain ⟨y, s1, h1, h2⟩ := yields_bind.mp h
    have hgrows := (grows_of_built hg h1).offset_le
    exact yields_bind.mpr ⟨y, _, ihg h1 hfirst, ihf y h2 (Nat.le_trans hfirst hgrows)⟩
  | emit i =>
    cases yields_emit.mp h
    refine yields_emit.mpr ?_
    unfold Stage.hiding Builder.emit
    rw [hide_push hfirst]
  | newLabels count =>
    obtain ⟨rfl, rfl⟩ := yields_newLabels.mp h
    exact yields_newLabels.mpr ⟨rfl, rfl⟩
  | place l =>
    obtain ⟨hl, rfl⟩ := yields_place.mp h
    refine yields_place.mpr ⟨hl, ?_⟩
    rw [offset_hiding]
    rfl
  | intern o =>
    refine yields_build.mpr ?_
    unfold Builder.intern Stage.hiding
    rcases yields_intern h with ⟨hi, rfl⟩ | ⟨hn, rfl, hlt, rfl⟩
    · rw [hi]
      exact ⟨rfl, rfl⟩
    · rw [hn]
      rw [if_pos hlt]
      exact ⟨rfl, rfl⟩
  | allocate count =>
    obtain ⟨rfl, rfl, hle⟩ := yields_allocate h
    refine yields_build.mpr ⟨?_, rfl⟩
    exact if_pos hle
  | operate op supplied =>
    obtain ⟨harity, rfl⟩ := yields_operate h
    refine yields_build.mpr ⟨?_, rfl⟩
    unfold Builder.operate Stage.hiding Builder.emit
    rw [if_pos harity, hide_push hfirst]
  | inUnit _ _ _ =>
    obtain ⟨hrun, hbuilder⟩ := yields_lift.mp h
    refine yields_lift.mpr ⟨hrun, ?_⟩
    unfold Stage.hiding
    rw [hbuilder]
  | addFunction info =>
    obtain ⟨rfl, rfl⟩ := yields_addFunction.mp h
    exact yields_addFunction.mpr ⟨rfl, rfl⟩
  | unsupported construct => exact absurd h not_yields_unsupported
  | tooMany what => exact absurd h not_yields_tooMany

/-- The unit with the code from `first` to `last` alone: what stands before asks for a temporary
that the unit does not have. -/
def window (u : CodeUnit) (first last : Nat) : CodeUnit :=
  { u with instructions := (hide first u.tempCount u.instructions).extract 0 last }

theorem getElem?_window (first last k : Nat) :
    (window u first last).instructions[k]? = if k < last then
      u.instructions[k]?.map fun i => if k < first then .storeTemp u.tempCount else i
      else none := by
  show ((hide first u.tempCount u.instructions).extract 0 last)[k]? = _
  rw [Array.getElem?_extract, Nat.sub_zero, Nat.zero_add, getElem?_hide]
  have hsize : (hide first u.tempCount u.instructions).size = u.instructions.size :=
    Array.size_mapIdx
  by_cases hk : k < last
  · rw [if_pos hk]
    by_cases hin : k < u.instructions.size
    · rw [if_pos (by omega)]
    · rw [if_neg (by omega), Array.getElem?_eq_none (Nat.le_of_not_lt hin)]
      rfl
  · rw [if_neg hk, if_neg (by omega)]

theorem laid_window {g : Gen α} [hg : Composed g] {x : α} (h : Laid a u g s x s') :
    Laid a (window u s.offset s'.offset) g (s.hiding s.offset u.tempCount) x
      (s'.hiding s.offset u.tempCount) where
  yields := yields_hiding hg h.yields (Nat.le_refl _)
  sound := h.sound
  within :=
    { instructions := fun k i hi => by
        rw [getElem?_window]
        have hi : (hide s.offset u.tempCount s'.builder.instructions)[k]? = some i := hi
        rw [getElem?_hide] at hi
        obtain ⟨j, hj, rfl⟩ := Option.map_eq_some_iff.mp hi
        have hlast : k < s'.offset := (Array.getElem?_eq_some_iff.mp hj).1
        rw [if_pos hlast, h.within.instructions hj]
        rfl
      operands := h.within.operands
      labels := h.within.labels
      temps := h.within.temps
      units := h.within.units
      functions := h.within.functions }

theorem covers_window {rules : Rules} {last : Nat} :
    Machine.Covers a rules (window u first last) u fun k => first ≤ k ∧ k < last := by
  intro k i hi runs Q v hneeds
  rw [getElem?_window] at hi
  by_cases hlast : k < last
  · rw [if_pos hlast] at hi
    obtain ⟨j, hj, rfl⟩ := Option.map_eq_some_iff.mp hi
    by_cases hfirst : k < first
    · rw [if_pos hfirst] at hneeds
      exact absurd hneeds.1 (Nat.lt_irrefl _)
    · rw [if_neg hfirst] at hneeds ⊢
      refine ⟨hj, ⟨Nat.le_of_not_lt hfirst, hlast⟩, ?_⟩
      cases j <;> exact hneeds
  · rw [if_neg hlast] at hi
    cases hi

end Lowering

end TreeScript
