import Mathlib.Data.List.Nodup
import TreeScript.Proofs.Lowering.Sources

/-!
# References lead somewhere

What the code of a unit refers to is there when the code is generated, and stays there.  `Ready` is
what holds of a unit while it grows: the references of its code, the labels that are still to be
placed, the temporaries so far.  A step of code generation that is formed keeps it, so it holds when
the unit is finished, and then no label is left to be placed.
-/

namespace TreeScript

namespace Code

namespace Builder

variable {b b' : Builder}

/-- A reference leads somewhere in the unit so far. -/
def Has (b : Builder) : Reference → Prop
  | .label l => l < b.labels.size
  | .operand i => i < b.operands.size
  | .binding i => ∃ name, b.operands[i]? = some (.binding name)
  | .temporary index => index < b.tempCount

theorem Has.mono (hle : b.Le b') {r : Reference} (h : b.Has r) : b'.Has r := by
  cases r with
  | label l => exact Nat.lt_of_lt_of_le h hle.labelCount
  | operand i =>
    have hi := hle.operands (Array.getElem?_eq_getElem h)
    exact (Array.getElem?_eq_some_iff.mp hi).1
  | binding i =>
    obtain ⟨name, hi⟩ := h
    exact ⟨name, hle.operands hi⟩
  | temporary index => exact Nat.lt_of_lt_of_le h hle.temps

end Builder

end Code

namespace Lowering

open Code

/-- A stage at which `refs` is there to refer to, just the labels `unplaced` are still to be placed
and `t` temporaries are taken. -/
structure Stage.Ready (refs : List Reference) (unplaced : List Label) (t : Nat) (s : Stage) :
    Prop where
  temps : s.temps = t
  known : ∀ r ∈ refs, s.builder.Has r
  pending : ∀ l, s.builder.labels[l]? = some none ↔ l ∈ unplaced
  distinct : unplaced.Nodup
  code : ∀ i ∈ s.builder.instructions, ∀ r ∈ i.references, s.builder.Has r
  temporaries : ∀ index, .temporary index ∈ s.builder.operands → index < s.builder.tempCount
  offsets : ∀ {l offset : Nat}, s.builder.labels[l]? = some (some offset) → offset ≤ s.offset
  sound : s.builder.Sound

namespace Stage.Ready

variable {known known' : List Reference} {pending : List Label} {t : Nat} {s : Stage}

theorem mono (h : s.Ready known pending t) (hk : ∀ r ∈ known', r ∈ known) :
    s.Ready known' pending t :=
  { h with known := fun r hr => h.known r (hk r hr) }

theorem code_mono (h : s.Ready known pending t) {b : Builder} (hle : s.builder.Le b) :
    ∀ i ∈ s.builder.instructions, ∀ r ∈ i.references, b.Has r :=
  fun i hi r hr => (h.code i hi r hr).mono hle

theorem known_mono (h : s.Ready known pending t) {b : Builder} (hle : s.builder.Le b) :
    ∀ r ∈ known, b.Has r :=
  fun r hr => (h.known r hr).mono hle

theorem emit (h : s.Ready known pending t) {i : Instruction} (hi : ∀ r ∈ i.references, r ∈ known)
    (r : Registry) : Ready known pending t ⟨s.builder.emit i, r⟩ where
  temps := h.temps
  known := h.known
  pending := h.pending
  distinct := h.distinct
  code j hj := by
    rcases Array.mem_push.mp hj with hj | rfl
    · exact h.code j hj
    · exact fun r hr => h.known r (hi r hr)
  temporaries := h.temporaries
  offsets hl := by
    show _ ≤ (s.builder.instructions.push i).size
    rw [Array.size_push]
    exact Nat.le_succ_of_le (h.offsets hl)
  sound := h.sound

theorem lt_of_pending (h : s.Ready known pending t) {l : Label} (hl : l ∈ pending) :
    l < s.builder.labels.size :=
  (Array.getElem?_eq_some_iff.mp ((h.pending l).mpr hl)).1

theorem newLabels (h : s.Ready known pending t) (count : Nat) :
    Ready ((List.range' s.builder.labels.size count).map .label ++ known)
      (List.range' s.builder.labels.size count ++ pending) t
      ⟨(s.builder.newLabels count).2, s.registry⟩ := by
  have hle := (grows_newLabels s count).builder
  refine ⟨h.temps, ?_, fun l => ?_, ?_, h.code_mono hle, h.temporaries, fun {l offset} hl => ?_,
    h.sound⟩
  · intro r hr
    rcases List.mem_append.mp hr with hr | hr
    · obtain ⟨l, hl, rfl⟩ := List.mem_map.mp hr
      have hsize : ((s.builder.newLabels count).2).labels.size = s.builder.labels.size + count := by
        show (s.builder.labels ++ Array.replicate count none).size = _
        rw [Array.size_append, Array.size_replicate]
      show l < _
      rw [hsize]
      exact (List.mem_range'_1.mp hl).2
    · exact h.known_mono hle r hr
  · show (s.builder.labels ++ Array.replicate count none)[l]? = some none ↔ _
    rw [List.mem_append, List.mem_range'_1, ← h.pending l]
    by_cases hl : l < s.builder.labels.size
    · grind
    · grind
  · refine List.nodup_append.mpr ⟨List.nodup_range', h.distinct, fun l hl l' hl' => ?_⟩
    have hlt := h.lt_of_pending hl'
    exact Nat.ne_of_gt (Nat.lt_of_lt_of_le hlt (List.mem_range'_1.mp hl).1)
  · change (s.builder.labels ++ Array.replicate count none)[l]? = some (some offset) at hl
    by_cases hlt : l < s.builder.labels.size
    · rw [Array.getElem?_append_left hlt] at hl
      exact h.offsets hl
    · grind

theorem place {l : Label} {before after : List Label} (h : s.Ready known (before ++ l :: after) t) :
    Ready known (before ++ after) t
      ⟨{ s.builder with labels := s.builder.labels.setIfInBounds l (some s.offset) },
        s.registry⟩ := by
  have hl := (h.pending l).mpr (List.mem_append_right _ List.mem_cons_self)
  have hlt := (Array.getElem?_eq_some_iff.mp hl).1
  have hle := (grows_place hl).builder
  have hdistinct := List.nodup_middle.mp h.distinct
  have hrest := List.nodup_cons.mp hdistinct
  refine ⟨h.temps, h.known_mono hle, fun l' => ?_, hrest.2, h.code_mono hle, h.temporaries,
    fun {l' offset} hl' => ?_, h.sound⟩
  · by_cases hne : l = l'
    · cases hne
      rw [Array.getElem?_setIfInBounds_self_of_lt hlt]
      exact iff_of_false nofun hrest.1
    · rw [Array.getElem?_setIfInBounds_ne hne, h.pending l']
      grind
  · by_cases hne : l = l'
    · cases hne
      rw [Array.getElem?_setIfInBounds_self_of_lt hlt] at hl'
      cases hl'
      exact Nat.le_refl _
    · rw [Array.getElem?_setIfInBounds_ne hne] at hl'
      exact h.offsets hl'

theorem intern {s' : Stage} {o : Operand} {i : OperandIndex} (h : s.Ready known pending t)
    (ho : ∀ {index}, o = .temporary index → .temporary index ∈ known)
    (hy : Yields (Lowering.intern o) s i s') : s'.Ready (o.references i ++ known) pending t := by
  have hgrows := grows_intern hy
  have hle := hgrows.builder
  have hindex : s'.builder.operands[i]? = some o ∧ s'.builder.labels = s.builder.labels ∧
      s'.builder.instructions = s.builder.instructions ∧
      s'.builder.tempCount = s.builder.tempCount ∧
      ∀ o' ∈ s'.builder.operands, o' ∈ s.builder.operands ∨ o' = o := by
    rcases yields_intern hy with ⟨hi, rfl⟩ | ⟨-, rfl, -, rfl⟩
    · obtain ⟨o', hi, hk⟩ := h.sound hi
      rw [Operand.key_inj hk] at hi
      exact ⟨hi, rfl, rfl, rfl, fun _ => .inl⟩
    · exact ⟨Array.getElem?_push_size, rfl, rfl, rfl, fun _ => Array.mem_push.mp⟩
  obtain ⟨hi, hlabels, hcode, htemps, hoperands⟩ := hindex
  refine ⟨htemps.trans h.temps, fun r hr => ?_, fun l => hlabels ▸ h.pending l, h.distinct,
    fun j hj => h.code_mono hle j (hcode ▸ hj), fun index hindex => ?_, fun {l offset} hl => ?_,
    hgrows.sound h.sound⟩
  · rcases List.mem_append.mp hr with hr | hr
    · have hlt := (Array.getElem?_eq_some_iff.mp hi).1
      cases o with
      | binding name =>
        simp only [Operand.references, List.mem_cons, List.not_mem_nil, or_false] at hr
        rcases hr with rfl | rfl
        · exact hlt
        · exact ⟨name, hi⟩
      | constant c | temporary index =>
        cases List.mem_singleton.mp hr
        exact hlt
    · exact h.known_mono hle r hr
  · rw [htemps]
    rcases hoperands _ hindex with hindex | rfl
    · exact h.temporaries index hindex
    · exact h.known _ (ho rfl)
  · show _ ≤ s'.builder.instructions.size
    rw [hcode]
    exact h.offsets (hlabels ▸ hl)

theorem allocate (h : s.Ready known pending t) (count : Nat) :
    Ready ((List.range' t count).map .temporary ++ known) pending (t + count)
      ⟨{ s.builder with tempCount := s.temps + count }, s.registry⟩ := by
  have hle := (grows_allocate s count).builder
  have htemps := h.temps
  refine ⟨congrArg (· + count) htemps, fun r hr => ?_, h.pending, h.distinct, h.code_mono hle,
    fun index hindex => Nat.lt_of_lt_of_le (h.temporaries index hindex) hle.temps, h.offsets,
    h.sound⟩
  rcases List.mem_append.mp hr with hr | hr
  · obtain ⟨index, hindex, rfl⟩ := List.mem_map.mp hr
    rw [htemps]
    exact (List.mem_range'_1.mp hindex).2
  · exact h.known_mono hle r hr

theorem fresh (name : String) (registry : Registry) : Ready [] [] 0 (.fresh name registry) where
  temps := rfl
  known := nofun
  pending _ := iff_of_false nofun nofun
  distinct := List.nodup_nil
  code _ hi := absurd hi (Array.not_mem_empty _)
  temporaries _ hi := absurd hi (Array.not_mem_empty _)
  offsets hl := by cases hl
  sound := sound_fresh name registry

end Stage.Ready

variable {known : List Reference} {pending : List Label} {t : Nat} {α : Type} {g : Gen α}
  {d : Demand} {ok : Prop} {Q : Result α} {s s' : Stage} {x : α}

theorem ready_of_formed (hg : Formed known pending t g d ok Q) (hs : s.Ready known pending t)
    (hy : Yields g s x s') :
    Q.is x ∧ s'.Ready (Q.known x ++ known) (Q.pending x) (t + d.temps) ∧ s.Grows s' := by
  induction hg generalizing s s' with
  | pure his hknown hpending =>
    obtain ⟨rfl, rfl⟩ := yields_pure.mp hy
    rw [hpending]
    refine ⟨his, hs.mono fun r hr => ?_, .refl s⟩
    exact (List.mem_append.mp hr).elim (hknown r) id
  | bind _ _ ihg ihf =>
    obtain ⟨y, s1, hy1, hy2⟩ := yields_bind.mp hy
    obtain ⟨his, hs1, hgrows1⟩ := ihg hs hy1
    obtain ⟨his', hs', hgrows2⟩ := ihf y his hs1 hy2
    rw [Nat.add_assoc] at hs'
    refine ⟨his', hs'.mono fun r hr => ?_, hgrows1.trans hgrows2⟩
    rcases List.mem_append.mp hr with hr | hr
    · exact List.mem_append_left _ hr
    · exact List.mem_append_right _ (List.mem_append_right _ hr)
  | emit i hnests hrefs =>
    cases yields_emit.mp hy
    exact ⟨trivial, hs.emit hrefs _, grows_emit s i⟩
  | newLabels count =>
    obtain ⟨rfl, rfl⟩ := yields_newLabels.mp hy
    exact ⟨trivial, hs.newLabels count, grows_newLabels s count⟩
  | place l before after =>
    obtain ⟨hl, rfl⟩ := yields_place.mp hy
    exact ⟨trivial, hs.place, grows_place hl⟩
  | intern o ho => exact ⟨trivial, hs.intern ho hy, grows_intern hy⟩
  | allocate count =>
    obtain ⟨rfl, rfl, -⟩ := yields_allocate hy
    have htemps := hs.temps
    subst htemps
    exact ⟨rfl, hs.allocate count, grows_allocate s count⟩
  | operate harity =>
    obtain ⟨-, rfl⟩ := yields_operate hy
    exact ⟨trivial, hs.emit (by simp) _, grows_emit s _⟩
  | invoke _ ih =>
    obtain ⟨unit, s1, hy1, hy2⟩ := yields_bind.mp hy
    obtain ⟨registry, s2, u, hr, hbody, -, rfl⟩ := yields_inUnit hy1
    cases yields_emit.mp hy2
    have hle := (ih (.fresh _ _) hbody).2.2.registry
    exact ⟨trivial, hs.emit (by simp) _,
      (grows_emit s _).builder, Registry.le_fill u hr hle, id⟩
  | closure _ ih =>
    obtain ⟨unit, s1, hy1, hy2⟩ := yields_bind.mp hy
    obtain ⟨f, s3, hy2, hy3⟩ := yields_bind.mp hy2
    obtain ⟨registry, s2, u, hr, hbody, -, rfl⟩ := yields_inUnit hy1
    obtain ⟨-, rfl⟩ := yields_addFunction.mp hy2
    cases yields_emit.mp hy3
    have hle := (ih (.fresh _ _) hbody).2.2.registry
    have hle' := Registry.le_fill u hr hle
    exact ⟨trivial, hs.emit (by simp) _, (grows_emit s _).builder,
      ⟨hle'.slots, hle'.functions.trans (extends_push _ _)⟩, id⟩
  | unsupported construct => exact absurd hy not_yields_unsupported
  | tooMany what => exact absurd hy not_yields_tooMany

end Lowering

end TreeScript
