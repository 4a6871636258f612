import TreeScript.Proofs.Lowering.Forest

/-!
# Artifacts are closed

Nothing in the code of an artifact leads outside of it.  A jump leads to a label of its unit, an
operand is in the table of its unit and is a variable where one is needed, a temporary is one of
those that the unit has room for, and units and functions are those of the artifact.  This holds of
all code, whether it can be reached or not.
-/

namespace TreeScript

namespace Code

namespace CodeUnit

/-- A reference leads somewhere in a finished unit. -/
def Has (u : CodeUnit) : Reference → Prop
  | .label l => ∃ offset, u.offset? l = some offset ∧ offset ≤ u.instructions.size
  | .operand i => i < u.operands.size
  | .binding i => ∃ name, u.operands[i]? = some (.binding name)
  | .temporary index => index < u.tempCount

/-- Nothing in a unit leads outside of its artifact. -/
structure Closed (a : Artifact) (u : CodeUnit) : Prop where
  jumps : ∀ {i : Instruction} {l : Label}, i ∈ u.instructions → i.target? = some l →
    ∃ offset, u.offset? l = some offset ∧ offset ≤ u.instructions.size
  references : ∀ {i : Instruction} {r : Reference}, i ∈ u.instructions → r ∈ i.references → u.Has r
  temporaries : ∀ {index : Nat}, .temporary index ∈ u.operands → index < u.tempCount
  units : ∀ {id : UnitId}, .invoke id ∈ u.instructions → id < a.units.size
  functions : ∀ {id : FunctionId}, .makeClosure id ∈ u.instructions → id < a.functions.size

end CodeUnit

theorem Instruction.label_mem_references {i : Instruction} {l : Label} (h : i.target? = some l) :
    .label l ∈ i.references := by
  cases i <;> cases h <;> simp

end Code

namespace Lowering

open Code Syntax

/-! ## Where labels are placed -/

def Stage.Placed (s : Stage) (l : Label) : Prop :=
  ∃ offset, s.builder.labels[l]? = some (some offset)

/-- `Places g s ls x s'`: generation leads from `s` to `s'` and on the way puts the labels `ls` in
their places, one after the other. -/
inductive Places : {α : Type} → Gen α → Stage → List Label → α → Stage → Prop where
  | place {s s' : Stage} {l : Label} (hy : Yields (place l) s () s') : Places (place l) s [l] () s'
  | quiet {α : Type} {g : Gen α} {s s' : Stage} {x : α} (hy : Yields g s x s')
    (hplaced : ∀ l, s'.Placed l ↔ s.Placed l) : Places g s [] x s'
  | bind {α β : Type} {g : Gen α} {f : α → Gen β} {s s₁ s' : Stage} {x : α} {y : β}
    {ls ls' : List Label} : Places g s ls x s₁ → Places (f x) s₁ ls' y s' →
    Places (g >>= f) s (ls ++ ls') y s'

variable {α : Type} {g : Gen α} {s s' : Stage} {x : α}

theorem placed_of_place {l : Label} (h : s.builder.labels[l]? = some none) (l' : Label) :
    Stage.Placed ⟨{ s.builder with labels := s.builder.labels.setIfInBounds l (some s.offset) },
      s.registry⟩ l' ↔ s.Placed l' ∨ l' = l := by
  unfold Stage.Placed
  by_cases hl : l = l'
  · cases hl
    have hself := Array.getElem?_setIfInBounds_self_of_lt (a := some s.offset)
      (Array.getElem?_eq_some_iff.mp h).1
    exact iff_of_true ⟨_, hself⟩ (.inr rfl)
  · rw [Array.getElem?_setIfInBounds_ne hl]
    exact (or_iff_left (Ne.symm hl)).symm

/-- A label is placed once, and only labels that are placed have a place. -/
theorem Places.once {ls : List Label} (h : Places g s ls x s') :
    ls.Nodup ∧ (∀ l ∈ ls, ¬ s.Placed l) ∧ ∀ l, s'.Placed l ↔ s.Placed l ∨ l ∈ ls := by
  induction h with
  | place hy =>
    obtain ⟨hl, rfl⟩ := yields_place.mp hy
    refine ⟨List.nodup_singleton _, fun l hmem => ?_, fun l => ?_⟩
    · rintro ⟨offset, hplaced⟩
      cases List.mem_singleton.mp hmem
      cases hl.symm.trans hplaced
    · rw [placed_of_place hl, List.mem_singleton]
  | quiet hy hplaced => exact ⟨List.nodup_nil, nofun, fun l => by simp [hplaced l]⟩
  | bind _ _ ih ih' =>
    obtain ⟨hnodup, hnew, hplaced⟩ := ih
    obtain ⟨hnodup', hnew', hplaced'⟩ := ih'
    refine ⟨?_, fun l hl => ?_, fun l => ?_⟩
    · refine List.nodup_append.mpr ⟨hnodup, hnodup', ?_⟩
      rintro l hl _ hl' rfl
      exact hnew' l hl' ((hplaced l).mpr (.inr hl))
    · rcases List.mem_append.mp hl with hl | hl
      · exact hnew l hl
      · exact fun hs => hnew' l hl ((hplaced l).mpr (.inl hs))
    · rw [hplaced', hplaced, List.mem_append, or_assoc]

theorem placed_newLabels (s : Stage) (count : Nat) (l : Label) :
    Stage.Placed ⟨(s.builder.newLabels count).2, s.registry⟩ l ↔ s.Placed l := by
  constructor
  · rintro ⟨offset, hl⟩
    change (s.builder.labels ++ Array.replicate count none)[l]? = _ at hl
    by_cases hlt : l < s.builder.labels.size
    · rw [Array.getElem?_append_left hlt] at hl
      exact ⟨offset, hl⟩
    · grind
  · rintro ⟨offset, hl⟩
    exact ⟨offset, (grows_newLabels s count).builder.labels hl⟩

theorem places_of_formed {known : List Reference} {pending : List Label} {t : Nat} {d : Demand}
    {ok : Prop} {Q : Result α} (hg : Formed known pending t g d ok Q)
    (hs : s.Ready known pending t) (hy : Yields g s x s') : ∃ ls, Places g s ls x s' := by
  induction hg generalizing s s' with
  | pure his hknown hpending =>
    obtain ⟨-, rfl⟩ := yields_pure.mp hy
    exact ⟨[], .quiet hy fun _ => .rfl⟩
  | bind hg _ ihg ihf =>
    obtain ⟨y, s1, hy1, hy2⟩ := yields_bind.mp hy
    obtain ⟨his, hs1, -⟩ := ready_of_formed hg hs hy1
    obtain ⟨ls, hls⟩ := ihg hs hy1
    obtain ⟨ls', hls'⟩ := ihf y his hs1 hy2
    exact ⟨ls ++ ls', .bind hls hls'⟩
  | emit i hnests hrefs =>
    cases yields_emit.mp hy
    exact ⟨[], .quiet hy fun _ => .rfl⟩
  | newLabels count =>
    obtain ⟨-, rfl⟩ := yields_newLabels.mp hy
    exact ⟨[], .quiet hy (placed_newLabels s count)⟩
  | place l before after => exact ⟨[l], .place hy⟩
  | intern o ho =>
    rcases yields_intern hy with ⟨-, rfl⟩ | ⟨-, -, -, rfl⟩
    · exact ⟨[], .quiet hy fun _ => .rfl⟩
    · exact ⟨[], .quiet hy fun _ => .rfl⟩
  | allocate count =>
    obtain ⟨-, rfl, -⟩ := yields_allocate hy
    exact ⟨[], .quiet hy fun _ => .rfl⟩
  | operate harity =>
    obtain ⟨-, rfl⟩ := yields_operate hy
    exact ⟨[], .quiet hy fun _ => .rfl⟩
  | invoke _ _ =>
    obtain ⟨id, s1, hy1, hy2⟩ := yields_bind.mp hy
    obtain ⟨_, _, _, _, _, _, rfl⟩ := yields_inUnit hy1
    cases yields_emit.mp hy2
    exact ⟨[], .quiet hy fun _ => .rfl⟩
  | closure _ _ =>
    obtain ⟨id, s1, hy1, hy2⟩ := yields_bind.mp hy
    obtain ⟨f, s3, hy2, hy3⟩ := yields_bind.mp hy2
    obtain ⟨_, _, _, _, _, _, rfl⟩ := yields_inUnit hy1
    obtain ⟨-, rfl⟩ := yields_addFunction.mp hy2
    cases yields_emit.mp hy3
    exact ⟨[], .quiet hy fun _ => .rfl⟩
  | unsupported construct => exact absurd hy not_yields_unsupported
  | tooMany what => exact absurd hy not_yields_tooMany

/-- Every label of a unit was placed once while the code of the unit was generated. -/
def PlacedOnce (u : CodeUnit) : Prop :=
  ∃ source name registry s ls, Places (Body.gen u.strict source) (.fresh name registry) ls () s ∧
    s.builder.finish u.role u.strict = .ok u ∧ ls.Nodup ∧ ∀ l, l ∈ ls ↔ l < u.labels.size

/-! ## Finished units -/

variable {u : CodeUnit}

theorem Generated.last (h : Generated u) :
    ∃ t s, Stage.Ready [] [] t s ∧ s.builder.finish u.role u.strict = .ok u := by
  obtain ⟨source, name, registry, s, d, ok, hformed, hy, hfin⟩ := h
  exact ⟨_, s, (ready_of_formed hformed (.fresh _ _) hy).2.1, hfin⟩

theorem Stage.Ready.placed {known : List Reference} {t : Nat} (h : s.Ready known [] t) {l : Label}
    (hl : l < s.builder.labels.size) :
    ∃ offset, s.builder.labels[l]? = some (some offset) ∧ offset ≤ s.offset := by
  have hget := Array.getElem?_eq_getElem hl
  cases hplace : s.builder.labels[l] with
  | none =>
    rw [hplace] at hget
    cases (h.pending l).mp hget
  | some offset =>
    rw [hplace] at hget
    exact ⟨offset, hget, h.offsets hget⟩

theorem Generated.has (h : Generated u) {i : Instruction} {r : Reference} (hi : i ∈ u.instructions)
    (hr : r ∈ i.references) : u.Has r := by
  obtain ⟨t, s, hready, hfin⟩ := h.last
  have hu := finish_eq hfin
  rw [hu] at hi ⊢
  have hhas := hready.code i hi r hr
  cases r with
  | label l =>
    obtain ⟨offset, hplace, hle⟩ := hready.placed hhas
    refine ⟨offset, ?_, hle⟩
    show (s.builder.labels.map (·.getD s.builder.instructions.size))[l]? = _
    rw [Array.getElem?_map, hplace]
    rfl
  | operand i => exact hhas
  | binding i => exact hhas
  | temporary index => exact hhas

theorem Generated.temporaries (h : Generated u) {index : Nat}
    (hindex : .temporary index ∈ u.operands) : index < u.tempCount := by
  obtain ⟨t, s, hready, hfin⟩ := h.last
  rw [finish_eq hfin] at hindex ⊢
  exact hready.temporaries index hindex

theorem Generated.placedOnce (h : Generated u) : PlacedOnce u := by
  obtain ⟨source, name, registry, s, d, ok, hformed, hy, hfin⟩ := h
  have hready := (ready_of_formed hformed (.fresh _ _) hy).2.1
  obtain ⟨ls, hplaces⟩ := places_of_formed hformed (.fresh _ _) hy
  obtain ⟨hnodup, -, hplaced⟩ := hplaces.once
  refine ⟨source, name, registry, s, ls, hplaces, hfin, hnodup, fun l => ?_⟩
  have hsize : u.labels.size = s.builder.labels.size := by
    rw [finish_eq hfin]
    exact Array.size_map
  have hnew : ¬ (Stage.fresh name registry).Placed l := by
    rintro ⟨offset, hl⟩
    cases hl
  have hmem : l ∈ ls ↔ s.Placed l := by
    rw [hplaced l]
    exact (or_iff_right hnew).symm
  rw [hsize, hmem]
  constructor
  · rintro ⟨offset, hl⟩
    exact (Array.getElem?_eq_some_iff.mp hl).1
  · intro hl
    obtain ⟨offset, hplace, -⟩ := hready.placed hl
    exact ⟨offset, hplace⟩

/-! ## Programs -/

variable {a : Artifact} {p : Program} {strict : Bool}

theorem lt_of_makeClosure (h : compile p strict = .ok a) (hu : u ∈ a.units) {id : FunctionId}
    (hi : .makeClosure id ∈ u.instructions) : id < a.functions.size := by
  have hmem : id ∈ a.closures :=
    List.mem_flatMap.mpr ⟨u, Array.mem_toList_iff.mpr hu,
      List.mem_filterMap.mpr ⟨_, Array.mem_toList_iff.mpr hi, rfl⟩⟩
  have hcount := List.count_pos_iff.mpr hmem
  rw [count_closures h] at hcount
  by_contra hlt
  rw [if_neg hlt] at hcount
  exact Nat.lt_irrefl 0 hcount

/-- Nothing in a program that compiles leads outside of it, each label was placed once, and each
function has a body that is a function and is strict if it is. -/
theorem compile_closed (h : compile p strict = .ok a) :
    (∀ u ∈ a.units, u.Closed a ∧ PlacedOnce u) ∧
    ∀ info ∈ a.functions, ∃ u, a.unit? info.unit = some u ∧ u.role = .function ∧
      u.strict = info.strict := by
  refine ⟨fun u hu => ?_, fun info hinfo => ?_⟩
  · obtain ⟨id, hid, rfl⟩ := Array.mem_iff_getElem.mp hu
    obtain ⟨u, f, last, f', hunit, hgen, hlast, hforest⟩ := forest_unit h hid
    cases (Array.getElem?_eq_getElem hid).symm.trans hunit
    refine ⟨⟨fun hi hl => ?_, hgen.has, hgen.temporaries, fun hi => ?_, fun hi => ?_⟩,
      hgen.placedOnce⟩
    · exact hgen.has hi (Instruction.label_mem_references hl)
    · have hlead := hforest.leads (.inl (Array.mem_toList_iff.mpr hi))
      exact Nat.lt_of_lt_of_le hlead.2 hlast
    · exact lt_of_makeClosure h hu hi
  · obtain ⟨id, hid, rfl⟩ := Array.mem_iff_getElem.mp hinfo
    exact body_of_function h (Array.getElem?_eq_getElem hid)

/-- `for (var k in function () {}) try { throw k } catch (e) { delete e }` -/
def throwingKeys : Program where
  body := [.forIn (.declaration [.mk "k" none]) (.function (.mk none [] [] false))
    (.tryCatch [.throw (.identifier "k")]
      (some (.mk "e" [.expression (.unary .delete (.identifier "e"))])) none)]

theorem compile_throwingKeys :
    (compile throwingKeys false).map (fun a => (a.units.size, a.functions.size)) = .ok (5, 1) := by
  decide +kernel

theorem compile_closed_throwingKeys :
    ∃ a, compile throwingKeys false = .ok a ∧ a.units.size = 5 ∧ a.functions.size = 1 ∧
      (∀ u ∈ a.units, u.Closed a ∧ PlacedOnce u) ∧
      ∀ info ∈ a.functions, ∃ u, a.unit? info.unit = some u ∧ u.role = .function ∧
        u.strict = info.strict := by
  obtain ⟨a, hc, hsizes⟩ := ok_of_map compile_throwingKeys
  obtain ⟨hunits, hfunctions⟩ := Prod.mk.inj hsizes
  exact ⟨a, hc, hunits, hfunctions, compile_closed hc⟩

end Lowering

end TreeScript
