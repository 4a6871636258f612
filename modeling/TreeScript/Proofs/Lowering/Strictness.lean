import Mathlib.Tactic.Choose
import TreeScript.Proofs.Lowering.Forest

/-!
# What strict flags say

Every unit of a compiled program is the code of a part of that program, and its flags say what the
functions around that part say.  `Placed` follows the units from the entry down: a unit that runs
where it stands is inside the same functions, and the body of a function is inside that function
too.
-/

namespace TreeScript

/-- The flag of an instruction that does something else in strict code. -/
def Code.Instruction.strict? : Instruction → Option Bool
  | store _ strict => some strict
  | operate op => op.strict?
  | _ => none

namespace Lowering

open Code Syntax

/-- The entry of a function that stands inside `fs`. -/
structure Describes (top : Bool) (fs : List FunctionDef) (f : FunctionDef) (info : FunctionInfo) :
    Prop where
  name : info.name = f.name
  params : info.params = f.params
  strict : info.strict = strictIn top (f :: fs)

/-- The unit `id` has the code of `source`, which stands in the program inside the functions `fs`.
All its flags say whether code is strict there, and so it is with the units inside it at their
places. -/
inductive Placed (a : Artifact) (p : Program) (top : Bool) :
    List FunctionDef → Body → UnitId → Prop where
  | intro {fs : List FunctionDef} {source : Body} {id : UnitId} {u : CodeUnit}
      {invoked : UnitId → Body} {made : FunctionId → FunctionDef}
      {entry : FunctionId → FunctionInfo} :
    a.unit? id = some u → p.Stands fs source.part →
    Compiles a u (source.gen (strictIn top fs)) →
    u.strict = strictIn top fs →
    (∀ i ∈ u.instructions, ∀ s, i.strict? = some s → s = strictIn top fs) →
    (∀ id', .invoke id' ∈ u.instructions → Placed a p top fs (invoked id') id') →
    (∀ n, .makeClosure n ∈ u.instructions → a.function? n = some (entry n) ∧
      p.Stands fs (.function (made n)) ∧ Describes top fs (made n) (entry n)) →
    (∀ n, .makeClosure n ∈ u.instructions →
      Placed a p top (made n :: fs) (.declaring (made n).body) (entry n).unit) →
    Placed a p top fs source id

variable {id : UnitId} {source : Body}

theorem Placed.strict {a : Artifact} {p : Program} {top : Bool} {fs : List FunctionDef}
    {u : CodeUnit} (h : Placed a p top fs source id) (hu : a.unit? id = some u) :
    u.strict = strictIn top fs := by
  cases h with
  | intro hunit _ _ hstrict =>
    cases hu.symm.trans hunit
    exact hstrict

/-- An instruction of code inside `fs` has the flag it should have, and the units that it leads to
are placed. -/
structure Honest (a : Artifact) (p : Program) (top : Bool) (fs : List FunctionDef)
    (i : Instruction) : Prop where
  flag : ∀ s, i.strict? = some s → s = strictIn top fs
  invoke : ∀ id, i = .invoke id → ∃ source, Placed a p top fs source id
  closure : ∀ n, i = .makeClosure n → ∃ f info, a.function? n = some info ∧
    p.Stands fs (.function f) ∧ Describes top fs f info ∧
    Placed a p top (f :: fs) (.declaring f.body) info.unit

section

variable {a : Artifact} {p : Program} {top : Bool} {fs : List FunctionDef} {α : Type}

theorem honest_plain {i : Instruction} (hn : i.nests = false)
    (hs : ∀ s, i.strict? = some s → s = strictIn top fs) : Honest a p top fs i where
  flag := hs
  invoke id hi := by
    rw [hi] at hn
    cases hn
  closure n hi := by
    rw [hi] at hn
    cases hn

theorem placed_of_honest {u : CodeUnit} (hu : a.unit? id = some u) (hs : p.Stands fs source.part)
    (hc : Compiles a u (source.gen (strictIn top fs))) (hstrict : u.strict = strictIn top fs)
    (h : ∀ i ∈ u.instructions, Honest a p top fs i) : Placed a p top fs source id := by
  have hinvoke (id' : UnitId) : ∃ source', .invoke id' ∈ u.instructions →
      Placed a p top fs source' id' := by
    by_cases hi : .invoke id' ∈ u.instructions
    · obtain ⟨source', hp⟩ := (h _ hi).invoke id' rfl
      exact ⟨source', fun _ => hp⟩
    · exact ⟨source, fun hi' => absurd hi' hi⟩
  have hclosure (n : FunctionId) : ∃ f info, .makeClosure n ∈ u.instructions →
      (a.function? n = some info ∧ p.Stands fs (.function f) ∧ Describes top fs f info) ∧
      Placed a p top (f :: fs) (.declaring f.body) info.unit := by
    by_cases hi : .makeClosure n ∈ u.instructions
    · obtain ⟨f, info, hf, hstands, hdesc, hp⟩ := (h _ hi).closure n rfl
      exact ⟨f, info, fun _ => ⟨⟨hf, hstands, hdesc⟩, hp⟩⟩
    · exact ⟨.mk none [] [] false, default, fun hi' => absurd hi' hi⟩
  choose invoked hinvoked using hinvoke
  choose made entry hmade using hclosure
  exact .intro hu hs hc hstrict (fun i hi => (h i hi).flag) hinvoked (fun n hn => (hmade n hn).1)
    fun n hn => (hmade n hn).2

/-! ## Code generation -/

def HonestBetween (a : Artifact) (p : Program) (top : Bool) (fs : List FunctionDef)
    (u : CodeUnit) (s s' : Stage) : Prop :=
  ∀ k i, s.offset ≤ k → k < s'.offset → u.instructions[k]? = some i → Honest a p top fs i

variable {u : CodeUnit} {s s' s1 : Stage}

theorem honestBetween_keeps (h : s'.offset = s.offset) : HonestBetween a p top fs u s s' := by
  intro k i hk hk' _
  omega

theorem honestBetween_adds {i : Instruction} (h : Adds u i s s') (hi : Honest a p top fs i) :
    HonestBetween a p top fs u s s' := by
  intro k j hk hk' hj
  have hadd := h.offset
  have hks : k = s.offset := by omega
  rw [hks, h.code] at hj
  cases hj
  exact hi

theorem HonestBetween.trans (h : HonestBetween a p top fs u s s1)
    (h' : HonestBetween a p top fs u s1 s') : HonestBetween a p top fs u s s' := by
  intro k i hk hk' hi
  by_cases hlt : k < s1.offset
  · exact h k i hk hlt hi
  · exact h' k i (Nat.le_of_not_lt hlt) hk' hi

theorem placed_of_compiles (hu : a.unit? id = some u) (hstrict : u.strict = strictIn top fs)
    (hs : p.Stands fs source.part)
    (hbody : ∀ {s x s'}, Laid a u (source.gen (strictIn top fs)) s x s' →
      HonestBetween a p top fs u s s') (hc : Compiles a u (source.gen (strictIn top fs))) :
    Placed a p top fs source id := by
  refine placed_of_honest hu hs hc hstrict fun i hi => ?_
  obtain ⟨s1, s2, hlaid, hfirst, -, hlast, -⟩ := hc
  obtain ⟨k, hk, rfl⟩ := Array.mem_iff_getElem.mp hi
  exact hbody hlaid k _ (by omega) (by omega) (Array.getElem?_eq_getElem hk)

theorem placed_of_inUnit {role : Role} [Composed (source.gen (strictIn top fs))]
    (hs : p.Stands fs source.part)
    (hbody : ∀ {u s x s'}, Laid a u (source.gen (strictIn top fs)) s x s' →
      HonestBetween a p top fs u s s')
    (h : Laid a u (inUnit role (strictIn top fs) (source.gen (strictIn top fs))) s id s') :
    Keeps s s' ∧ Placed a p top fs source id := by
  obtain ⟨hkeeps, u', hu', -, hstrict, hc⟩ := laid_inUnit h
  exact ⟨hkeeps, placed_of_compiles hu' hstrict hs hbody hc⟩

theorem Fits.flagless {c : Setting} {w : Site} {known : List Reference} {pending : List Label}
    {i : Instruction} (h : Fits c w known pending i) : i.strict? = none := by
  cases i <;> first | rfl | cases h

theorem Regular.honest {c : Setting} {w : Site} {known : List Reference} {pending : List Label}
    {t : Nat} {g : Bool → Gen α} {d : Demand} {ok : Prop} {Q : Result α}
    (h : Regular c w known pending t g d ok Q)
    (hp : ∀ {fs x}, c.terrain.stands fs x → p.Stands fs x) {x : α}
    (hl : Laid a u (g c.strict) s x s') : HonestBetween a p c.terrain.top c.fs u s s' := by
  have hflag {fs : List FunctionDef} {top b : Bool} (hb : some (strictIn top fs) = some b) :
      b = strictIn top fs :=
    (Option.some.inj hb).symm
  induction h generalizing u s s' with
  | pure =>
    obtain ⟨-, rfl⟩ := laid_pure hl
    exact honestBetween_keeps rfl
  | bind hg hf _ ihg ihf =>
    have := hg.composed
    have := fun x => (hf x).composed
    obtain ⟨y, s1, h1, h2⟩ := laid_bind.mp hl
    exact (ihg hp h1).trans (ihf y hp h2)
  | emit i hi =>
    exact honestBetween_adds (laid_emit hl) (honest_plain hi.nests (by simp [hi.flagless]))
  | store => exact honestBetween_adds (laid_emit hl) (honest_plain rfl fun _ => hflag)
  | newLabels count => exact honestBetween_keeps (laid_newLabels hl).offset
  | place l => exact honestBetween_keeps (laid_place hl).2.offset
  | intern o => exact honestBetween_keeps (laid_intern hl).2.offset
  | temporaries count hf ih =>
    have := fun first => (hf first).composed
    obtain ⟨first, s1, h1, h2⟩ := laid_bind.mp hl
    exact (honestBetween_keeps (laid_allocate h1).2.2.1).trans (ih first hp h2)
  | enumeration _ hsetup heach ihs ihe =>
    have := fun keys => (hsetup keys).composed
    have := fun keys => (heach keys).composed
    obtain ⟨keys, s1, h1, hl⟩ := laid_bind.mp hl
    obtain ⟨_, s2, h2, hl⟩ := laid_bind.mp hl
    obtain ⟨_, s3, h3, hl⟩ := laid_bind.mp hl
    obtain ⟨_, s4, h4, hl⟩ := laid_bind.mp hl
    obtain ⟨_, s5, h5, h6⟩ := laid_bind.mp hl
    exact (honestBetween_keeps (laid_allocate h1).2.2.1).trans <| (ihs keys hp h2).trans <|
      (honestBetween_keeps (laid_place h3).2.offset).trans <|
      (honestBetween_adds (laid_emit h4) (honest_plain rfl nofun)).trans <|
      (ihe keys hp h5).trans (honestBetween_keeps (laid_place h6).2.offset)
  | operate _ hnone =>
    exact honestBetween_adds (laid_operate hl).2
      (honest_plain rfl (by simp [Instruction.strict?, hnone]))
  | put | delete => exact honestBetween_adds (laid_operate hl).2 (honest_plain rfl fun _ => hflag)
  | @invoke c _ _ _ _ role source _ _ _ _ hs hbody ih =>
    obtain ⟨id, s1, hunit, hemit⟩ := laid_bind.mp hl
    obtain ⟨hkeeps, hplaced⟩ := placed_of_inUnit (hp hs) (ih hp) hunit
    refine (honestBetween_keeps hkeeps.offset).trans (honestBetween_adds (laid_emit hemit) ?_)
    refine ⟨nofun, fun id' hid => ?_, nofun⟩
    cases hid
    exact ⟨source, hplaced⟩
  | @closure c _ _ _ _ f _ _ _ hs hbody ih =>
    dsimp only at hl
    rw [← c.strict_inFunction f] at hl
    obtain ⟨id, s1, hunit, hl⟩ := laid_bind.mp hl
    obtain ⟨n, s2, hadd, hemit⟩ := laid_bind.mp hl
    obtain ⟨hkeeps, hplaced⟩ := placed_of_inUnit (hp hs).inside (ih hp) hunit
    obtain ⟨hinfo, hkeeps'⟩ := laid_addFunction hadd
    have hoffset : s2.offset = s.offset := hkeeps'.offset.trans hkeeps.offset
    refine (honestBetween_keeps hoffset).trans (honestBetween_adds (laid_emit hemit) ?_)
    refine ⟨nofun, nofun, fun n' hn => ?_⟩
    cases hn
    exact ⟨f, _, hinfo, hp hs, ⟨rfl, rfl, rfl⟩, hplaced⟩
  | unsupported construct => exact absurd hl not_laid_unsupported
  | tooMany what => exact absurd hl not_laid_tooMany

end

/-! ## Compiled programs -/

section

variable {p : Program} {strict : Bool} {a : Artifact}

def Terrain.ofProgram (p : Program) (top : Bool) : Terrain :=
  ⟨p.Stands, .part, .inside, top, True, fun _ _ => trivial⟩

theorem placed_entry (h : compile p strict = .ok a) :
    Placed a p (strict || p.strict) [] (.declaring p.body) a.entry := by
  obtain ⟨registry, hlaid, -⟩ := laid_program h
  rw [← strictIn_nil (strict || p.strict)] at hlaid
  have hregular := regulates_declaring ⟨.ofProgram p (strict || p.strict), [], True⟩ trivial p.body
    .top {} [] [] 0
  exact (placed_of_inUnit .top (hregular.honest id) hlaid).2

theorem placed_of_unit (h : compile p strict = .ok a) {u : CodeUnit} (hu : a.unit? id = some u) :
    ∃ fs source, Placed a p (strict || p.strict) fs source id := by
  obtain ⟨_, ⟨fs, source, _, _, hs, hregular, hstrict, rfl, -⟩, hc⟩ :=
    compile_sources h (.ofProgram p (strict || p.strict)) rfl .top hu
  rw [hstrict] at hc
  exact ⟨fs, source, placed_of_compiles hu hstrict hs (hregular.honest fun h => h) hc⟩

/-- Each function that is listed stands somewhere in the program, since a closure is made of it. -/
theorem described_of_function (h : compile p strict = .ok a) {n : FunctionId}
    {info : FunctionInfo} (hn : a.function? n = some info) :
    ∃ fs f, p.Stands fs (.function f) ∧ Describes (strict || p.strict) fs f info ∧
      Placed a p (strict || p.strict) (f :: fs) (.declaring f.body) info.unit := by
  have hcount := count_closures h n
  rw [if_pos (Array.getElem?_eq_some_iff.mp hn).1] at hcount
  have hmem : n ∈ a.closures := List.count_pos_iff.mp (by omega)
  obtain ⟨u, hu, hi⟩ := List.mem_flatMap.mp hmem
  obtain ⟨i, hi, hclosure⟩ := List.mem_filterMap.mp hi
  have hmake : i = .makeClosure n := by
    cases i with
    | makeClosure n' => exact congrArg Instruction.makeClosure (Option.some.inj hclosure)
    | _ => cases hclosure
  obtain ⟨id, hid, rfl⟩ := List.mem_iff_getElem.mp hu
  have hunit : a.unit? id = some a.units.toList[id] := by
    unfold Artifact.unit?
    rw [← Array.getElem?_toList]
    exact List.getElem?_eq_getElem hid
  obtain ⟨fs, source, hplaced⟩ := placed_of_unit h hunit
  rw [hmake, Array.mem_toList_iff] at hi
  cases hplaced with
  | @intro _ _ _ _ _ made entry hu' _ _ _ _ _ hclosures hbodies =>
    cases hunit.symm.trans hu'
    obtain ⟨hfunction, hs, hdesc⟩ := hclosures n hi
    cases hn.symm.trans hfunction
    exact ⟨fs, made n, hs, hdesc, hbodies n hi⟩

theorem strict_of_invoke (h : compile p strict = .ok a) {id' : UnitId} {u u' : CodeUnit}
    (hu : a.unit? id = some u) (hi : .invoke id' ∈ u.instructions) (hu' : a.unit? id' = some u') :
    u'.strict = u.strict := by
  obtain ⟨fs, source, hplaced⟩ := placed_of_unit h hu
  cases hplaced with
  | intro hunit _ _ hstrict _ hinvokes _ _ =>
    cases hu.symm.trans hunit
    exact ((hinvokes id' hi).strict hu').trans hstrict.symm

end

end Lowering

end TreeScript
