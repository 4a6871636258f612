import TreeScript.Proofs.Lowering.Laid
import TreeScript.Proofs.Lowering.Trees

/-!
# What units are compiled from

Every unit of a compiled program has the code of one body, from its first instruction to its last,
and if it is a program or a function that body is a list of statements with declarations.
-/

namespace TreeScript.Lowering

open Code Syntax

variable {B : Role → Bool → Gen Unit → Prop}

/-- The finished units of a registry are compiled from bodies for which `B` holds, and the registry
has all that was there when they were finished. -/
def Sourced (B : Role → Bool → Gen Unit → Prop) (r : Registry) : Prop :=
  ∀ ⦃id : UnitId⦄ ⦃u : CodeUnit⦄, r.unit? id = some u →
    ∃ body name r0 s, B u.role u.strict body ∧ Yields body (.fresh name r0) () s ∧
      s.builder.finish u.role u.strict = .ok u ∧
      (∀ {id u}, s.registry.unit? id = some u → r.unit? id = some u) ∧
      Extends s.registry.functions r.functions

theorem sourced_empty : Sourced B {} := by
  intro id u hu
  cases hu

variable {strict : Bool} {a : Artifact} {r : Registry} {α ε β : Type} {p : Program} {id : UnitId}

theorem Sourced.mono {r' : Registry} (h : Sourced B r)
    (hu : ∀ id u, r.unit? id = some u ↔ r'.unit? id = some u)
    (hf : Extends r.functions r'.functions) : Sourced B r' := by
  intro id u hid
  obtain ⟨body, name, r0, s, hb, hy, hfin, hus, hfs⟩ := h ((hu id u).mpr hid)
  exact ⟨body, name, r0, s, hb, hy, hfin, fun hid => (hu _ _).mp (hus hid), hfs.trans hf⟩

theorem sourced_reserve {r' : Registry} {role : Role} (h : Sourced B r)
    (hr : r.reserve role = (.ok id, r')) : Sourced B r' := by
  obtain ⟨rfl, rfl⟩ := Registry.reserve_eq hr
  refine h.mono (fun id u => ?_) (extends_refl _)
  unfold Registry.unit?
  rw [Array.getElem?_push]
  split
  · next he =>
    rw [he, Array.getElem?_eq_none (Nat.le_refl _)]
    rfl
  · rfl

theorem sourced_fill {r0 : Registry} {role : Role} {u : CodeUnit} {body : Gen Unit} {s : Stage}
    (h : Sourced B s.registry) (hr : r0.reserve role = (.ok id, r)) (hle : r.Le s.registry)
    (hb : B role strict body) (hy : Yields body (.fresh (r0.nextName role) r) () s)
    (hf : s.builder.finish role strict = .ok u) : Sourced B (s.registry.fill id u) := by
  have hunits {id' u'} (hu : s.registry.unit? id' = some u') :
      (s.registry.fill id u).unit? id' = some u' :=
    Registry.unit?_fill_of_unit? u hr hle hu
  intro id' u' hu
  by_cases hid : id = id'
  · cases hid
    rw [Registry.unit?_fill_self u hr hle] at hu
    cases hu
    have hu' := finish_eq hf
    have hrole : u.role = role := by rw [hu']
    have hstrict : u.strict = strict := by rw [hu']
    rw [hrole, hstrict]
    exact ⟨body, _, r, s, hb, hy, hf, hunits, extends_refl _⟩
  · unfold Registry.unit? at hu
    rw [Registry.slots_fill_ne u s.registry hid] at hu
    obtain ⟨body', name, r1, s', hb', hy', hf', hu', hfs⟩ := h hu
    exact ⟨body', name, r1, s', hb', hy', hf', fun hid => hunits (hu' hid), hfs⟩

theorem sourced_of_built {g : Gen α} {s s' : Stage} {x : α} (hg : Built B g) (h : Yields g s x s')
    (hs : Sourced B s.registry) : Sourced B s'.registry := by
  induction hg generalizing s s' with
  | pure y =>
    obtain ⟨-, rfl⟩ := yields_pure.mp h
    exact hs
  | bind _ _ ihg ihf =>
    obtain ⟨y, s1, h1, h2⟩ := yields_bind.mp h
    exact ihf y h2 (ihg h1 hs)
  | emit i =>
    cases yields_emit.mp h
    exact hs
  | newLabels count =>
    obtain ⟨-, rfl⟩ := yields_newLabels.mp h
    exact hs
  | place l =>
    obtain ⟨-, rfl⟩ := yields_place.mp h
    exact hs
  | intern o =>
    rcases yields_intern h with ⟨-, rfl⟩ | ⟨-, -, -, rfl⟩
    · exact hs
    · exact hs
  | allocate count =>
    obtain ⟨-, rfl, -⟩ := yields_allocate h
    exact hs
  | operate op supplied =>
    obtain ⟨-, rfl⟩ := yields_operate h
    exact hs
  | inUnit hb hbuilt ih =>
    obtain ⟨registry, s1, u, hr, hy, hf, rfl⟩ := yields_inUnit h
    exact sourced_fill (ih hy (sourced_reserve hs hr)) hr (grows_of_built hbuilt hy).registry hb hy
      hf
  | addFunction info =>
    obtain ⟨-, rfl⟩ := yields_addFunction.mp h
    exact hs.mono (fun _ _ => Iff.rfl) (extends_push _ _)
  | unsupported construct => exact absurd h not_yields_unsupported
  | tooMany what => exact absurd h not_yields_tooMany

/-! ## Artifacts -/

theorem ok_of_bind {x : Except ε α} {f : α → Except ε β} {y : β} (h : x >>= f = .ok y) :
    ∃ a, x = .ok a ∧ f a = .ok y := by
  cases x with
  | ok a => exact ⟨a, rfl, h⟩
  | error e => cases h

theorem ok_of_map {x : Except ε α} {f : α → β} {y : β} (h : f <$> x = .ok y) :
    ∃ a, x = .ok a ∧ f a = y := by
  cases x with
  | ok a => exact ⟨a, rfl, Except.ok.inj h⟩
  | error e => cases h

theorem ok_of_toOption {x : Except ε α} {a : α} (h : x.toOption = some a) : x = .ok a := by
  cases x with
  | error e => cases h
  | ok a' => exact congrArg Except.ok (Option.some.inj h)

theorem mapM_unit? {f : Slot → Except CompileError CodeUnit}
    (hf : ∀ {slot unit}, f slot = .ok unit → slot.unit? = some unit) {slots : List Slot}
    {units : List CodeUnit} (h : slots.mapM f = .ok units) (i : Nat) :
    units[i]? = slots[i]? >>= Slot.unit? := by
  induction slots generalizing units i with
  | nil =>
    cases h
    rfl
  | cons slot slots ih =>
    rw [List.mapM_cons] at h
    obtain ⟨unit, hu, h⟩ := ok_of_bind h
    obtain ⟨units', hs, h⟩ := ok_of_bind h
    cases h
    cases i with
    | zero => exact (hf hu).symm
    | succ i => exact ih hs i

theorem mapM_length {f : α → Except ε β} {xs : List α} {ys : List β} (h : xs.mapM f = .ok ys) :
    ys.length = xs.length := by
  induction xs generalizing ys with
  | nil =>
    cases h
    rfl
  | cons x xs ih =>
    rw [List.mapM_cons] at h
    obtain ⟨y, -, h⟩ := ok_of_bind h
    obtain ⟨ys', hs, h⟩ := ok_of_bind h
    cases h
    exact congrArg Nat.succ (ih hs)

theorem finish_registry {entry : UnitId} (h : r.finish entry = .ok a) :
    a.entry = entry ∧ a.functions = r.functions ∧ a.units.size = r.slots.size ∧
      ∀ id, a.unit? id = r.unit? id := by
  unfold Registry.finish at h
  rw [Array.mapM_eq_mapM_toList] at h
  obtain ⟨_, h', ha⟩ := ok_of_bind h
  obtain ⟨units, hm, rfl⟩ := ok_of_map h'
  cases ha
  refine ⟨rfl, rfl, mapM_length hm, fun id => ?_⟩
  show units.toArray[id]? = r.slots[id]? >>= Slot.unit?
  rw [List.getElem?_toArray, ← Array.getElem?_toList]
  refine mapM_unit? (fun hs => ?_) hm id
  split at hs
  · next hu =>
    cases hs
    exact hu
  · cases hs

theorem compile_registry (h : compile p strict = .ok a) :
    ∃ registry, Yields (inUnit .program (strict || p.strict)
        ((Body.declaring p.body).gen (strict || p.strict))) (.fresh "" {}) a.entry
        ⟨{ unit := "" }, registry⟩ ∧
      a.functions = registry.functions ∧ a.units.size = registry.slots.size ∧
      ∀ id, a.unit? id = registry.unit? id := by
  unfold compile compileBody at h
  dsimp only at h
  split at h
  · next entry registry hc =>
    obtain ⟨rfl, hf, hsize, hu⟩ := finish_registry h
    exact ⟨registry, yields_lift.mpr ⟨hc, rfl⟩, hf, hsize, hu⟩
  · cases h

/-- The unit of a program stands in no other unit; an empty one takes that place. -/
theorem laid_program (h : compile p strict = .ok a) :
    ∃ registry, Laid a default (inUnit .program (strict || p.strict)
        ((Body.declaring p.body).gen (strict || p.strict))) (.fresh "" {}) a.entry
        ⟨{ unit := "" }, registry⟩ ∧
      a.functions = registry.functions ∧ a.units.size = registry.slots.size ∧
      ∀ id, a.unit? id = registry.unit? id := by
  obtain ⟨registry, hy, hf, hsize, hu⟩ := compile_registry h
  refine ⟨registry, ⟨hy, sound_fresh _ _, fun i x hx => ?_, fun i x hx => ?_, fun hl => ?_,
    Nat.zero_le _, fun hid => ?_, fun hid => ?_⟩, hf, hsize, hu⟩
  · cases hx
  · cases hx
  · cases hl
  · rw [hu]
    exact hid
  · unfold Artifact.function?
    rw [hf]
    exact hid

theorem compile_sources (h : compile p strict = .ok a) (T : Terrain)
    (htop : T.top = (strict || p.strict)) (hp : T.stands [] (.body p.body)) {u : CodeUnit}
    (hid : a.unit? id = some u) :
    ∃ body, T.Sources p.body u.role u.strict body ∧ Compiles a u body := by
  obtain ⟨registry, hy, hf, -, hu⟩ := compile_registry h
  have hregular := regulates_declaring ⟨T, [], True⟩ trivial p.body hp {} [] [] 0
  have hstrict : strictIn T.top [] = (strict || p.strict) := (strictIn_nil _).trans htop
  have hbuilt := hregular.built p.body
  rw [Setting.strict, hstrict] at hbuilt
  have hsourced : Sourced (T.Sources p.body) registry := sourced_of_built (.inUnit
    ⟨_, _, _, _, hp, hregular, hstrict.symm, rfl, fun _ => .inl ⟨rfl, rfl⟩⟩ hbuilt) hy sourced_empty
  rw [hu] at hid
  obtain ⟨body, name, r0, s, hb, hys, hfin, hus, hfs⟩ := hsourced hid
  refine ⟨body, hb, compiles_of_finish hys hfin (fun hid => ?_) (fun hid => ?_)⟩
  · rw [hu]
    exact hus hid
  · unfold Artifact.function?
    rw [hf]
    exact hfs hid

theorem compile_entry (h : compile p strict = .ok a) :
    ∃ u, a.entryUnit? = some u ∧ u.role = .program ∧ u.strict = (strict || p.strict) ∧
      Compiles a u ((Body.declaring p.body).gen (strict || p.strict)) := by
  obtain ⟨registry, hlaid, -⟩ := laid_program h
  obtain ⟨-, u, hunit, hrole, hstrict, hcomp⟩ := laid_inUnit hlaid
  exact ⟨u, hunit, hrole, hstrict, hcomp⟩

end TreeScript.Lowering
