import Mathlib.Logic.Relation
import TreeScript.Proofs.Lowering.Ready

/-!
# Units form a tree

A unit is numbered before the units inside it, and each of them is led to from one place: a unit
that runs where it stands from the instruction that invokes it, the body of a function from the one
that makes its closure.  `Forest` describes a piece of code with all the units below it.  They have
the numbers from where the piece begins to where it ends, and so do the functions that are listed
with them.
-/

namespace TreeScript

variable {n m : Nat} {i : Instruction}

namespace Code

def Instruction.closure? : Instruction → Option FunctionId
  | makeClosure function => some function
  | _ => none

namespace Artifact

variable (a : Artifact)

def invocations : List UnitId := a.units.toList.flatMap CodeUnit.invokedUnits

def closures : List FunctionId :=
  a.units.toList.flatMap fun u => u.instructions.toList.filterMap Instruction.closure?

def bodies : List UnitId := a.functions.toList.map FunctionInfo.unit

/-- A piece of code leads to a unit: it invokes it or makes a closure with it as body. -/
def Leads (instructions : List Instruction) (id : UnitId) : Prop :=
  .invoke id ∈ instructions ∨
    ∃ f info, .makeClosure f ∈ instructions ∧ a.function? f = some info ∧ info.unit = id

/-- The code of one unit leads to another. -/
def Holds (outer inner : UnitId) : Prop :=
  ∃ u, a.unit? outer = some u ∧ a.Leads u.instructions.toList inner

/-- A unit is inside another, maybe with others in between. -/
def Inside (outer inner : UnitId) : Prop := Relation.TransGen a.Holds outer inner

theorem Leads.cons {a : Artifact} {code : List Instruction} {id : UnitId} (h : a.Leads code id) :
    a.Leads (i :: code) id :=
  h.imp (List.mem_cons_of_mem _)
    fun ⟨f, info, hmem, h⟩ => ⟨f, info, List.mem_cons_of_mem _ hmem, h⟩

end Artifact

/-! ## Numbers in a row -/

section

variable {α : Type} {l : List α}

theorem extract_self (k : Nat) : l.extract k k = [] := by
  simp [List.extract]

theorem extract_append {k : Nat} (h : k ≤ m) (h' : m ≤ n) :
    l.extract k m ++ l.extract m n = l.extract k n := by
  have hlength : n - k = (m - k) + (n - m) := by omega
  have hstart : k + (m - k) = m := by omega
  rw [List.extract_eq_take_drop, List.extract_eq_take_drop, List.extract_eq_take_drop, hlength,
    List.take_add, List.drop_drop, hstart]

theorem extract_all : l.extract 0 l.length = l := by
  rw [List.extract_eq_take_drop, List.drop_zero, Nat.sub_zero, List.take_length]

theorem extract_succ {k : Nat} {x : α} (h : l[k]? = some x) : l.extract k (k + 1) = [x] := by
  obtain ⟨hlt, rfl⟩ := List.getElem?_eq_some_iff.mp h
  rw [List.extract_eq_take_drop, List.drop_eq_getElem_cons hlt, Nat.add_sub_cancel_left]
  rfl

end

namespace Artifact

def code (a : Artifact) (first last : Nat) : List Instruction :=
  (a.units.toList.extract first last).flatMap fun u => u.instructions.toList

def bodiesOf (a : Artifact) (first last : Nat) : List UnitId :=
  (a.functions.toList.extract first last).map FunctionInfo.unit

variable {a : Artifact}

theorem code_self (k : Nat) : a.code k k = [] := by
  rw [code, extract_self, List.flatMap_nil]

theorem code_append {k : Nat} (h : k ≤ m) (h' : m ≤ n) :
    a.code k m ++ a.code m n = a.code k n := by
  rw [code, code, code, ← List.flatMap_append, extract_append h h']

theorem code_cons {k : Nat} {u : CodeUnit} (hu : a.unit? k = some u) (h : k + 1 ≤ n) :
    a.code k n = u.instructions.toList ++ a.code (k + 1) n := by
  have hone : a.code k (k + 1) = u.instructions.toList := by
    have hget : a.units.toList[k]? = some u := by simpa [unit?] using hu
    rw [code, extract_succ hget, List.flatMap_singleton]
  rw [← code_append (Nat.le_succ k) h, hone]

theorem code_all :
    a.code 0 a.units.size = a.units.toList.flatMap fun u => u.instructions.toList := by
  rw [code, ← Array.length_toList, extract_all]

theorem invocations_eq :
    a.invocations = (a.code 0 a.units.size).filterMap Instruction.invoked? := by
  rw [code_all, List.filterMap_flatMap]
  rfl

theorem closures_eq : a.closures = (a.code 0 a.units.size).filterMap Instruction.closure? := by
  rw [code_all, List.filterMap_flatMap]
  rfl

theorem bodiesOf_self (f : Nat) : a.bodiesOf f f = [] := by
  rw [bodiesOf, extract_self, List.map_nil]

theorem bodiesOf_append {f : Nat} (h : f ≤ m) (h' : m ≤ n) :
    a.bodiesOf f m ++ a.bodiesOf m n = a.bodiesOf f n := by
  rw [bodiesOf, bodiesOf, bodiesOf, ← List.map_append, extract_append h h']

theorem bodiesOf_cons {f : Nat} {info : FunctionInfo} (hf : a.function? f = some info)
    (h : f + 1 ≤ n) : a.bodiesOf f n = info.unit :: a.bodiesOf (f + 1) n := by
  have hone : a.bodiesOf f (f + 1) = [info.unit] := by
    have hget : a.functions.toList[f]? = some info := by simpa [function?] using hf
    rw [bodiesOf, extract_succ hget, List.map_singleton]
  rw [← bodiesOf_append (Nat.le_succ f) h, hone, List.singleton_append]

theorem bodies_eq : a.bodies = a.bodiesOf 0 a.functions.size := by
  rw [bodiesOf, ← Array.length_toList, extract_all]
  rfl

end Artifact

theorem Instruction.invoked?_of_nests (h : i.nests = false) :
    i.invoked? = none := by
  cases i with
  | invoke id => cases h
  | _ => rfl

theorem Instruction.closure?_of_nests (h : i.nests = false) :
    i.closure? = none := by
  cases i with
  | makeClosure id => cases h
  | _ => rfl

/-- A piece of code with the units below it.  They are numbered from `k` to `k'`, and the functions
that are listed with them from `f` to `f'`.  `P` holds of each of these units. -/
inductive Forest (P : CodeUnit → Prop) (a : Artifact) :
    Nat → Nat → List Instruction → Nat → Nat → Prop where
  | nil {k f} : Forest P a k f [] k f
  | plain {k f k' f' i code} : i.nests = false → Forest P a k f code k' f' →
    Forest P a k f (i :: code) k' f'
  | invoke {k f k₁ f₁ k' f' u code} : a.unit? k = some u → P u →
    Forest P a (k + 1) f u.instructions.toList k₁ f₁ → Forest P a k₁ f₁ code k' f' →
    Forest P a k f (.invoke k :: code) k' f'
  | closure {k f k₁ f₁ k' f' u info code} : a.unit? k = some u → P u →
    Forest P a (k + 1) f u.instructions.toList k₁ f₁ → a.function? f₁ = some info →
    info.unit = k → u.role = .function → u.strict = info.strict →
    Forest P a k₁ (f₁ + 1) code k' f' → Forest P a k f (.makeClosure f₁ :: code) k' f'

variable {id : Nat}

namespace Forest

variable {P : CodeUnit → Prop} {a : Artifact} {k k' k'' f f' f'' : Nat}
  {code code' : List Instruction}

theorem append (h : Forest P a k f code k' f') (h' : Forest P a k' f' code' k'' f'') :
    Forest P a k f (code ++ code') k'' f'' := by
  induction h with
  | nil => exact h'
  | plain hi _ ih => exact .plain hi (ih h')
  | invoke hu hp hbody _ _ ih => exact .invoke hu hp hbody (ih h')
  | closure hu hp hbody hf hunit hrole hstrict _ _ ih =>
    exact .closure hu hp hbody hf hunit hrole hstrict (ih h')

theorem le (h : Forest P a k f code k' f') : k ≤ k' ∧ f ≤ f' := by
  induction h with
  | nil => exact ⟨Nat.le_refl _, Nat.le_refl _⟩
  | plain _ _ ih => exact ih
  | invoke _ _ _ _ ih1 ih2 => omega
  | closure _ _ _ _ _ _ _ _ ih1 ih2 => omega

/-! ## Below a piece of code -/

theorem leads (h : Forest P a k f code k' f') (hid : a.Leads code id) :
    k ≤ id ∧ id < k' := by
  induction h with
  | nil => rcases hid with h | ⟨_, _, h, -⟩ <;> cases h
  | plain hi _ ih =>
    refine ih ?_
    rcases hid with h | ⟨f, info, h, hf⟩
    · refine .inl ((List.mem_cons.mp h).resolve_left ?_)
      rintro rfl
      cases hi
    · refine .inr ⟨f, info, (List.mem_cons.mp h).resolve_left ?_, hf⟩
      rintro rfl
      cases hi
  | invoke hu hp hbody hrest _ ih =>
    have hbody := hbody.le
    have hrest := hrest.le
    rcases hid with h | ⟨f, info, h, hf⟩
    · rcases List.mem_cons.mp h with h | h
      · cases h
        omega
      · have := ih (.inl h)
        omega
    · have := ih (.inr ⟨f, info, (List.mem_cons.mp h).resolve_left nofun, hf⟩)
      omega
  | closure hu hp hbody hfunction hunit _ _ hrest _ ih =>
    have hbody := hbody.le
    have hrest := hrest.le
    rcases hid with h | ⟨f, info, h, hf, rfl⟩
    · have := ih (.inl ((List.mem_cons.mp h).resolve_left nofun))
      omega
    · rcases List.mem_cons.mp h with h | h
      · cases h
        cases hf.symm.trans hfunction
        rw [hunit]
        omega
      · have := ih (.inr ⟨f, info, h, hf, rfl⟩)
        omega

theorem inner (h : Forest P a k f code k' f') (hk : k ≤ id) (hk' : id < k') :
    ∃ u f1 last f2, a.unit? id = some u ∧ P u ∧ last ≤ k' ∧
      Forest P a (id + 1) f1 u.instructions.toList last f2 := by
  induction h with
  | nil => omega
  | plain _ _ ih => exact ih hk hk'
  | @invoke k f k1 f1 k' f' u code hu hp hbody hrest ih1 ih2
  | @closure k f k1 f1 k' f' u info code hu hp hbody hf hunit _ _ hrest ih1 ih2 =>
    have hle := hrest.le
    by_cases hid : id = k
    · cases hid
      exact ⟨u, f, k1, f1, hu, hp, hle.1, hbody⟩
    · by_cases hlt : id < k1
      · obtain ⟨u, f1, last, f2, hu, hp, hlast, h⟩ := ih1 (by omega) hlt
        exact ⟨u, f1, last, f2, hu, hp, by omega, h⟩
      · exact ih2 (by omega) hk'

theorem reaches (h : Forest P a k f code k' f') (hk : k ≤ id) (hk' : id < k') :
    ∃ root, a.Leads code root ∧ Relation.ReflTransGen a.Holds root id := by
  induction h with
  | nil => omega
  | plain _ _ ih =>
    obtain ⟨root, hroot, hid⟩ := ih hk hk'
    exact ⟨root, hroot.cons, hid⟩
  | @invoke k f k1 f1 k' f' u code hu _ hbody hrest ih1 ih2 =>
    by_cases hlt : id < k1
    · have hlead : a.Leads (.invoke k :: code) k := .inl List.mem_cons_self
      refine ⟨k, hlead, ?_⟩
      by_cases hid : id = k
      · exact hid ▸ .refl
      · obtain ⟨root, hroot, hid⟩ := ih1 (by omega) hlt
        exact .head ⟨u, hu, hroot⟩ hid
    · obtain ⟨root, hroot, hid⟩ := ih2 (by omega) hk'
      exact ⟨root, hroot.cons, hid⟩
  | @closure k f k1 f1 k' f' u info code hu _ hbody hf hunit _ _ hrest ih1 ih2 =>
    by_cases hlt : id < k1
    · have hlead : a.Leads (.makeClosure f1 :: code) k :=
        .inr ⟨f1, info, List.mem_cons_self, hf, hunit⟩
      refine ⟨k, hlead, ?_⟩
      by_cases hid : id = k
      · exact hid ▸ .refl
      · obtain ⟨root, hroot, hid⟩ := ih1 (by omega) hlt
        exact .head ⟨u, hu, hroot⟩ hid
    · obtain ⟨root, hroot, hid⟩ := ih2 (by omega) hk'
      exact ⟨root, hroot.cons, hid⟩

/-- A unit below a piece of code leads to units that come after it and are below it, too. -/
theorem holds (h : Forest P a k f code k' f') {id' : Nat} (hk : k ≤ id) (hk' : id < k')
    (hid : a.Holds id id') : id < id' ∧ id' < k' := by
  obtain ⟨u, hu, hlead⟩ := hid
  obtain ⟨u', f1, last, f2, hu', -, hlast, hforest⟩ := h.inner hk hk'
  cases hu.symm.trans hu'
  have := hforest.leads hlead
  omega

/-- The units inside a unit are those below its code. -/
theorem inside_iff {u : CodeUnit} {id' : Nat}
    (h : Forest P a (id + 1) f u.instructions.toList k' f') (hu : a.unit? id = some u) :
    a.Inside id id' ↔ id < id' ∧ id' < k' := by
  constructor
  · intro hin
    induction hin with
    | single hid =>
      obtain ⟨u', hu', hlead⟩ := hid
      cases hu.symm.trans hu'
      exact h.leads hlead
    | tail _ hid ih =>
      have := h.holds ih.1 ih.2 hid
      omega
  · rintro ⟨hlt, hlt'⟩
    obtain ⟨root, hroot, hid⟩ := h.reaches hlt hlt'
    exact .head' ⟨u, hu, hroot⟩ hid

/-- The functions that are listed with a piece of code have bodies of their own kind. -/
theorem functions (h : Forest P a k f code k' f') (hf : f ≤ id) (hf' : id < f') :
    ∃ info u, a.function? id = some info ∧ a.unit? info.unit = some u ∧ u.role = .function ∧
      u.strict = info.strict := by
  induction h with
  | nil => omega
  | plain _ _ ih => exact ih hf hf'
  | @invoke k f k1 f1 k' f' u code _ _ _ _ ih1 ih2 =>
    by_cases hlt : id < f1
    · exact ih1 hf hlt
    · exact ih2 (by omega) hf'
  | @closure k f k1 f1 k' f' u info code hu _ _ hfunction hunit hrole hstrict _ ih1 ih2 =>
    by_cases hlt : id < f1
    · exact ih1 hf hlt
    · by_cases hid : id = f1
      · exact ⟨info, u, hid ▸ hfunction, hunit ▸ hu, hrole, hstrict⟩
      · exact ih2 (by omega) hf'

/-- Each unit below a piece of code is led to once from it or from another unit below it, by an
instruction that invokes it or as the body of a function. -/
theorem count_units (h : Forest P a k f code k' f') (id : Nat) :
    (code.filterMap Instruction.invoked?).count id +
        ((a.code k k').filterMap Instruction.invoked?).count id + (a.bodiesOf f f').count id =
      if k ≤ id ∧ id < k' then 1 else 0 := by
  induction h with
  | nil =>
    rw [Artifact.code_self, Artifact.bodiesOf_self, if_neg (by omega)]
    rfl
  | plain hi _ ih => rwa [List.filterMap_cons_none (Instruction.invoked?_of_nests hi)]
  | @invoke k f k1 f1 k' f' u code hu _ hbody hrest ih1 ih2 =>
    have hbody := hbody.le
    have hrest := hrest.le
    have hhead : (Instruction.invoke k).invoked? = some k := rfl
    rw [Artifact.code_cons hu (by omega), ← Artifact.code_append hbody.1 hrest.1,
      ← Artifact.bodiesOf_append hbody.2 hrest.2, List.filterMap_cons_some hhead]
    grind
  | @closure k f k1 f1 k' f' u info code hu _ hbody hfunction hunit _ _ hrest ih1 ih2 =>
    have hbody := hbody.le
    have hrest := hrest.le
    have hhead : (Instruction.makeClosure f1).invoked? = none := rfl
    rw [Artifact.code_cons hu (by omega), ← Artifact.code_append hbody.1 hrest.1,
      ← Artifact.bodiesOf_append hbody.2 (by omega), Artifact.bodiesOf_cons hfunction hrest.2,
      List.filterMap_cons_none hhead, hunit]
    grind

theorem count_closures (h : Forest P a k f code k' f') (id : Nat) :
    (code.filterMap Instruction.closure?).count id +
        ((a.code k k').filterMap Instruction.closure?).count id =
      if f ≤ id ∧ id < f' then 1 else 0 := by
  induction h with
  | nil =>
    rw [Artifact.code_self, if_neg (by omega)]
    rfl
  | plain hi _ ih => rwa [List.filterMap_cons_none (Instruction.closure?_of_nests hi)]
  | @invoke k f k1 f1 k' f' u code hu _ hbody hrest ih1 ih2 =>
    have hbody := hbody.le
    have hrest := hrest.le
    have hhead : (Instruction.invoke k).closure? = none := rfl
    rw [Artifact.code_cons hu (by omega), ← Artifact.code_append hbody.1 hrest.1,
      List.filterMap_cons_none hhead]
    grind
  | @closure k f k1 f1 k' f' u info code hu _ hbody _ _ _ _ hrest ih1 ih2 =>
    have hbody := hbody.le
    have hrest := hrest.le
    have hhead : (Instruction.makeClosure f1).closure? = some f1 := rfl
    rw [Artifact.code_cons hu (by omega), ← Artifact.code_append hbody.1 hrest.1,
      List.filterMap_cons_some hhead]
    grind

end Forest

namespace Registry

/-- The finished units and the listed functions are those of an artifact. -/
structure Within (r : Registry) (a : Artifact) : Prop where
  units : ∀ {id : UnitId} {u : CodeUnit}, r.unit? id = some u → a.unit? id = some u
  functions : ∀ {id : FunctionId} {info : FunctionInfo}, r.functions[id]? = some info →
    a.function? id = some info

theorem Within.mono {r r' : Registry} {a : Artifact} (h : r'.Within a) (hle : r.Le r') :
    r.Within a :=
  ⟨fun hu => h.units (hle.units hu), fun hf => h.functions (hle.functions hf)⟩

theorem size_fill (r : Registry) (id : UnitId) (u : CodeUnit) :
    (r.fill id u).slots.size = r.slots.size :=
  Array.size_modify

end Registry

end Code

namespace Lowering

open Code Syntax

def Generated (u : CodeUnit) : Prop :=
  ∃ source name registry s d ok, Formed [] [] 0 (Body.gen u.strict source) d ok (.leaves []) ∧
    Yields (source.gen u.strict) (.fresh name registry) () s ∧
    s.builder.finish u.role u.strict = .ok u

def Grown (a : Artifact) (s s' : Stage) : Prop :=
  ∃ code, s'.builder.instructions.toList = s.builder.instructions.toList ++ code ∧
    Forest Generated a s.registry.slots.size s.registry.functions.size code
      s'.registry.slots.size s'.registry.functions.size

variable {a : Artifact} {s s' s'' : Stage}

namespace Grown

theorem refl {b : Builder} {r : Registry}
    (hb : b.instructions = s.builder.instructions) (hr : r = s.registry) : Grown a s ⟨b, r⟩ := by
  refine ⟨[], ?_, ?_⟩
  · rw [List.append_nil]
    exact congrArg Array.toList hb
  · cases hr
    exact .nil

theorem trans (h : Grown a s s') (h' : Grown a s' s'') : Grown a s s'' := by
  obtain ⟨code, hcode, hforest⟩ := h
  obtain ⟨code', hcode', hforest'⟩ := h'
  refine ⟨code ++ code', ?_, hforest.append hforest'⟩
  rw [hcode', hcode, List.append_assoc]

theorem emit {r : Registry}
    (h : Forest Generated a s.registry.slots.size s.registry.functions.size [i] r.slots.size
      r.functions.size) : Grown a s ⟨s.builder.emit i, r⟩ :=
  ⟨[i], Array.toList_push, h⟩

end Grown

section

variable {role : Role} {strict : Bool} {source : Body} {d : Demand} {ok : Prop} {r r1 : Registry}
  {name : String} {id : UnitId} {u : CodeUnit}

theorem forest_of_reserve (hg : Formed [] [] 0 (source.gen strict) d ok (.leaves []))
    (hr : r.reserve role = (.ok id, r1)) (hy : Yields (source.gen strict) (.fresh name r1) () s)
    (hf : s.builder.finish role strict = .ok u) (ha : (s.registry.fill id u).Within a)
    (ih : s.registry.Within a → Grown a (.fresh name r1) s) :
    id = r.slots.size ∧ u.role = role ∧ u.strict = strict ∧ a.unit? id = some u ∧ Generated u ∧
      Forest Generated a (r.slots.size + 1) r.functions.size u.instructions.toList
        s.registry.slots.size s.registry.functions.size := by
  have hle := (ready_of_formed hg (.fresh _ _) hy).2.2.registry
  have hunit := ha.units (Registry.unit?_fill_self u hr hle)
  obtain ⟨code, hcode, hforest⟩ := ih
    ⟨fun hu => ha.units (Registry.unit?_fill_of_unit? u hr hle hu), ha.functions⟩
  have hu := finish_eq hf
  have hrole : u.role = role := by rw [hu]
  have hstrict : u.strict = strict := by rw [hu]
  have hinstructions : u.instructions.toList = code := by
    rw [hu]
    exact hcode
  obtain ⟨hid, hr1⟩ := Registry.reserve_eq hr
  refine ⟨hid, hrole, hstrict, hunit, ⟨source, name, r1, s, d, ok, ?_⟩, ?_⟩
  · rw [hrole, hstrict]
    exact ⟨hg, hy, hf⟩
  · rw [hinstructions]
    have hsize : r1.slots.size = r.slots.size + 1 := by rw [hr1, Array.size_push]
    have hfunctions : r1.functions.size = r.functions.size := by rw [hr1]
    rw [← hsize, ← hfunctions]
    exact hforest

end

theorem forest_of_formed {known : List Reference} {pending : List Label} {t : Nat} {α : Type}
    {g : Gen α} {d : Demand} {ok : Prop} {Q : Result α} {x : α}
    (hg : Formed known pending t g d ok Q) (hs : s.Ready known pending t) (hy : Yields g s x s')
    (ha : s'.registry.Within a) : Grown a s s' := by
  induction hg generalizing s s' with
  | pure his hknown hpending =>
    obtain ⟨-, rfl⟩ := yields_pure.mp hy
    exact .refl rfl rfl
  | bind hg hf ihg ihf =>
    obtain ⟨y, s1, hy1, hy2⟩ := yields_bind.mp hy
    obtain ⟨his, hs1, -⟩ := ready_of_formed hg hs hy1
    obtain ⟨-, -, hgrows⟩ := ready_of_formed (hf y his) hs1 hy2
    exact (ihg hs hy1 (ha.mono hgrows.registry)).trans (ihf y his hs1 hy2 ha)
  | emit i hnests hrefs =>
    cases yields_emit.mp hy
    exact .emit (.plain hnests .nil)
  | newLabels count =>
    obtain ⟨-, rfl⟩ := yields_newLabels.mp hy
    exact .refl rfl rfl
  | place l before after =>
    obtain ⟨-, rfl⟩ := yields_place.mp hy
    exact .refl rfl rfl
  | intern o ho =>
    rcases yields_intern hy with ⟨-, rfl⟩ | ⟨-, -, -, rfl⟩
    · exact .refl rfl rfl
    · exact .refl rfl rfl
  | allocate count =>
    obtain ⟨-, rfl, -⟩ := yields_allocate hy
    exact .refl rfl rfl
  | operate harity =>
    obtain ⟨-, rfl⟩ := yields_operate hy
    exact .emit (.plain rfl .nil)
  | invoke hbody ih =>
    obtain ⟨id, s1, hy1, hy2⟩ := yields_bind.mp hy
    obtain ⟨registry, s2, u, hr, hsource, hfin, rfl⟩ := yields_inUnit hy1
    cases yields_emit.mp hy2
    obtain ⟨rfl, -, -, hunit, hgen, hforest⟩ :=
      forest_of_reserve hbody hr hsource hfin ha (ih (.fresh _ _) hsource)
    refine .emit ?_
    rw [Registry.size_fill]
    exact .invoke hunit hgen hforest .nil
  | closure hbody ih =>
    obtain ⟨id, s1, hy1, hy2⟩ := yields_bind.mp hy
    obtain ⟨f, s3, hy2, hy3⟩ := yields_bind.mp hy2
    obtain ⟨registry, s2, u, hr, hsource, hfin, rfl⟩ := yields_inUnit hy1
    obtain ⟨rfl, rfl⟩ := yields_addFunction.mp hy2
    cases yields_emit.mp hy3
    have hfunction := ha.functions Array.getElem?_push_size
    obtain ⟨rfl, hrole, hstrict, hunit, hgen, hforest⟩ :=
      forest_of_reserve hbody hr hsource hfin
        (ha.mono ⟨extends_refl _, extends_push _ _⟩) (ih (.fresh _ _) hsource)
    refine .emit ?_
    show Forest _ _ _ _ _ (s2.registry.fill _ u).slots.size (Array.push _ _).size
    rw [Registry.size_fill, Array.size_push]
    exact .closure hunit hgen hforest hfunction rfl hrole hstrict .nil
  | unsupported construct => exact absurd hy not_yields_unsupported
  | tooMany what => exact absurd hy not_yields_tooMany

/-! ## Programs -/

variable {p : Program} {strict : Bool}

theorem forest_program (h : compile p strict = .ok a) :
    a.entry = 0 ∧ ∃ u, a.unit? 0 = some u ∧ Generated u ∧
      Forest Generated a 1 0 u.instructions.toList a.units.size a.functions.size := by
  obtain ⟨registry, hy, hf, hsize, hunits⟩ := compile_registry h
  obtain ⟨r1, s, u, hr, hbody, hfin, hs⟩ := yields_inUnit hy
  have hformed := formed_declaring (strict || p.strict) p.body
  have hregistry : registry = s.registry.fill a.entry u := congrArg Stage.registry hs
  have hwithin : registry.Within a := by
    refine ⟨fun hid => (hunits _).trans hid, fun hid => ?_⟩
    unfold Artifact.function?
    rw [hf]
    exact hid
  rw [hregistry] at hwithin
  obtain ⟨hentry, -, -, hunit, hgen, hforest⟩ :=
    forest_of_reserve hformed hr hbody hfin hwithin (forest_of_formed hformed (.fresh _ _) hbody)
  rw [hf, hsize, hregistry, Registry.size_fill]
  rw [hentry] at hunit
  exact ⟨hentry, u, hunit, hgen, hforest⟩

theorem forest_unit (h : compile p strict = .ok a) {id : Nat} (hid : id < a.units.size) :
    ∃ u f last f', a.unit? id = some u ∧ Generated u ∧ last ≤ a.units.size ∧
      Forest Generated a (id + 1) f u.instructions.toList last f' := by
  obtain ⟨-, u, hunit, hgen, hforest⟩ := forest_program h
  by_cases hzero : id = 0
  · cases hzero
    exact ⟨u, 0, _, _, hunit, hgen, Nat.le_refl _, hforest⟩
  · exact hforest.inner (Nat.pos_of_ne_zero hzero) hid

theorem lt_of_invoke (h : compile p strict = .ok a) {id target : Nat} {u : CodeUnit}
    (hu : a.unit? id = some u) (hi : .invoke target ∈ u.instructions) : id < target := by
  obtain ⟨u', f, last, f', hu', -, -, hforest⟩ :=
    forest_unit h (Array.getElem?_eq_some_iff.mp hu).1
  cases hu.symm.trans hu'
  exact (hforest.leads (.inl (Array.mem_toList_iff.mpr hi))).1

theorem body_of_function (h : compile p strict = .ok a) {id : FunctionId} {info : FunctionInfo}
    (hf : a.function? id = some info) :
    ∃ u, a.unit? info.unit = some u ∧ u.role = .function ∧ u.strict = info.strict := by
  obtain ⟨-, u, -, -, hforest⟩ := forest_program h
  obtain ⟨info', u, hinfo, hunit⟩ :=
    hforest.functions (Nat.zero_le id) (Array.getElem?_eq_some_iff.mp hf).1
  cases hf.symm.trans hinfo
  exact ⟨u, hunit⟩

theorem count_closures (h : compile p strict = .ok a) (f : FunctionId) :
    a.closures.count f = if f < a.functions.size then 1 else 0 := by
  obtain ⟨-, u, hunit, -, hforest⟩ := forest_program h
  rw [Artifact.closures_eq, Artifact.code_cons hunit hforest.le.1, List.filterMap_append,
    List.count_append, hforest.count_closures f]
  simp

/-- The units of a program form a tree and are numbered in preorder.  The program comes first.  A
unit invokes only units that come after it.  Every other unit is either invoked by one instruction
or is the body of one function, and one closure is made of every function.  The units inside a unit
are those directly after it, up to some number. -/
theorem compile_preorder (h : compile p strict = .ok a) :
    a.entry = 0 ∧
    (∀ {id u target}, a.unit? id = some u → .invoke target ∈ u.instructions → id < target) ∧
    (∀ id, a.invocations.count id + a.bodies.count id =
      if 0 < id ∧ id < a.units.size then 1 else 0) ∧
    (∀ f, a.closures.count f = if f < a.functions.size then 1 else 0) ∧
    ∀ id < a.units.size, ∃ last, id < last ∧ last ≤ a.units.size ∧
      ∀ inner, a.Inside id inner ↔ id < inner ∧ inner < last := by
  obtain ⟨hentry, u, hunit, -, hforest⟩ := forest_program h
  have hsize := hforest.le.1
  refine ⟨hentry, lt_of_invoke h, fun id => ?_, count_closures h, fun id hid => ?_⟩
  · have hcount := hforest.count_units id
    rw [Artifact.invocations_eq, Artifact.bodies_eq, Artifact.code_cons hunit hsize,
      List.filterMap_append, List.count_append]
    exact hcount
  · obtain ⟨u, f, last, f', hu, -, hlast, hforest⟩ := forest_unit h hid
    exact ⟨last, hforest.le.1, hlast, fun inner => hforest.inside_iff hu⟩

/-- `while (true) (function () { try {} finally {} }); if (true) ;` -/
def loopAroundFunction : Program where
  body := [.whileLoop (.boolean true)
      (.expression (.function (.mk none [] [.tryCatch [] none (some [])] false))),
    .ifElse (.boolean true) .empty none]

theorem compile_loopAroundFunction :
    (compile loopAroundFunction false).map (fun a => (a.units.size, a.functions.size)) =
      .ok (6, 1) := by
  decide +kernel

theorem compile_preorder_loopAroundFunction :
    ∃ a, compile loopAroundFunction false = .ok a ∧ a.entry = 0 ∧
      (∀ id, a.invocations.count id + a.bodies.count id = if 0 < id ∧ id < 6 then 1 else 0) ∧
      (∀ f, a.closures.count f = if f < 1 then 1 else 0) ∧
      ∃ last, 2 < last ∧ last ≤ 6 ∧ ∀ inner, a.Inside 2 inner ↔ 2 < inner ∧ inner < last := by
  obtain ⟨a, hc, hsizes⟩ := ok_of_map compile_loopAroundFunction
  obtain ⟨hunits, hfunctions⟩ := Prod.mk.inj hsizes
  obtain ⟨hentry, -, hcounts, hclosures, hinside⟩ := compile_preorder hc
  simp only [hunits, hfunctions] at hcounts hclosures hinside
  exact ⟨a, hc, hentry, hcounts, hclosures, hinside 2 (by decide)⟩

end Lowering

end TreeScript
