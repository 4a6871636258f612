import TreeScript.Lowering.Tree

/-!
# Stages of code generation

What a piece of code generation does when it goes through.  A stage is the unit being built together
with the units and functions that are there already; `Yields g s x s'` says that `g` leads from `s`
to `s'` with the result `x`.  Each way of generating code has one lemma that says exactly where it
leads.
-/

namespace TreeScript.Lowering

open Code

structure Stage where
  builder : Builder
  registry : Registry

namespace Stage

def offset (s : Stage) : Nat := s.builder.instructions.size

def temps (s : Stage) : Nat := s.builder.tempCount

def fresh (name : String) (registry : Registry) : Stage := ⟨{ unit := name }, registry⟩

end Stage

/-- Generation goes through, from one stage to another, with a result. -/
def Yields (g : Gen α) (s : Stage) (x : α) (s' : Stage) : Prop :=
  (g.run s.builder).run.run s.registry = (.ok (x, s'.builder), s'.registry)

variable {α β : Type} {s s' : Stage}

/-! ## Sequences -/

theorem yields_pure {x y : α} : Yields (pure x) s y s' ↔ x = y ∧ s = s' := by
  constructor
  · intro h
    cases s'
    cases h
    exact ⟨rfl, rfl⟩
  · rintro ⟨rfl, rfl⟩
    rfl

theorem yields_bind {g : Gen α} {f : α → Gen β} {y : β} :
    Yields (g >>= f) s y s' ↔ ∃ x s1, Yields g s x s1 ∧ Yields (f x) s1 y s' := by
  unfold Yields
  rw [StateT.run_bind, ExceptT.run_bind, StateT.run_bind]
  constructor
  · intro h
    rcases hg : (g.run s.builder).run.run s.registry with ⟨e | ⟨x, b⟩, r⟩
    · rw [hg] at h
      cases h
    · rw [hg] at h
      exact ⟨x, ⟨b, r⟩, rfl, h⟩
  · rintro ⟨x, s1, hg, hf⟩
    rw [hg]
    exact hf

/-! ## Work on the builder -/

theorem yields_emit {i : Instruction} {x : Unit} :
    Yields (emit i) s x s' ↔ s' = ⟨s.builder.emit i, s.registry⟩ := by
  constructor
  · intro h
    cases s'
    cases h
    rfl
  · rintro rfl
    rfl

theorem yields_modifyGet {f : Builder → α × Builder} {x : α} :
    Yields (modifyGet f) s x s' ↔
      x = (f s.builder).1 ∧ s' = ⟨(f s.builder).2, s.registry⟩ := by
  constructor
  · intro h
    obtain ⟨hok, hregistry⟩ : Except.ok (f s.builder) = .ok (x, s'.builder) ∧
        s.registry = s'.registry := Prod.mk.inj h
    rw [Except.ok.inj hok, hregistry]
    exact ⟨rfl, rfl⟩
  · rintro ⟨rfl, rfl⟩
    rfl

theorem newLabel_eq : newLabel = newLabels 1 := rfl

theorem yields_newLabels {count : Nat} {l : Label} :
    Yields (newLabels count) s l s' ↔
      l = s.builder.labels.size ∧ s' = ⟨(s.builder.newLabels count).2, s.registry⟩ :=
  yields_modifyGet

theorem yields_build {x : Building α} {y : α} :
    Yields (build x) s y s' ↔ x s.builder = .ok y s'.builder ∧ s'.registry = s.registry := by
  unfold Yields build StateT.run
  dsimp only
  cases x s.builder with
  | error e b =>
    constructor
    · intro h
      cases h
    · rintro ⟨h, -⟩
      cases h
  | ok z b =>
    constructor
    · intro h
      cases s'
      cases h
      exact ⟨rfl, rfl⟩
    · rintro ⟨h, hr⟩
      cases s'
      cases h
      cases hr
      rfl

theorem yields_place {l : Label} {x : Unit} :
    Yields (place l) s x s' ↔ s.builder.labels[l]? = some none ∧
      s' = ⟨{ s.builder with labels := s.builder.labels.setIfInBounds l (some s.offset) },
        s.registry⟩ := by
  unfold place
  rw [yields_build]
  unfold Builder.place
  obtain ⟨b', r'⟩ := s'
  constructor
  · rintro ⟨h, hr⟩
    split at h
    · next hl =>
      cases h
      cases hr
      exact ⟨hl, rfl⟩
    · cases h
  · rintro ⟨hl, h⟩
    cases h
    rw [hl]
    exact ⟨rfl, rfl⟩

theorem yields_intern {o : Operand} {i : OperandIndex} (h : Yields (intern o) s i s') :
    s.builder.interned.get? o.key = some i ∧ s' = s ∨
    s.builder.interned.get? o.key = none ∧ i = s.builder.operands.size ∧
      i < Builder.maxOperands ∧
      s' = ⟨{ s.builder with
        operands := s.builder.operands.push o
        interned := s.builder.interned.insert o.key i }, s.registry⟩ := by
  unfold intern at h
  rw [yields_build] at h
  obtain ⟨h, hr⟩ := h
  unfold Builder.intern at h
  obtain ⟨b', r'⟩ := s'
  split at h
  · next j hj =>
    cases h
    cases hr
    exact .inl ⟨hj, rfl⟩
  · next hn =>
    dsimp only at h
    split at h
    · next hlt =>
      cases h
      cases hr
      exact .inr ⟨hn, rfl, hlt, rfl⟩
    · cases h

theorem build_bind (x : Building α) (f : α → Building β) :
    build (x >>= f) = build x >>= fun a => build (f a) := by
  funext b
  refine Eq.trans ?_ (show build x b >>= (fun p => build (f p.1) p.2) = _ from rfl)
  have hbind : (x >>= f) b = EStateM.bind x f b := rfl
  unfold build
  rw [hbind]
  unfold EStateM.bind
  cases x b with
  | ok a b => rfl
  | error e b => rfl

theorem load_eq (o : Operand) : load o = intern o >>= fun i => emit (.load i) :=
  build_bind _ _

theorem yields_allocate {count index : Nat} (h : Yields (allocate count) s index s') :
    index = s.temps ∧ s' = ⟨{ s.builder with tempCount := s.temps + count }, s.registry⟩ ∧
      s.temps + count ≤ Builder.maxTemporaries := by
  unfold allocate at h
  rw [yields_build] at h
  obtain ⟨h, hr⟩ := h
  unfold Builder.allocate at h
  obtain ⟨b', r'⟩ := s'
  split at h
  · next hle =>
    cases h
    cases hr
    exact ⟨rfl, rfl, hle⟩
  · cases h

theorem yields_operate {op : Operation} {supplied : Nat} {x : Unit}
    (h : Yields (operate op supplied) s x s') :
    op.arity = supplied ∧ s' = ⟨s.builder.emit (.operate op), s.registry⟩ := by
  unfold operate at h
  rw [yields_build] at h
  obtain ⟨h, hr⟩ := h
  unfold Builder.operate at h
  obtain ⟨b', r'⟩ := s'
  split at h
  · next ha =>
    cases h
    cases hr
    exact ⟨ha, rfl⟩
  · cases h

theorem not_yields_unsupported {construct : Unsupported} {x : α} :
    ¬ Yields (unsupported construct) s x s' := by
  intro h
  cases h

theorem not_yields_tooMany {what : Numbered} {x : α} : ¬ Yields (tooMany what) s x s' := by
  intro h
  cases h

/-! ## Units and functions -/

theorem compileUnit_run (role : Role) (strict : Bool) (body : Gen Unit) (r : Registry) :
    (compileUnit role strict body).run.run r =
      match r.reserve role with
      | (.error e, r1) => (.error e, r1)
      | (.ok id, r1) =>
        match (body.run { unit := r.nextName role }).run.run r1 with
        | (.error e, r2) => (.error e, r2)
        | (.ok (_, b), r2) =>
          match b.finish role strict with
          | .error e => (.error e, r2)
          | .ok unit => (.ok id, r2.fill id unit) := by
  have hreserve :
      (ExceptT.mk (modifyGet (·.reserve role)) : Compile UnitId).run.run r = r.reserve role := rfl
  show (ExceptT.mk (modifyGet (·.reserve role)) >>= fun id => _ : Compile UnitId).run.run r = _
  rw [ExceptT.run_bind, StateT.run_bind, hreserve]
  rcases r.reserve role with ⟨e | id, r1⟩
  · rfl
  · show ((body.run { unit := r.nextName role }) >>= fun q => _ : Compile UnitId).run.run r1 = _
    rw [ExceptT.run_bind, StateT.run_bind]
    dsimp only
    rcases (body.run { unit := r.nextName role }).run.run r1 with ⟨e | ⟨x, b⟩, r2⟩
    · rfl
    · show ((liftExcept (b.finish role strict) : Compile CodeUnit) >>= fun p => _ :
        Compile UnitId).run.run r2 = _
      dsimp only
      cases b.finish role strict with
      | error e => rfl
      | ok unit => rfl

theorem lift_run (x : Compile α) (b : Builder) (r : Registry) :
    ((StateT.lift x : Gen α).run b).run.run r =
      match x.run.run r with
      | (.ok a, r) => (.ok (a, b), r)
      | (.error e, r) => (.error e, r) := by
  show (x >>= fun a => pure (a, b) : Compile _).run.run r = _
  rw [ExceptT.run_bind, StateT.run_bind]
  rcases x.run.run r with ⟨e | a, r⟩ <;> rfl

theorem yields_lift {x : Compile α} {y : α} :
    Yields (StateT.lift x) s y s' ↔
      x.run.run s.registry = (.ok y, s'.registry) ∧ s'.builder = s.builder := by
  unfold Yields
  rw [lift_run]
  rcases x.run.run s.registry with ⟨e | a, r⟩
  · constructor
    · intro h
      cases h
    · rintro ⟨h, -⟩
      cases h
  · constructor
    · intro h
      cases s'
      cases h
      exact ⟨rfl, rfl⟩
    · rintro ⟨h, hb⟩
      cases s'
      cases h
      cases hb
      rfl

theorem yields_inUnit {role : Role} {strict : Bool} {body : Gen Unit} {id : UnitId}
    (h : Yields (inUnit role strict body) s id s') :
    ∃ registry s1 unit, s.registry.reserve role = (.ok id, registry) ∧
      Yields body (.fresh (s.registry.nextName role) registry) () s1 ∧
      s1.builder.finish role strict = .ok unit ∧ s' = ⟨s.builder, s1.registry.fill id unit⟩ := by
  obtain ⟨h, hb⟩ := yields_lift.mp h
  rw [compileUnit_run] at h
  rcases hr : s.registry.reserve role with ⟨e | id', registry⟩
  · rw [hr] at h
    cases h
  · rw [hr] at h
    dsimp only at h
    split at h
    · cases h
    · next b r2 hbody =>
      split at h
      · cases h
      · next unit hf =>
        cases s'
        cases h
        cases hb
        exact ⟨registry, ⟨b, r2⟩, unit, rfl, hbody, hf, rfl⟩

theorem yields_addFunction {info : FunctionInfo} {id : FunctionId} :
    Yields (addFunction info) s id s' ↔
      id = s.registry.functions.size ∧ s' = ⟨s.builder, (s.registry.addFunction info).2⟩ := by
  unfold addFunction
  rw [yields_lift]
  obtain ⟨b', r'⟩ := s'
  constructor
  · rintro ⟨h, hb⟩
    cases h
    cases hb
    exact ⟨rfl, rfl⟩
  · rintro ⟨rfl, h⟩
    cases h
    exact ⟨rfl, rfl⟩

end TreeScript.Lowering
