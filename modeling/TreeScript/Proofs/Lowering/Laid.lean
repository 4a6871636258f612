import TreeScript.Proofs.Lowering.Growth

/-!
# Code in its place

Code is generated into a unit that is still growing, and runs as part of the finished one.
`Laid a u g s x s'` says that between the stages `s` and `s'` the code of `g` went into what became
the unit `u` of the artifact `a`.  Nothing that comes later disturbs it, so the finished unit has
each instruction, operand and label where it was put.
-/

namespace TreeScript.Lowering

open Code

/-- What a unit and an artifact were at a stage is part of what they came to be. -/
structure Stage.Within (s : Stage) (a : Artifact) (u : CodeUnit) : Prop where
  instructions : Extends s.builder.instructions u.instructions
  operands : Extends s.builder.operands u.operands
  labels : ∀ {l offset : Nat}, s.builder.labels[l]? = some (some offset) →
    u.offset? l = some offset
  temps : s.temps ≤ u.tempCount
  units : ∀ {id : UnitId} {u' : CodeUnit}, s.registry.unit? id = some u' → a.unit? id = some u'
  functions : ∀ {id : FunctionId} {info : FunctionInfo}, s.registry.functions[id]? = some info →
    a.function? id = some info

theorem Stage.Within.mono {s s' : Stage} {a : Artifact} {u : CodeUnit} (h : s'.Within a u)
    (hg : s.Grows s') : s.Within a u where
  instructions := hg.builder.instructions.trans h.instructions
  operands := hg.builder.operands.trans h.operands
  labels hl := h.labels (hg.builder.labels hl)
  temps := Nat.le_trans hg.builder.temps h.temps
  units hu := h.units (hg.registry.units hu)
  functions hf := h.functions (hg.registry.functions hf)

/-- The code of `g` was generated between two stages of a unit. -/
structure Laid {α : Type} (a : Artifact) (u : CodeUnit) (g : Gen α) (s : Stage) (x : α)
    (s' : Stage) : Prop where
  yields : Yields g s x s'
  sound : s.builder.Sound
  within : s'.Within a u

variable {α β : Type} {a : Artifact} {u : CodeUnit} {s s' : Stage}

/-! ## Sequences -/

theorem laid_pure {x y : α} (h : Laid a u (pure x) s y s') : y = x ∧ s' = s := by
  obtain ⟨rfl, rfl⟩ := yields_pure.mp h.yields
  exact ⟨rfl, rfl⟩

variable {x : Unit} {g : Gen α} {l : Label}

theorem laid_bind {f : α → Gen β} [hg : Composed g] [hf : ∀ x, Composed (f x)] {y : β} :
    Laid a u (g >>= f) s y s' ↔ ∃ x s1, Laid a u g s x s1 ∧ Laid a u (f x) s1 y s' := by
  constructor
  · rintro ⟨hy, hs, hw⟩
    obtain ⟨x, s1, h1, h2⟩ := yields_bind.mp hy
    exact ⟨x, s1, ⟨h1, hs, hw.mono (grows_of_built (hf x) h2)⟩,
      ⟨h2, (grows_of_built hg h1).sound hs, hw⟩⟩
  · rintro ⟨x, s1, h1, h2⟩
    exact ⟨yields_bind.mpr ⟨x, s1, h1.yields, h2.yields⟩, h1.sound, h2.within⟩

theorem laid_map [Composed g] {f : α → β} {y : β} (h : Laid a u (f <$> g) s y s') :
    ∃ x, Laid a u g s x s' ∧ y = f x := by
  rw [← bind_pure_comp, laid_bind] at h
  obtain ⟨x, s1, h1, h2⟩ := h
  obtain ⟨rfl, rfl⟩ := laid_pure h2
  exact ⟨x, h1, rfl⟩

theorem laid_offset_le [hg : Composed g] {x : α} (h : Laid a u g s x s') :
    s.offset ≤ s'.offset :=
  (grows_of_built hg h.yields).offset_le

/-! ## Steps

Where a step leads: how far the code and the temporaries go, and what the finished unit has. -/

structure Adds (u : CodeUnit) (i : Instruction) (s s' : Stage) : Prop where
  code : u.instructions[s.offset]? = some i
  offset : s'.offset = s.offset + 1
  temps : s'.temps = s.temps

structure Keeps (s s' : Stage) : Prop where
  offset : s'.offset = s.offset
  temps : s'.temps = s.temps

theorem Keeps.trans {s1 : Stage} (h : Keeps s s1) (h' : Keeps s1 s') : Keeps s s' :=
  ⟨h'.offset.trans h.offset, h'.temps.trans h.temps⟩

theorem adds_emit {i : Instruction} (h : (⟨s.builder.emit i, s.registry⟩ : Stage).Within a u) :
    Adds u i s ⟨s.builder.emit i, s.registry⟩ :=
  ⟨h.instructions Array.getElem?_push_size, Array.size_push _, rfl⟩

theorem laid_emit {i : Instruction} (h : Laid a u (emit i) s x s') : Adds u i s s' := by
  obtain ⟨hy, -, hw⟩ := h
  cases yields_emit.mp hy
  exact adds_emit hw

theorem laid_operate {op : Operation} {supplied : Nat} (h : Laid a u (operate op supplied) s x s') :
    op.arity = supplied ∧ Adds u (.operate op) s s' := by
  obtain ⟨hy, -, hw⟩ := h
  obtain ⟨ha, rfl⟩ := yields_operate hy
  exact ⟨ha, adds_emit hw⟩

theorem laid_newLabels {count : Nat} (h : Laid a u (newLabels count) s l s') :
    Keeps s s' := by
  obtain ⟨-, rfl⟩ := yields_newLabels.mp h.yields
  exact ⟨rfl, rfl⟩

theorem laid_newLabel (h : Laid a u newLabel s l s') : Keeps s s' :=
  laid_newLabels (newLabel_eq ▸ h)

theorem laid_place (h : Laid a u (place l) s x s') :
    u.offset? l = some s.offset ∧ Keeps s s' := by
  obtain ⟨hy, -, hw⟩ := h
  obtain ⟨hl, rfl⟩ := yields_place.mp hy
  refine ⟨hw.labels ?_, rfl, rfl⟩
  exact Array.getElem?_setIfInBounds_self_of_lt (Array.getElem?_eq_some_iff.mp hl).1

theorem laid_placed (h : Laid a u (place l) s x s') :
    u.offset? l = some s'.offset ∧ Keeps s s' := by
  obtain ⟨hl, hk⟩ := laid_place h
  exact ⟨hk.offset ▸ hl, hk⟩

theorem laid_intern {o : Operand} {i : OperandIndex} (h : Laid a u (intern o) s i s') :
    u.operands[i]? = some o ∧ Keeps s s' := by
  obtain ⟨hy, hs, hw⟩ := h
  rcases yields_intern hy with ⟨hi, rfl⟩ | ⟨-, rfl, -, rfl⟩
  · obtain ⟨o', ho, hk⟩ := hs hi
    rw [Operand.key_inj hk] at ho
    exact ⟨hw.operands ho, rfl, rfl⟩
  · exact ⟨hw.operands Array.getElem?_push_size, rfl, rfl⟩

theorem laid_binding {name : String} {i : OperandIndex} (h : Laid a u (binding name) s i s') :
    u.operands[i]? = some (.binding name) ∧ Keeps s s' :=
  laid_intern h

theorem laid_load {o : Operand} (h : Laid a u (load o) s x s') :
    ∃ i, u.operands[i]? = some o ∧ Adds u (.load i) s s' := by
  rw [load_eq, laid_bind] at h
  obtain ⟨i, s1, h1, h2⟩ := h
  obtain ⟨ho, hk⟩ := laid_intern h1
  obtain ⟨hi, hoff, ht⟩ := laid_emit h2
  rw [hk.offset] at hi hoff
  exact ⟨i, ho, hi, hoff, ht.trans hk.temps⟩

theorem laid_loadConstant {c : Constant} (h : Laid a u (loadConstant c) s x s') :
    ∃ i, u.operands[i]? = some (.constant c) ∧ Adds u (.load i) s s' :=
  laid_load h

theorem laid_allocate {count index : Nat} (h : Laid a u (allocate count) s index s') :
    index = s.temps ∧ s'.temps = s.temps + count ∧ s'.offset = s.offset ∧
      s.temps + count ≤ Builder.maxTemporaries := by
  obtain ⟨rfl, rfl, hle⟩ := yields_allocate h.yields
  exact ⟨rfl, rfl, rfl, hle⟩

theorem not_laid_unsupported {construct : Unsupported} {x : α} :
    ¬ Laid a u (unsupported construct) s x s' :=
  fun h => not_yields_unsupported h.yields

theorem not_laid_tooMany {what : Numbered} {x : α} : ¬ Laid a u (tooMany what) s x s' :=
  fun h => not_yields_tooMany h.yields

theorem laid_addFunction {info : FunctionInfo} {id : FunctionId}
    (h : Laid a u (addFunction info) s id s') : a.function? id = some info ∧ Keeps s s' := by
  obtain ⟨hy, -, hw⟩ := h
  obtain ⟨rfl, rfl⟩ := yields_addFunction.mp hy
  exact ⟨hw.functions Array.getElem?_push_size, rfl, rfl⟩

/-! ## Constructs -/

theorem laid_literalKey {key : Syntax.Expr} {name : String}
    (h : Laid a u (literalKey key) s name s') : s' = s := by
  cases key with
  | identifier name | string value | number value => exact (laid_pure h).2
  | _ => exact absurd h not_laid_unsupported

theorem laid_argumentCount {arguments : List Syntax.Expr} {argc : Nat}
    (h : Laid a u (argumentCount arguments) s argc s') :
    argc = arguments.length ∧ s' = s ∧ arguments.length ≤ maxArguments := by
  unfold argumentCount at h
  split at h
  · next hmax =>
    obtain ⟨hargc, hs⟩ := laid_pure h
    exact ⟨hargc, hs, hmax⟩
  · exact absurd h not_laid_tooMany

theorem laid_hoisted {body : List Syntax.Stmt} {hoist : Syntax.Hoisted}
    (h : Laid a u (hoisted body) s hoist s') :
    Syntax.Hoisted.collect body = .ok hoist ∧ s' = s := by
  unfold hoisted at h
  cases hc : Syntax.Hoisted.collect body with
  | error e =>
    rw [hc] at h
    exact absurd h not_laid_unsupported
  | ok hoist' =>
    rw [hc] at h
    obtain ⟨rfl, hs⟩ := laid_pure h
    exact ⟨rfl, hs⟩

/-! ## Units -/

/-- A unit of an artifact has the code of `body` from its first instruction to its last. -/
def Compiles (a : Artifact) (u : CodeUnit) (body : Gen Unit) : Prop :=
  ∃ s s', Laid a u body s () s' ∧ s.offset = 0 ∧ s.temps = 0 ∧
    s'.offset = u.instructions.size ∧ s'.temps = u.tempCount

theorem finish_eq {b : Builder} {role : Role} {strict : Bool} (h : b.finish role strict = .ok u) :
    u = { name := b.unit, role, strict, instructions := b.instructions, operands := b.operands
          labels := b.labels.map (·.getD b.instructions.size), tempCount := b.tempCount } := by
  unfold Builder.finish at h
  split at h
  · cases h
  · cases h
    rfl

section

variable {body : Gen Unit} {name : String} {registry : Registry} {role : Role} {strict : Bool}
  (hy : Yields body (.fresh name registry) () s) (hf : s.builder.finish role strict = .ok u)
  (hu : ∀ {id u'}, s.registry.unit? id = some u' → a.unit? id = some u')
  (hi : ∀ {id info}, s.registry.functions[id]? = some info → a.function? id = some info)

include hy hf hu hi

theorem laid_of_finish : Laid a u body (.fresh name registry) () s := by
  cases finish_eq hf
  refine ⟨hy, sound_fresh _ _, extends_refl _, extends_refl _, ?_, Nat.le_refl _, hu, hi⟩
  intro l offset hl
  show (s.builder.labels.map (·.getD s.builder.instructions.size))[l]? = _
  rw [Array.getElem?_map, hl]
  rfl

theorem compiles_of_finish : Compiles a u body := by
  have hlaid := laid_of_finish hy hf hu hi
  cases finish_eq hf
  exact ⟨_, s, hlaid, rfl, rfl, rfl, rfl⟩

end

theorem laid_inUnit {role : Role} {strict : Bool} {body : Gen Unit} {id : UnitId}
    [hb : Composed body] (h : Laid a u (inUnit role strict body) s id s') :
    Keeps s s' ∧ ∃ u', a.unit? id = some u' ∧ u'.role = role ∧ u'.strict = strict ∧
      Compiles a u' body := by
  obtain ⟨hy, -, hw⟩ := h
  obtain ⟨registry, s1, u', hr, hbody, hf, rfl⟩ := yields_inUnit hy
  have hle := (grows_of_built hb hbody).registry
  refine ⟨⟨rfl, rfl⟩, u', hw.units (Registry.unit?_fill_self u' hr hle), ?_⟩
  have hu' := finish_eq hf
  exact ⟨by rw [hu'], by rw [hu'], compiles_of_finish hbody hf
    (fun hid => hw.units (Registry.unit?_fill_of_unit? u' hr hle hid)) hw.functions⟩

theorem laid_invoke {role : Role} {strict : Bool} {body : Gen Unit} [Composed body]
    (h : Laid a u (invoke role strict body) s x s') :
    ∃ id u', Adds u (.invoke id) s s' ∧ a.unit? id = some u' ∧ u'.role = role ∧
      Compiles a u' body := by
  obtain ⟨id, s1, hin, hemit⟩ := laid_bind.mp h
  obtain ⟨⟨hoffset, htemps⟩, u', hunit, hrole, -, hcompiles⟩ := laid_inUnit hin
  obtain ⟨hcode, hnext, htemps'⟩ := laid_emit hemit
  rw [hoffset] at hcode hnext
  exact ⟨id, u', ⟨hcode, hnext, htemps'.trans htemps⟩, hunit, hrole, hcompiles⟩

end TreeScript.Lowering
