import TreeScript.Proofs.Lowering.Trees

/-!
# Strict code throughout

An artifact can be hardened: all its code and all its functions are made strict, and nothing else
about it changes.  To compile a program as strict code is the same as to compile it and harden what
comes out, for every step of the compiler does the same to hardened units as to those at hand, with
the same errors.
-/

namespace TreeScript

namespace Code

def Operation.hardened : Operation → Operation
  | putProperty _ => putProperty true
  | deleteProperty _ => deleteProperty true
  | op => op

theorem Operation.arity_hardened (op : Operation) : op.hardened.arity = op.arity := by
  cases op <;> rfl

theorem Operation.name_hardened (op : Operation) : op.hardened.name = op.name := by
  cases op <;> rfl

def Instruction.hardened : Instruction → Instruction
  | store i _ => store i true
  | operate op => operate op.hardened
  | i => i

theorem Operation.hardened_of_flagless {op : Operation} (h : op.strict? = none) :
    op.hardened = op := by
  cases op <;> first | rfl | cases h

def CodeUnit.hardened (u : CodeUnit) : CodeUnit :=
  { u with strict := true, instructions := u.instructions.map Instruction.hardened }

def FunctionInfo.hardened (info : FunctionInfo) : FunctionInfo := { info with strict := true }

def Artifact.hardened (a : Artifact) : Artifact :=
  { a with
    units := a.units.map CodeUnit.hardened
    functions := a.functions.map FunctionInfo.hardened }

/-! ## Builders -/

theorem Instruction.target?_hardened (i : Instruction) : i.hardened.target? = i.target? := by
  cases i <;> rfl

namespace Builder

def hardened (b : Builder) : Builder :=
  { b with instructions := b.instructions.map Instruction.hardened }

theorem hardened_fresh (name : String) :
    ({ unit := name } : Builder).hardened = { unit := name } := by
  unfold hardened
  rw [Array.map_empty]

theorem emit_hardened (b : Builder) (i : Instruction) :
    b.hardened.emit i.hardened = (b.emit i).hardened := by
  unfold emit hardened
  rw [Array.map_push]

theorem dangling?_hardened (b : Builder) : b.hardened.dangling? = b.dangling? := by
  unfold dangling?
  have hplaced : b.hardened.isPlaced = b.isPlaced := rfl
  have hcode : b.hardened.instructions.toList = b.instructions.toList.map Instruction.hardened :=
    Array.toList_map
  rw [hplaced, hcode, List.findSome?_map]
  congr 1
  funext i
  exact congrArg (Option.filter _) i.target?_hardened

theorem finish_hardened (b : Builder) (role : Role) (strict : Bool) :
    b.hardened.finish role true = (b.finish role strict).map CodeUnit.hardened := by
  unfold finish
  rw [dangling?_hardened]
  cases b.dangling? with
  | some label => rfl
  | none =>
    have hsize : b.hardened.instructions.size = b.instructions.size := Array.size_map
    rw [hsize]
    rfl

end Builder

/-! ## Registries -/

def Slot.hardened (slot : Slot) : Slot := { slot with unit? := slot.unit?.map CodeUnit.hardened }

namespace Registry

def hardened (r : Registry) : Registry where
  slots := r.slots.map Slot.hardened
  names := r.names
  counters := r.counters
  functions := r.functions.map FunctionInfo.hardened

theorem hardened_empty : ({} : Registry).hardened = {} := by
  unfold hardened
  rw [Array.map_empty, Array.map_empty]

variable (r : Registry)

theorem reserve_hardened (role : Role) :
    r.hardened.reserve role = ((r.reserve role).1, (r.reserve role).2.hardened) := by
  have hsize : r.hardened.slots.size = r.slots.size := Array.size_map
  have hpush : r.hardened.slots.push ⟨r.nextName role, role, none⟩ =
      (r.slots.push ⟨r.nextName role, role, none⟩).map Slot.hardened := by
    rw [Array.map_push]
    rfl
  by_cases hused : r.names.contains (r.nextName role) = true
  · have hfails :
        r.reserve role = (.error (.duplicateUnitName (r.nextName role)), r.countUp role) :=
      if_pos hused
    rw [hfails]
    exact if_pos hused
  · have hgoes : r.reserve role = (.ok r.slots.size, { r.countUp role with
        slots := r.slots.push ⟨r.nextName role, role, none⟩
        names := r.names.insert (r.nextName role) r.slots.size }) := if_neg hused
    have hgoes' : r.hardened.reserve role = (.ok r.hardened.slots.size,
        { r.hardened.countUp role with
          slots := r.hardened.slots.push ⟨r.nextName role, role, none⟩
          names := r.names.insert (r.nextName role) r.hardened.slots.size }) := if_neg hused
    rw [hgoes, hgoes', hsize, hpush]
    rfl

theorem fill_hardened (id : UnitId) (u : CodeUnit) :
    r.hardened.fill id u.hardened = (r.fill id u).hardened := by
  have hslots : r.hardened.slots.modify id ({ · with unit? := some u.hardened }) =
      (r.slots.modify id ({ · with unit? := some u })).map Slot.hardened := by
    refine Array.ext_getElem? fun i => ?_
    show ((r.slots.map Slot.hardened).modify id _)[i]? = _
    rw [Array.getElem?_modify, Array.getElem?_map, Array.getElem?_map, Array.getElem?_modify]
    by_cases hi : id = i
    · rw [if_pos hi, if_pos hi]
      cases r.slots[i]? <;> rfl
    · rw [if_neg hi, if_neg hi]
  exact congrArg (Registry.mk · _ _ _) hslots

theorem addFunction_hardened (info : FunctionInfo) :
    r.hardened.addFunction info.hardened =
      ((r.addFunction info).1, (r.addFunction info).2.hardened) := by
  have hsize : r.hardened.functions.size = r.functions.size := Array.size_map
  unfold addFunction
  congr 1
  unfold hardened
  rw [Array.map_push]

theorem mapM_hardened {f : Slot → Except CompileError CodeUnit}
    (hf : ∀ slot : Slot, f slot.hardened = (f slot).map CodeUnit.hardened) (slots : List Slot) :
    (slots.map Slot.hardened).mapM f = (slots.mapM f).map (List.map CodeUnit.hardened) := by
  induction slots with
  | nil => rfl
  | cons slot slots ih =>
    rw [List.map_cons, List.mapM_cons, List.mapM_cons, hf, ih]
    cases f slot with
    | error e => rfl
    | ok u => cases slots.mapM f <;> rfl

theorem finish_hardened (entry : UnitId) :
    r.hardened.finish entry = (r.finish entry).map Artifact.hardened := by
  unfold finish
  rw [Array.mapM_eq_mapM_toList, Array.mapM_eq_mapM_toList]
  have hslots : r.hardened.slots.toList = r.slots.toList.map Slot.hardened := Array.toList_map
  rw [hslots, mapM_hardened]
  · generalize (List.mapM (m := Except CompileError) _ r.slots.toList) = units
    cases units with
    | error e => rfl
    | ok units =>
      have hunits : (units.map CodeUnit.hardened).toArray = units.toArray.map CodeUnit.hardened :=
        List.map_toArray.symm
      exact congrArg (fun units => Except.ok (Artifact.mk entry units _)) hunits
  · intro slot
    unfold Slot.hardened
    cases slot.unit? <;> rfl

end Registry

end Code

namespace Lowering

open Code Syntax

/-! ## Code generation -/

def hardenedOutcome {α : Type} (x : Except CompileError (α × Builder) × Registry) :
    Except CompileError (α × Builder) × Registry :=
  (x.1.map fun (a, b) => (a, b.hardened), x.2.hardened)

/-- Two ways to generate code, of which the second does to hardened units what the first does. -/
def Hardens {α : Type} (g g' : Gen α) : Prop :=
  ∀ b r, (g'.run b.hardened).run.run r.hardened = hardenedOutcome ((g.run b).run.run r)

variable {α β : Type}

theorem hardens_bind {g g' : Gen β} {f f' : β → Gen α} (hg : Hardens g g')
    (hf : ∀ x, Hardens (f x) (f' x)) : Hardens (g >>= f) (g' >>= f') := by
  intro b r
  rw [StateT.run_bind, ExceptT.run_bind, StateT.run_bind, StateT.run_bind, ExceptT.run_bind,
    StateT.run_bind, hg b r]
  rcases (g.run b).run.run r with ⟨e | ⟨x, b1⟩, r1⟩
  · rfl
  · exact hf x b1 r1

theorem hardens_emit (i : Instruction) : Hardens (emit i) (emit i.hardened) := by
  intro b r
  show (Except.ok ((), b.hardened.emit i.hardened), r.hardened) = _
  rw [Builder.emit_hardened]
  rfl

theorem hardens_build {x x' : Building α}
    (h : ∀ b, x' b.hardened = match x b with
      | .ok a b => .ok a b.hardened
      | .error e b => .error e b.hardened) : Hardens (build x) (build x') := by
  intro b r
  show (build x' b.hardened).run.run r.hardened = hardenedOutcome ((build x b).run.run r)
  unfold build
  rw [h b]
  cases x b with
  | ok a b => rfl
  | error e b => rfl

theorem hardens_place (l : Label) : Hardens (place l) (place l) := by
  refine hardens_build fun b => ?_
  have hsize : b.hardened.instructions.size = b.instructions.size := Array.size_map
  have hlabels : b.hardened.labels = b.labels := rfl
  unfold Builder.place
  rw [hlabels]
  cases hl : b.labels[l]? with
  | none => rfl
  | some offset =>
    cases offset with
    | none =>
      rw [hsize]
      rfl
    | some offset => rfl

theorem hardens_intern (o : Operand) : Hardens (intern o) (intern o) := by
  refine hardens_build fun b => ?_
  have hinterned : b.hardened.interned = b.interned := rfl
  unfold Builder.intern
  rw [hinterned]
  cases b.interned.get? o.key with
  | some index => rfl
  | none =>
    dsimp only
    show (if b.operands.size < Builder.maxOperands then _ else _) = _
    split <;> rfl

theorem hardens_allocate (count : Nat) : Hardens (allocate count) (allocate count) := by
  refine hardens_build fun b => ?_
  unfold Builder.allocate
  show (if b.tempCount + count ≤ Builder.maxTemporaries then _ else _) = _
  split <;> rfl

theorem hardens_operate (op : Operation) (supplied : Nat) :
    Hardens (operate op supplied) (operate op.hardened supplied) := by
  refine hardens_build fun b => ?_
  unfold Builder.operate
  rw [op.arity_hardened, op.name_hardened]
  split
  · exact congrArg (EStateM.Result.ok ()) (b.emit_hardened (.operate op))
  · rfl

theorem hardens_lift {x x' : Compile α}
    (h : ∀ r, x'.run.run r.hardened = ((x.run.run r).1, (x.run.run r).2.hardened)) :
    Hardens (StateT.lift x) (StateT.lift x') := by
  intro b r
  rw [lift_run, lift_run, h r]
  rcases x.run.run r with ⟨e | a, r⟩ <;> rfl

theorem hardens_addFunction (info : FunctionInfo) :
    Hardens (addFunction info) (addFunction info.hardened) :=
  hardens_lift fun r => congrArg (Prod.map Except.ok id) (r.addFunction_hardened info)

theorem compileUnit_hardened (role : Role) (strict : Bool) {body body' : Gen Unit}
    (h : Hardens body body') (r : Registry) :
    (compileUnit role true body').run.run r.hardened =
      (((compileUnit role strict body).run.run r).1,
        ((compileUnit role strict body).run.run r).2.hardened) := by
  have hname : r.hardened.nextName role = r.nextName role := rfl
  rw [compileUnit_run, compileUnit_run, r.reserve_hardened, hname]
  rcases r.reserve role with ⟨e | id, r1⟩
  · rfl
  · have hbody := h { unit := r.nextName role } r1
    rw [Builder.hardened_fresh] at hbody
    dsimp only [Except.map]
    rw [hbody]
    rcases (body.run { unit := r.nextName role }).run.run r1 with ⟨e | ⟨_, b⟩, r2⟩
    · rfl
    · dsimp only [hardenedOutcome, Except.map]
      rw [b.finish_hardened role strict]
      cases b.finish role strict with
      | error e => rfl
      | ok u =>
        dsimp only [Except.map]
        rw [r2.fill_hardened id u]

theorem hardens_inUnit {role : Role} {strict : Bool} {body body' : Gen Unit}
    (h : Hardens body body') : Hardens (inUnit role strict body) (inUnit role true body') :=
  hardens_lift fun r => compileUnit_hardened role strict h r

theorem Fits.hardened {c : Setting} {w : Site} {known : List Reference} {pending : List Label}
    {i : Instruction} (h : Fits c w known pending i) : i.hardened = i := by
  cases i <;> first | rfl | cases h

/-- Regular code is generated in the same way whether or not it is strict. -/
theorem Regular.hardens {c : Setting} {w : Site} {known : List Reference} {pending : List Label}
    {t : Nat} {g : Bool → Gen α} {d : Demand} {ok : Prop} {Q : Result α}
    (h : Regular c w known pending t g d ok Q) : Hardens (g c.strict) (g true) := by
  induction h with
  | pure => exact fun _ _ => rfl
  | bind _ _ _ ihg ihf => exact hardens_bind ihg ihf
  | emit i hi =>
    have hemit := hardens_emit i
    rwa [hi.hardened] at hemit
  | store => exact hardens_emit (.store _ _)
  | newLabels count => exact fun _ _ => rfl
  | place l => exact hardens_place l
  | intern o => exact hardens_intern o
  | temporaries count _ ih => exact hardens_bind (hardens_allocate count) ih
  | enumeration _ _ _ ihs ihe =>
    exact hardens_bind (hardens_allocate 4) fun keys => hardens_bind (ihs keys) fun _ =>
      hardens_bind (hardens_place _) fun _ => hardens_bind (hardens_emit (.forInStep _ _)) fun _ =>
      hardens_bind (ihe keys) fun _ => hardens_place _
  | @operate _ _ _ _ _ op supplied _ hnone =>
    have hoperate := hardens_operate op supplied
    rwa [Operation.hardened_of_flagless hnone] at hoperate
  | put => exact hardens_operate (.putProperty _) 3
  | delete => exact hardens_operate (.deleteProperty _) 2
  | invoke _ _ _ _ ih => exact hardens_bind (hardens_inUnit ih) fun id => hardens_emit (.invoke id)
  | @closure c _ _ _ _ f _ _ _ _ _ ih =>
    rw [c.strict_inFunction f] at ih
    exact hardens_bind (hardens_inUnit ih) fun _ =>
      hardens_bind (hardens_addFunction _) fun id => hardens_emit (.makeClosure id)
  | unsupported construct | tooMany what => exact fun _ _ => rfl

theorem compile_hardened (p : Program) :
    compile p true = (compile p false).map Artifact.hardened := by
  have hregular := regulates_declaring (.all p.strict) trivial p.body trivial {} [] [] 0
  have hunit := compileUnit_hardened .program p.strict hregular.hardens {}
  rw [Registry.hardened_empty, Setting.strict_all] at hunit
  unfold compile compileBody
  rw [Bool.true_or, Bool.false_or]
  dsimp only
  rw [hunit]
  rcases (compileUnit .program p.strict ((Body.declaring p.body).gen p.strict)).run.run {} with
    ⟨e | entry, r⟩
  · rfl
  · exact r.finish_hardened entry

end Lowering

end TreeScript
