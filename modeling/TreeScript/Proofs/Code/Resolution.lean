import TreeScript.Proofs.Code.Interning
import TreeScript.Proofs.Machine.Instructions

/-!
# Labels over a whole history

Which labels have a place can be told from the calls that a builder got: a label gets the place
where the first call to place it comes that finds it made.  A unit can be finished just if the
labels that its instructions branch to all have a place.
-/

namespace TreeScript

open Code

/-! ## Instructions that branch -/

namespace Machine

variable {target : Option Label}

/-- A computation fails for want of no label but `target`. -/
def Seeks (target : Option Label) (x : Exec α) : Prop :=
  ∀ m m' u l, x m = .error (.fatal (.missingLabel u l)) m' → target = some l

theorem Seeks.bind {x : Exec α} {f : α → Exec β} (hx : Seeks target x)
    (hf : ∀ a, Seeks target (f a)) : Seeks target (x >>= f) := by
  intro m m' u l h
  cases hm : x m with
  | ok a m1 =>
    rw [bind_ok hm] at h
    exact hf a m1 m' u l h
  | error e m1 =>
    rw [bind_error hm] at h
    cases h
    exact hx m m' u l hm

theorem seeks_pure (a : α) : Seeks target (pure a : Exec α) := by
  intro _ _ _ _ h
  cases h

theorem seeks_inRealm (x : RealmM α) : Seeks target (inRealm x) := by
  intro m m' u l h
  rw [inRealm_eq] at h
  cases hx : x m.realm <;> rw [hx] at h <;> cases h

theorem seeks_jump (l : Label) : Seeks (some l) (jump l) := by
  refine Seeks.bind (x := get) ?_ fun m => ?_
  · intro _ _ _ _ h
    cases h
  · dsimp only
    split <;> intro _ _ _ _ h <;> cases h
    rfl

theorem seeks_asValue (s : Slot) : Seeks target (asValue s) := by
  intro _ _ _ _ h
  cases s <;> cases h

theorem seeks_asCompletion (s : Slot) : Seeks target (asCompletion s) := by
  intro _ _ _ _ h
  cases s <;> cases h

theorem seeks_asValues (slots : List Slot) : Seeks target (slots.mapM asValue) := by
  induction slots with
  | nil => exact seeks_pure _
  | cons s slots ih =>
    rw [List.mapM_cons]
    exact (seeks_asValue s).bind fun _ => ih.bind fun _ => seeks_pure _

theorem seeks_startFrame (a : Artifact) (id : UnitId) (resume : Resume) :
    Seeks target (startFrame a id resume) := by
  intro m m' u l h
  unfold startFrame Frame.start at h
  cases hu : a.unit? id <;> rw [hu] at h <;> cases h

theorem seeks_operand (i : OperandIndex) : Seeks target (operand i) := by
  intro m m' u l h
  unfold operand at h
  rw [get_bind] at h
  cases ho : m.frame.unit.operands[i]? <;> rw [ho] at h <;> cases h

theorem seeks_temp (t : Nat) : Seeks target (temp t) := by
  intro m m' u l h
  unfold temp at h
  rw [get_bind] at h
  cases ht : m.frame.temps[t]? <;> rw [ht] at h <;> cases h

/-- An instruction looks up no label but the one that it has for a target. -/
theorem seeks_exec (i : Instruction) : Seeks i.target? (exec i) := by
  cases i
  all_goals simp only [exec, Instruction.target?, push, pushCompletion, pop, popCompletion, peek,
      peekCompletion, peekSlot, topTwo, setStack, nameOf, setTemp, makeClosure,
      nextKey, Machine.operate, enterFunction, construct, enter, callEnv, modifyRealm, modifyFrame,
      setEnv, popValues, popSlot, underflow, fatal, jumpIf]
  all_goals repeat' first
      | with_reducible first
        | exact seeks_inRealm _
        | exact seeks_jump _
        | exact seeks_asValue _
        | exact seeks_asCompletion _
        | exact seeks_asValues _
        | exact seeks_startFrame _ _ _
        | exact seeks_operand _
        | exact seeks_temp _
        | refine Seeks.bind ?_ fun _ => ?_
        | split
      | intro _ _ _ _ h; cases h
      | refine Seeks.bind (f := fun _ => pure ()) ?_ fun _ => ?_

end Machine

/-- An instruction branches to a label if the machine may look the label up to carry it out, and
then fails if the unit has no such label. -/
def Code.Instruction.BranchesTo (i : Instruction) (l : Label) : Prop :=
  ∃ m m', Machine.exec i m = .error (.fatal (.missingLabel m.frame.unit.name l)) m'

def Machine.unlabelled (stack : List Slot) (temps : Array Value) : Machine :=
  { (default : Machine) with frame := { (default : Frame) with stack, temps } }

theorem Code.Instruction.branchesTo_iff {i : Instruction} {l : Label} :
    i.BranchesTo l ↔ i.target? = some l := by
  constructor
  · rintro ⟨m, m', h⟩
    exact Machine.seeks_exec i m m' _ l h
  intro h
  cases i with
  | jump l' => cases h; exact ⟨.unlabelled [] #[], _, rfl⟩
  | jumpIfFalse l' => cases h; exact ⟨.unlabelled [.value .undefined] #[], _, rfl⟩
  | jumpIfTrue l' => cases h; exact ⟨.unlabelled [.value (.boolean true)] #[], _, rfl⟩
  | jumpIfAbrupt l' | jumpIfBreaksHere labels l' =>
    cases h; exact ⟨.unlabelled [.completion (.breakTo none)] #[], _, rfl⟩
  | jumpIfContinuesHere labels l' =>
    cases h; exact ⟨.unlabelled [.completion (.continueTo none)] #[], _, rfl⟩
  | jumpIfKind kind l' =>
    cases h
    refine ⟨.unlabelled [.completion { kind }] #[], .unlabelled [.completion { kind }] #[], ?_⟩
    cases kind <;> rfl
  | jumpUnlessKind kind l' =>
    cases h
    cases kind with
    | normal => exact ⟨.unlabelled [.completion (.breakTo none)] #[], _, rfl⟩
    | _ => exact ⟨.unlabelled [.completion .normal] #[], _, rfl⟩
  | forInStep keys l' =>
    cases h
    -- nothing to enumerate, and room for the temporaries
    obtain ⟨n, hn⟩ : ∃ n, keys + 0x10000 ≤ n := ⟨_, Nat.le_refl _⟩
    let m := Machine.unlabelled [] (Array.replicate n .undefined)
    have hsize : m.frame.temps.size = n := Array.size_replicate
    have hkeys : keys < n := by omega
    have hafter (k : Nat) : Machine.tempAfter keys k < n := by
      unfold Machine.tempAfter
      omega
    have hnone : (Machine.nextEnumerated m.realm m.frame.temps keys).1 = none := by
      have hundefined : m.frame.temps.getD keys .undefined = .undefined := by
        simp [m, Machine.unlabelled, hkeys]
      rw [Machine.nextEnumerated, hundefined]
      rfl
    rw [← hsize] at hkeys hafter
    have hnext := Machine.nextKey_eq hkeys (hafter 1) (hafter 2)
    rw [hnone] at hnext
    exact ⟨m, _, Machine.bind_ok hnext⟩
  | _ => cases h

namespace Code.Builder

/-! ## Labels and instructions by the calls -/

def created : List Call → Nat
  | [] => 0
  | c :: calls => c.labels + created calls

/-- Where the code is when the first of the calls comes that is to place the label and finds it
made. -/
def placeFrom (b : Builder) (l : Label) : List Call → Option Nat
  | [] => none
  | c :: calls =>
    if c.label? = some l ∧ l < b.labels.size then some b.instructions.size
    else (b.after c).placeFrom l calls

def emitted (b : Builder) : List Call → Array Instruction
  | [] => #[]
  | c :: calls => c.emits b ++ (b.after c).emitted calls

theorem instructions_foldl (b : Builder) (calls : List Call) :
    (calls.foldl after b).instructions = b.instructions ++ b.emitted calls := by
  induction calls generalizing b with
  | nil => rw [emitted, Array.append_empty, List.foldl_nil]
  | cons c calls ih =>
    rw [List.foldl_cons, ih, (step_after b c).instructions, emitted, Array.append_assoc]

theorem size_foldl (b : Builder) (calls : List Call) :
    (calls.foldl after b).labels.size = b.labels.size + created calls := by
  induction calls generalizing b with
  | nil => rfl
  | cons c calls ih =>
    rw [List.foldl_cons, ih, (step_after b c).size, Nat.add_assoc]
    rfl

theorem places_foldl (b : Builder) (calls : List Call) (l : Label) :
    (calls.foldl after b).labels[l]?.join = (b.labels[l]?.join <|> b.placeFrom l calls) := by
  induction calls generalizing b with
  | nil => simp [placeFrom]
  | cons c calls ih =>
    rw [List.foldl_cons, ih, (step_after b c).places, placeFrom]
    split <;> cases b.labels[l]?.join <;> rfl

theorem placeFrom_le {b : Builder} {calls : List Call} {l : Label} {n : Nat}
    (h : b.placeFrom l calls = some n) : n ≤ (calls.foldl after b).instructions.size := by
  induction calls generalizing b with
  | nil => cases h
  | cons c calls ih =>
    rw [placeFrom] at h
    split at h
    · cases h
      rw [instructions_foldl, Array.size_append]
      exact Nat.le_add_right _ _
    · exact ih h

/-- A unit can be finished just if all labels that it branches to were placed. -/
theorem finish_exact (name : String) (calls : List Call) (role : Role) (strict : Bool) :
    let start : Builder := { unit := name }
    let b := built name calls
    let code := start.emitted calls
    ((∃ u, b.finish role strict = .ok u) ↔
      ∀ i ∈ code, ∀ l, i.BranchesTo l → start.placeFrom l calls ≠ none) ∧
    (∀ u, b.finish role strict = .ok u →
      u.instructions = code ∧ u.operands = calls.foldl gather #[] ∧
      u.labels.size = created calls ∧
      (∀ l n, start.placeFrom l calls = some n → u.labels[l]? = some n) ∧
      (∀ l < created calls, start.placeFrom l calls = none → u.labels[l]? = some code.size) ∧
      ∀ offset ∈ u.labels, offset ≤ code.size) ∧
    (∀ e, b.finish role strict = .error e → ∃ front i rest l,
      code.toList = front ++ i :: rest ∧ i.BranchesTo l ∧ start.placeFrom l calls = none ∧
        e = .unresolvedLabel l name ∧
        ∀ j ∈ front, ∀ l', j.BranchesTo l' → start.placeFrom l' calls ≠ none) ∧
    (∀ l, l < created calls → start.placeFrom l calls = none → ∃ b', place l b = .ok () b') ∧
    (∀ l, created calls ≤ l ∨ start.placeFrom l calls ≠ none →
      place l b = .error (.duplicateLabel l name) b) ∧
    ∀ op supplied, op.arity ≠ supplied →
      operate op supplied b = .error (.arityMismatch op.name op.arity supplied name) b := by
  intro start b code
  have hunit : b.unit = name := unit_foldl start calls
  have hcode : b.instructions = code := (instructions_foldl start calls).trans Array.empty_append
  have hsize : b.labels.size = created calls := (size_foldl start calls).trans (Nat.zero_add _)
  have hplace (l : Label) : b.labels[l]?.join = start.placeFrom l calls :=
    places_foldl start calls l
  have hplaced (l : Label) : b.isPlaced l = true ↔ start.placeFrom l calls ≠ none := by
    rw [← hplace, isPlaced]
    rcases b.labels[l]? with _ | _ | n <;> simp
  have hnone (i : Instruction) : i.target?.filter (!b.isPlaced ·) = none ↔
      ∀ l, i.BranchesTo l → start.placeFrom l calls ≠ none := by
    simp [Option.filter_eq_none_iff, Instruction.branchesTo_iff, hplaced]
  have hwaiting (l : Label) : b.labels[l]? = some none ↔
      l < created calls ∧ start.placeFrom l calls = none := by
    rw [← hplace, ← hsize]
    rcases hl : b.labels[l]? with _ | _ | n
    · simpa using hl
    · simpa using (Array.getElem?_eq_some_iff.mp hl).1
    · simp
  refine ⟨?_, ?_, ?_, ?_, ?_, ?_⟩
  · have hdangling : b.dangling? = none ↔
        ∀ i ∈ code, ∀ l, i.BranchesTo l → start.placeFrom l calls ≠ none := by
      simp only [dangling?, List.findSome?_eq_none_iff, hnone, hcode, Array.mem_toList_iff]
    rw [← hdangling, finish]
    cases b.dangling? with
    | none => exact iff_of_true ⟨_, rfl⟩ rfl
    | some l =>
      refine iff_of_false ?_ ?_
      · rintro ⟨u, hu⟩
        cases hu
      · intro h
        cases h
  · intro u hu
    cases Lowering.finish_eq hu
    rw [hcode]
    refine ⟨rfl, ((consistent_fresh name).foldl calls).1, ?_, ?_, ?_, ?_⟩
    · rw [Array.size_map, hsize]
    · intro l n h
      have hl := Option.join_eq_some_iff.mp ((hplace l).trans h)
      rw [Array.getElem?_map, hl]
      rfl
    · intro l hl hp
      rw [Array.getElem?_map, (hwaiting l).mpr ⟨hl, hp⟩]
      rfl
    · intro offset h
      obtain ⟨place, hplace', rfl⟩ := Array.mem_map.mp h
      obtain ⟨l, hl⟩ := Array.getElem?_of_mem hplace'
      cases place with
      | none => exact Nat.le_refl _
      | some n =>
        have hn := hplace l
        rw [hl] at hn
        exact hcode ▸ placeFrom_le hn.symm
  · intro e he
    unfold finish at he
    cases hd : b.dangling? with
    | none =>
      rw [hd] at he
      cases he
    | some l =>
      rw [hd] at he
      cases he
      obtain ⟨front, i, rest, hi, hl, hfront⟩ := List.findSome?_eq_some_iff.mp hd
      obtain ⟨htarget, hp⟩ := Option.filter_eq_some_iff.mp hl
      refine ⟨front, i, rest, l, hcode ▸ hi, Instruction.branchesTo_iff.mpr htarget, ?_,
        congrArg _ hunit, fun j hj => (hnone j).mp (hfront j hj)⟩
      by_contra hne
      rw [(hplaced l).mpr hne] at hp
      cases hp
  · intro l hl hp
    rcases place_cases b l with ⟨-, h⟩ | ⟨h, -⟩
    · exact ⟨_, h⟩
    · exact absurd ((hwaiting l).mpr ⟨hl, hp⟩) h
  · intro l hl
    rcases place_cases b l with ⟨h, -⟩ | ⟨-, h⟩
    · obtain ⟨hlt, hp⟩ := (hwaiting l).mp h
      exact absurd hp (hl.resolve_left (Nat.not_le_of_lt hlt))
    · rw [h, hunit]
  · intro op supplied h
    rw [operate, if_neg h, hunit]

end Code.Builder

end TreeScript
