import TreeScript.Proofs.Lowering.Acceptance
import TreeScript.Proofs.Machine.Steady

/-!
# Operands over a whole history

A builder is called over and over, and a call that fails leaves it as it was.  Whatever the calls
were, its operands are the different ones that were asked for, in the order in which they came and
up to the limit; so an index, once given out, belongs to one operand for good.
-/

namespace TreeScript.Code.Builder

inductive Call where
  | emit (i : Instruction)
  | newLabel
  | newLabels (count : Nat)
  | place (label : Label)
  | intern (operand : Operand)
  | load (operand : Operand)
  | allocate (count : Nat)
  | operate (op : Operation) (supplied : Nat)

def Call.operand? : Call → Option Operand
  | intern o | load o => some o
  | _ => none

def Call.labels : Call → Nat
  | newLabel => 1
  | newLabels count => count
  | _ => 0

def Call.label? : Call → Option Label
  | place l => some l
  | _ => none

def Call.emits (b : Builder) : Call → Array Instruction
  | emit i => #[i]
  | load o =>
    match Builder.intern o b with
    | .ok i _ => #[.load i]
    | .error .. => #[]
  | operate op supplied => if op.arity = supplied then #[.operate op] else #[]
  | _ => #[]

/-- The builder after a call, successful or not. -/
def after (b : Builder) : Call → Builder
  | .emit i => b.emit i
  | .newLabel => b.newLabel.2
  | .newLabels count => (b.newLabels count).2
  | .place label => stateOf (place label b)
  | .intern o => stateOf (intern o b)
  | .load o => stateOf (load o b)
  | .allocate count => stateOf (allocate count b)
  | .operate op supplied => stateOf (operate op supplied b)

def built (name : String) (calls : List Call) : Builder := calls.foldl after { unit := name }

instance : DecidableEq Operand := fun o o' =>
  decidable_of_iff (o.key = o'.key) ⟨Operand.key_inj, congrArg Operand.key⟩

/-- Operands with the one that a call asks for, if it is new and there is room for it. -/
def gather (operands : Array Operand) (c : Call) : Array Operand :=
  match c.operand? with
  | some o => if o ∈ operands ∨ maxOperands ≤ operands.size then operands else operands.push o
  | none => operands

variable {b b' : Builder} {o o' : Operand} {c : Call} {i : OperandIndex}

/-- Keys and operands lead to each other, and no operand is without an index. -/
structure Consistent (b : Builder) : Prop where
  entry_iff : ∀ {o i}, b.interned[Operand.key o]? = some i ↔ b.operands[i]? = some o
  size_le : b.operands.size ≤ maxOperands

theorem consistent_fresh (name : String) : Consistent { unit := name } :=
  ⟨by simp, Nat.zero_le _⟩

theorem Consistent.push (h : b.Consistent) (ho : o ∉ b.operands)
    (hlt : b.operands.size < maxOperands) : (b.push o).Consistent := by
  refine ⟨fun {o' i} => ?_, (Array.size_push _).trans_le hlt⟩
  have hold := h.entry_iff (o := o') (i := i)
  rw [Builder.push, Std.TreeMap.getElem?_insert, Array.getElem?_push]
  by_cases hkey : OperandKey.order o.key o'.key = .eq
  · cases Operand.key_inj (OperandKey.eq_of_order hkey)
    grind
  · grind

theorem Consistent.intern_cases (h : b.Consistent) (o : Operand) :
    (∃ i, b.operands[i]? = some o ∧ intern o b = .ok i b) ∨
    o ∉ b.operands ∧ b.operands.size < maxOperands ∧
      intern o b = .ok b.operands.size (b.push o) ∨
    o ∉ b.operands ∧ b.operands.size = maxOperands ∧
      intern o b = .error (.tooMany .operands b.unit) b := by
  unfold intern
  cases hget : b.interned.get? o.key with
  | some i => exact .inl ⟨i, h.entry_iff.mp hget, rfl⟩
  | none =>
    have hnew : o ∉ b.operands := by
      intro ho
      obtain ⟨i, hi⟩ := Array.getElem?_of_mem ho
      cases hget.symm.trans (h.entry_iff.mpr hi)
    by_cases hlt : b.operands.size < maxOperands
    · exact .inr (.inl ⟨hnew, hlt, if_pos hlt⟩)
    · exact .inr (.inr ⟨hnew, h.size_le.antisymm (Nat.le_of_not_lt hlt), if_neg hlt⟩)

theorem Consistent.gather_intern (h : b.Consistent) (hc : c.operand? = some o) :
    (stateOf (intern o b)).operands = gather b.operands c ∧ (stateOf (intern o b)).Consistent := by
  rw [gather, hc]
  rcases h.intern_cases o with ⟨i, hi, h'⟩ | ⟨hnew, hlt, h'⟩ | ⟨-, hfull, h'⟩ <;> rw [h']
  · exact ⟨(if_pos (.inl (Array.mem_of_getElem? hi))).symm, h⟩
  · exact ⟨(if_neg (not_or.mpr ⟨hnew, Nat.not_le_of_lt hlt⟩)).symm, h.push hnew hlt⟩
  · exact ⟨(if_pos (.inr hfull.ge)).symm, h⟩

theorem Consistent.entry_of_intern (h : b.Consistent) (hi : intern o b = .ok i b') :
    b'.operands[i]? = some o := by
  rcases h.intern_cases o with ⟨j, hj, h'⟩ | ⟨-, -, h'⟩ | ⟨-, -, h'⟩ <;> cases h'.symm.trans hi
  · exact hj
  · exact Array.getElem?_push_size

theorem intern_rest (b : Builder) (o : Operand) : (stateOf (intern o b)).unit = b.unit ∧
    (stateOf (intern o b)).instructions = b.instructions ∧
    (stateOf (intern o b)).labels = b.labels := by
  unfold intern
  split
  · exact ⟨rfl, rfl, rfl⟩
  · dsimp only
    split <;> exact ⟨rfl, rfl, rfl⟩

theorem load_eq (b : Builder) (o : Operand) : load o b = match intern o b with
    | .ok i b' => .ok () (b'.emit (.load i))
    | .error e b' => .error e b' := by
  show EStateM.bind (intern o) _ b = _
  rw [EStateM.bind]
  cases intern o b <;> rfl

theorem place_cases (b : Builder) (l : Label) :
    b.labels[l]? = some none ∧ place l b =
      .ok () { b with labels := b.labels.setIfInBounds l (some b.instructions.size) } ∨
    b.labels[l]? ≠ some none ∧ place l b = .error (.duplicateLabel l b.unit) b := by
  unfold place
  split
  · next h => exact .inl ⟨h, rfl⟩
  · next h => exact .inr ⟨h, rfl⟩

/-- From `b` to `b'` a call did all it could: it gives a label a place if the label is there and has
none, and adds an operand if that is a new one. -/
structure Step (b : Builder) (c : Call) (b' : Builder) : Prop where
  unit : b'.unit = b.unit
  instructions : b'.instructions = b.instructions ++ c.emits b
  size : b'.labels.size = b.labels.size + c.labels
  places : ∀ l, b'.labels[l]?.join = (b.labels[l]?.join <|>
    if c.label? = some l ∧ l < b.labels.size then some b.instructions.size else none)
  operands : b.Consistent → b'.operands = gather b.operands c ∧ b'.Consistent

theorem places_same (b : Builder) (hc : c.label? = none) (l : Label) :
    b.labels[l]?.join = (b.labels[l]?.join <|>
      if c.label? = some l ∧ l < b.labels.size then some b.instructions.size else none) := by
  simp [hc]

theorem step_place (b : Builder) (l : Label) : Step b (.place l) (b.after (.place l)) := by
  rcases place_cases b l with ⟨hn, h⟩ | ⟨hn, h⟩ <;> rw [after, h]
  · refine ⟨rfl, Array.append_empty.symm, Array.size_setIfInBounds, fun l' => ?_,
      fun h => ⟨rfl, h.1, h.2⟩⟩
    by_cases hl : l = l'
    · subst hl
      have hlt := (Array.getElem?_eq_some_iff.mp hn).1
      rw [stateOf, Array.getElem?_setIfInBounds_self_of_lt hlt, hn, Call.label?, if_pos ⟨rfl, hlt⟩]
      rfl
    · simp [stateOf, Call.label?, hl]
  · refine ⟨rfl, Array.append_empty.symm, rfl, fun l' => ?_, fun h => ⟨rfl, h⟩⟩
    by_cases hl : l = l'
    · subst hl
      rcases hget : b.labels[l]? with _ | _ | n
      · simp [stateOf, Array.getElem?_eq_none_iff.mp hget]
      · exact absurd hget hn
      · simp [stateOf, hget]
    · simp [stateOf, Call.label?, hl]

theorem step_after (b : Builder) (c : Call) : Step b c (b.after c) := by
  cases c with
  | emit i =>
    exact ⟨rfl, Array.push_eq_append, rfl, places_same b rfl, fun h => ⟨rfl, h.1, h.2⟩⟩
  | newLabel =>
    refine ⟨rfl, Array.append_empty.symm, Array.size_push _, fun l => ?_, fun h => ⟨rfl, h.1, h.2⟩⟩
    rw [← places_same b rfl, after, newLabel, Array.getElem?_push]
    split
    · next h => simp [h]
    · rfl
  | newLabels count =>
    refine ⟨rfl, Array.append_empty.symm, ?_, fun l => ?_, fun h => ⟨rfl, h.1, h.2⟩⟩
    · exact Array.size_append.trans (by rw [Array.size_replicate]; rfl)
    · rw [← places_same b rfl, after, newLabels, Array.getElem?_append, Array.getElem?_replicate]
      split
      · rfl
      · next h => split <;> simp [h]
  | place l => exact step_place b l
  | intern o =>
    obtain ⟨hunit, hcode, hlabels⟩ := intern_rest b o
    exact ⟨hunit, hcode.trans Array.append_empty.symm, congrArg _ hlabels,
      fun l => hlabels ▸ places_same b rfl l, fun h => h.gather_intern rfl⟩
  | load o =>
    obtain ⟨hunit, hcode, hlabels⟩ := intern_rest b o
    have hgather (h : b.Consistent) := h.gather_intern (c := .load o) rfl
    rw [after, load_eq]
    cases h : intern o b with
    | ok i b' =>
      rw [h] at hunit hcode hlabels hgather
      refine ⟨hunit, ?_, congrArg _ hlabels, fun l => hlabels ▸ places_same b rfl l, fun hb => ?_⟩
      · rw [Call.emits, h, ← Array.push_eq_append, ← hcode]
        rfl
      · obtain ⟨ho, hb⟩ := hgather hb
        exact ⟨ho, hb.1, hb.2⟩
    | error e b' =>
      rw [h] at hunit hcode hlabels hgather
      refine ⟨hunit, ?_, congrArg _ hlabels, fun l => hlabels ▸ places_same b rfl l, hgather⟩
      rw [Call.emits, h]
      exact hcode.trans Array.append_empty.symm
  | allocate count =>
    by_cases h : b.tempCount + count ≤ maxTemporaries
    · rw [after, allocate, if_pos h]
      exact ⟨rfl, Array.append_empty.symm, rfl, places_same b rfl, fun h => ⟨rfl, h.1, h.2⟩⟩
    · rw [after, allocate, if_neg h]
      exact ⟨rfl, Array.append_empty.symm, rfl, places_same b rfl, fun h => ⟨rfl, h⟩⟩
  | operate op supplied =>
    by_cases h : op.arity = supplied
    · rw [after, operate, if_pos h]
      exact ⟨rfl, by rw [Call.emits, if_pos h]; exact Array.push_eq_append, rfl, places_same b rfl,
        fun h => ⟨rfl, h.1, h.2⟩⟩
    · rw [after, operate, if_neg h]
      exact ⟨rfl, by rw [Call.emits, if_neg h]; exact Array.append_empty.symm, rfl,
        places_same b rfl, fun h => ⟨rfl, h⟩⟩

theorem unit_foldl (b : Builder) (calls : List Call) : (calls.foldl after b).unit = b.unit := by
  induction calls generalizing b with
  | nil => rfl
  | cons c calls ih => rw [List.foldl_cons, ih, (step_after b c).unit]

theorem Consistent.foldl (h : b.Consistent) (calls : List Call) :
    (calls.foldl after b).operands = calls.foldl gather b.operands ∧
      (calls.foldl after b).Consistent := by
  induction calls generalizing b with
  | nil => exact ⟨rfl, h⟩
  | cons c calls ih =>
    obtain ⟨ho, hb⟩ := (step_after b c).operands h
    rw [List.foldl_cons, List.foldl_cons, ← ho]
    exact ih hb

theorem extends_gather (operands : Array Operand) (c : Call) :
    Extends operands (gather operands c) := by
  unfold gather
  split
  · split
    · exact extends_refl operands
    · exact extends_push operands _
  · exact extends_refl operands

theorem extends_foldl (operands : Array Operand) (calls : List Call) :
    Extends operands (calls.foldl gather operands) := by
  induction calls generalizing operands with
  | nil => exact extends_refl operands
  | cons c calls ih => exact (extends_gather operands c).trans (ih _)

/-- Operands keep the indices that they were given.  After any calls there are no more of them than
indices, and those that are there stay.  A call for an operand gets an index that leads to it, or,
if it is new and no index is left, fails and changes nothing.  Two calls get the same index just if
they ask for the same key; the keys of numbers are their bit patterns, and a text is not known by
the key of a variable. -/
theorem interning_faithful (name : String) (calls : List Call) :
    let b := built name calls
    b.operands.size ≤ maxOperands ∧
    (∀ more, Extends b.operands (built name (calls ++ more)).operands) ∧
    (∀ o, (∃ i b', intern o b = .ok i b' ∧ load o b = .ok () (b'.emit (.load i)) ∧
        i < maxOperands ∧ b'.operands[i]? = some o ∧
        (o ∈ b.operands ∨ b.operands.size < maxOperands)) ∨
      intern o b = .error (.tooMany .operands name) b ∧
        load o b = .error (.tooMany .operands name) b ∧
        o ∉ b.operands ∧ b.operands.size = maxOperands) ∧
    (∀ {o o' i i' b' b'' c more}, intern o b = .ok i b' → c.operand? = some o →
      intern o' (built name (calls ++ c :: more)) = .ok i' b'' → (i = i' ↔ o.key = o'.key)) ∧
    (∀ x y, (Operand.constant (.number x)).key = (Operand.constant (.number y)).key ↔
      x.toBits = y.toBits) ∧
    ∀ s n, (Operand.constant (.string s)).key ≠ (Operand.binding n).key := by
  intro b
  have hb : b.Consistent := ((consistent_fresh name).foldl calls).2
  have hunit : b.unit = name := unit_foldl _ calls
  have hmore (more : List Call) :
      (built name (calls ++ more)).operands = more.foldl gather b.operands ∧
        (built name (calls ++ more)).Consistent := by
    rw [built, List.foldl_append]
    exact hb.foldl more
  refine ⟨hb.size_le, fun more => ?_, fun o => ?_, ?_, ?_, ?_⟩
  · rw [(hmore more).1]
    exact extends_foldl _ more
  · rcases hb.intern_cases o with ⟨i, hi, h⟩ | ⟨-, hlt, h⟩ | ⟨hnew, hfull, h⟩
    · have hlt := (Array.getElem?_eq_some_iff.mp hi).1
      exact .inl ⟨i, b, h, by rw [load_eq, h], hlt.trans_le hb.size_le, hi,
        .inl (Array.mem_of_getElem? hi)⟩
    · exact .inl ⟨_, _, h, by rw [load_eq, h], hlt, Array.getElem?_push_size, .inr hlt⟩
    · rw [hunit] at h
      exact .inr ⟨h, by rw [load_eq, h], hnew, hfull⟩
  · intro o o' i i' b' b'' c more hi hc hi'
    -- after the second call both operands have their entries
    obtain ⟨hlater, hlaterb⟩ := hmore (c :: more)
    have hfirst := (hb.gather_intern hc).1
    obtain ⟨hlast, hlastb⟩ := hlaterb.gather_intern (c := .intern o') rfl
    rw [hi, stateOf] at hfirst
    rw [hi', stateOf] at hlast hlastb
    have hentry : b''.operands[i]? = some o := by
      rw [hlast]
      refine extends_gather _ _ ?_
      rw [hlater, List.foldl_cons, ← hfirst]
      exact extends_foldl _ more (hb.entry_of_intern hi)
    have hentry' := hlaterb.entry_of_intern hi'
    constructor
    · rintro rfl
      exact congrArg Operand.key (Option.some.inj (hentry.symm.trans hentry'))
    · intro hkey
      cases Operand.key_inj hkey
      exact Option.some.inj <|
        (hlastb.entry_iff.mpr hentry).symm.trans (hlastb.entry_iff.mpr hentry')
  · intro x y
    refine ⟨fun hxy => UInt64.toNat_inj.mp (OperandKey.number.inj hxy), fun hxy => ?_⟩
    rw [Operand.key, Operand.key, hxy]
  · intro s n h
    cases h

end TreeScript.Code.Builder
