import TreeScript.Json.Record

/-!
# Reading data back

`Reads read? j a` says that a reader with levels finds `a` in `j` once it may go down two levels for
each level of nesting.  The lemmas here follow the layout of typed data: objects with parts, arrays,
optional items, and records that are put together from the parts that were read.
-/

namespace TreeScript.Json

/-! ## Readers with levels -/

abbrev Reader (α : Type) := Nat → Bool → Json → Option α

def Reader.list (read? : Reader α) : Reader (List α) := fun n inner => list? (read? n inner)

def Reader.nullable (read? : Reader α) : Reader (Option α) :=
  fun n inner => nullable? (read? n inner)

def Reads (read? : Reader α) (j : Json) (a : α) : Prop :=
  ∀ n inner, 2 * j.depth ≤ n → read? n inner j = some a

section

variable {α β γ δ ε : Type} {read? : Reader α} {j : Json} {a : α}

theorem depth_le_depthFields {name : String} {fields : Fields} (h : (name, j) ∈ fields) :
    j.depth ≤ depthFields fields := by
  induction fields with
  | nil => cases h
  | cons field fields ih =>
    rcases List.mem_cons.mp h with h | h
    · cases h
      exact Nat.le_max_left _ _
    · exact Nat.le_trans (ih h) (Nat.le_max_right _ _)

/-- What is found in a part of a record, with the levels left for the parts or more. -/
theorem Reads.part {fields : Fields} {n : Nat} (h : Reads read? j a)
    (hn : 2 * depthFields fields ≤ n) (hj : j ∈ fields.map (·.2)) (more : Nat) (inner : Bool) :
    read? (n + more) inner j = some a := by
  obtain ⟨⟨name, part⟩, hmem, rfl⟩ := List.mem_map.mp hj
  have hdepth : part.depth ≤ depthFields fields := depth_le_depthFields hmem
  exact h _ _ (by show 2 * part.depth ≤ _; omega)

/-- An object is read if it is with two levels more than its parts have. -/
theorem reads_obj {fields : Fields}
    (h : ∀ n inner, 2 * depthFields fields ≤ n → read? (n + 2) inner (.obj fields) = some a) :
    Reads read? (.obj fields) a := by
  intro n inner hn
  rw [depth] at hn
  obtain ⟨n, rfl⟩ : ∃ k, n = k + 2 := ⟨n - 2, by omega⟩
  exact h n inner (by omega)

theorem reads_nil (read? : Reader α) : Reads read?.list (.arr []) [] := fun _ _ _ => rfl

theorem reads_cons {js : List Json} {as : List α} (h : Reads read? j a)
    (hs : Reads read?.list (.arr js) as) : Reads read?.list (.arr (j :: js)) (a :: as) := by
  intro n inner hn
  rw [depth, depthItems] at hn
  have hj : read? n inner j = some a := h n inner (by omega)
  have hjs : js.mapM (read? n inner) = some as := hs n inner (by rw [depth]; omega)
  show (j :: js).mapM (read? n inner) = _
  rw [List.mapM_cons, hj, hjs]
  rfl

theorem reads_none (read? : Reader α) : Reads read?.nullable .null none := fun _ _ _ => rfl

/-- A reader that needs a level finds nothing in `null`, so what it finds is not `null`. -/
theorem reads_some (h : Reads read? j a) (hzero : read? 0 true j = none) :
    Reads read?.nullable j (some a) := by
  intro n inner hn
  have hread := h n inner hn
  cases j with
  | null => exact absurd (hzero.symm.trans (h 0 true (Nat.le_refl 0))) nofun
  | _ => exact congrArg (Option.map some) hread

/-! ## Reading several parts -/

theorem read_map {x : Option α} (f : α → β) (hx : x = some a) : f <$> x = some (f a) := by
  rw [hx]
  rfl

theorem read_one {x : Option α} (f : α → β) (hx : x = some a) :
    (do return f (← x)) = some (f a) := by
  rw [hx]
  rfl

theorem read_two {x : Option α} {y : Option β} {b : β} (f : α → β → γ) (hx : x = some a)
    (hy : y = some b) : (do return f (← x) (← y)) = some (f a b) := by
  rw [hx, hy]
  rfl

theorem read_three {x : Option α} {y : Option β} {z : Option γ} {b : β} {c : γ}
    (f : α → β → γ → δ) (hx : x = some a) (hy : y = some b) (hz : z = some c) :
    (do return f (← x) (← y) (← z)) = some (f a b c) := by
  rw [hx, hy, hz]
  rfl

theorem read_four {x : Option α} {y : Option β} {z : Option γ} {w : Option δ} {b : β} {c : γ}
    {d : δ} (f : α → β → γ → δ → ε) (hx : x = some a) (hy : y = some b) (hz : z = some c)
    (hw : w = some d) : (do return f (← x) (← y) (← z) (← w)) = some (f a b c d) := by
  rw [hx, hy, hz, hw]
  rfl

end

/-! ## Lists and numbers -/

theorem list?_map {α : Type} {read : Json → Option α} {write : α → Json} {as : List α}
    (h : ∀ a ∈ as, read (write a) = some a) : list? read (.arr (as.map write)) = some as := by
  show (as.map write).mapM read = some as
  induction as with
  | nil => rfl
  | cons a as ih =>
    have htail := ih fun a ha => h a (List.mem_cons_of_mem _ ha)
    rw [List.map_cons, List.mapM_cons, h a List.mem_cons_self, htail]
    rfl

theorem list?_strings (items : List String) : list? str? (strings items) = some items :=
  list?_map fun _ _ => rfl

theorem natBelow?_nat {bound n : Nat} (h : n < bound) : natBelow? bound (nat n) = some n :=
  if_pos h

theorem float?_number {x : Float} (h : x.isFinite = true) : float? (number x) = some x := by
  rw [number, if_pos h]
  rfl

end TreeScript.Json
