import Mathlib.Data.List.Nodup
import Mathlib.Logic.Relation
import TreeScript.Proofs.Program.Safety

/-!
# When values have texts

The text of an array is made of the texts of its elements and the text of an error of those of its
name and its message, so writing a text follows the links between objects, and these may lead round
in circles.  A circle that goes through an array is cut there, since an array that is being written
is not written again.  Nothing cuts a circle of errors alone, and a program can tie one: it catches
an error and makes it its own message.

`text_ends_iff` says that such circles are all that can keep a value from having a text, and
that the levels which `toText` allows are enough for every other value.
-/

namespace TreeScript.Realm

open Relation Code Syntax Lowering

variable {r : Realm} {n : Nat} {visiting : List ObjectRef} {ref ref' : ObjectRef}

/-! ## Links -/

def IsError (r : Realm) (ref : ObjectRef) : Prop := (r.object ref).kind = .error

/-- The text of an object is made of that of the other one. -/
inductive Mentions (r : Realm) (ref ref' : ObjectRef) : Prop where
  | name : r.IsError ref → r.getFrom ref "name" = .object ref' → Mentions r ref ref'
  | message : r.IsError ref → r.getFrom ref "message" = .object ref' → Mentions r ref ref'
  | element {i : Nat} : (r.object ref).kind = .array → i < (r.object ref).arrayLength →
    r.getFrom ref (toString i) = .object ref' → Mentions r ref ref'

/-- The text of an error is made of that of the other one. -/
def Blames (r : Realm) (ref ref' : ObjectRef) : Prop :=
  r.Mentions ref ref' ∧ r.IsError ref ∧ r.IsError ref'

/-- An error whose text is made of itself, through errors only. -/
def Knotted (r : Realm) (ref : ObjectRef) : Prop := TransGen r.Blames ref ref

theorem object_of_size_le (h : r.objects.size ≤ ref.index) :
    r.object ref = { kind := .ordinary } := by
  unfold Realm.object
  rw [Array.getD_eq_getD_getElem?, Array.getElem?_eq_none h]
  rfl

theorem Mentions.lt_size (h : r.Mentions ref ref') : ref.index < r.objects.size := by
  refine Nat.lt_of_not_le fun hle => ?_
  have hkind : (r.object ref).kind = .ordinary := by rw [object_of_size_le hle]
  cases h with
  | name herror | message herror => cases hkind.symm.trans herror
  | element harray => cases hkind.symm.trans harray

theorem length_le_size {refs : List ObjectRef} (hnodup : refs.Nodup)
    (h : ∀ ref ∈ refs, ref.index < r.objects.size) : refs.length ≤ r.objects.size := by
  have hinj : Function.Injective ObjectRef.index := by
    rintro ⟨i⟩ ⟨j⟩ rfl
    rfl
  have hsub : refs.map (·.index) ⊆ List.range r.objects.size := by
    intro i hi
    obtain ⟨ref, href, rfl⟩ := List.mem_map.mp hi
    exact List.mem_range.mpr (h ref href)
  simpa using (hnodup.map hinj).length_le_of_subset hsub

/-! ## One level -/

variable {v : Value} {α : Type} {text : String}

theorem isSome_mapM {β : Type} (f : α → Option β) (xs : List α) :
    (xs.mapM f).isSome ↔ ∀ x ∈ xs, (f x).isSome := by
  induction xs with
  | nil => simp
  | cons x xs ih =>
    rw [List.mapM_cons, List.forall_mem_cons, ← ih]
    cases f x <;> cases xs.mapM f <;> simp

theorem mapM_eq_some_of_le {β : Type} {f g : α → Option β} {xs : List α} {ys : List β}
    (h : ∀ x y, f x = some y → g x = some y) (hf : xs.mapM f = some ys) :
    xs.mapM g = some ys := by
  induction xs generalizing ys with
  | nil => exact hf
  | cons x xs ih =>
    rw [List.mapM_cons] at hf ⊢
    obtain ⟨y, hy, hf⟩ := Option.bind_eq_some_iff.mp hf
    obtain ⟨ys', hys, hf⟩ := Option.bind_eq_some_iff.mp hf
    rw [h x y hy, ih hys]
    exact hf

theorem isSome_writeText?_value (v : Value) : (r.writeText? n visiting v).isSome ↔
    ∀ ref, v = .object ref → (r.writeText? n visiting (.object ref)).isSome := by
  cases v <;> simp [writeText?]

def writing (r : Realm) (visiting : List ObjectRef) (ref : ObjectRef) : List ObjectRef :=
  if (r.object ref).isArray then ref :: visiting else visiting

theorem writing_of_array (h : (r.object ref).kind = .array) :
    r.writing visiting ref = ref :: visiting := by
  simp [writing, Object.isArray, h]

theorem writing_of_error (h : r.IsError ref) : r.writing visiting ref = visiting := by
  unfold IsError at h
  simp [writing, Object.isArray, h]

theorem writing_subset : r.writing visiting ref ⊆ ref :: visiting := by
  unfold writing
  split
  · exact List.Subset.refl _
  · exact List.subset_cons_self ref visiting

/-- The text of an object that is not being written already is there with those of its parts. -/
theorem isSome_writeText?_succ (h : (r.object ref).kind = .array → ref ∉ visiting) :
    (r.writeText? (n + 1) visiting (.object ref)).isSome ↔
      ∀ ref', r.Mentions ref ref' →
        (r.writeText? n (r.writing visiting ref) (.object ref')).isSome := by
  cases hkind : (r.object ref).kind with
  | ordinary | function closure | regExp pattern flags =>
    have hnone : ∀ ref', ¬ r.Mentions ref ref' := by
      rintro ref' (hk | hk | hk)
      all_goals cases hkind.symm.trans hk
    simp [writeText?, hkind, hnone]
  | error =>
    have hparts : (r.writeText? (n + 1) visiting (.object ref)).isSome ↔
        (r.writeText? n visiting (r.getFrom ref "name")).isSome ∧
          (r.writeText? n visiting (r.getFrom ref "message")).isSome := by
      simp only [writeText?, hkind]
      cases r.writeText? n visiting (r.getFrom ref "name") <;>
        cases r.writeText? n visiting (r.getFrom ref "message") <;> simp
    rw [hparts, writing_of_error hkind, isSome_writeText?_value (r.getFrom ref "name"),
      isSome_writeText?_value (r.getFrom ref "message")]
    constructor
    · rintro ⟨hname, hmessage⟩ ref' (⟨-, hget⟩ | ⟨-, hget⟩ | ⟨hk, -, -⟩)
      · exact hname ref' hget
      · exact hmessage ref' hget
      · cases hkind.symm.trans hk
    · intro hall
      exact ⟨fun ref' hget => hall ref' (.name hkind hget),
        fun ref' hget => hall ref' (.message hkind hget)⟩
  | array =>
    have hparts : (r.writeText? (n + 1) visiting (.object ref)).isSome ↔
        ∀ i < (r.object ref).arrayLength,
          (r.writeText? n (ref :: visiting) (r.getFrom ref (toString i))).isSome := by
      simp only [writeText?, hkind]
      rw [if_neg (by simpa using h hkind), bind_pure_comp, Option.map_eq_map, Option.isSome_map,
        isSome_mapM]
      refine ⟨fun hall i hi => ?_, fun hall i hi => ?_⟩
      · have hpart := hall i (List.mem_range.mpr hi)
        revert hpart
        cases r.getFrom ref (toString i) <;> simp [writeText?]
      · have hpart := hall i (List.mem_range.mp hi)
        revert hpart
        cases r.getFrom ref (toString i) <;> simp [writeText?]
    rw [hparts, writing_of_array hkind]
    constructor
    · rintro hall ref' (⟨hk, -⟩ | ⟨hk, -⟩ | ⟨-, hi, hget⟩)
      · cases hkind.symm.trans hk
      · cases hkind.symm.trans hk
      · exact hget ▸ hall _ hi
    · intro hall i hi
      exact (isSome_writeText?_value _).mpr fun ref' hget => hall ref' (.element hkind hi hget)

theorem writeText?_of_mem (harray : (r.object ref).kind = .array) (h : ref ∈ visiting) :
    r.writeText? (n + 1) visiting (.object ref) = some "" := by
  simp [writeText?, harray, h]

theorem writeText?_succ_of_eq_some (h : r.writeText? n visiting v = some text) :
    r.writeText? (n + 1) visiting v = some text := by
  induction n generalizing visiting v text with
  | zero => cases v <;> simp_all [writeText?]
  | succ n ih =>
    cases v with
    | object ref =>
      rw [writeText?] at h ⊢
      cases hkind : (r.object ref).kind with
      | ordinary | function closure | regExp pattern flags => simp_all
      | error =>
        simp only [hkind] at h ⊢
        obtain ⟨name, hname, h⟩ := Option.bind_eq_some_iff.mp h
        obtain ⟨message, hmessage, h⟩ := Option.bind_eq_some_iff.mp h
        rw [ih hname, ih hmessage]
        exact h
      | array =>
        simp only [hkind] at h ⊢
        split at h
        · next hmem =>
          rw [if_pos hmem]
          exact h
        · next hmem =>
          rw [if_neg hmem]
          obtain ⟨parts, hparts, h⟩ := Option.bind_eq_some_iff.mp h
          refine Option.bind_eq_some_iff.mpr
            ⟨parts, mapM_eq_some_of_le (fun i part hpart => ?_) hparts, h⟩
          revert hpart
          cases r.getFrom ref (toString i) with
          | undefined | null => exact id
          | _ => exact ih
    | undefined | null | boolean b | number x | string s => exact h

theorem writeText?_of_le {m : Nat} (hle : n ≤ m) (h : r.writeText? n visiting v = some text) :
    r.writeText? m visiting v = some text := by
  induction hle with
  | refl => exact h
  | step _ ih => exact writeText?_succ_of_eq_some ih

/-! ## Knots -/

/-- A knotted error has no text, whatever is being written. -/
theorem Knotted.not_isSome (h : r.Knotted ref) :
    ¬ (r.writeText? n visiting (.object ref)).isSome := by
  induction n generalizing ref with
  | zero => simp [writeText?]
  | succ n ih =>
    intro hsome
    obtain ⟨next, hblames, hback⟩ := TransGen.head'_iff.mp h
    have herror : r.IsError ref := hblames.2.1
    have hfree : (r.object ref).kind = .array → ref ∉ visiting :=
      fun harray => by cases harray.symm.trans herror
    rw [isSome_writeText?_succ hfree, writing_of_error herror] at hsome
    exact ih (TransGen.tail' hback hblames) (hsome next hblames.1)

/-- A path that leaves its start for good. -/
theorem exists_path_avoiding {R : α → α → Prop} {a b : α} (h : ReflTransGen R a b) :
    b = a ∨ ∃ c, R a c ∧ c ≠ a ∧ ReflTransGen (fun x y => R x y ∧ y ≠ a) c b := by
  induction h with
  | refl => exact .inl rfl
  | @tail c d _ hstep ih =>
    by_cases hd : d = a
    · exact .inl hd
    obtain rfl | ⟨first, hfirst, hne, hpath⟩ := ih
    · exact .inr ⟨d, hstep, hd, .refl⟩
    · exact .inr ⟨first, hfirst, hne, hpath.tail ⟨hstep, hd⟩⟩

/-- An object from which a knot can be reached around the arrays that are being written has no
text. -/
theorem not_isSome_of_path {knot : ObjectRef} (hknot : r.Knotted knot) (href : ref ∉ visiting)
    (hpath : ReflTransGen (fun x y => r.Mentions x y ∧ y ∉ visiting) ref knot) :
    ¬ (r.writeText? n visiting (.object ref)).isSome := by
  induction n generalizing visiting ref with
  | zero => simp [writeText?]
  | succ n ih =>
    obtain rfl | ⟨next, ⟨hmentions, hnext⟩, hne, hpath⟩ := exists_path_avoiding hpath
    · exact hknot.not_isSome
    intro hsome
    have hkept {y : ObjectRef} (hy : y ∉ visiting) (hyref : y ≠ ref) :
        y ∉ r.writing visiting ref := fun hmem =>
      (List.mem_cons.mp (writing_subset hmem)).elim hyref hy
    refine ih (hkept hnext hne) ?_ ((isSome_writeText?_succ fun _ => href).mp hsome next hmentions)
    refine ReflTransGen.mono ?_ _ _ hpath
    rintro x y ⟨⟨hstep, hy⟩, hyref⟩
    exact ⟨hstep, hkept hy hyref⟩

/-! ## Values without knots -/

/-- The levels that are left are enough when every array that is still to be written has as many as
there can be errors before the next one.  The errors in `blaming` lead to the object. -/
theorem isSome_of_not_knotted {blaming : List ObjectRef}
    (hfree : ∀ e, ReflTransGen r.Mentions ref e → ¬ r.Knotted e)
    (hvisiting : visiting.Nodup) (hblaming : blaming.Nodup)
    (hin : ∀ x ∈ visiting, x.index < r.objects.size)
    (hin' : ∀ x ∈ blaming, x.index < r.objects.size)
    (hleads : ∀ x ∈ blaming, r.IsError ref → TransGen r.Blames x ref)
    (hn : (r.objects.size - visiting.length) * (r.objects.size + 1) +
      (r.objects.size - blaming.length) < n) :
    (r.writeText? n visiting (.object ref)).isSome := by
  induction n generalizing visiting blaming ref with
  | zero => exact absurd hn (Nat.not_lt_zero _)
  | succ n ih =>
    by_cases hmem : (r.object ref).kind = .array ∧ ref ∈ visiting
    · rw [writeText?_of_mem hmem.1 hmem.2]
      rfl
    refine (isSome_writeText?_succ fun harray hvisit => hmem ⟨harray, hvisit⟩).mpr ?_
    intro next hmentions
    have hlt := hmentions.lt_size
    have hfree' (e : ObjectRef) (he : ReflTransGen r.Mentions next e) : ¬ r.Knotted e :=
      hfree e (.head hmentions he)
    cases hkind : (r.object ref).kind with
    | ordinary | function closure | regExp pattern flags =>
      obtain hk | hk | hk := hmentions
      all_goals cases hkind.symm.trans hk
    | array =>
      have hnotin : ref ∉ visiting := fun hvisit => hmem ⟨hkind, hvisit⟩
      have hnodup : (ref :: visiting).Nodup := List.nodup_cons.mpr ⟨hnotin, hvisiting⟩
      have hin1 : ∀ x ∈ ref :: visiting, x.index < r.objects.size :=
        List.forall_mem_cons.mpr ⟨hlt, hin⟩
      rw [writing_of_array hkind]
      refine ih hfree' hnodup List.nodup_nil hin1 (by simp) (by simp) ?_
      have hle := length_le_size hnodup hin1
      obtain ⟨k, hk⟩ := Nat.exists_eq_add_of_le hle
      simp only [List.length_cons, List.length_nil] at hle hk ⊢
      rw [show r.objects.size - visiting.length = k + 1 by omega, Nat.succ_mul] at hn
      rw [show r.objects.size - (visiting.length + 1) = k by omega]
      omega
    | error =>
      have hnotin : ref ∉ blaming := fun hblame =>
        hfree ref .refl (hleads ref hblame hkind)
      have hnodup : (ref :: blaming).Nodup := List.nodup_cons.mpr ⟨hnotin, hblaming⟩
      have hin1 : ∀ x ∈ ref :: blaming, x.index < r.objects.size :=
        List.forall_mem_cons.mpr ⟨hlt, hin'⟩
      rw [writing_of_error hkind]
      refine ih hfree' hvisiting hnodup hin hin1 ?_ ?_
      · intro x hx herror
        have hblames : r.Blames ref next := ⟨hmentions, hkind, herror⟩
        obtain rfl | hx := List.mem_cons.mp hx
        · exact .single hblames
        · exact (hleads x hx hkind).tail hblames
      · have hle := length_le_size hnodup hin1
        simp only [List.length_cons] at hle ⊢
        omega

theorem isSome_toText
    (h : ∀ ref e, v = .object ref → ReflTransGen r.Mentions ref e → ¬ r.Knotted e) :
    (r.writeText? r.textLevels [] v).isSome := by
  refine (isSome_writeText?_value v).mpr fun ref hv => ?_
  refine isSome_of_not_knotted (fun e => h ref e hv) .nil .nil nofun nofun nofun ?_
  rw [textLevels, Nat.succ_mul]
  exact Nat.add_lt_add_left (Nat.lt_succ_self _) _

theorem not_knotted_of_isSome (h : (r.writeText? n [] v).isSome) :
    ∀ ref e, v = .object ref → ReflTransGen r.Mentions ref e → ¬ r.Knotted e := by
  rintro ref e rfl hpath hknot
  refine not_isSome_of_path hknot List.not_mem_nil ?_ h
  exact ReflTransGen.mono (fun x y hstep => ⟨hstep, List.not_mem_nil⟩) _ _ hpath

theorem toText_eq (h : r.writeText? n [] v = some text) :
    r.toText v = text := by
  obtain ⟨text', htext'⟩ := Option.isSome_iff_exists.mp
    (isSome_toText (not_knotted_of_isSome (Option.isSome_of_eq_some h)))
  have hsame := (writeText?_of_le (Nat.le_max_left n r.textLevels) h).symm.trans
    (writeText?_of_le (Nat.le_max_right n r.textLevels) htext')
  rw [toText, text?, htext', Option.getD_some]
  exact (Option.some.inj hsame).symm

theorem writeText?_of_text? (h : r.text? v = none) (n : Nat) : r.writeText? n [] v = none := by
  refine Option.not_isSome_iff_eq_none.mp fun hsome => ?_
  have htext : (r.text? v).isSome := isSome_toText (not_knotted_of_isSome hsome)
  rw [h] at htext
  cases htext

/-- Writing a text comes to an end unless the value leads to a knot of errors, and `toText` is then
the text. -/
theorem text_ends_iff (r : Realm) (v : Value) :
    ((∃ n, (r.writeText? n [] v).isSome) ↔
      ∀ ref e, v = .object ref → ReflTransGen r.Mentions ref e → ¬ r.Knotted e) ∧
    ∀ n text, r.writeText? n [] v = some text → r.toText v = text :=
  ⟨⟨fun ⟨_, h⟩ => not_knotted_of_isSome h, fun h => ⟨r.textLevels, isSome_toText h⟩⟩,
    fun _ _ => toText_eq⟩

/-- `try { missing } catch (e) { e.message = e }` -/
def blamingItself : Program where
  body := [.tryCatch [.expression (.identifier "missing")]
    (some (.mk "e" [.expression (.assignment .assign
      (.member (.identifier "e") (.identifier "message") false) (.identifier "e"))])) none]

def blamed? : Outcome → Option ObjectRef
  | .halted (.ok c) r _ => do
    let ref ← c.valueOrUndefined.object?
    match (r.object ref).kind, r.getFrom ref "message" with
    | .error, .object ref' => if ref' = ref then some ref else none
    | _, _ => none
  | _ => none

theorem knotted_of_blamed? {outcome : Outcome} (h : blamed? outcome = some ref) :
    ∃ c r context, outcome = .halted (.ok c) r context ∧ c.valueOrUndefined = .object ref ∧
      r.Knotted ref := by
  unfold blamed? at h
  split at h
  · next c r context =>
    obtain ⟨ref', hvalue, h⟩ := Option.bind_eq_some_iff.mp h
    split at h
    · next herror hmessage =>
      split at h
      · next heq =>
        cases h
        refine ⟨c, r, context, rfl, ?_, .single ⟨.message herror (heq ▸ hmessage), herror, herror⟩⟩
        cases hv : c.valueOrUndefined <;> simp_all [Value.object?]
      · cases h
    · cases h
  · cases h

/-- A program can end with a value that has no text. -/
theorem no_text_blamingItself :
    ∃ a c r context, compile blamingItself false = .ok a ∧
      runProgram 100 a (.create 256 false) false = .halted (.ok c) r context ∧
      ∀ n, r.writeText? n [] c.valueOrUndefined = none := by
  have hrun : ((compile blamingItself false).toOption.bind fun a =>
      blamed? (runProgram 100 a (.create 256 false) false)) = some ⟨5⟩ := by
    decide +kernel
  obtain ⟨a, ha, hblamed⟩ := Option.bind_eq_some_iff.mp hrun
  obtain ⟨c, r, context, hhalted, hvalue, hknot⟩ := knotted_of_blamed? hblamed
  refine ⟨a, c, r, context, ok_of_toOption ha, hhalted, fun n => ?_⟩
  rw [hvalue]
  exact Option.not_isSome_iff_eq_none.mp hknot.not_isSome

end TreeScript.Realm
