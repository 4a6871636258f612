import TreeScript.Proofs.Program.Properties

/-!
# The keys that enumeration gives

A key is enumerated if the first object that has it, from the object itself along its prototypes,
has it as a property that can be enumerated.  The keys come in the order of those objects, and the
keys of one object in the order of its properties.  A property that cannot be enumerated hides what
further prototypes have under its key, so the search goes by all keys that were passed.
-/

namespace TreeScript

open Code Syntax Lowering

namespace Object

variable {o : Object} {key : String}

theorem enumerableKeys_sublist (o : Object) : o.enumerableKeys.Sublist o.ownKeys :=
  List.filter_sublist

theorem Agrees.mem_enumerableKeys (h : o.Agrees) :
    key ∈ o.enumerableKeys ↔ ∃ p, o.own? key = some p ∧ p.enumerable = true := by
  unfold enumerableKeys
  rw [List.mem_filter, h.mem_iff, Option.any_eq_true]
  refine and_iff_right_of_imp ?_
  rintro ⟨p, hp, -⟩
  exact Option.isSome_of_eq_some hp

end Object

namespace Realm

variable {os : List Object} {seen : List String} {key : String}

/-- Of two keys the first belongs to a nearer object of a chain than the second, or stands before it
in the first object that has one of them. -/
inductive Precedes (key key' : String) : List Object → Prop where
  | within {o : Object} {os : List Object} :
    [key, key'].Sublist o.ownKeys → Precedes key key' (o :: os)
  | nearer {o : Object} {os : List Object} :
    key ∈ o.ownKeys → key' ∉ o.ownKeys → Precedes key key' (o :: os)
  | further {o : Object} {os : List Object} :
    key ∉ o.ownKeys → key' ∉ o.ownKeys → Precedes key key' os → Precedes key key' (o :: os)

theorem mem_enumerateKeys_go (h : ∀ o ∈ os, o.Agrees) :
    key ∈ enumerateKeys.go seen os ↔
      key ∉ seen ∧ ∃ p, os.findSome? (·.own? key) = some p ∧ p.enumerable = true := by
  induction os generalizing seen with
  | nil => simp [enumerateKeys.go]
  | cons o os ih =>
    obtain ⟨ho, hos⟩ := List.forall_mem_cons.mp h
    rw [enumerateKeys.go, List.mem_append, List.mem_filter, ho.mem_enumerableKeys, ih hos,
      List.mem_append, ho.mem_iff, List.findSome?_cons]
    cases hown : o.own? key with
    | none => simp
    | some p => simp [and_comm]

theorem pairwise_enumerateKeys_go (h : ∀ o ∈ os, o.Agrees) :
    (enumerateKeys.go seen os).Pairwise fun key key' => key ≠ key' ∧ Precedes key key' os := by
  induction os generalizing seen with
  | nil => exact .nil
  | cons o os ih =>
    obtain ⟨ho, hos⟩ := List.forall_mem_cons.mp h
    have hlater {key : String} (hkey : key ∈ enumerateKeys.go (seen ++ o.ownKeys) os) :
        key ∉ o.ownKeys := fun hown =>
      ((mem_enumerateKeys_go hos).mp hkey).1 (List.mem_append_right _ hown)
    have hown : (o.enumerableKeys.filter (!seen.contains ·)).Sublist o.ownKeys :=
      List.filter_sublist.trans o.enumerableKeys_sublist
    rw [enumerateKeys.go, List.pairwise_append]
    refine ⟨?_, (ih hos).imp_of_mem fun hkey hkey' hp => ?_, fun key hkey key' hkey' => ?_⟩
    · refine List.pairwise_iff_forall_sublist.mpr fun {key key'} hsub => ?_
      have hpair := hsub.trans hown
      have hne : key ≠ key' := by simpa using ho.nodup.sublist hpair
      exact ⟨hne, .within hpair⟩
    · exact ⟨hp.1, .further (hlater hkey) (hlater hkey') hp.2⟩
    · have hmem := hown.subset hkey
      refine ⟨?_, .nearer hmem (hlater hkey')⟩
      rintro rfl
      exact hlater hkey' hmem

end Realm

/-- The law of enumeration, in every realm that compiled programs come to.  The keys of an object
are those for which the first property along its prototypes can be enumerated.  None is given twice,
and they come in the order of the objects that have them and of their properties.  So each is a
property that the object has, and one that cannot be enumerated hides those behind it.  Other values
have no keys. -/
theorem met_enumerateKeys {r : Realm} (hr : r.Met) (value : Value) (hin : r.Inside value) :
    (value.object? = none → r.enumerateKeys value = []) ∧
    ∀ ref, value = .object ref →
      ∃ refs, Walk r.object? Object.prototype (some ref) refs ∧
        (r.enumerateKeys value).Nodup ∧
        (r.enumerateKeys value).Pairwise (Realm.Precedes · · (refs.map r.object)) ∧
        (∀ key, key ∈ r.enumerateKeys value ↔
          ∃ p, r.Inherits ref key (some p) ∧ p.enumerable = true) ∧
        (∀ key ∈ r.enumerateKeys value, r.hasProperty ref key = true) ∧
        ∀ key p, (r.object ref).own? key = some p → p.enumerable = false →
          key ∉ r.enumerateKeys value := by
  refine ⟨fun hnone => ?_, ?_⟩
  · cases value with
    | object ref => cases hnone
    | _ => rfl
  rintro ref rfl
  have hf := hr.founded
  have hwalk := hf.walk_ancestors (some ref) fun ref' href => by
    cases href
    exact hin
  have hagrees : ∀ o ∈ r.lineage ref, o.Agrees := by
    intro o ho
    obtain ⟨ref', -, rfl⟩ := List.mem_map.mp ho
    exact (hr.tidy ref').agrees
  have hpairs : (r.enumerateKeys (.object ref)).Pairwise fun key key' =>
      key ≠ key' ∧ Realm.Precedes key key' (r.lineage ref) :=
    Realm.pairwise_enumerateKeys_go hagrees
  have hmem (key : String) : key ∈ r.enumerateKeys (.object ref) ↔
      ∃ p, r.Inherits ref key (some p) ∧ p.enumerable = true := by
    refine (Realm.mem_enumerateKeys_go hagrees).trans ?_
    have hinherits := hf.inherits hin key
    constructor
    · rintro ⟨-, p, hp, he⟩
      exact ⟨p, hp ▸ hinherits, he⟩
    · rintro ⟨p, hp, he⟩
      exact ⟨List.not_mem_nil, p, hinherits.unique hp, he⟩
  refine ⟨_, hwalk, hpairs.imp And.left, hpairs.imp And.right, hmem, fun key hkey => ?_,
    fun key p hp he hkey => ?_⟩
  · obtain ⟨p, hp, -⟩ := (hmem key).mp hkey
    obtain ⟨found, hfound, hhas⟩ := hf.searchable.hasProperty hin key
    rw [hhas, hfound.unique hp]
    rfl
  · obtain ⟨p', hp', he'⟩ := (hmem key).mp hkey
    have hfirst : r.Inherits ref key (some p) := .found (Realm.object?_of_inside hin) hp
    cases hfirst.unique hp'
    cases he.symm.trans he'

/-- Constructs an object with a property of its own and one of its prototype. -/
def inheritingKeys : Program where
  body := [.function (.mk (some "f") [] [] false),
    .expression (.assignment .assign (.member (.member (.identifier "f") (.identifier "prototype")
      false) (.identifier "a") false) .null),
    .expression (.assignment .assign (.identifier "o") (.construct (.identifier "f") [])),
    .expression (.assignment .assign (.member (.identifier "o") (.identifier "b") false) .null),
    .expression (.identifier "o")]

/-- The keys of the object that a run has ended with. -/
def Outcome.keys? : Outcome → Option (List String)
  | .halted (.ok c) r _ =>
    c.valueOrUndefined.object?.bind fun ref =>
      if ref.index < r.objects.size then some (r.enumerateKeys (.object ref)) else none
  | _ => none

theorem keys_inheritingKeys :
    ((compile inheritingKeys false).toOption.bind fun a =>
      (runProgram 200 a (.create 16 false) false).keys?) = some ["b", "a"] := by
  decide +kernel

/-- The key of the prototype comes second, and its `constructor` is not there. -/
theorem met_enumerateKeys_inheritingKeys : ∃ r ref refs, Realm.Met r ∧ r.Inside (.object ref) ∧
    r.enumerateKeys (.object ref) = ["b", "a"] ∧
    Walk r.object? Object.prototype (some ref) refs ∧
    Realm.Precedes "b" "a" (refs.map r.object) := by
  obtain ⟨a, ha, hkeys⟩ := Option.bind_eq_some_iff.mp keys_inheritingKeys
  unfold Outcome.keys? at hkeys
  split at hkeys
  · next c r context hrun =>
    obtain ⟨ref, -, hkeys⟩ := Option.bind_eq_some_iff.mp hkeys
    split at hkeys
    · next hin =>
      have hr : Realm.Met r :=
        .between (.run (.first ⟨16, false, rfl⟩) trivial (ok_of_toOption ha) hrun)
      have hkeys := Option.some.inj hkeys
      obtain ⟨refs, hwalk, -, hpairs, -⟩ := (met_enumerateKeys hr (.object ref) hin).2 ref rfl
      rw [hkeys] at hpairs
      exact ⟨r, ref, refs, hr, hin, hkeys, hwalk, (List.pairwise_pair.mp hpairs)⟩
    · cases hkeys
  · cases hkeys

end TreeScript
