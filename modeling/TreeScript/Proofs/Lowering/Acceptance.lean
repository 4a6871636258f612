import Std.Data.String.ToNat
import TreeScript.Proofs.KeyTable
import TreeScript.Proofs.Lowering.Closed

/-!
# What the compiler accepts

A program compiles just when it has no unsupported construct, no part of it is too long to be
counted and each of its units fits.  Otherwise the compiler says so; it never runs into a fault of
its own.  The argument follows the steps that code generation is made of: from a stage at which all
is in order, a step either goes through or turns the program down for a reason that is in the tree.
-/

namespace TreeScript

namespace Code

/-! ## Names of units -/

namespace Role

theorem ofTag?_tag (role : Role) : ofTag? role.tag = some role := by
  cases role <;> rfl

theorem tag_injective {role role' : Role} (h : role.tag = role'.tag) : role = role' := by
  have hsome := ofTag?_tag role
  rw [h, ofTag?_tag role'] at hsome
  exact (Option.some.inj hsome).symm

theorem takeWhile_tag (role : Role) (rest : List Char) :
    (role.tag.toList ++ '_' :: rest).takeWhile (· != '_') = role.tag.toList := by
  have hall : role.tag.toList.all (· != '_') = true := by
    cases role <;> decide
  rw [List.takeWhile_append_of_pos (List.all_eq_true.mp hall),
    List.takeWhile_cons_of_neg (by decide), List.append_nil]

end Role

def unitName (role : Role) (number : Nat) : String := s!"{role.tag}_{number}"

theorem unitName_toList (role : Role) (number : Nat) :
    (unitName role number).toList = role.tag.toList ++ '_' :: number.repr.toList := by
  simp [unitName, toString]

theorem unitName_injective {role role' : Role} {number number' : Nat}
    (h : unitName role number = unitName role' number') : role = role' ∧ number = number' := by
  have hlist := congrArg String.toList h
  rw [unitName_toList, unitName_toList] at hlist
  have htag : role.tag = role'.tag := by
    have hwhile := congrArg (List.takeWhile (· != '_')) hlist
    rw [Role.takeWhile_tag, Role.takeWhile_tag] at hwhile
    exact String.toList_injective hwhile
  cases Role.tag_injective htag
  refine ⟨rfl, Nat.repr_injective (String.toList_injective ?_)⟩
  exact (List.cons.inj (List.append_cancel_left hlist)).2

def CodeUnit.usage (u : CodeUnit) : Lowering.Usage where
  temps := u.tempCount
  operands := (u.operands.toList.map Operand.key).toFinset

namespace Registry

variable {r r' : Registry} {role : Role} {id : UnitId}

def heads (r : Registry) : List (String × Role) :=
  r.slots.toList.map fun slot => (slot.name, slot.role)

theorem heads_reserve (hr : r.reserve role = (.ok id, r')) :
    r'.heads = r.heads ++ [(r.nextName role, role)] := by
  obtain ⟨-, rfl⟩ := reserve_eq hr
  simp [heads]

theorem heads_fill (r : Registry) (id : UnitId) (u : CodeUnit) : (r.fill id u).heads = r.heads := by
  refine List.ext_getElem? fun i => ?_
  simp only [heads, fill, List.getElem?_map, Array.getElem?_toList, Array.getElem?_modify]
  split
  · rw [Option.map_map]
    rfl
  · rfl

/-- How many of the units before a given one have a role. -/
def earlier (r : Registry) (id : UnitId) (role : Role) : Nat :=
  (r.heads.take id).countP (·.2 = role)

theorem earlier_lt {name : String} (h : r.heads[id]? = some (name, role)) {id' : UnitId}
    (hlt : id < id') : r.earlier id role < r.earlier id' role := by
  have hsplit : r.heads.take (id + 1) = r.heads.take id ++ [(name, role)] := by
    rw [List.take_add_one, h]
    rfl
  have hnext : r.earlier (id + 1) role = r.earlier id role + 1 := by
    unfold earlier
    rw [hsplit, List.countP_append]
    simp
  have hmore : r.earlier (id + 1) role ≤ r.earlier id' role :=
    ((List.take_prefix_take_left hlt).sublist).countP_le
  omega

/-- The names, the table of names and the counters agree: each unit is named after its role and the
number of units of that role before it, its name leads to it, and the units of each role are
counted. -/
structure Numbered (r : Registry) : Prop where
  named : ∀ {id : UnitId} {name : String} {role : Role}, r.heads[id]? = some (name, role) →
    name = unitName role (r.earlier id role)
  names : ∀ {name : String} {id : UnitId},
    r.names.find? name = some id ↔ ∃ role, r.heads[id]? = some (name, role)
  counters : ∀ role : Role, r.counters role = r.earlier r.slots.size role

theorem numbered_empty : Numbered {} := by
  refine ⟨fun h => ?_, ⟨fun h => ?_, ?_⟩, fun _ => rfl⟩
  · cases h
  · cases h
  · rintro ⟨role, h⟩
    cases h

theorem Numbered.addFunction (h : r.Numbered) (info : FunctionInfo) :
    (r.addFunction info).2.Numbered :=
  ⟨h.named, h.names, h.counters⟩

theorem Numbered.fill (h : r.Numbered) (id : UnitId) (u : CodeUnit) : (r.fill id u).Numbered := by
  have hsize : (r.fill id u).slots.size = r.slots.size := Array.size_modify
  have hearlier (id' : UnitId) (role : Role) :
      (r.fill id u).earlier id' role = r.earlier id' role := by
    unfold earlier
    rw [heads_fill]
  constructor
  · intro id' name role hhead
    rw [heads_fill] at hhead
    rw [hearlier]
    exact h.named hhead
  · intro name id'
    rw [heads_fill]
    exact h.names
  · intro role
    rw [hearlier, hsize]
    exact h.counters role

theorem Numbered.fresh (h : r.Numbered) (role : Role) :
    r.names.find? (r.nextName role) = none := by
  refine Option.eq_none_iff_forall_ne_some.mpr fun id hid => ?_
  obtain ⟨role', hhead⟩ := h.names.mp hid
  have hname : unitName role (r.counters role) = unitName role' (r.earlier id role') :=
    h.named hhead
  obtain ⟨rfl, hnumber⟩ := unitName_injective hname
  have hlt : id < r.slots.size := by
    have hlength := (List.getElem?_eq_some_iff.mp hhead).1
    rwa [heads, List.length_map, Array.length_toList] at hlength
  have hmore := earlier_lt hhead hlt
  rw [h.counters] at hnumber
  omega

theorem Numbered.reserve (h : r.Numbered) (role : Role) :
    ∃ id r', r.reserve role = (.ok id, r') := by
  have hnew : ¬ r.names.contains (r.nextName role) = true := by
    rw [KeyTable.contains_eq_isSome_find?, h.fresh role]
    decide
  exact ⟨_, _, if_neg hnew⟩

theorem getElem?_heads_reserve (hr : r.reserve role = (.ok id, r')) (i : Nat) :
    r'.heads[i]? = if i = r.slots.size then some (r.nextName role, role) else r.heads[i]? := by
  obtain ⟨-, rfl⟩ := reserve_eq hr
  simp only [heads, List.getElem?_map, Array.getElem?_toList, Array.getElem?_push]
  split <;> rfl

theorem Numbered.of_reserve (h : r.Numbered) (hr : r.reserve role = (.ok id, r')) :
    r'.Numbered := by
  have hlength : r.heads.length = r.slots.size := by
    rw [heads, List.length_map, Array.length_toList]
  have hearlier {id' : UnitId} (hle : id' ≤ r.slots.size) (role' : Role) :
      r'.earlier id' role' = r.earlier id' role' := by
    unfold earlier
    rw [heads_reserve hr, List.take_append_of_le_length (hlength ▸ hle)]
  constructor
  · intro id' name role' hhead
    rw [getElem?_heads_reserve hr] at hhead
    split at hhead
    · next heq =>
      cases hhead
      rw [heq, hearlier (Nat.le_refl _), ← h.counters]
      rfl
    · have hlt := (List.getElem?_eq_some_iff.mp hhead).1
      rw [hearlier (Nat.le_of_lt (hlength ▸ hlt))]
      exact h.named hhead
  · intro name id'
    have hnames : r'.names = r.names.insert (r.nextName role) r.slots.size := by
      rw [(reserve_eq hr).2]
    rw [hnames, KeyTable.find?_insert, getElem?_heads_reserve hr]
    by_cases hid : id' = r.slots.size
    · -- the new number
      have hold : r.names.find? name ≠ some r.slots.size := by
        intro hfound
        obtain ⟨role', hhead⟩ := h.names.mp hfound
        exact absurd (List.getElem?_eq_some_iff.mp hhead).1 (by omega)
      rw [if_pos hid, hid]
      by_cases hname : name = r.nextName role
      · rw [if_pos hname, hname]
        exact iff_of_true rfl ⟨role, rfl⟩
      · rw [if_neg hname]
        refine iff_of_false hold ?_
        rintro ⟨role', hrole⟩
        cases hrole
        exact hname rfl
    · -- a number that was there, whose name is not the new one
      rw [if_neg hid, ← h.names]
      by_cases hname : name = r.nextName role
      · rw [if_pos hname, hname, h.fresh role]
        refine iff_of_false (fun heq => hid (Option.some.inj heq).symm) fun h => ?_
        cases h
      · rw [if_neg hname]
  · intro role'
    have hcount : r'.earlier r'.slots.size role' =
        r.earlier r.slots.size role' + if role' = role then 1 else 0 := by
      have hsize : r'.slots.size = r.slots.size + 1 := by
        rw [(reserve_eq hr).2, Array.size_push]
      unfold earlier
      rw [hsize, ← hlength, List.take_length, heads_reserve hr,
        List.take_of_length_le (by simp), List.countP_append]
      by_cases hrole : role' = role <;> simp [hrole, Ne.symm]
    rw [hcount, ← h.counters, (reserve_eq hr).2]
    show (if role' = role then r.counters role + 1 else r.counters role') = _
    split
    · next hrole => rw [hrole]
    · rfl

/-! ## What finished units take up -/

def usages (r : Registry) : List (Option Lowering.Usage) :=
  r.slots.toList.map fun slot => slot.unit?.map CodeUnit.usage

theorem usages_reserve (hr : r.reserve role = (.ok id, r')) :
    id = r.usages.length ∧ r'.usages = r.usages ++ [none] := by
  obtain ⟨rfl, rfl⟩ := reserve_eq hr
  simp [usages]

theorem usages_fill (r : Registry) (id : UnitId) (u : CodeUnit) :
    (r.fill id u).usages = r.usages.set id (some u.usage) := by
  refine List.ext_getElem? fun i => ?_
  simp only [usages, fill, List.getElem?_map, Array.getElem?_toList, Array.getElem?_modify,
    List.getElem?_set, List.length_map, Array.length_toList]
  by_cases hid : id = i
  · cases hid
    by_cases hlt : id < r.slots.size <;> simp [hlt]
  · simp [hid]

end Registry

/-! ## Operands so far -/

namespace Builder

variable {b : Builder}

def keys (b : Builder) : Finset OperandKey := (b.operands.toList.map Operand.key).toFinset

/-- Each operand is listed once and can be found by its key, and there is room for all that is
there. -/
structure Tidy (b : Builder) : Prop where
  distinct : (b.operands.toList.map Operand.key).Nodup
  interned : ∀ o ∈ b.operands, b.interned.get? o.key ≠ none
  operands : b.operands.size ≤ maxOperands
  temps : b.tempCount ≤ maxTemporaries

theorem Tidy.card_keys (h : b.Tidy) : b.keys.card = b.operands.size := by
  rw [keys, List.toFinset_card_of_nodup h.distinct, List.length_map, Array.length_toList]

theorem mem_keys_of_interned (hs : b.Sound) {k : OperandKey} {i : OperandIndex}
    (h : b.interned.get? k = some i) : k ∈ b.keys := by
  obtain ⟨o, ho, rfl⟩ := hs h
  rw [keys, List.mem_toFinset]
  exact List.mem_map_of_mem (Array.mem_toList_iff.mpr (Array.mem_of_getElem? ho))

theorem Tidy.not_mem_keys (h : b.Tidy) {k : OperandKey} (hk : b.interned.get? k = none) :
    k ∉ b.keys := by
  intro hmem
  rw [keys, List.mem_toFinset] at hmem
  obtain ⟨o, ho, rfl⟩ := List.mem_map.mp hmem
  exact h.interned o (Array.mem_toList_iff.mp ho) hk

theorem tidy_fresh (name : String) : Tidy { unit := name } where
  distinct := List.nodup_nil
  interned _ ho := absurd ho (Array.not_mem_empty _)
  operands := Nat.zero_le _
  temps := Nat.zero_le _

def push (b : Builder) (o : Operand) : Builder :=
  { b with
    operands := b.operands.push o
    interned := b.interned.insert o.key b.operands.size }

theorem keys_push (b : Builder) (o : Operand) : (b.push o).keys = b.keys ∪ {o.key} := by
  simp [keys, push]

theorem Tidy.push (h : b.Tidy) {o : Operand} (ho : b.interned.get? o.key = none)
    (hlt : b.operands.size < maxOperands) : (b.push o).Tidy where
  distinct := by
    have hnew := h.not_mem_keys ho
    rw [keys, List.mem_toFinset] at hnew
    show ((b.operands.push o).toList.map Operand.key).Nodup
    rw [Array.toList_push, List.map_append, List.map_singleton]
    exact h.distinct.append (List.nodup_singleton _) (List.disjoint_singleton.mpr hnew)
  interned o' ho' := by
    show (b.interned.insert o.key b.operands.size).get? o'.key ≠ none
    rw [Std.TreeMap.get?_eq_getElem?, Std.TreeMap.getElem?_insert]
    split
    · exact Option.some_ne_none _
    · next hne =>
      rcases Array.mem_push.mp ho' with ho' | rfl
      · exact h.interned o' ho'
      · exact absurd Std.ReflCmp.compare_self hne
  operands := by
    show (b.operands.push o).size ≤ maxOperands
    rw [Array.size_push]
    exact hlt
  temps := h.temps

end Builder

def CompileError.IsRefusal : CompileError → Prop
  | .unsupported .. | .tooMany .. => True
  | _ => False

end Code

variable {known : List Reference} {t : Nat} {name : String}

namespace Lowering

open Code Syntax

variable {α β : Type} {g : Gen α} {f : α → Gen β} {s s' s1 : Stage} {x : α} {d d' : Demand}
  {ok ok' : Prop} {e : CompileError}

def Fails (g : Gen α) (s : Stage) (e : CompileError) : Prop :=
  ∃ r, (g.run s.builder).run.run s.registry = (.error e, r)

theorem Fails.bind (h : Fails g s e) : Fails (g >>= f) s e := by
  obtain ⟨r, h⟩ := h
  refine ⟨r, ?_⟩
  rw [StateT.run_bind, ExceptT.run_bind, StateT.run_bind, h]
  rfl

theorem Yields.bind_fails (hg : Yields g s x s1) (hf : Fails (f x) s1 e) : Fails (g >>= f) s e := by
  obtain ⟨r, hf⟩ := hf
  refine ⟨r, ?_⟩
  rw [StateT.run_bind, ExceptT.run_bind, StateT.run_bind, hg]
  exact hf

theorem fails_build {x : Building α} {b : Builder} (h : x s.builder = .error e b) :
    Fails (build x) s e := by
  refine ⟨s.registry, ?_⟩
  unfold build StateT.run
  dsimp only
  rw [h]
  rfl

theorem fails_lift {x : Compile α} :
    Fails (StateT.lift x) s e ↔ ∃ r, x.run.run s.registry = (.error e, r) := by
  unfold Fails
  rw [lift_run]
  rcases x.run.run s.registry with ⟨e' | a, r'⟩
  · constructor
    · rintro ⟨r, h⟩
      cases h
      exact ⟨_, rfl⟩
    · rintro ⟨r, h⟩
      cases h
      exact ⟨_, rfl⟩
  · exact iff_of_false nofun nofun

/-- All is in order at a stage: operands and names of units are told apart, and all fits. -/
structure Stage.Tidy (s : Stage) : Prop where
  builder : s.builder.Tidy
  registry : s.registry.Numbered

/-- There is room for some more code in a unit, and for the units inside the code. -/
def Stage.Fits (s : Stage) (d : Demand) : Prop :=
  (s.builder.keys ∪ d.operands).card ≤ Builder.maxOperands ∧
    s.temps + d.temps ≤ Builder.maxTemporaries ∧ ∀ u ∈ d.inner, u.Fits

/-- From one stage to another the code took up what it needs. -/
structure Takes (s : Stage) (d : Demand) (s' : Stage) : Prop where
  tidy : s'.Tidy
  keys : s'.builder.keys = s.builder.keys ∪ d.operands
  temps : s'.temps = s.temps + d.temps
  usages : s'.registry.usages = s.registry.usages ++ d.inner.map some

/-- Generation either goes through, and then it was right to, or turns the program down for a good
reason. -/
def Decided (g : Gen α) (s : Stage) (d : Demand) (ok : Prop) : Prop :=
  (∃ x s', Yields g s x s' ∧ (ok ∧ s.Fits d) ∧ Takes s d s') ∨
    ∃ e, Fails g s e ∧ e.IsRefusal ∧ ¬ (ok ∧ s.Fits d)

theorem Takes.fits (h : Takes s d s') : s.Fits (d ++ d') ↔ s.Fits d ∧ s'.Fits d' := by
  unfold Stage.Fits
  simp only [h.keys, h.temps, Demand.operands_append, Demand.temps_append, Demand.inner_append,
    List.forall_mem_append, Finset.union_assoc, Nat.add_assoc]
  have hcard : (s.builder.keys ∪ d.operands).card ≤
      (s.builder.keys ∪ (d.operands ∪ d'.operands)).card :=
    Finset.card_le_card (Finset.union_subset_union_right Finset.subset_union_left)
  constructor
  · rintro ⟨hoperands, htemps, hinner, hinner'⟩
    exact ⟨⟨hcard.trans hoperands, by omega, hinner⟩, hoperands, htemps, hinner'⟩
  · rintro ⟨⟨-, -, hinner⟩, hoperands, htemps, hinner'⟩
    exact ⟨hoperands, htemps, hinner, hinner'⟩

theorem Takes.trans (h : Takes s d s') {s'' : Stage} (h' : Takes s' d' s'') :
    Takes s (d ++ d') s'' where
  tidy := h'.tidy
  keys := by rw [h'.keys, h.keys, Demand.operands_append, Finset.union_assoc]
  temps := by rw [h'.temps, h.temps, Demand.temps_append, Nat.add_assoc]
  usages := by
    rw [h'.usages, h.usages, Demand.inner_append, List.map_append, List.append_assoc]

theorem Stage.Fits.left (h : s.Fits (d ++ d')) : s.Fits d := by
  obtain ⟨hoperands, htemps, hinner⟩ := h
  refine ⟨?_, ?_, fun u hu => hinner u (List.mem_append_left _ hu)⟩
  · refine le_trans (Finset.card_le_card ?_) hoperands
    exact Finset.union_subset_union_right Finset.subset_union_left
  · rw [Demand.temps_append] at htemps
    omega

theorem Decided.bind (hg : Decided g s d ok)
    (hf : ∀ x s1, Yields g s x s1 → Takes s d s1 → Decided (f x) s1 d' ok') :
    Decided (g >>= f) s (d ++ d') (ok ∧ ok') := by
  rcases hg with ⟨x, s1, hy, ⟨hok, hfits⟩, htakes⟩ | ⟨e, he, hrefusal, hnot⟩
  · rcases hf x s1 hy htakes with ⟨y, s2, hy', ⟨hok', hfits'⟩, htakes'⟩ | ⟨e, he, hrefusal, hnot⟩
    · exact .inl ⟨y, s2, yields_bind.mpr ⟨x, s1, hy, hy'⟩,
        ⟨⟨hok, hok'⟩, htakes.fits.mpr ⟨hfits, hfits'⟩⟩, htakes.trans htakes'⟩
    · refine .inr ⟨e, hy.bind_fails he, hrefusal, ?_⟩
      rintro ⟨⟨-, hok'⟩, hfits⟩
      exact hnot ⟨hok', (htakes.fits.mp hfits).2⟩
  · refine .inr ⟨e, he.bind, hrefusal, ?_⟩
    rintro ⟨⟨hok, -⟩, hfits⟩
    exact hnot ⟨hok, hfits.left⟩

theorem Decided.last (hg : Decided g s d ok) (hf : ∀ x s1, s1.Tidy → Decided (f x) s1 {} True) :
    Decided (g >>= f) s d ok := by
  have h := hg.bind fun x s1 _ htakes => hf x s1 htakes.tidy
  rwa [Demand.append_empty, and_true] at h

/-! ## Steps -/

theorem Stage.Tidy.fits (hs : s.Tidy) : s.Fits {} := by
  refine ⟨?_, hs.builder.temps, nofun⟩
  rw [Finset.union_empty, hs.builder.card_keys]
  exact hs.builder.operands

theorem decided_quiet (hs : s.Tidy) {instructions : Array Instruction} {labels : Array (Option Nat)}
    (hy : Yields g s x ⟨{ s.builder with instructions, labels }, s.registry⟩) :
    Decided g s {} True := by
  obtain ⟨⟨hdistinct, hinterned, hoperands, htemps⟩, hnumbered⟩ := id hs
  refine .inl ⟨x, _, hy, ⟨trivial, hs.fits⟩, ⟨⟨hdistinct, hinterned, hoperands, htemps⟩, hnumbered⟩,
    (Finset.union_empty _).symm, rfl, (List.append_nil _).symm⟩

theorem decided_emit (i : Instruction) (hs : s.Tidy) : Decided (emit i) s {} True :=
  decided_quiet (x := ()) hs (yields_emit.mpr rfl)

theorem decided_addFunction (info : FunctionInfo) (hs : s.Tidy) :
    Decided (addFunction info) s {} True :=
  .inl ⟨_, _, yields_addFunction.mpr ⟨rfl, rfl⟩, ⟨trivial, hs.fits⟩,
    ⟨hs.builder, hs.registry.addFunction info⟩, (Finset.union_empty _).symm, rfl,
    (List.append_nil _).symm⟩

theorem decided_intern {pending : List Label} (o : Operand) (hs : s.Tidy)
    (hready : s.Ready known pending t) :
    Decided (intern o) s { operands := {o.key} } True := by
  cases hget : s.builder.interned.get? o.key with
  | some i =>
    have hmem : {o.key} ⊆ s.builder.keys :=
      Finset.singleton_subset_iff.mpr (Builder.mem_keys_of_interned hready.sound hget)
    have hkeys : s.builder.keys ∪ {o.key} = s.builder.keys := Finset.union_eq_left.mpr hmem
    have hy : Yields (intern o) s i s := by
      refine yields_build.mpr ⟨?_, rfl⟩
      unfold Builder.intern
      rw [hget]
    refine .inl ⟨i, s, hy, ⟨trivial, ?_, hs.builder.temps, nofun⟩, hs, hkeys.symm, rfl,
      (List.append_nil _).symm⟩
    rw [hkeys, hs.builder.card_keys]
    exact hs.builder.operands
  | none =>
    have hcard : (s.builder.keys ∪ {o.key}).card = s.builder.operands.size + 1 := by
      rw [Finset.union_comm, ← Finset.insert_eq,
        Finset.card_insert_of_notMem (hs.builder.not_mem_keys hget), hs.builder.card_keys]
    by_cases hlt : s.builder.operands.size < Builder.maxOperands
    · have hy : Yields (intern o) s s.builder.operands.size ⟨s.builder.push o, s.registry⟩ := by
        refine yields_build.mpr ⟨?_, rfl⟩
        unfold Builder.intern
        rw [hget]
        rw [if_pos hlt]
        rfl
      refine .inl ⟨_, _, hy, ⟨trivial, ?_, hs.builder.temps, nofun⟩,
        ⟨hs.builder.push hget hlt, hs.registry⟩, Builder.keys_push _ _, rfl,
        (List.append_nil _).symm⟩
      rw [hcard]
      exact hlt
    · refine .inr ⟨.tooMany .operands s.builder.unit, fails_build (b := s.builder) ?_, trivial, ?_⟩
      · unfold Builder.intern
        rw [hget]
        rw [if_neg hlt]
      · rintro ⟨-, hoperands, -⟩
        rw [hcard] at hoperands
        exact hlt hoperands

theorem decided_allocate (count : Nat) (hs : s.Tidy) :
    Decided (allocate count) s { temps := count } True := by
  have hkeys : s.builder.keys ∪ ∅ = s.builder.keys := Finset.union_empty _
  by_cases hle : s.builder.tempCount + count ≤ Builder.maxTemporaries
  · have hy : Yields (allocate count) s s.temps
        ⟨{ s.builder with tempCount := s.builder.tempCount + count }, s.registry⟩ := by
      refine yields_build.mpr ⟨?_, rfl⟩
      unfold Builder.allocate
      rw [if_pos hle]
      rfl
    obtain ⟨⟨hdistinct, hinterned, hoperands, -⟩, hnumbered⟩ := id hs
    exact .inl ⟨_, _, hy, ⟨trivial, hs.fits.1, hle, nofun⟩,
      ⟨⟨hdistinct, hinterned, hoperands, hle⟩, hnumbered⟩, hkeys.symm, rfl,
      (List.append_nil _).symm⟩
  · refine .inr ⟨.tooMany .temporaries s.builder.unit, fails_build (b := s.builder) ?_, trivial, ?_⟩
    · unfold Builder.allocate
      rw [if_neg hle]
    · rintro ⟨-, -, htemps, -⟩
      exact hle htemps

/-! ## Units -/

theorem Stage.Ready.finish (h : s.Ready known [] t) (role : Role) (strict : Bool) :
    ∃ u, s.builder.finish role strict = .ok u := by
  have hdangling : s.builder.dangling? = none := by
    refine List.findSome?_eq_none_iff.mpr fun i hi => ?_
    refine Option.filter_eq_none_iff.mpr fun l hl => ?_
    have hhas := h.code i (Array.mem_toList_iff.mp hi) _ (Instruction.label_mem_references hl)
    obtain ⟨offset, hplace, -⟩ := h.placed hhas
    simp [Builder.isPlaced, hplace]
  unfold Builder.finish
  rw [hdangling]
  exact ⟨_, rfl⟩

theorem fits_fresh {n : String} {r : Registry} :
    (Stage.fresh n r).Fits d ↔ ∀ u ∈ d.nested.inner, u.Fits := by
  show (∅ ∪ d.operands).card ≤ _ ∧ 0 + d.temps ≤ _ ∧ _ ↔ ∀ u ∈ d.toUsage :: d.inner, u.Fits
  rw [Finset.empty_union, Nat.zero_add, List.forall_mem_cons, ← and_assoc]
  rfl

/-- The units inside a unit are the only reason why it might not fit where it stands. -/
theorem Stage.Tidy.fits_nested (hs : s.Tidy) {r : Registry} :
    s.Fits d.nested ↔ (Stage.fresh name r).Fits d := by
  rw [fits_fresh]
  exact ⟨fun h => h.2.2, fun h => ⟨hs.fits.1, hs.fits.2.1, h⟩⟩

section

variable {role : Role} {strict : Bool} {r : Registry} {id : UnitId} {u : CodeUnit}

theorem Yields.inUnit {body : Gen Unit} (hr : s.registry.reserve role = (.ok id, r))
    (hy : Yields body (.fresh (s.registry.nextName role) r) () s1)
    (hf : s1.builder.finish role strict = .ok u) :
    Yields (Lowering.inUnit role strict body) s id ⟨s.builder, s1.registry.fill id u⟩ := by
  have hbody : (body.run { unit := s.registry.nextName role }).run.run r =
      (.ok ((), s1.builder), s1.registry) := hy
  refine yields_lift.mpr ⟨?_, rfl⟩
  rw [compileUnit_run, hr]
  dsimp only
  rw [hbody]
  dsimp only
  rw [hf]

theorem Fails.inUnit {body : Gen Unit} (hr : s.registry.reserve role = (.ok id, r))
    (he : Fails body (.fresh (s.registry.nextName role) r) e) :
    Fails (Lowering.inUnit role strict body) s e := by
  obtain ⟨r', he⟩ := he
  have hbody : (body.run { unit := s.registry.nextName role }).run.run r = (.error e, r') := he
  refine fails_lift.mpr ⟨r', ?_⟩
  rw [compileUnit_run, hr]
  dsimp only
  rw [hbody]

theorem Takes.usage (h : Takes (.fresh name r) d s1) (hf : s1.builder.finish role strict = .ok u) :
    u.usage = d.toUsage := by
  have hkeys : s1.builder.keys = d.operands := h.keys.trans (Finset.empty_union _)
  have htemps : s1.temps = d.temps := h.temps.trans (Nat.zero_add _)
  rw [finish_eq hf]
  show (⟨s1.temps, s1.builder.keys⟩ : Usage) = d.toUsage
  rw [hkeys, htemps]

theorem Takes.inUnit (hs : s.Tidy) (hr : s.registry.reserve role = (.ok id, r))
    (h : Takes (.fresh name r) d s1) (hf : s1.builder.finish role strict = .ok u) :
    Takes s d.nested ⟨s.builder, s1.registry.fill id u⟩ where
  tidy := ⟨hs.builder, h.tidy.registry.fill _ _⟩
  keys := (Finset.union_empty _).symm
  temps := rfl
  usages := by
    obtain ⟨hid, husages⟩ := Registry.usages_reserve hr
    have hinner : s1.registry.usages = s.registry.usages ++ none :: d.inner.map some := by
      rw [h.usages]
      show r.usages ++ _ = _
      rw [husages, List.append_assoc, List.singleton_append]
    rw [Registry.usages_fill, hinner, h.usage hf, hid, List.set_append_right _ _ (Nat.le_refl _),
      Nat.sub_self]
    rfl

theorem decided_inUnit {source : Body} (hs : s.Tidy)
    (hg : Formed [] [] 0 (source.gen strict) d ok (.leaves []))
    (ih : ∀ {s : Stage}, s.Ready [] [] 0 → s.Tidy → Decided (source.gen strict) s d ok) :
    Decided (inUnit role strict (source.gen strict)) s d.nested ok := by
  obtain ⟨id, r, hr⟩ := hs.registry.reserve role
  have htidy : (Stage.fresh (s.registry.nextName role) r).Tidy :=
    ⟨Builder.tidy_fresh _, hs.registry.of_reserve hr⟩
  rcases ih (.fresh _ _) htidy with ⟨⟨⟩, s1, hy, ⟨hok, hfits⟩, htakes⟩ | ⟨e, he, hrefusal, hnot⟩
  · have hready := (ready_of_formed hg (.fresh _ _) hy).2.1
    obtain ⟨u, hu⟩ := hready.finish role strict
    exact .inl ⟨id, _, hy.inUnit hr hu, ⟨hok, hs.fits_nested.mpr hfits⟩, htakes.inUnit hs hr hu⟩
  · refine .inr ⟨e, he.inUnit hr, hrefusal, ?_⟩
    rintro ⟨hok, hfits⟩
    exact hnot ⟨hok, hs.fits_nested.mp hfits⟩

end

/-- Code that is formed either goes through or is turned down for what is in the tree. -/
theorem decided_of_formed {pending : List Label} {Q : Result α}
    (hg : Formed known pending t g d ok Q) (hs : s.Ready known pending t) (htidy : s.Tidy) :
    Decided g s d ok := by
  induction hg generalizing s with
  | pure his hknown hpending => exact decided_quiet htidy (yields_pure.mpr ⟨rfl, rfl⟩)
  | bind hg _ ihg ihf =>
    refine (ihg hs htidy).bind fun x s1 hy htakes => ?_
    obtain ⟨his, hs1, -⟩ := ready_of_formed hg hs hy
    exact ihf x his hs1 htakes.tidy
  | emit i hnests hrefs => exact decided_emit i htidy
  | newLabels count => exact decided_quiet htidy (yields_newLabels.mpr ⟨rfl, rfl⟩)
  | place l before after =>
    have hl := (hs.pending l).mpr (List.mem_append_right _ List.mem_cons_self)
    exact decided_quiet (x := ()) htidy (yields_place.mpr ⟨hl, rfl⟩)
  | intern o ho => exact decided_intern o htidy hs
  | allocate count => exact decided_allocate count htidy
  | @operate _ _ _ op supplied harity =>
    have hy : Yields (operate op supplied) s () ⟨s.builder.emit (.operate op), s.registry⟩ := by
      refine yields_build.mpr ⟨?_, rfl⟩
      unfold Builder.operate
      rw [if_pos harity]
    exact decided_quiet htidy hy
  | invoke hbody ih =>
    exact .last (decided_inUnit htidy hbody ih) fun id s1 hs1 => decided_emit _ hs1
  | closure hbody ih =>
    refine .last (decided_inUnit htidy hbody ih) fun id s1 hs1 => ?_
    exact .last (decided_addFunction _ hs1) fun f s2 hs2 => decided_emit _ hs2
  | unsupported construct | tooMany what => exact .inr ⟨_, ⟨_, rfl⟩, trivial, fun h => h.1⟩

/-! ## Programs -/

theorem mapM_usage {f : Slot → Except CompileError CodeUnit}
    (hf : ∀ {slot unit}, slot.unit? = some unit → f slot = .ok unit) {slots : List Slot}
    {usages : List Usage}
    (h : slots.map (fun slot => slot.unit?.map CodeUnit.usage) = usages.map some) :
    ∃ units, slots.mapM f = .ok units ∧ units.map CodeUnit.usage = usages := by
  induction slots generalizing usages with
  | nil =>
    cases List.map_eq_nil_iff.mp h.symm
    exact ⟨[], rfl, rfl⟩
  | cons slot slots ih =>
    obtain ⟨usage, usages, rfl, hslot, hslots⟩ := List.map_eq_cons_iff.mp h.symm
    obtain ⟨u, hu, rfl⟩ := Option.map_eq_some_iff.mp hslot.symm
    obtain ⟨units, hunits, rfl⟩ := ih hslots.symm
    refine ⟨u :: units, ?_, rfl⟩
    rw [List.mapM_cons, hf hu, hunits]
    rfl

theorem finish_of_usages {r : Registry} {usages : List Usage} (h : r.usages = usages.map some)
    (entry : UnitId) :
    ∃ a, r.finish entry = .ok a ∧ a.units.toList.map CodeUnit.usage = usages := by
  have hfinish (f : Slot → Except CompileError CodeUnit)
      (hf : ∀ {slot unit}, slot.unit? = some unit → f slot = .ok unit) :
      ∃ a, (do return ⟨entry, ← r.slots.mapM f, r.functions⟩ : Except _ Artifact) = .ok a ∧
        a.units.toList.map CodeUnit.usage = usages := by
    obtain ⟨units, hunits, husages⟩ := mapM_usage hf h
    rw [Array.mapM_eq_mapM_toList, hunits]
    exact ⟨_, rfl, husages⟩
  exact hfinish _ fun hu => by simp only [hu]

theorem compile_decided (p : Program) (strict : Bool) :
    (∃ a, compile p strict = .ok a ∧ a.units.toList.map CodeUnit.usage = programUsage p ∧
      Accepted p.nodes ∧ ∀ u ∈ programUsage p, u.Fits) ∨
    ∃ e, compile p strict = .error e ∧ e.IsRefusal ∧
      ¬ (Accepted p.nodes ∧ ∀ u ∈ programUsage p, u.Fits) := by
  have hformed := formed_declaring (strict || p.strict) p.body
  have htidy : (Stage.fresh "" {}).Tidy := ⟨Builder.tidy_fresh _, Registry.numbered_empty⟩
  have hfits : (Stage.fresh "" {}).Fits (tallyDeclaring p.body 0).nested ↔
      ∀ u ∈ programUsage p, u.Fits :=
    htidy.fits_nested.trans (fits_fresh (n := "") (r := {}))
  have hdecided : Decided (inUnit .program (strict || p.strict) _) (.fresh "" {}) _ _ :=
    decided_inUnit htidy hformed (decided_of_formed hformed)
  unfold compile compileBody
  dsimp only
  rcases hdecided with ⟨id, s', hy, ⟨hok, hroom⟩, htakes⟩ | ⟨e, he, hrefusal, hnot⟩
  · obtain ⟨a, ha, husages⟩ := finish_of_usages htakes.usages id
    have hrun := (yields_lift.mp hy).1
    simp only [Stage.fresh] at hrun
    rw [hrun]
    exact .inl ⟨a, ha, husages, hok, hfits.mp hroom⟩
  · obtain ⟨r, hrun⟩ := fails_lift.mp he
    simp only [Stage.fresh] at hrun
    rw [hrun]
    exact .inr ⟨e, rfl, hrefusal, fun h => hnot ⟨h.1, hfits.mpr h.2⟩⟩

/-- A program compiles just when it has no unsupported construct, no call with too many arguments or
array literal with too many elements, and each of its units fits.  Otherwise the compiler turns it
down with one of two errors.  The units of a compiled program take up what was counted. -/
theorem compile_ok_iff (p : Program) (strict : Bool) :
    ((∃ a, compile p strict = .ok a ∧ a.units.toList.map CodeUnit.usage = programUsage p) ∨
      (∃ construct unit, compile p strict = .error (.unsupported construct unit)) ∨
      ∃ what unit, compile p strict = .error (.tooMany what unit)) ∧
    ((∃ a, compile p strict = .ok a) ↔
      (∀ n ∈ p.nodes, n.supported = true) ∧ (∀ n ∈ p.nodes, n.sized = true) ∧
        ∀ u ∈ programUsage p, u.Fits) := by
  have haccepted : Accepted p.nodes ↔
      (∀ n ∈ p.nodes, n.supported = true) ∧ ∀ n ∈ p.nodes, n.sized = true := forall₂_and
  rw [← and_assoc, ← haccepted]
  rcases compile_decided p strict with ⟨a, ha, husages, hok⟩ | ⟨e, he, hrefusal, hnot⟩
  · exact ⟨.inl ⟨a, ha, husages⟩, iff_of_true ⟨a, ha⟩ hok⟩
  · rw [he]
    refine ⟨.inr ?_, iff_of_false nofun hnot⟩
    cases e with
    | unsupported construct unit => exact .inl ⟨construct, unit, rfl⟩
    | tooMany what unit => exact .inr ⟨what, unit, rfl⟩
    | _ => cases hrefusal

/-! ## Long parts -/

def alone (e : Expr) : Program := { body := [.expression e] }

theorem Tally.constant_append_self (c : Constant) :
    Tally.constant c ++ Tally.constant c = .constant c := by
  funext t
  exact Demand.ext rfl (Finset.union_self _) rfl

theorem tallyExprs_nulls (n : Nat) :
    tallyExprs (List.replicate (n + 1) .null) = .constant .null := by
  induction n with
  | zero =>
    funext t
    exact Demand.append_empty _
  | succ n ih =>
    show Tally.constant .null ++ tallyExprs (List.replicate (n + 1) .null) = _
    rw [ih, Tally.constant_append_self]

theorem tallyElements_holes (n : Nat) :
    tallyElements (List.replicate (n + 1) none) = .constant .undefined := by
  induction n with
  | zero =>
    funext t
    exact Demand.append_empty _
  | succ n ih =>
    show Tally.constant .undefined ++ tallyElements (List.replicate (n + 1) none) = _
    rw [ih, Tally.constant_append_self]

theorem exprsNodes_nulls (n : Nat) :
    exprsNodes (List.replicate n .null) = List.replicate n (.expr .null) := by
  induction n with
  | zero => rfl
  | succ n ih => exact congrArg (Node.expr .null :: ·) ih

theorem elementsNodes_holes (n : Nat) : elementsNodes (List.replicate n none) = [] := by
  induction n with
  | zero => rfl
  | succ n ih => exact ih

/-- An expression that has no code although it is made of supported parts, with no call among them,
and would fit into its unit. -/
def TooLong (e : Expr) : Prop :=
  (∀ n ∈ (alone e).nodes, n.supported = true) ∧
    (∀ callee arguments, .expr (.call callee arguments) ∉ (alone e).nodes) ∧
    (∀ u ∈ programUsage (alone e), u.Fits) ∧ ∀ strict a, compile (alone e) strict ≠ .ok a

theorem nodes_alone (e : Expr) : (alone e).nodes = .stmt (.expression e) :: e.nodes :=
  List.append_nil _

theorem fits_alone {e : Expr} {x y : OperandKey}
    (h : tallyExpr e 0 = { operands := {x} ∪ {y} }) : ∀ u ∈ programUsage (alone e), u.Fits := by
  intro u hu
  have hdemand : tallyDeclaring [.expression e] 0 = tallyExpr e 0 := by
    show {} ++ ({} ++ (tallyExpr e 0 ++ {})) = _
    simp
  have hu : u ∈ (tallyDeclaring [.expression e] 0).nested.inner := hu
  rw [hdemand, h] at hu
  cases List.mem_singleton.mp hu
  refine ⟨Nat.le_trans (Finset.card_union_le _ _) ?_, Nat.zero_le _⟩
  show ({x} : Finset OperandKey).card + ({y} : Finset OperandKey).card ≤ _
  rw [Finset.card_singleton, Finset.card_singleton]
  decide

theorem ne_ok_of_not_sized {e : Expr} (he : .expr e ∈ e.nodes) (h : (Node.expr e).sized = false)
    (strict : Bool) (a : Artifact) : compile (alone e) strict ≠ .ok a := by
  intro ha
  rcases compile_decided (alone e) strict with ⟨_, _, _, haccepted, _⟩ | ⟨_, herror, _⟩
  · rw [nodes_alone] at haccepted
    exact Bool.false_ne_true (h.symm.trans (haccepted _ (.tail _ he)).2)
  · cases ha.symm.trans herror

theorem tooLong_arguments {n : Nat} (hn : maxArguments ≤ n) :
    TooLong (.construct (.identifier "f") (List.replicate (n + 1) .null)) := by
  have hfits := congrArg (fun x : Tally => (Tally.binding "f" ++ x) 0) (tallyExprs_nulls n)
  refine ⟨?_, ?_, fits_alone hfits, ne_ok_of_not_sized ?_ ?_⟩
  · simp [nodes_alone, Expr.nodes, exprsNodes_nulls, Node.supported]
  · simp [nodes_alone, Expr.nodes, exprsNodes_nulls]
  · simp [Expr.nodes]
  · simpa [Node.sized] using Nat.lt_succ_of_le hn

theorem tooLong_elements {n : Nat} (hn : 0xffffffff ≤ n) :
    TooLong (.array (List.replicate (n + 1) none)) := by
  have hfits := congrFun ((tallyElements_holes n).trans (Tally.constant_append_self _).symm) 0
  refine ⟨?_, ?_, fits_alone hfits, ne_ok_of_not_sized ?_ ?_⟩
  · simp [nodes_alone, Expr.nodes, elementsNodes_holes, Node.supported]
  · simp [nodes_alone, Expr.nodes, elementsNodes_holes]
  · simp [Expr.nodes]
  · simpa [Node.sized] using hn

/-- Calls are not all that can be too long: a `new` can have too many arguments, and an array
literal too many elements. -/
theorem compile_refuses_long :
    TooLong (.construct (.identifier "f") (List.replicate 65536 .null)) ∧
      TooLong (.array (List.replicate 0x100000000 none)) :=
  ⟨tooLong_arguments (n := 65535) (Nat.le_refl _),
    tooLong_elements (n := 0xffffffff) (Nat.le_refl _)⟩

end Lowering

end TreeScript
