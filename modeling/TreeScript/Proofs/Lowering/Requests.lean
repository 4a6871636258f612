import TreeScript.Proofs.Lowering.Acceptance

/-!
# The registry through successes and failures

A registry is asked, over and over, to compile a body or to list a function.  A body that cannot be
compiled leaves its number without a unit, and with it the numbers of the units that were being
built inside it, next to others that were finished before.  Numbers and names stay in order all the
same, and whether the artifact can be finished depends on nothing but whether a request failed.

The argument follows the steps that code generation is made of.  Each step leaves the slots that
were there as they were, whether it goes through or not; if it goes through, all that it added is
finished.
-/

namespace TreeScript

namespace Code.Registry

variable {r r' r1 : Registry} {role : Role} {id : UnitId} {slot : Slot}

/-! ## Names by role and number -/

/-- Numbers, names and counters agree, and a finished unit carries the name of its slot. -/
structure Consistent (r : Registry) : Prop extends r.Numbered where
  finished : ∀ {id : UnitId} {slot : Slot} {unit : CodeUnit}, r.slots[id]? = some slot →
    slot.unit? = some unit → unit.name = slot.name ∧ unit.role = slot.role

theorem consistent_empty : Consistent {} := ⟨numbered_empty, fun h => nomatch h⟩

theorem head_of_slot (h : r.slots[id]? = some slot) :
    r.heads[id]? = some (slot.name, slot.role) := by
  rw [heads, List.getElem?_map, Array.getElem?_toList, h]
  rfl

theorem Consistent.lookup_iff (h : r.Consistent) {name : String} :
    r.lookup name = some id ↔ ∃ slot, r.slots[id]? = some slot ∧ slot.name = name := by
  refine h.names.trans ⟨?_, ?_⟩
  · rintro ⟨role, hhead⟩
    rw [heads, List.getElem?_map, Array.getElem?_toList] at hhead
    obtain ⟨slot, hs, heq⟩ := Option.map_eq_some_iff.mp hhead
    exact ⟨slot, hs, congrArg Prod.fst heq⟩
  · rintro ⟨slot, hs, rfl⟩
    exact ⟨slot.role, head_of_slot hs⟩

theorem Consistent.eq_of_name (h : r.Consistent) {id' : UnitId} {slot' : Slot}
    (hs : r.slots[id]? = some slot) (hs' : r.slots[id']? = some slot')
    (hname : slot.name = slot'.name) : id = id' := by
  have hfound := h.lookup_iff.mpr ⟨slot, hs, hname⟩
  rw [h.lookup_iff.mpr ⟨slot', hs', rfl⟩] at hfound
  exact (Option.some.inj hfound).symm

theorem Consistent.nodup_names (h : r.Consistent) : (r.slots.toList.map Slot.name).Nodup := by
  refine List.pairwise_iff_getElem.mpr fun id id' hid hid' hlt hname => ?_
  rw [List.length_map, Array.length_toList] at hid hid'
  rw [List.getElem_map, List.getElem_map, Array.getElem_toList, Array.getElem_toList] at hname
  exact Nat.ne_of_lt hlt
    (h.eq_of_name (Array.getElem?_eq_getElem hid) (Array.getElem?_eq_getElem hid') hname)

theorem Consistent.nextName_ne (h : r.Consistent) (hs : r.slots[id]? = some slot) (role : Role) :
    slot.name ≠ r.nextName role := by
  intro hname
  have hfound : r.names.find? (r.nextName role) = some id := h.lookup_iff.mpr ⟨slot, hs, hname⟩
  rw [h.fresh role] at hfound
  cases hfound

/-! ## What a step may do -/

def FinishedFrom (r : Registry) (n : Nat) : Prop :=
  ∀ (id : UnitId) (slot : Slot), n ≤ id → r.slots[id]? = some slot → slot.unit?.isSome = true

theorem finishedFrom_size (r : Registry) : r.FinishedFrom r.slots.size :=
  fun _ _ hle hs => absurd (Array.getElem?_eq_some_iff.mp hs).1 (Nat.not_lt.mpr hle)

theorem FinishedFrom.trans {n : Nat} (h : r.FinishedFrom n) (hle : r.Le r')
    (h' : r'.FinishedFrom r.slots.size) : r'.FinishedFrom n := by
  intro id slot hn hs
  rcases Nat.lt_or_ge id r.slots.size with hlt | hge
  · have hold := Array.getElem?_eq_getElem hlt
    have hsame := hle.slots hold
    rw [hs] at hsame
    cases hsame
    exact h id _ hn hold
  · exact h' id slot hge hs

theorem Consistent.reserve (h : r.Consistent) (hr : r.reserve role = (.ok id, r')) :
    r'.Consistent := by
  refine ⟨h.of_reserve hr, fun {id' slot unit} hs hu => ?_⟩
  obtain ⟨-, rfl⟩ := reserve_eq hr
  rw [Array.getElem?_push] at hs
  split at hs
  · cases hs
    cases hu
  · exact h.finished hs hu

theorem Consistent.fill (h : r.Consistent) {unit : CodeUnit} (hs : r.slots[id]? = some slot)
    (hname : unit.name = slot.name) (hrole : unit.role = slot.role) :
    (r.fill id unit).Consistent := by
  have hself : (r.fill id unit).slots[id]? = some { slot with unit? := some unit } := by
    show (r.slots.modify id _)[id]? = _
    rw [Array.getElem?_modify, if_pos rfl, hs]
    rfl
  refine ⟨h.toNumbered.fill id unit, fun {id' slot' unit'} hs' hu' => ?_⟩
  by_cases heq : id = id'
  · cases heq
    rw [hself] at hs'
    cases hs'
    cases hu'
    exact ⟨hname, hrole⟩
  · rw [slots_fill_ne unit r heq] at hs'
    exact h.finished hs' hu'

theorem le_addFunction (r : Registry) (info : FunctionInfo) : r.Le (r.addFunction info).2 :=
  ⟨extends_refl _, extends_push _ _⟩

theorem Consistent.addFunction (h : r.Consistent) (info : FunctionInfo) :
    (r.addFunction info).2.Consistent :=
  ⟨h.toNumbered.addFunction info, h.finished⟩

/-- What becomes of a registry that is asked for one more unit, by how that ends. -/
structure Enters (r : Registry) (role : Role) (result : Except CompileError UnitId)
    (r' : Registry) : Prop where
  le : r.Le r'
  consistent : r'.Consistent
  /-- The unit has the next number and the next name, also if it cannot be compiled. -/
  slot : ∃ unit?, r'.slots[r.slots.size]? = some ⟨r.nextName role, role, unit?⟩
  finished : ∀ {id : UnitId}, result = .ok id → id = r.slots.size ∧ r'.FinishedFrom r.slots.size
  unfinished : ∀ {e : CompileError}, result = .error e →
    r'.slots[r.slots.size]? = some ⟨r.nextName role, role, none⟩

theorem Enters.of_error {e : CompileError} (hle : r.Le r') (hcons : r'.Consistent)
    (hs : r'.slots[r.slots.size]? = some ⟨r.nextName role, role, none⟩) :
    r.Enters role (.error e) r' :=
  ⟨hle, hcons, ⟨none, hs⟩, nofun, fun _ => hs⟩

end Code.Registry

namespace Lowering

open Code Syntax

variable {α β : Type} {g : Gen α} {r r' : Registry}

/-! ## Code generation and the registry -/

/-- Generation leaves a consistent registry consistent and keeps what is in it, whether it goes
through or not; if it does, all new units are finished. -/
def Orderly (g : Gen α) : Prop :=
  ∀ {b : Builder} {r r' : Registry} {result : Except CompileError (α × Builder)},
    (g.run b).run.run r = (result, r') → r.Consistent →
    r.Le r' ∧ r'.Consistent ∧ ∀ {x : α} {b' : Builder}, result = .ok (x, b') →
      b'.unit = b.unit ∧ r'.FinishedFrom r.slots.size

theorem orderly_of_unchanged
    (hr : ∀ {b r r' result}, (g.run b).run.run r = (result, r') → r' = r)
    (hb : ∀ {s s' : Stage} {x : α}, Yields g s x s' → s'.builder.unit = s.builder.unit) :
    Orderly g := by
  intro b r r' result hrun hcons
  cases hr hrun
  refine ⟨.refl _, hcons, ?_⟩
  rintro x b' rfl
  have hy : Yields g ⟨b, r⟩ x ⟨b', r⟩ := hrun
  exact ⟨hb hy, Registry.finishedFrom_size r⟩

theorem orderly_build {x : Building α}
    (hb : ∀ {s s' : Stage} {y : α}, Yields (build x) s y s' → s'.builder.unit = s.builder.unit) :
    Orderly (build x) := by
  refine orderly_of_unchanged (fun {b r r' result} hrun => ?_) hb
  unfold build StateT.run at hrun
  dsimp only at hrun
  cases hx : x b <;> rw [hx] at hrun <;> cases hrun <;> rfl

theorem orderly_bind {f : α → Gen β} (hg : Orderly g) (hf : ∀ x, Orderly (f x)) :
    Orderly (g >>= f) := by
  intro b r r' result hrun hcons
  rw [StateT.run_bind, ExceptT.run_bind, StateT.run_bind] at hrun
  rcases hfirst : (g.run b).run.run r with ⟨e | ⟨x, b1⟩, r1⟩
  · obtain ⟨hle, hcons1, -⟩ := hg hfirst hcons
    rw [hfirst] at hrun
    cases hrun
    exact ⟨hle, hcons1, nofun⟩
  · obtain ⟨hle, hcons1, hok⟩ := hg hfirst hcons
    obtain ⟨hunit, hfinished⟩ := hok rfl
    rw [hfirst] at hrun
    obtain ⟨hle', hcons', hok'⟩ := hf x hrun hcons1
    refine ⟨hle.trans hle', hcons', fun hres => ?_⟩
    obtain ⟨hunit', hfinished'⟩ := hok' hres
    exact ⟨hunit'.trans hunit, hfinished.trans hle' hfinished'⟩

theorem compileUnit_enters {body : Gen Unit} (hbody : Orderly body) {role : Role} {strict : Bool}
    {result : Except CompileError UnitId}
    (hrun : (compileUnit role strict body).run.run r = (result, r')) (hcons : r.Consistent) :
    r.Enters role result r' := by
  obtain ⟨id, r1, hr⟩ := hcons.toNumbered.reserve role
  have hcons1 := hcons.reserve hr
  have hle1 := Registry.le_reserve hr
  have hid := (Registry.reserve_eq hr).1
  rw [compileUnit_run, hr] at hrun
  dsimp only at hrun
  rcases hb : (body.run { unit := r.nextName role }).run.run r1 with ⟨e | ⟨x, b⟩, r2⟩
  · -- the body failed, and the slot stays as it was taken
    obtain ⟨hle2, hcons2, -⟩ := hbody hb hcons1
    rw [hb] at hrun
    cases hrun
    exact .of_error (hle1.trans hle2) hcons2 (hid ▸ Registry.slot_reserved hr hle2)
  · obtain ⟨hle2, hcons2, hok⟩ := hbody hb hcons1
    obtain ⟨hunit, hfinished⟩ := hok rfl
    rw [hb] at hrun
    dsimp only at hrun
    have hslot := Registry.slot_reserved hr hle2
    cases hfinish : b.finish role strict with
    | error e =>
      rw [hfinish] at hrun
      cases hrun
      exact .of_error (hle1.trans hle2) hcons2 (hid ▸ hslot)
    | ok unit =>
      rw [hfinish] at hrun
      cases hrun
      have hname : unit.name = r.nextName role := by
        cases finish_eq hfinish
        exact hunit
      have hrole : unit.role = role := by
        cases finish_eq hfinish
        rfl
      have hle := Registry.le_fill unit hr hle2
      have hfilled : (r2.fill id unit).slots[id]? = some ⟨r.nextName role, role, some unit⟩ := by
        show (r2.slots.modify id _)[id]? = _
        rw [Array.getElem?_modify, if_pos rfl, hslot]
        rfl
      have hsize : r1.slots.size = id + 1 := by
        rw [(Registry.reserve_eq hr).2, Array.size_push, hid]
      refine ⟨hle, hcons2.fill hslot hname hrole, ⟨some unit, hid ▸ hfilled⟩, ?_, nofun⟩
      rintro id' hres
      cases hres
      refine ⟨hid, fun id' slot hge hs => ?_⟩
      -- the unit itself, or one that was finished while its body was compiled
      by_cases heq : id = id'
      · cases heq
        rw [hfilled] at hs
        cases hs
        rfl
      · rw [Registry.slots_fill_ne unit r2 heq] at hs
        refine hfinished id' slot ?_ hs
        rw [hsize, hid]
        exact Nat.lt_of_le_of_ne hge (hid ▸ heq)

theorem orderly_inUnit {role : Role} {strict : Bool} {body : Gen Unit} (hbody : Orderly body) :
    Orderly (inUnit role strict body) := by
  intro b r r' result hrun hcons
  unfold inUnit at hrun
  rw [lift_run] at hrun
  rcases hunit : (compileUnit role strict body).run.run r with ⟨e | id, r1⟩
  · have henters := compileUnit_enters hbody hunit hcons
    rw [hunit] at hrun
    cases hrun
    exact ⟨henters.le, henters.consistent, nofun⟩
  · have henters := compileUnit_enters hbody hunit hcons
    rw [hunit] at hrun
    cases hrun
    refine ⟨henters.le, henters.consistent, fun hres => ?_⟩
    cases hres
    exact ⟨rfl, (henters.finished rfl).2⟩

theorem orderly_of_built {B : Role → Bool → Gen Unit → Prop} (hg : Built B g) : Orderly g := by
  induction hg with
  | pure x =>
    refine orderly_of_unchanged (fun hrun => ?_) fun hy => ?_
    · cases hrun
      rfl
    · cases (yields_pure.mp hy).2
      rfl
  | bind _ _ ihg ihf => exact orderly_bind ihg ihf
  | emit i =>
    refine orderly_of_unchanged (fun hrun => ?_) fun hy => ?_
    · cases hrun
      rfl
    · cases yields_emit.mp hy
      rfl
  | newLabels count =>
    refine orderly_of_unchanged (fun hrun => ?_) fun hy => ?_
    · cases hrun
      rfl
    · cases (yields_newLabels.mp hy).2
      rfl
  | place l =>
    refine orderly_build fun hy => ?_
    cases (yields_place.mp hy).2
    rfl
  | intern o =>
    refine orderly_build fun hy => ?_
    rcases yields_intern hy with ⟨-, rfl⟩ | ⟨-, -, -, rfl⟩ <;> rfl
  | allocate count =>
    refine orderly_build fun hy => ?_
    cases (yields_allocate hy).2.1
    rfl
  | operate op supplied =>
    refine orderly_build fun hy => ?_
    cases (yields_operate hy).2
    rfl
  | inUnit _ _ ih => exact orderly_inUnit ih
  | addFunction info =>
    intro b r r' result hrun hcons
    cases hrun
    refine ⟨r.le_addFunction info, hcons.addFunction info, fun hres => ?_⟩
    cases hres
    exact ⟨rfl, Registry.finishedFrom_size r⟩
  | unsupported construct =>
    exact orderly_of_unchanged (fun hrun => by cases hrun; rfl) fun hy =>
      absurd hy not_yields_unsupported
  | tooMany what =>
    exact orderly_of_unchanged (fun hrun => by cases hrun; rfl) fun hy =>
      absurd hy not_yields_tooMany

/-! ## Requests -/

/-- What a registry can be asked for. -/
inductive Request where
  | compile (role : Role) (body : Body) (strict : Bool)
  | register (info : FunctionInfo)

/-- Serves a request: the number of the unit or function, if there is one, and the registry after
it. -/
def Request.serve (r : Registry) : Request → Except CompileError Nat × Registry
  | compile role body strict => compileBody r role body strict
  | register info => (.ok (r.addFunction info).1, (r.addFunction info).2)

/-- The registry after some requests, from the empty one. -/
def registryAfter (requests : List Request) : Registry :=
  requests.foldl (fun r q => (q.serve r).2) {}

/-- The answer to a request that comes after others. -/
def answer (before : List Request) (q : Request) : Except CompileError Nat :=
  (q.serve (registryAfter before)).1

/-- Every one of the requests is answered with a number. -/
def AllServed (requests : List Request) : Prop :=
  ∀ before q rest, requests = before ++ q :: rest → ∃ id, answer before q = .ok id

section

variable {before rest requests : List Request} {q : Request}

theorem registryAfter_concat (before : List Request) (q : Request) :
    registryAfter (before ++ [q]) = (q.serve (registryAfter before)).2 := by
  unfold registryAfter
  rw [List.foldl_append]
  rfl

theorem serve_enters (hcons : r.Consistent) (role : Role) (body : Body) (strict : Bool) :
    r.Enters role ((Request.compile role body strict).serve r).1
      ((Request.compile role body strict).serve r).2 :=
  have hbody : Composed (body.gen strict) := inferInstance
  compileUnit_enters (orderly_of_built hbody) rfl hcons

theorem serve_consistent (hcons : r.Consistent) (q : Request) :
    r.Le (q.serve r).2 ∧ (q.serve r).2.Consistent := by
  cases q with
  | compile role body strict =>
    have henters := serve_enters hcons role body strict
    exact ⟨henters.le, henters.consistent⟩
  | register info => exact ⟨r.le_addFunction info, hcons.addFunction info⟩

theorem registryAfter_consistent (requests : List Request) :
    (registryAfter requests).Consistent := by
  induction requests using List.reverseRecOn with
  | nil => exact Registry.consistent_empty
  | append_singleton before q ih =>
    rw [registryAfter_concat]
    exact (serve_consistent ih q).2

theorem registryAfter_le (before rest : List Request) :
    (registryAfter before).Le (registryAfter (before ++ rest)) := by
  induction rest using List.reverseRecOn with
  | nil =>
    rw [List.append_nil]
    exact .refl _
  | append_singleton rest q ih =>
    rw [← List.append_assoc, registryAfter_concat]
    exact ih.trans (serve_consistent (registryAfter_consistent _) q).1

theorem AllServed.left (h : AllServed (before ++ rest)) : AllServed before := by
  rintro before' q rest' rfl
  exact h before' q (rest' ++ rest) (by rw [List.append_assoc, List.cons_append])

theorem serve_finished (hcons : r.Consistent) (hfinished : r.FinishedFrom 0) {id : Nat}
    (h : (q.serve r).1 = .ok id) : (q.serve r).2.FinishedFrom 0 := by
  cases q with
  | compile role body strict =>
    have henters := serve_enters hcons role body strict
    exact hfinished.trans henters.le (henters.finished h).2
  | register info => exact hfinished

theorem AllServed.finished (h : AllServed requests) :
    (registryAfter requests).FinishedFrom 0 := by
  induction requests using List.reverseRecOn with
  | nil => exact Registry.finishedFrom_size {}
  | append_singleton before q ih =>
    obtain ⟨id, hid⟩ := h before q [] rfl
    rw [registryAfter_concat]
    exact serve_finished (registryAfter_consistent before) (ih h.left) hid

theorem exists_first_failure (h : ¬ AllServed requests) :
    ∃ before q rest e, requests = before ++ q :: rest ∧ AllServed before ∧
      answer before q = .error e := by
  induction requests using List.reverseRecOn with
  | nil =>
    refine absurd ?_ h
    intro before q rest hnil
    cases before <;> cases hnil
  | append_singleton init q ih =>
    by_cases hinit : AllServed init
    · refine ⟨init, q, [], ?_⟩
      cases hq : answer init q with
      | error e => exact ⟨e, rfl, hinit, rfl⟩
      | ok id =>
        refine absurd ?_ h
        intro before q' rest hsplit
        rcases List.eq_nil_or_concat rest with rfl | ⟨rest', last, rfl⟩
        · obtain ⟨rfl, hlast⟩ := List.append_inj' hsplit rfl
          cases hlast
          exact ⟨id, hq⟩
        · rw [List.concat_eq_append, ← List.cons_append, ← List.append_assoc] at hsplit
          exact hinit before q' rest' (List.append_inj' hsplit rfl).1
    · obtain ⟨before, q', rest, e, rfl, hbefore, he⟩ := ih hinit
      exact ⟨before, q', rest ++ [q], e, by rw [List.append_assoc, List.cons_append], hbefore, he⟩

/-! ## Finishing -/

theorem mapM_eq_ok {ε γ : Type} {f : α → Except ε γ} {xs : List α}
    (h : ∀ x ∈ xs, ∃ y, f x = .ok y) : ∃ ys, xs.mapM f = .ok ys := by
  induction xs with
  | nil => exact ⟨[], rfl⟩
  | cons x xs ih =>
    obtain ⟨y, hy⟩ := h x List.mem_cons_self
    obtain ⟨ys, hys⟩ := ih fun x hx => h x (List.mem_cons_of_mem _ hx)
    refine ⟨y :: ys, ?_⟩
    rw [List.mapM_cons, hy, hys]
    rfl

theorem mapM_eq_error {ε γ : Type} {f : α → Except ε γ} {xs : List α} {i : Nat} {x : α} {e : ε}
    (hx : xs[i]? = some x) (he : f x = .error e)
    (hbefore : ∀ j < i, ∀ y, xs[j]? = some y → ∃ z, f y = .ok z) : xs.mapM f = .error e := by
  induction xs generalizing i with
  | nil => cases hx
  | cons y xs ih =>
    rw [List.mapM_cons]
    cases i with
    | zero =>
      cases hx
      rw [he]
      rfl
    | succ i =>
      obtain ⟨z, hz⟩ := hbefore 0 (Nat.succ_pos i) y rfl
      have htail : xs.mapM f = .error e := by
        refine ih hx fun j hj y' hy' => ?_
        exact hbefore (j + 1) (Nat.succ_lt_succ hj) y' hy'
      rw [hz, htail]
      rfl

theorem finish_eq_mapM (r : Registry) (entry : UnitId) :
    ∃ f : Slot → Except CompileError CodeUnit,
      (∀ {slot unit}, slot.unit? = some unit → f slot = .ok unit) ∧
      (∀ {slot}, slot.unit? = none → f slot = .error (.unfinishedUnit slot.name)) ∧
      r.finish entry = (do
        let units ← List.toArray <$> r.slots.toList.mapM f
        return { entry, units, functions := r.functions }) := by
  unfold Registry.finish
  rw [Array.mapM_eq_mapM_toList]
  refine ⟨_, ?_, ?_, rfl⟩
  · intro slot unit hu
    simp only [hu]
  · intro slot hu
    simp only [hu]

theorem finish_of_finished (h : r.FinishedFrom 0) (entry : UnitId) :
    ∃ a, r.finish entry = .ok a := by
  obtain ⟨f, hok, -, hfinish⟩ := finish_eq_mapM r entry
  have hunits : ∃ units, r.slots.toList.mapM f = .ok units := by
    refine mapM_eq_ok fun slot hslot => ?_
    obtain ⟨id, hid⟩ := List.mem_iff_getElem?.mp hslot
    rw [Array.getElem?_toList] at hid
    obtain ⟨unit, hunit⟩ := Option.isSome_iff_exists.mp (h id slot (Nat.zero_le id) hid)
    exact ⟨unit, hok hunit⟩
  obtain ⟨units, hunits⟩ := hunits
  rw [hfinish, hunits]
  exact ⟨_, rfl⟩

/-- The lowest number without a unit is the one that is reported. -/
theorem finish_of_unfinished {id : UnitId} {slot : Slot} (hs : r.slots[id]? = some slot)
    (hu : slot.unit? = none)
    (hbefore : ∀ id' < id, ∀ slot', r.slots[id']? = some slot' → slot'.unit?.isSome = true)
    (entry : UnitId) : r.finish entry = .error (.unfinishedUnit slot.name) := by
  obtain ⟨f, hok, herror, hfinish⟩ := finish_eq_mapM r entry
  have hunits : r.slots.toList.mapM f = .error (.unfinishedUnit slot.name) := by
    refine mapM_eq_error (i := id) (by rw [Array.getElem?_toList, hs]) (herror hu) ?_
    intro id' hlt slot' hs'
    rw [Array.getElem?_toList] at hs'
    obtain ⟨unit, hunit⟩ := Option.isSome_iff_exists.mp (hbefore id' hlt slot' hs')
    exact ⟨unit, hok hunit⟩
  rw [hfinish, hunits]
  rfl

end

/-! ## Any sequence of requests -/

/-- How a registry stands to the requests that it served. -/
structure InOrder (requests : List Request) (r : Registry) : Prop where
  /-- No two units have one name. -/
  distinct : (r.slots.toList.map Slot.name).Nodup
  /-- The table of names leads from a name to the unit that carries it. -/
  lookup : ∀ name id,
    r.lookup name = some id ↔ ∃ slot, r.slots[id]? = some slot ∧ slot.name = name
  /-- A name is the tag of a role and the number of units of that role before; a finished unit has
  the name and the role of its place. -/
  named : ∀ id slot, r.slots[id]? = some slot →
    slot.name = slot.role.tag ++ "_" ++ toString (r.earlier id slot.role) ∧
      ∀ unit, slot.unit? = some unit → unit.name = slot.name ∧ unit.role = slot.role
  /-- The units of each role have been counted. -/
  counters : ∀ role, r.counters role = r.earlier r.slots.size role
  /-- What a number stood for once, it stands for ever after. -/
  kept : ∀ before rest, requests = before ++ rest → (registryAfter before).Le r
  /-- A body takes the next number and a name that was never in use, and is finished under them just
  when the request is answered with that number. -/
  compiled : ∀ before role body strict rest,
    requests = before ++ .compile role body strict :: rest →
    ∃ slot, r.slots[(registryAfter before).slots.size]? = some slot ∧ slot.role = role ∧
      (∀ old ∈ (registryAfter before).slots, old.name ≠ slot.name) ∧
      (∀ id, answer before (.compile role body strict) = .ok id →
        id = (registryAfter before).slots.size ∧ slot.unit?.isSome = true) ∧
      ∀ e, answer before (.compile role body strict) = .error e → slot.unit? = none
  /-- A function is listed under the number in the answer. -/
  registered : ∀ before info rest, requests = before ++ .register info :: rest →
    ∃ id, answer before (.register info) = .ok id ∧ r.functions[id]? = some info
  /-- The artifact can be finished just when no request failed. -/
  finishes : ∀ entry, (∃ a, r.finish entry = .ok a) ↔ AllServed requests
  /-- It has all units, in the order of their numbers, and all functions. -/
  artifact : ∀ entry a, r.finish entry = .ok a →
    a.entry = entry ∧ a.functions = r.functions ∧ a.units.size = r.slots.size ∧
      ∀ id, a.unit? id = r.unit? id
  /-- Otherwise the unit of the first request that failed is named, and no unit before it is
  without code. -/
  fails : ¬ AllServed requests → ∃ before role body strict rest e slot,
    requests = before ++ .compile role body strict :: rest ∧ AllServed before ∧
      answer before (.compile role body strict) = .error e ∧
      r.slots[(registryAfter before).slots.size]? = some slot ∧ slot.unit? = none ∧
      (∀ id < (registryAfter before).slots.size, (r.unit? id).isSome = true) ∧
      ∀ entry, r.finish entry = .error (.unfinishedUnit slot.name)

theorem unitName_eq (role : Role) (number : Nat) :
    unitName role number = role.tag ++ "_" ++ toString number := rfl

theorem registryAfter_cons_le (before : List Request) (q : Request) (rest : List Request) :
    (q.serve (registryAfter before)).2.Le (registryAfter (before ++ q :: rest)) := by
  have hsplit : before ++ q :: rest = (before ++ [q]) ++ rest := by
    rw [List.append_assoc, List.singleton_append]
  rw [hsplit, ← registryAfter_concat]
  exact registryAfter_le _ _

theorem compiled_slot (before : List Request) (role : Role) (body : Body) (strict : Bool)
    (rest : List Request) :
    ∃ slot, (registryAfter (before ++ .compile role body strict :: rest)).slots[
        (registryAfter before).slots.size]? = some slot ∧ slot.role = role ∧
      slot.name = (registryAfter before).nextName role ∧
      (∀ id, answer before (.compile role body strict) = .ok id →
        id = (registryAfter before).slots.size ∧ slot.unit?.isSome = true) ∧
      ∀ e, answer before (.compile role body strict) = .error e → slot.unit? = none := by
  have henters := serve_enters (registryAfter_consistent before) role body strict
  have hle := registryAfter_cons_le before (.compile role body strict) rest
  obtain ⟨unit?, hslot⟩ := henters.slot
  refine ⟨_, hle.slots hslot, rfl, rfl, fun id hid => ?_, fun e he => ?_⟩
  · obtain ⟨rfl, hfinished⟩ := henters.finished hid
    exact ⟨rfl, hfinished _ _ (Nat.le_refl _) hslot⟩
  · have hnone := henters.unfinished he
    rw [hslot] at hnone
    cases hnone
    rfl

/-- The first request that fails leaves the lowest number without a unit. -/
theorem fails_of_not_allServed {requests : List Request} (h : ¬ AllServed requests) :
    ∃ before role body strict rest e slot,
      requests = before ++ .compile role body strict :: rest ∧ AllServed before ∧
        answer before (.compile role body strict) = .error e ∧
        (registryAfter requests).slots[(registryAfter before).slots.size]? = some slot ∧
        slot.unit? = none ∧
        (∀ id < (registryAfter before).slots.size,
          ((registryAfter requests).unit? id).isSome = true) ∧
        ∀ entry, (registryAfter requests).finish entry = .error (.unfinishedUnit slot.name) := by
  obtain ⟨before, q, rest, e, rfl, hbefore, he⟩ := exists_first_failure h
  cases q with
  | register info => cases he
  | compile role body strict =>
    obtain ⟨slot, hslot, -, -, -, hnone⟩ := compiled_slot before role body strict rest
    have hle := registryAfter_le before (.compile role body strict :: rest)
    -- what was there before the request is finished, and stays so
    have hearlier : ∀ id < (registryAfter before).slots.size, ∃ old,
        (registryAfter (before ++ .compile role body strict :: rest)).slots[id]? = some old ∧
          old.unit?.isSome = true := fun id hlt =>
      have hold := Array.getElem?_eq_getElem hlt
      ⟨_, hle.slots hold, hbefore.finished id _ (Nat.zero_le id) hold⟩
    refine ⟨before, role, body, strict, rest, e, slot, rfl, hbefore, he, hslot, hnone e he, ?_, ?_⟩
    · intro id hlt
      obtain ⟨old, hold, hsome⟩ := hearlier id hlt
      unfold Registry.unit?
      rw [hold]
      exact hsome
    · intro entry
      refine finish_of_unfinished hslot (hnone e he) (fun id hlt slot' hs' => ?_) entry
      obtain ⟨old, hold, hsome⟩ := hearlier id hlt
      rw [hold] at hs'
      cases hs'
      exact hsome

/-- A registry stays in order whatever it is asked to compile and to list, and however often that
fails. -/
theorem registryAfter_inOrder (requests : List Request) :
    InOrder requests (registryAfter requests) := by
  have hcons := registryAfter_consistent requests
  refine ⟨hcons.nodup_names, fun _ _ => hcons.lookup_iff, ?_, hcons.counters, ?_, ?_, ?_, ?_, ?_,
    fails_of_not_allServed⟩
  · intro id slot hs
    exact ⟨(hcons.named (Registry.head_of_slot hs)).trans (unitName_eq _ _),
      fun unit => hcons.finished hs⟩
  · rintro before rest rfl
    exact registryAfter_le before rest
  · rintro before role body strict rest rfl
    obtain ⟨slot, hslot, hrole, hname, hok, herror⟩ := compiled_slot before role body strict rest
    refine ⟨slot, hslot, hrole, fun old hold => ?_, hok, herror⟩
    obtain ⟨id, hid⟩ := Array.mem_iff_getElem?.mp hold
    rw [hname]
    exact (registryAfter_consistent before).nextName_ne hid role
  · rintro before info rest rfl
    refine ⟨_, rfl, (registryAfter_cons_le before (.register info) rest).functions ?_⟩
    exact Array.getElem?_push_size
  · intro entry
    constructor
    · rintro ⟨a, ha⟩
      by_contra hnot
      obtain ⟨_, _, _, _, _, _, slot, -, -, -, -, -, -, hfinish⟩ := fails_of_not_allServed hnot
      rw [hfinish entry] at ha
      cases ha
    · intro h
      exact finish_of_finished h.finished entry
  · intro entry a ha
    exact finish_registry ha

end Lowering

end TreeScript
