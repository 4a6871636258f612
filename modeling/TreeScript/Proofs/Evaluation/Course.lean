import TreeScript.Proofs.Evaluation.Expressions

/-!
# Courses

A statement that runs bodies takes a course: it evaluates expressions and runs units, each of them
once, in an order that depends on how those before have ended.  A `Course` tells which, with the
realm that results and the visits that were made.  `Machine.Pursues` says that a machine takes the
course from where it is.
-/

namespace TreeScript

open Code Machine

abbrev Results := UnitId → Context → Realm → Option (Completion × Realm)

/-- What a statement does besides jumping.  It starts from a realm and the visits made so far, and
comes to nothing if a unit or a function that it runs has no result. -/
abbrev Course := StateT (Realm × List Visit) Option

namespace Course

variable {α β : Type}

def body (results : Results) (id : UnitId) (context : Context) : Course Completion := fun state =>
  (results id context state.1).map fun result =>
    (result.1, result.2, state.2 ++ [⟨id, context, state.1⟩])

def Le (x y : Course α) : Prop := ∀ ⦃state out⦄, x state = some out → y state = some out

theorem Le.refl (x : Course α) : x.Le x := fun _ _ h => h

theorem Le.bind {x y : Course α} {f g : α → Course β} (h : x.Le y) (hf : ∀ z, (f z).Le (g z)) :
    Le (x >>= f) (y >>= g) := by
  intro state out hout
  obtain ⟨⟨z, state'⟩, hx, hz⟩ := Option.bind_eq_some_iff.mp hout
  exact Option.bind_eq_some_iff.mpr ⟨_, h hx, hf z hz⟩

theorem Le.lift {x y : Course α} (h : x.Le y) :
    Le (ExceptT.lift x : ExceptT Fault Course α) (ExceptT.lift y : ExceptT Fault Course α) :=
  Le.bind (f := fun z => pure (Except.ok z)) h fun _ => .refl _

def within (fuel : Nat) (a : Artifact) : Results := fun id context r =>
  match invoke fuel a id r context with
  | .halted (.ok c) r _ => some (c, r)
  | _ => none

theorem unitResult_of_within {fuel : Nat} {a : Artifact} {id : UnitId} {context : Context}
    {r : Realm} {out : Completion × Realm} (h : within fuel a id context r = some out) :
    unitResult a id context r = some out := by
  unfold within at h
  cases hi : invoke fuel a id r context with
  | exhausted m =>
    rw [hi] at h
    cases h
  | halted result r' context' =>
    rw [hi] at h
    cases result with
    | error e => cases h
    | ok c =>
      cases h
      obtain ⟨rfl, -⟩ := invoke_halted hi
      exact unitResult_eq_some.mpr ⟨fuel, hi⟩

theorem body_within_le (fuel : Nat) (a : Artifact) (id : UnitId) (context : Context) :
    (body (within fuel a) id context).Le (body (unitResult a) id context) := by
  intro state out hout
  obtain ⟨result, hresult, rfl⟩ := Option.map_eq_some_iff.mp hout
  exact Option.map_eq_some_iff.mpr ⟨result, unitResult_of_within hresult, rfl⟩

def eval (x : Eval α) : ExceptT Fault Course α := fun state =>
  (x state.1).map fun result => (result.1, result.2, state.2)

end Course

namespace Machine

variable {α β : Type} {m : Machine} {Q : α → Realm → Machine → Prop}
  {Q' : β → Realm → Machine → Prop}

/-- The frame of `m` takes a course that ended so: with a result it comes to a state in `Q`, and the
units that it starts on the way are those of the course. -/
def Pursues (m : Machine) (Q : α → Realm → Machine → Prop) :
    Option (α × Realm × List Visit) → Prop
  | some (x, r, visits) => ∃ m', Travels m.callers.length visits m m' ∧ Q x r m'
  | none => ∃ visits m', Travels m.callers.length visits m m' ∧ m.Lost m'

/-- A state in `Q`, or the end of the frame with the throw of a fault. -/
def OrThrows (m : Machine) (Q : α → Realm → Machine → Prop) :
    Except Fault α → Realm → Machine → Prop
  | .ok x => Q x
  | .error fault => m.Throws fault

theorem Pursues.onward {Q' : α → Realm → Machine → Prop} {out : Option (α × Realm × List Visit)}
    (h : m.Pursues Q out)
    (hq : ∀ x r visits m', Travels m.callers.length visits m m' → Q x r m' →
      ∃ m'', Travels m.callers.length visits m m'' ∧ Q' x r m'') : m.Pursues Q' out := by
  obtain _ | ⟨x, r, visits⟩ := out
  · exact h
  · obtain ⟨m', hm, hx⟩ := h
    exact hq x r visits m' hm hx

theorem pursues_bind {x : Course α} {f : α → Course β} {state : Realm × List Visit}
    (hx : m.Pursues Q (x state))
    (hf : ∀ y r visits m', Travels m.callers.length visits m m' → Q y r m' →
      m.Pursues Q' (f y (r, visits))) : m.Pursues Q' ((x >>= f) state) := by
  show m.Pursues Q' ((x state).bind fun result => f result.1 result.2)
  cases h : x state with
  | none =>
    rw [h] at hx
    exact hx
  | some result =>
    obtain ⟨y, r, visits⟩ := result
    rw [h] at hx
    obtain ⟨m', hm, hq⟩ := hx
    exact hf y r visits m' hm hq

theorem pursues_bind_orThrows {x : ExceptT Fault Course α} {f : α → ExceptT Fault Course β}
    {state : Realm × List Visit} (hx : m.Pursues (m.OrThrows Q) (x state))
    (hf : ∀ y r visits m', Travels m.callers.length visits m m' → Q y r m' →
      m.Pursues (m.OrThrows Q') (f y (r, visits))) :
    m.Pursues (m.OrThrows Q') ((x >>= f) state) := by
  refine pursues_bind (x := x) hx fun result r visits m' hm hq => ?_
  cases result with
  | ok y => exact hf y r visits m' hm hq
  | error fault => exact ⟨m', hm, hq⟩

theorem pursues_lift {x : Course α} {state : Realm × List Visit} (h : m.Pursues Q (x state)) :
    m.Pursues (m.OrThrows Q) ((ExceptT.lift x : ExceptT Fault Course α) state) := by
  show m.Pursues (m.OrThrows Q) ((x >>= fun y => pure (Except.ok y)) state)
  exact pursues_bind h fun _ _ _ m' hm hq => ⟨m', hm, hq⟩

theorem pursues_eval {x : Eval α} {m1 : Machine} {r : Realm} {visits : List Visit}
    (hm : Travels m.callers.length visits m m1)
    (h : m.RunsBy (Travels m.callers.length []) Q m1 (x r)) :
    m.Pursues (m.OrThrows Q) (Course.eval x (r, visits)) := by
  unfold Course.eval
  have hvisits {m' : Machine} (h' : Travels m.callers.length [] m1 m') :
      Travels m.callers.length visits m m' := by
    have htravels := hm.trans h'
    rw [List.append_nil] at htravels
    exact htravels
  cases hx : x r with
  | none =>
    rw [hx] at h
    obtain ⟨m', h', hlost⟩ := h
    exact ⟨visits, m', hvisits h', hlost⟩
  | some result =>
    rw [hx] at h
    obtain ⟨fault | y, r'⟩ := result
    · obtain ⟨m', h', hthrows⟩ := h
      exact ⟨m', hvisits h', hthrows⟩
    · obtain ⟨m', h', hq⟩ := h
      exact ⟨m', hvisits h', hq⟩

end Machine

/-! ## Instructions in place -/

namespace Lowering

section

variable {a : Artifact} {u : CodeUnit} {s s' : Stage} {m m0 m' : Machine} {i : Instruction}
  {stack : List Slot} {temps : Array Value} {r : Realm} {visits : List Visit}

theorem travels_emit (hat : Travels m.callers.length visits m0 (m.placed s.offset stack temps r))
    (h : Adds u i s s') (hi : i.invoked? = none)
    (hh : (m.placed s.offset stack temps r).hangs i = false) (hm : m.Hosts a u)
    (he : exec i (m.placed s'.offset stack temps r) = .ok () m') :
    Travels m.callers.length visits m0 m' := by
  rw [← advance_placed h] at he
  have hrunning : (m.placed s.offset stack temps r).status = .running := hm.running
  have hstep : Travels m.callers.length [] (m.placed s.offset stack temps r) m' :=
    Way.step (quiet_placed h hi hm) (step_exec hrunning (next_placed h hm) hh he)
  have htravels := hat.trans hstep
  rw [List.append_nil] at htravels
  exact htravels

theorem travels_keeps (hat : Travels m.callers.length visits m0 (m.placed s.offset stack temps r))
    (h : Keeps s s') :
    Travels m.callers.length visits m0 (m.placed s'.offset stack temps r) := by
  rw [h.offset]
  exact hat

theorem travels_pop {x : Slot}
    (hat : Travels m.callers.length visits m0 (m.placed s.offset (x :: stack) temps r))
    (h : Adds u .pop s s') (hm : m.Hosts a u) :
    Travels m.callers.length visits m0 (m.placed s'.offset stack temps r) :=
  travels_emit hat h rfl rfl hm (exec_pop rfl)

theorem travels_merge {c c' : Completion}
    (hat : Travels m.callers.length visits m0
      (m.placed s.offset (.completion c :: .completion c' :: stack) temps r))
    (h : Adds u .merge s s') (hm : m.Hosts a u) :
    Travels m.callers.length visits m0
      (m.placed s'.offset (.completion (c.merge c') :: stack) temps r) :=
  travels_emit hat h rfl rfl hm (exec_merge rfl)

theorem travels_jump {l : Label} {offset : Nat}
    (hat : Travels m.callers.length visits m0 (m.placed s.offset stack temps r))
    (h : Adds u (.jump l) s s') (hm : m.Hosts a u) (hl : u.offset? l = some offset) :
    Travels m.callers.length visits m0 (m.placed offset stack temps r) := by
  rw [← hm.unit] at hl
  exact travels_emit hat h rfl rfl hm (exec_jump hl)

theorem travels_branch {l : Label} {offset : Nat} {b : Bool}
    (hat : Travels m.callers.length visits m0 (m.placed s.offset stack temps r))
    (h : Adds u i s s') (hi : i.invoked? = none)
    (hh : (m.placed s.offset stack temps r).hangs i = false) (hm : m.Hosts a u)
    (hl : u.offset? l = some offset)
    (he : m.frame.unit.offset? l = some offset → exec i (m.placed s'.offset stack temps r) =
      .ok () (if b then m.placed offset stack temps r else m.placed s'.offset stack temps r)) :
    Travels m.callers.length visits m0
      (m.placed (if b then offset else s'.offset) stack temps r) := by
  rw [← hm.unit] at hl
  have htravels := travels_emit hat h hi hh hm (he hl)
  cases b with
  | true => exact htravels
  | false => exact htravels

theorem travels_dropBelow {x y : Slot} {x' : Unit}
    (hat : Travels m.callers.length visits m0 (m.placed s.offset (x :: y :: stack) temps r))
    (h : Laid a u dropBelow s x' s') (hm : m.Hosts a u) :
    Travels m.callers.length visits m0 (m.placed s'.offset (x :: stack) temps r) := by
  obtain ⟨_, s1, h1, h2⟩ := laid_bind.mp h
  have hswap : Travels m.callers.length visits m0 (m.placed s1.offset (y :: x :: stack) temps r) :=
    travels_emit hat (laid_emit h1) rfl rfl hm (exec_swap rfl)
  exact travels_pop hswap (laid_emit h2) hm

/-- The code from `start` on makes one of the two completions on the stack, and goes to a place, as
`f` says. -/
def Settles (a : Artifact) (u : CodeUnit) (start : Nat)
    (f : Completion → Completion → Nat × Completion) : Prop :=
  ∀ ⦃m m0 : Machine⦄, m.Hosts a u → ∀ ⦃acc c : Completion⦄ ⦃stack : List Slot⦄
    ⦃temps : Array Value⦄ ⦃r : Realm⦄ ⦃visits : List Visit⦄,
    Travels m.callers.length visits m0
      (m.placed start (.completion c :: .completion acc :: stack) temps r) →
    Travels m.callers.length visits m0
      (m.placed (f acc c).1 (.completion (f acc c).2 :: stack) temps r)

theorem pursues_invoke {id : UnitId} {unit : CodeUnit} (hcallers : m0.callers = m.callers)
    (hat : Travels m0.callers.length visits m0 (m.placed s.offset stack temps r))
    (h : Adds u (.invoke id) s s') (hu : a.unit? id = some unit) (hm : m.Hosts a u) :
    m0.Pursues (fun c r' m' => m' = m.placed s'.offset (.completion c :: stack) temps r')
      (Course.body (unitResult a) id m.context (r, visits)) := by
  have hrunning : (m.placed s.offset stack temps r).status = .running := hm.running
  have hunit : (m.placed s.offset stack temps r).frame.artifact.unit? id = some unit := by
    rw [← hm.artifact] at hu
    exact hu
  have hadvance : (m.placed s.offset stack temps r).advance.frame =
      (m.placed s'.offset stack temps r).frame := by
    rw [advance_placed h]
  have hlength : m0.callers.length = m.callers.length := by
    rw [hcallers]
  rw [hlength] at hat
  unfold Course.body
  cases hres : unitResult a id m.context r with
  | none =>
    rw [← hm.artifact] at hres
    have htravels := hat.trans (travels_started hrunning (next_placed h hm) hunit)
    refine ⟨_, _, hlength ▸ htravels, .within (m.placed s'.offset stack temps r).frame ?_⟩
    intro n m1 hn
    obtain ⟨frames, hframes⟩ := started_stays hunit hres hn
    rw [hadvance] at hframes
    rw [hcallers]
    exact ⟨frames, hframes⟩
  | some result =>
    obtain ⟨c, r'⟩ := result
    rw [← hm.artifact] at hres
    have hback : (⟨r', m.context,
        (m.placed s.offset stack temps r).advance.frame.push (.completion c), m.callers,
        .running⟩ : Machine) = m.placed s'.offset (.completion c :: stack) temps r' := by
      rw [hadvance]
      unfold placed
      rw [hm.running]
      rfl
    have htravels := hat.trans (travels_invoked hrunning (next_placed h hm) hunit hres)
    exact ⟨_, hlength ▸ htravels, hback⟩

end

def roles (a : Artifact) : List Role := a.units.toList.map (·.role)

theorem id_of_role {a : Artifact} {id : UnitId} {unit : CodeUnit} {l : List Role}
    (hroles : roles a = l) (hl : l.Nodup) (h : a.unit? id = some unit) {i : Nat}
    (hi : l[i]? = some unit.role) : id = i := by
  have hunit : a.units[id]? = some unit := h
  have hid : l[id]? = some unit.role := by
    rw [← hroles, roles, List.getElem?_map, Array.getElem?_toList, hunit]
    rfl
  obtain ⟨hlt, -⟩ := List.getElem?_eq_some_iff.mp hid
  exact (List.getElem?_inj hlt hl).mp (hid.trans hi.symm)

end Lowering

end TreeScript
