import TreeScript.Proofs.Lowering.Forest
import TreeScript.Proofs.Machine.Alone
import TreeScript.Proofs.Machine.Founded
import TreeScript.Proofs.Machine.Origins
import TreeScript.Proofs.Program.Jumps
import TreeScript.Proofs.Program.Texts
import TreeScript.Proofs.Realm.Arrays

/-!
# The length of an array is always right

Compiled programs leave the length of every array above all indices that the array has.  The one
operation that could break it defines a property without a look at the length.  It is for object
literals, and compiled code gives it nothing but the objects that it has made for them.

An object that is made is not an array at that time, nor ever after, and it is not one before, for
it is not there.  So what compiled code relies on is said of a whole run: `Machine.NeverArray`.
-/

namespace TreeScript

open Code Syntax Lowering Realm Upkeep

/-! ## Code of compiled programs -/

/-- An artifact of a program for which `Q` holds. -/
def Code.Artifact.CompiledFrom (Q : Program → Prop) (a : Artifact) : Prop :=
  ∃ p strict, Q p ∧ compile p strict = .ok a

variable {r : Realm} {Q : Program → Prop}

theorem Realm.IsNew.onlyFrom {A : Artifact → Prop} (h : r.IsNew) : r.OnlyFrom A :=
  fun c hc => absurd hc (h.not_holds c)

theorem Realm.OnlyFrom.trusts {W : Prop} {plain : Value → Prop}
    (h : r.OnlyFrom (Artifact.CompiledFrom Q)) (hQ : ∀ p, Q p → W → p.wellScoped = true) (n : Nat) :
    (Policy.defining W plain).TrustsAll n r := by
  intro c hc
  obtain ⟨a, ⟨p, strict, hp, hcompile⟩, rfl, id, hid⟩ := h hc
  obtain ⟨u, hu, hrole, -⟩ := body_of_function hcompile hid
  refine .inr ⟨u, hu, safe_declares hcompile (hQ p hp) hu ?_ n⟩
  rw [hrole]
  rfl

namespace Machine

variable {m m' m0 : Machine} {B : Prop}

/-! ## A step -/

/-- No list of keys is made that is too long for an array. -/
def listsFewKeys (m : Machine) : Bool :=
  match m.status, m.frame.unit.instructions[m.frame.next]?, m.frame.stack with
  | .running, some (.operate .enumerateKeys), .value v :: _ =>
    (m.realm.enumerateKeys v).length ≤ 0xFFFFFFFF
  | _, _, _ => true

theorem length_of_listsFewKeys (h : m.listsFewKeys = true) (hrun : m.status = .running)
    (hi : m.frame.unit.instructions[m.frame.next]? = some (.operate .enumerateKeys)) {v : Value}
    {rest : List Slot} (hs : m.frame.stack = .value v :: rest) :
    (m.realm.enumerateKeys v).length ≤ 0xFFFFFFFF := by
  unfold listsFewKeys at h
  rw [hrun, hi, hs] at h
  exact of_decide_eq_true h

theorem tidies_newClosure (h : r.Tidy B) (a : Artifact) (info : FunctionInfo) (env : EnvRef) :
    r.Tidies B (newClosure a info env) := by
  unfold newClosure
  split
  · refine (sustains_modifyGet (U := tidying B) (A := fun _ _ => True) trivial (h.of_same rfl)
      trivial).bind fun scope r1 _ h1 _ => ?_
    refine (tidies_allocate (f := (·.newFunction _)) (h1.newFunction _)).bind
      fun function r2 _ h2 _ => ?_
    split
    · exact sustains_pure h2 trivial
    · exact (sustains_modify (U := tidying B) (A := fun _ _ => True) trivial (h2.of_same rfl)
        trivial).bind fun _ _ _ hr _ => sustains_pure hr trivial
  · exact tidies_allocate (h.newFunction _)

theorem tidies_newCallEnv (h : r.Tidy B) (closure : Closure) {args : List Value}
    (hargs : args.length ≤ 0xFFFFFFFF) : r.Tidies B (newCallEnv closure args) := by
  refine (sustains_modifyGet (U := tidying B) (A := fun _ _ => True) trivial (h.of_same rfl)
    trivial).bind fun env r1 _ h1 _ => ?_
  refine (tidies_allocate (f := (·.newArray args)) (h1.newArray fun _ => hargs)).bind
    fun arguments r2 _ h2 _ => ?_
  exact (sustains_modify (U := tidying B) (A := fun _ _ => True) trivial (h2.of_same rfl)
    trivial).bind fun _ _ _ hr _ => sustains_pure hr trivial

theorem tidy_countRun (h : r.Tidy B) (name : String) : (r.countRun name).Tidy B :=
  h.of_same (rebinds_countRun r name).objects

theorem tidy_enterFunction (h : m.realm.Tidy B) (callee receiver : Value) {args : List Value}
    (hargs : args.length ≤ 0xFFFFFFFF) (constructed : Option Value) :
    (stateOf (enterFunction callee receiver args constructed m)).realm.Tidy B := by
  refine enterFunction_cases callee receiver args constructed m h (fun _ _ _ _ => h) h ?_
  intro closure frame r _ _ _ hnew
  have hr : { m.realm with callDepth := m.realm.callDepth + 1 }.Tidy B := h.of_same rfl
  have henv := (tidies_newCallEnv hr closure hargs).tidy
  rw [hnew] at henv
  exact tidy_countRun henv _

theorem permits_tidy {rules : Rules} {runs : CodeUnit → (Completion → Prop) → Prop}
    {i : Instruction}
    (hplain : ∀ v ref, rules.plain v → v.object? = some ref → (m.realm.object ref).isArray = false)
    (hkeys : B → ∀ v rest, i = .operate .enumerateKeys → m.frame.stack = .value v :: rest →
      (m.realm.enumerateKeys v).length ≤ 0xFFFFFFFF) :
    Permits rules runs (fun r r' => r.Tidy B → r'.Tidy B) m i where
  rebinds hr h := h.of_same hr.objects
  closure _ _ _ _ h := (tidies_newClosure h _ _ _).tidy
  apply {op vs rest} hi hs ha ht h := by
    refine (tidies_apply h (fun hop ref => hplain _ ref (ht.plain hop)) ?_).tidy
    cases op with
    | newArray n => exact ht.brief
    | enumerateKeys =>
      match vs, ha with
      | [v], _ => exact fun hB => hkeys hB v rest hi hs
    | _ => trivial
  derive _ prototype h := h.derive prototype

/-- A step of compiled code leaves the length of every array right, if properties are defined on
nothing that is an array. -/
theorem tidy_step {P : Policy} (hclosed : ¬ P.Open) (hsound : P.Sound 1 m) (hfresh : P.Fresh m)
    (hplain : ∀ v ref, P.plain v → v.object? = some ref → (m.realm.object ref).isArray = false)
    (hfew : B → m.listsFewKeys = true) (h : m.realm.Tidy B) : m.step.realm.Tidy B := by
  refine realm_step (R := fun r => r.Tidy B) h (h.of_same rfl) (fun i hstatus hi => ?_)
    fun r fault hr => hr.materialize fault
  obtain ⟨ht, post, hn⟩ := hsound.needs hclosed hstatus hi
  have hcomes := comes_of_needs (m := m.advance) ht hn
    (fun heq => hfresh hstatus (heq ▸ hi)) (permits_tidy hplain fun hB v rest heq hs =>
      length_of_listsFewKeys (hfew hB) hstatus (heq ▸ hi) hs)
  generalize hx : exec i m.advance = result at hcomes
  cases hcomes with
  | done hworks _ _ | thrown hworks => exact hworks.realm h
  | unit _ hu _ _ _ _ =>
    rw [exec_invoke hu]
    exact tidy_countRun h _
  | call callee receiver args constructed _ hargs hworks _ _ =>
    exact tidy_enterFunction (hworks.realm h) callee receiver hargs constructed

/-! ## A run -/

theorem grows_of_reaches (h : m.Reaches m') : Grows m.realm m'.realm := by
  obtain ⟨n, hn⟩ := h
  refine run_exhausted (P := fun m' => Grows m.realm m'.realm) (fun {m1 m2} hg hs => ?_)
    (.refl _) hn
  have hstep := m1.grows_step
  rw [hs] at hstep
  exact hg.trans hstep

theorem reaches_linear (h : m0.Reaches m) (h' : m0.Reaches m') : m'.Reaches m ∨ m.Reaches m' := by
  obtain ⟨n, hn⟩ := h
  obtain ⟨k, hk⟩ := h'
  rcases Nat.le_total n k with hle | hle
  · obtain ⟨d, rfl⟩ := Nat.exists_eq_add_of_le hle
    exact .inr ⟨d, (run_add hn d).symm.trans hk⟩
  · obtain ⟨d, rfl⟩ := Nat.exists_eq_add_of_le hle
    exact .inl ⟨d, (run_add hk d).symm.trans hn⟩

/-- Nothing that is an array anywhere in a run from `m`. -/
def NeverArray (m : Machine) (v : Value) : Prop :=
  ∀ m' ref, m.Reaches m' → v.object? = some ref → (m'.realm.object ref).isArray = false

theorem exec_newObject (m : Machine) :
    exec (.operate .newObject) m = .ok () ((m.withRealm (m.realm.addObject
      { kind := .ordinary, prototype := objectPrototype }).2).withStack
        (.value (.object ⟨m.realm.objects.size⟩) :: m.frame.stack)) :=
  exec_operate nofun nofun (show m.frame.stack = slots [] ++ m.frame.stack from rfl) rfl

/-- The object that is made next is never an array. -/
theorem fresh_neverArray {W : Prop} (h : m0.Reaches m) :
    (Policy.defining W m0.NeverArray).Fresh m := by
  intro hrun hi m' ref hm' href
  cases href
  have hbefore {r : Realm} (hsize : r.objects.size ≤ m.realm.objects.size) :
      (r.object ⟨m.realm.objects.size⟩).isArray = false := by
    have hobject : r.object ⟨m.realm.objects.size⟩ = { kind := .ordinary } :=
      object_of_size_le hsize
    rw [hobject]
    rfl
  rcases reaches_linear h hm' with hm | ⟨n, hn⟩
  · exact hbefore (grows_of_reaches hm).objects
  · cases n with
    | zero =>
      cases hn
      exact hbefore (Nat.le_refl _)
    | succ n =>
      obtain ⟨m1, hs, hn⟩ := step_of_exhausted hn
      rw [step_exec hrun hi (hangs_operate [] rfl rfl) (exec_newObject m.advance)] at hs
      cases hs
      have hin : m.realm.objects.size < (m.realm.objects.push
          { kind := .ordinary, prototype := objectPrototype }).size := by
        rw [Array.size_push]
        exact Nat.lt_succ_self _
      refine ((grows_of_reaches ⟨n, hn⟩).arrays hin).trans ?_
      show (((m.realm.addObject _).2).object ⟨m.realm.objects.size⟩).isArray = false
      rw [object_addObject, if_pos rfl]
      rfl

/-- What holds of every state of a run from `m₀`, which lists few keys at a time if `B`. -/
structure Orderly (B : Prop) (m₀ m : Machine) : Prop where
  reached : m₀.Reaches m
  sound : ∀ n, (Policy.defining False m₀.NeverArray).Sound n m
  tidy : m.realm.Tidy B

theorem Orderly.step (h : Orderly B m0 m) (hfew : B → m.listsFewKeys = true) :
    m.step.realm.Tidy B :=
  tidy_step not_open_compiled (h.sound 1) (fresh_neverArray h.reached)
    (fun _ ref hv => hv m ref h.reached) hfew h.tidy

theorem Orderly.next (h : Orderly B m0 m) (hfew : B → m.listsFewKeys = true)
    (hs : m.step = .next m') : Orderly B m0 m' := by
  have htidy := h.step hfew
  rw [hs] at htidy
  exact ⟨h.reached.trans (reaches_of_step hs),
    Policy.sound_next (fresh_neverArray h.reached) h.sound hs, htidy⟩

end Machine

/-- A run of a compiled unit leaves every object tidy in all its states and when it halts.  If `B`,
it has to list few keys at a time. -/
theorem tidy_of_invoke {B : Prop} {a : Artifact} {id : UnitId} {context : Context}
    (hr : r.OnlyFrom (Artifact.CompiledFrom Q))
    (ha : ∀ plain n, (Policy.defining False plain).Trusts n a id)
    (hfew : B → ∀ fuel m, invoke fuel a id r context = .exhausted m → m.listsFewKeys = true)
    (h : r.Tidy B) :
    (∀ fuel m, invoke fuel a id r context = .exhausted m → m.realm.Tidy B) ∧
    (∀ fuel result r' context', invoke fuel a id r context = .halted result r' context' →
      r'.Tidy B) := by
  cases hs : Frame.start a id context.env .unit with
  | error e =>
    refine ⟨fun fuel m hm => ?_, fun fuel result r' context' hm => ?_⟩
    · obtain ⟨frame, hs', -⟩ := run_of_invoke hm
      cases hs.symm.trans hs'
    · unfold invoke at hm
      rw [hs] at hm
      cases hm
      exact h
  | ok frame =>
    let m0 : Machine := { realm := r.countRun frame.unit.name, context, frame }
    have hstart : Machine.Orderly B m0 m0 := by
      refine ⟨.refl _, Policy.sound_start (fun n => ?_) (ha _) hs, Machine.tidy_countRun h _⟩
      exact hr.trusts (fun _ _ => False.elim) n
    have hlists {m : Machine} (hm : Machine.Orderly B m0 m) (hB : B) : m.listsFewKeys = true := by
      obtain ⟨n, hn⟩ := hm.reached
      exact hfew hB n m (invoke_of_run hs hn)
    refine ⟨fun fuel m hm => ?_, fun fuel result r' context' hm => ?_⟩
    · obtain ⟨frame', hs', hrun⟩ := run_of_invoke hm
      cases hs.symm.trans hs'
      exact (Machine.run_exhausted (P := Machine.Orderly B m0) (fun hm => hm.next (hlists hm))
        hstart hrun).tidy
    · refine realm_of_invoke (P := Machine.Orderly B m0) (R := (·.Tidy B))
        (fun hm => hm.next (hlists hm)) (fun hm hstep => ?_) (fun htidy => htidy.of_same rfl) h
        (fun frame' hs' => ?_) hm
      · have htidy := hm.step (hlists hm)
        rw [hstep] at htidy
        exact htidy
      · cases hs.symm.trans hs'
        exact hstart

/-! ## Realms that programs leave -/

/-- The realms that those in `first` become by running compiled programs for which `Q` holds through
states for which `S` holds, and by handing out what they print. -/
inductive Realm.ReachedThrough (first : Realm → Prop) (Q : Program → Prop) (S : Machine → Prop) :
    Realm → Prop where
  | first {r : Realm} : first r → ReachedThrough first Q S r
  | run {r r' : Realm} {p : Program} {strict strict' : Bool} {a : Artifact} {fuel : Nat}
      {result : Except MachineError Completion} {context : Context} :
    ReachedThrough first Q S r → Q p → compile p strict = .ok a →
    (∀ fuel m, runProgram fuel a r strict' = .exhausted m → S m) →
    runProgram fuel a r strict' = .halted result r' context → ReachedThrough first Q S r'
  | takeOutput {r : Realm} : ReachedThrough first Q S r → ReachedThrough first Q S r.takeOutput.2

theorem Realm.IsNew.tidy {B : Prop} (h : r.IsNew) : r.Tidy B := by
  obtain ⟨maxCallDepth, traceUnits, rfl⟩ := h
  rintro ⟨index⟩
  match index with
  | 0 | 1 | 2 | 4 | _ + 5 => exact Object.tidy_new rfl
  | 3 => exact (Object.tidy_new rfl).define rfl rfl |>.define rfl rfl

theorem Realm.ReachedThrough.tidy {B : Prop} {S : Machine → Prop}
    (h : ReachedThrough Realm.IsNew Q S r) (hS : B → ∀ m, S m → m.listsFewKeys = true) :
    r.OnlyFrom (Artifact.CompiledFrom Q) ∧ r.Tidy B := by
  induction h with
  | first hr => exact ⟨hr.onlyFrom, hr.tidy⟩
  | run _ hp hc hstates hrun ih =>
    obtain ⟨hr, htidy⟩ := ih
    refine ⟨onlyFrom_of_invoke hr ⟨_, _, hp, hc⟩ hrun, ?_⟩
    refine (tidy_of_invoke hr (fun plain => defining_trusts_entry hc False.elim) (fun hB => ?_)
      htidy).2 _ _ _ _ hrun
    exact fun fuel m hm => hS hB m (hstates fuel m hm)
  | takeOutput _ ih => exact ⟨ih.1, ih.2.of_same rfl⟩

/-- The length of an array is the whole number `n`, can be neither deleted nor seen by enumeration,
and is above every index that the array has. -/
structure Object.HasLength (o : Object) (n : Nat) : Prop where
  bound : n ≤ 0xFFFFFFFF
  length : ∃ p x, o.own? "length" = some p ∧ p.configurable = false ∧ p.enumerable = false ∧
    p.value = .number x ∧ Number.IsWhole x n
  indices : ∀ {key p i}, o.own? key = some p → Number.indexOf? key = some i → i < n

theorem Object.Measures.hasLength {o : Object} {n : Nat} (h : o.Measures True n) :
    o.HasLength n where
  bound := h.bound trivial
  length := ⟨_, _, h.length, rfl, rfl, rfl,
    Number.isWhole_ofNat (Nat.lt_of_le_of_lt (h.bound trivial) (by decide))⟩
  indices hown hi := (h.indices _ _ hown _ hi).1 trivial

theorem Realm.Tidy.hasLength (h : r.Tidy True) (ref : ObjectRef)
    (ha : (r.object ref).isArray = true) : ∃ n, (r.object ref).HasLength n := by
  obtain ⟨n, hn⟩ := (h ref).measured ha
  exact ⟨n, hn.hasLength⟩

/-- Makes an array with the last index that there is, and enumerates its keys. -/
def fillingLastIndex : Program where
  body := [.expression (.assignment .assign (.identifier "a") (.array [some (.boolean true)])),
    .expression (.assignment .assign (.member (.identifier "a") (.string "4294967294") true)
      (.boolean false)),
    .forIn (.expression (.identifier "k")) (.identifier "a") .empty,
    .expression (.identifier "a")]

/-- A run from `m` halts within so many steps, and `p` holds of all its states. -/
def Machine.haltsThrough (p : Machine → Bool) : Nat → Machine → Bool
  | 0, _ => false
  | n + 1, m =>
    p m && match m.step with
      | .next m' => m'.haltsThrough p n
      | .halt .. => true

theorem Machine.of_haltsThrough {p : Machine → Bool} {n k : Nat} {m m' : Machine}
    (h : m.haltsThrough p n = true) (hm : run k m = .exhausted m') : p m' = true := by
  induction n generalizing m k with
  | zero => cases h
  | succ n ih =>
    obtain ⟨hp, hnext⟩ := Bool.and_eq_true_iff.mp h
    cases k with
    | zero =>
      cases hm
      exact hp
    | succ k =>
      obtain ⟨m1, hs, hm⟩ := step_of_exhausted hm
      rw [hs] at hnext
      exact ih hnext hm

def Outcome.arrayWith? (key : String) : Outcome → Option ObjectRef
  | .halted (.ok c) r _ => c.valueOrUndefined.object?.filter fun ref =>
      (r.object ref).isArray && ((r.object ref).own? key).isSome
  | _ => none

theorem fillingLastIndex_ends :
    ((compile fillingLastIndex false).toOption.bind fun a =>
      (runProgram 100 a (.create 16 false) false).arrayWith? "4294967294").isSome = true := by
  decide +kernel

theorem fillingLastIndex_listsFewKeys :
    ((compile fillingLastIndex false).toOption.all fun a =>
      match Frame.start a a.entry (Context.global false).env .unit with
      | .ok frame => Machine.haltsThrough Machine.listsFewKeys 100
          { realm := (Realm.create 16 false).countRun frame.unit.name, context := .global false,
            frame }
      | .error _ => true) = true := by
  decide +kernel

/-- In every realm that compiled programs have left behind, and in every state of a compiled program
that runs in it, the length of every array is right.  Literals and argument lists are short enough
for an array in any compiled program; of the lists of keys that `for`-`in` makes it has to be
supposed. -/
theorem reached_arrays_haveLength {r : Realm}
    (hr : Realm.ReachedThrough Realm.IsNew (fun _ => True) (·.listsFewKeys = true) r) :
    (∀ ref, (r.object ref).isArray = true → ∃ n, (r.object ref).HasLength n) ∧
    ∀ p strict a strict', compile p strict = .ok a →
      (∀ fuel m, runProgram fuel a r strict' = .exhausted m → m.listsFewKeys = true) →
      ∀ fuel m, runProgram fuel a r strict' = .exhausted m →
        ∀ ref, (m.realm.object ref).isArray = true → ∃ n, (m.realm.object ref).HasLength n := by
  obtain ⟨hfrom, htidy⟩ := hr.tidy (B := True) fun _ _ hm => hm
  refine ⟨htidy.hasLength, fun p strict a strict' hc hfew fuel m hm => ?_⟩
  have hstates := (tidy_of_invoke hfrom (fun plain => defining_trusts_entry hc False.elim)
    (fun _ => hfew) htidy).1
  exact (hstates fuel m hm).hasLength

/-- The greatest length that an array can have. -/
theorem reached_arrays_haveLength_fillingLastIndex :
    ∃ a c r context ref, compile fillingLastIndex false = .ok a ∧
      runProgram 100 a (.create 16 false) false = .halted (.ok c) r context ∧
      c.valueOrUndefined.object? = some ref ∧
      Realm.ReachedThrough Realm.IsNew (fun _ => True) (·.listsFewKeys = true) r ∧
      (r.object ref).HasLength 0xFFFFFFFF := by
  obtain ⟨ref, hends⟩ := Option.isSome_iff_exists.mp fillingLastIndex_ends
  obtain ⟨a, ha, hends⟩ := Option.bind_eq_some_iff.mp hends
  have hfew := fillingLastIndex_listsFewKeys
  rw [ha] at hfew
  have ha := ok_of_toOption ha
  unfold Outcome.arrayWith? at hends
  split at hends
  · next c r context hrun =>
    obtain ⟨href, harray⟩ := Option.filter_eq_some_iff.mp hends
    obtain ⟨harray, hown⟩ := Bool.and_eq_true_iff.mp harray
    have hr : Realm.ReachedThrough Realm.IsNew (fun _ => True) (·.listsFewKeys = true) r := by
      refine .run (.first ⟨16, false, rfl⟩) trivial ha (fun fuel m hm => ?_) hrun
      obtain ⟨frame, hs, hm⟩ := run_of_invoke hm
      change (match Frame.start a a.entry (Context.global false).env .unit with
        | .ok frame => _
        | .error _ => true) = true at hfew
      rw [hs] at hfew
      exact Machine.of_haltsThrough hfew hm
    obtain ⟨n, hn⟩ := (reached_arrays_haveLength hr).1 ref harray
    obtain ⟨p, hp⟩ := Option.isSome_iff_exists.mp hown
    have hlt : 0xFFFFFFFE < n := hn.indices hp (by decide +kernel)
    obtain rfl : n = 0xFFFFFFFF := Nat.le_antisymm hn.bound hlt
    exact ⟨a, c, r, context, ref, ha, hrun, href, hr, hn⟩
  · cases hends

end TreeScript
