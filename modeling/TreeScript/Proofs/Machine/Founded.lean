import TreeScript.Proofs.Machine.Effect
import TreeScript.Proofs.Machine.Reach
import TreeScript.Proofs.Realm.Guarded

/-!
# Founded machines

A machine is founded if its realm is and every handle on its stacks, in its temporaries, scopes and
contexts is one of the realm.  Instructions only move values that are there already or come from the
realm.
-/

namespace TreeScript

open Code Upkeep

variable {s : Slot} {args : List Value} {stack : List Slot} {A : Machine → α → Prop}

namespace Realm

/-- The value that a completion carries is inside. -/
def Ends (r : Realm) (c : Completion) : Prop := ∀ v, c.value = some v → r.Inside v

def HasSlot (r : Realm) : Slot → Prop
  | .value v => r.Inside v
  | .completion c => r.Ends c

def Resumes (r : Realm) : Resume → Prop
  | .unit => True
  | .call this _ constructed => r.Inside this ∧ ∀ v, constructed = some v → r.Inside v

variable {r r' : Realm} {c : Completion}

theorem Ends.mono (h : r.Ends c) (hg : Grows r r') : r'.Ends c :=
  fun v hv => (h v hv).mono hg.objects

theorem HasSlot.mono (h : r.HasSlot s) (hg : Grows r r') : r'.HasSlot s := by
  cases s with
  | value v => exact Inside.mono h hg.objects
  | completion c => exact Ends.mono h hg

theorem Resumes.mono {resume : Resume} (h : r.Resumes resume) (hg : Grows r r') :
    r'.Resumes resume := by
  cases resume with
  | unit => trivial
  | call this strict constructed =>
    exact ⟨h.1.mono hg.objects, fun v hv => (h.2 v hv).mono hg.objects⟩

theorem ends_of_value {v : Value} (hc : c.value = some v) (hv : r.Inside v) : r.Ends c := by
  intro v' hv'
  obtain rfl : v = v' := Option.some.inj (hc.symm.trans hv')
  exact hv

theorem ends_of_empty (hc : c.value = none) : r.Ends c := by
  intro v hv
  rw [hc] at hv
  cases hv

theorem Ends.valueOrUndefined (h : r.Ends c) : r.Inside c.valueOrUndefined := by
  unfold Completion.valueOrUndefined
  cases hv : c.value with
  | none => trivial
  | some v => exact h v hv

theorem Ends.merge {c' : Completion} (h : r.Ends c) (h' : r.Ends c') : r.Ends (c.merge c') := by
  intro v hv
  have hv : (c.value <|> c'.value) = some v := hv
  cases hc : c.value with
  | none =>
    rw [hc] at hv
    exact h' v hv
  | some w =>
    rw [hc] at hv
    cases hv
    exact h _ hc

theorem Ends.consumeBreak (h : r.Ends c) (labels : LabelSet) : r.Ends (c.consumeBreak labels) := by
  unfold Completion.consumeBreak
  split <;> exact h

end Realm

open Realm

namespace Guarded

def newCallEnv (closure : Closure) (args : List Value) : Guarded Fault Realm EnvRef := do
  let env ← modifyGet (·.addEnv (some closure.env))
  let arguments ← lift (allocate (·.newArray args))
  modifyEnv env fun e => Machine.bindParameters e arguments closure.info.params args
  return env

def newClosure (artifact : Artifact) (info : FunctionInfo) (env : EnvRef) :
    Guarded Fault Realm Value := do
  if info.selfBinding then
    let scope ← modifyGet (·.addEnv (some env))
    let function ← lift (allocate (·.newFunction ⟨artifact, info, scope⟩))
    match info.name with
    | none => pure ()
    | some name => modifyEnv scope (·.bind name function)
    return function
  else lift (allocate (·.newFunction ⟨artifact, info, env⟩))

def newScope (outer : EnvRef) (name : String) (v : Value) : Guarded Fault Realm EnvRef := do
  let scope ← modifyGet (·.addEnv (some outer))
  modifyEnv scope (·.bind name v)
  return scope

end Guarded

/-- A founded realm with a context inside. -/
structure Context.Inside (context : Context) (r : Realm) : Prop where
  realm : r.Founded
  env : r.HasEnv context.env
  this : r.Inside context.this

theorem Context.inside_global {r : Realm} (h : r.Founded) (strict : Bool) :
    (Context.global strict).Inside r :=
  ⟨h, h.global, h.first⟩

/-- Every handle in a frame is one of the realm. -/
structure Frame.Inside (f : Frame) (r : Realm) : Prop where
  stack : ∀ s ∈ f.stack, r.HasSlot s
  temps : ∀ v ∈ f.temps, r.Inside v
  scopes : ∀ env ∈ f.scopes, r.HasEnv env
  callerEnv : r.HasEnv f.callerEnv
  resume : r.Resumes f.resume

namespace Frame.Inside

variable {f : Frame} {r r' : Realm}

theorem mono (h : f.Inside r) (hg : Grows r r') : f.Inside r' where
  stack s hs := (h.stack s hs).mono hg
  temps v hv := (h.temps v hv).mono hg.objects
  scopes env he := (h.scopes env he).mono hg.environments
  callerEnv := h.callerEnv.mono hg.environments
  resume := h.resume.mono hg

theorem withStack (h : f.Inside r) (hs : ∀ s ∈ stack, r.HasSlot s) :
    Frame.Inside { f with stack } r :=
  ⟨hs, h.temps, h.scopes, h.callerEnv, h.resume⟩

theorem push (h : f.Inside r) (hs : r.HasSlot s) : (f.push s).Inside r :=
  h.withStack (List.forall_mem_cons.mpr ⟨hs, h.stack⟩)

theorem temp (h : f.Inside r) (i : Nat) : r.Inside (f.temps.getD i .undefined) := by
  rw [Array.getD_eq_getD_getElem?]
  cases hi : f.temps[i]? with
  | none => trivial
  | some v => exact h.temps v (Array.mem_of_getElem? hi)

end Frame.Inside

theorem Frame.inside_start {a : Artifact} {id : UnitId} {env : EnvRef} {resume : Resume} {f : Frame}
    {r : Realm} (h : Frame.start a id env resume = .ok f) (he : r.HasEnv env)
    (hr : r.Resumes resume) : f.Inside r := by
  obtain ⟨u, -, rfl⟩ := Machine.start_ok_iff.mp h
  refine ⟨List.forall_mem_nil _, fun v hv => ?_, List.forall_mem_nil _, he, hr⟩
  rw [(Array.mem_replicate.mp hv).2]
  trivial

namespace Machine

/-- The realm is founded, and every handle of the machine is one of the realm. -/
structure Founded (m : Machine) : Prop where
  realm : m.realm.Founded
  env : m.realm.HasEnv m.context.env
  this : m.realm.Inside m.context.this
  frame : m.frame.Inside m.realm
  callers : ∀ f ∈ m.callers, f.Inside m.realm
  status : ∀ c, m.status = .finishing c → m.realm.Ends c

/-- Machines stay founded, and nothing is counted. -/
def guarding : Upkeep Interrupt Machine where
  along m m' := Quiet m.realm m'.realm
  refl m := .refl m.realm
  trans := .trans
  holds := Founded
  fails m
    | .thrown fault => m.realm.Throws fault
    | .fatal _ => True

abbrev Keeps (m : Machine) (x : Exec Unit) : Prop := guarding.Sustains m x fun _ _ => True

variable {m : Machine} {v : Value}

variable {r : Realm}

theorem Founded.withRealm (h : m.Founded) (hg : Grows m.realm r) (hr : r.Founded) :
    (m.withRealm r).Founded where
  realm := hr
  env := h.env.mono hg.environments
  this := h.this.mono hg.objects
  frame := h.frame.mono hg
  callers f hf := (h.callers f hf).mono hg
  status c hc := (h.status c hc).mono hg

theorem Founded.withFrame (h : m.Founded) {frame : Frame} (hf : frame.Inside m.realm) :
    Founded { m with frame } :=
  ⟨h.realm, h.env, h.this, hf, h.callers, h.status⟩

/-! ## The parts that instructions are made of -/

section

variable (h : m.Founded)
include h

theorem keeps_modifyFrame {f : Frame → Frame} (hf : (f m.frame).Inside m.realm) :
    m.Keeps (modifyFrame f) :=
  sustains_modify (U := guarding) (.refl m.realm) (h.withFrame hf) trivial

theorem sustains_fatal (e : MachineError) :
    guarding.Sustains m (fatal e) A :=
  sustains_throw h trivial

theorem keeps_setEnv {env : EnvRef} (he : m.realm.HasEnv env) :
    m.Keeps (setEnv env) :=
  sustains_modify (U := guarding) (.refl m.realm)
    ⟨h.realm, he, h.this, h.frame, h.callers, h.status⟩ trivial

theorem keeps_push (hv : m.realm.Inside v) : m.Keeps (push v) :=
  keeps_modifyFrame h (h.frame.push hv)

variable {c : Completion}

theorem keeps_pushCompletion (hc : m.realm.Ends c) :
    m.Keeps (pushCompletion c) :=
  keeps_modifyFrame h (h.frame.push hc)

theorem keeps_setStack (hs : ∀ s ∈ stack, m.realm.HasSlot s) :
    m.Keeps (setStack stack) :=
  keeps_modifyFrame h (h.frame.withStack hs)

theorem sustains_underflow :
    guarding.Sustains m underflow A :=
  sustains_get (sustains_fatal h _)

theorem sustains_mismatch (kind : SlotKind) :
    guarding.Sustains m (mismatch kind) A :=
  sustains_get (sustains_fatal h _)

theorem sustains_peekSlot :
    guarding.Sustains m peekSlot fun m s => m.realm.HasSlot s := by
  refine sustains_get ?_
  split
  · exact sustains_underflow h
  · next s rest hs => exact sustains_pure h (h.frame.stack s (hs ▸ List.mem_cons_self))

theorem sustains_popSlot :
    guarding.Sustains m popSlot fun m s => m.realm.HasSlot s := by
  refine sustains_get ?_
  split
  · exact sustains_underflow h
  · next s rest hs =>
    have hstack := h.frame.stack
    rw [hs] at hstack
    obtain ⟨htop, hrest⟩ := List.forall_mem_cons.mp hstack
    exact (keeps_setStack h hrest).bind fun _ m' hg h' _ => sustains_pure h' (htop.mono hg.toGrows)

theorem sustains_asValue (hs : m.realm.HasSlot s) :
    guarding.Sustains m (asValue s) fun m v => m.realm.Inside v := by
  cases s with
  | value v => exact sustains_pure h hs
  | completion c => exact sustains_mismatch h _

theorem sustains_asCompletion (hs : m.realm.HasSlot s) :
    guarding.Sustains m (asCompletion s) fun m c => m.realm.Ends c := by
  cases s with
  | value v => exact sustains_mismatch h _
  | completion c => exact sustains_pure h hs

theorem sustains_pop : guarding.Sustains m pop fun m v => m.realm.Inside v :=
  (sustains_popSlot h).bind fun _ _ _ h' hs => sustains_asValue h' hs

theorem sustains_popCompletion :
    guarding.Sustains m popCompletion fun m c => m.realm.Ends c :=
  (sustains_popSlot h).bind fun _ _ _ h' hs => sustains_asCompletion h' hs

theorem sustains_peek : guarding.Sustains m peek fun m v => m.realm.Inside v :=
  (sustains_peekSlot h).bind fun _ _ _ h' hs => sustains_asValue h' hs

theorem sustains_peekCompletion :
    guarding.Sustains m peekCompletion fun m c => m.realm.Ends c :=
  (sustains_peekSlot h).bind fun _ _ _ h' hs => sustains_asCompletion h' hs

theorem sustains_topTwo : guarding.Sustains m topTwo fun m top =>
    m.realm.HasSlot top.1 ∧ m.realm.HasSlot top.2.1 ∧ ∀ s ∈ top.2.2, m.realm.HasSlot s := by
  refine sustains_get ?_
  split
  · next a b rest hs =>
    have hstack := h.frame.stack
    rw [hs] at hstack
    obtain ⟨ha, hb, hrest⟩ := List.forall_mem_cons.mp hstack |>.imp_right List.forall_mem_cons.mp
    exact sustains_pure h ⟨ha, hb, hrest⟩
  · exact sustains_underflow h

end

theorem sustains_asValues (h : m.Founded) {slots : List Slot}
    (hs : ∀ s ∈ slots, m.realm.HasSlot s) :
    guarding.Sustains m (slots.mapM asValue) fun m vs => ∀ v ∈ vs, m.realm.Inside v := by
  induction slots generalizing m with
  | nil => exact sustains_pure h (List.forall_mem_nil _)
  | cons s slots ih =>
    rw [List.mapM_cons]
    obtain ⟨htop, hrest⟩ := List.forall_mem_cons.mp hs
    refine (sustains_asValue h htop).bind fun v m1 h1 hf1 hv => ?_
    refine (ih hf1 fun s hs => (hrest s hs).mono h1.toGrows).bind fun vs m2 h2 hf2 hvs => ?_
    exact sustains_pure hf2 (List.forall_mem_cons.mpr ⟨hv.mono h2.objects, hvs⟩)

theorem forall_splitTop? {P : Slot → Prop} {n : Nat} {taken taken' rest : List Slot}
    (h : splitTop? n taken stack = some (taken', rest)) (ht : ∀ s ∈ taken, P s)
    (hs : ∀ s ∈ stack, P s) : (∀ s ∈ taken', P s) ∧ ∀ s ∈ rest, P s := by
  induction n generalizing taken stack with
  | zero =>
    cases h
    exact ⟨ht, hs⟩
  | succ n ih =>
    cases stack with
    | nil => cases h
    | cons s stack =>
      obtain ⟨htop, hrest⟩ := List.forall_mem_cons.mp hs
      exact ih h (List.forall_mem_cons.mpr ⟨htop, ht⟩) hrest

section

variable (h : m.Founded)
include h

theorem sustains_popValues (n : Nat) :
    guarding.Sustains m (popValues n) fun m vs => ∀ v ∈ vs, m.realm.Inside v := by
  refine sustains_get ?_
  split
  · exact sustains_underflow h
  · next taken rest hsplit =>
    obtain ⟨htaken, hrest⟩ := forall_splitTop? hsplit (List.forall_mem_nil _) h.frame.stack
    exact (keeps_setStack h hrest).bind fun _ m' hg h' _ =>
      sustains_asValues h' fun s hs => (htaken s hs).mono hg.toGrows

theorem keeps_jump (l : Label) : m.Keeps (jump l) := by
  refine sustains_get ?_
  dsimp only
  split
  · exact keeps_modifyFrame h ⟨h.frame.stack, h.frame.temps, h.frame.scopes, h.frame.callerEnv,
      h.frame.resume⟩
  · exact sustains_fatal h _

theorem keeps_jumpIf (b : Bool) (l : Label) : m.Keeps (jumpIf b l) := by
  cases b with
  | false => exact sustains_pure h trivial
  | true => exact keeps_jump h l

theorem sustains_lookedUp {α : Type} {post : Machine → α → Prop} (missing : MachineError)
    {x : Option α} (hx : ∀ a ∈ x, post m a) : guarding.Sustains m (lookedUp missing x) post := by
  cases x with
  | none => exact sustains_fatal h _
  | some a => exact sustains_pure h (hx a rfl)

theorem sustains_operand (i : OperandIndex) :
    guarding.Sustains m (operand i) fun _ _ => True :=
  sustains_get (sustains_lookedUp h _ fun _ _ => trivial)

theorem sustains_nameOf (i : OperandIndex) :
    guarding.Sustains m (nameOf i) fun _ _ => True := by
  refine (sustains_operand h i).bind fun o m' _ h' _ => ?_
  split
  · exact sustains_pure h' trivial
  · exact sustains_get (sustains_fatal h' _)

theorem sustains_temp (i : Nat) :
    guarding.Sustains m (temp i) fun m v => m.realm.Inside v :=
  sustains_get (sustains_lookedUp h _ fun v hv => h.frame.temps v (Array.mem_of_getElem? hv))

theorem keeps_setTemp (i : Nat) (hv : m.realm.Inside v) :
    m.Keeps (setTemp i v) := by
  refine sustains_get ?_
  dsimp only
  split
  · refine keeps_modifyFrame h ⟨h.frame.stack, fun w hw => ?_, h.frame.scopes, h.frame.callerEnv,
      h.frame.resume⟩
    rcases Array.mem_or_eq_of_mem_setIfInBounds hw with hw | rfl
    · exact h.frame.temps w hw
    · exact hv
  · exact sustains_fatal h _

theorem sustains_nextKey (keys : Nat) :
    guarding.Sustains m (nextKey keys) fun _ _ => True := by
  refine (sustains_temp h _).bind fun list m1 _ h1 _ => ?_
  refine (sustains_temp h1 _).bind fun object m2 _ h2 _ => sustains_get ?_
  refine (sustains_temp h2 _).bind fun position m3 _ h3 _ => ?_
  exact (keeps_setTemp h3 _ (v := .number _) trivial).bind fun _ _ _ h4 _ =>
    sustains_pure h4 trivial

end

/-! ## Scopes, functions and calls -/

theorem hasScope_bindParameters {i : Nat} {e : Environment} (h : r.HasScope i e) (hv : r.Inside v)
    (params : List String) (hargs : ∀ v ∈ args, r.Inside v) :
    r.HasScope i (bindParameters e v params args) := by
  unfold bindParameters
  generalize hfirst : e.bind "arguments" v = first
  have h : r.HasScope i first := hfirst ▸ h.bind "arguments" hv
  clear hfirst
  induction params.zipIdx generalizing first with
  | nil => exact h
  | cons param rest ih => exact ih _ (h.bind param.1 (inside_getD hargs param.2))

theorem concurs_newCallEnv (h : r.Founded) {closure : Closure} (hc : r.HasEnv closure.env)
    (hargs : ∀ v ∈ args, r.Inside v) :
    r.Concurs (newCallEnv closure args) (Guarded.newCallEnv closure args) HasEnv := by
  refine (concurs_addEnv h hc).bind fun env r1 hq1 h1 henv => ?_
  have hargs1 : ∀ v ∈ args, r1.Inside v := fun v hv => (hargs v hv).mono hq1.objects
  refine (concurs_newArray h1 hargs1).bind fun arguments r2 hq2 h2 hv => ?_
  have hargs2 : ∀ v ∈ args, r2.Inside v := fun v hv => (hargs1 v hv).mono hq2.objects
  have henv2 := henv.mono hq2.environments
  refine (concurs_modifyEnv h2 henv2 fun he => hasScope_bindParameters he hv _ hargs2).bind
    fun _ r3 hq3 h3 _ => ?_
  exact mirrors_pure h3 (henv2.mono hq3.environments)

theorem concurs_newFunction (h : r.Founded) (closure : Closure) (hc : r.HasEnv closure.env) :
    r.Concurs (allocate (·.newFunction closure)) (Guarded.lift (allocate (·.newFunction closure)))
      Inside :=
  concurs_allocate ⟨(steady_newFunction (K := fun _ => True) r trivial).toGrows, rfl, rfl, rfl⟩
    (h.newFunction hc) (inside_newFunction r _)

theorem concurs_newClosure (h : r.Founded) (a : Artifact) (info : FunctionInfo) {env : EnvRef}
    (he : r.HasEnv env) :
    r.Concurs (newClosure a info env) (Guarded.newClosure a info env) Inside := by
  unfold newClosure Guarded.newClosure
  cases info.selfBinding with
  | false => exact concurs_newFunction h _ he
  | true =>
    refine (concurs_addEnv h he).bind fun scope r1 _ h1 hs => ?_
    refine (concurs_newFunction h1 ⟨a, info, scope⟩ hs).bind fun function r2 hq2 h2 hv => ?_
    cases info.name with
    | none => exact mirrors_pure h2 hv
    | some name =>
      exact (concurs_modifyEnv h2 (hs.mono hq2.environments) fun he => he.bind name hv).bind
        fun _ _ hq h3 _ => mirrors_pure h3 (hv.mono hq.objects)

theorem concurs_newScope (h : r.Founded) {outer : EnvRef} (ho : r.HasEnv outer) (name : String)
    (hv : r.Inside v) :
    r.Concurs (newScope outer name v) (Guarded.newScope outer name v) HasEnv := by
  refine (concurs_addEnv h ho).bind fun scope r1 hq h1 hs => ?_
  exact (concurs_modifyEnv h1 hs fun he => he.bind name (hv.mono hq.objects)).bind
    fun _ _ hq h2 _ => mirrors_pure h2 (hs.mono hq.environments)

theorem grows_countRun (r : Realm) (name : String) : Grows r (r.countRun name) :=
  (steady_countRun (K := fun _ => True) r name).toGrows

theorem founded_countRun (h : r.Founded) (name : String) : (r.countRun name).Founded := by
  unfold countRun
  split
  · exact h.of_same rfl rfl
  · exact h

theorem inside_thisFor (h : r.Founded) (strict : Bool) (hv : r.Inside v) :
    r.Inside (thisFor strict v) := by
  unfold thisFor
  split
  · exact h.first
  · exact hv

/-! ## Instructions -/

theorem Founded.inside_operand (h : m.Founded) {o : Operand}
    (hv : o.value m.realm m.context.env m.frame.temps = .ok v) : m.realm.Inside v := by
  cases o with
  | constant c =>
    cases hv
    cases c <;> trivial
  | binding name =>
    have hv : m.realm.valueOf m.context.env name = .ok v := hv
    unfold valueOf at hv
    split at hv
    · next hlookup =>
      cases hv
      exact h.realm.inside_lookup hlookup
    · cases hv
  | temporary index =>
    cases hv
    exact h.frame.temp index

theorem throws_operand {o : Operand} {fault : Fault}
    (hf : o.value m.realm m.context.env m.frame.temps = .error fault) :
    m.realm.Throws fault := by
  cases o with
  | constant c => cases hf
  | binding name =>
    have hf : m.realm.valueOf m.context.env name = .error fault := hf
    unfold valueOf at hf
    split at hf
    · cases hf
    · cases hf
      trivial
  | temporary index => cases hf

theorem keeps_inFrame (h : m.Founded) {i : Instruction} (hi : i.worksInFrame = true) :
    m.Keeps (exec i) := by
  cases i with
  | storeTemp t => exact (sustains_pop h).bind fun v m1 _ h1 hv => keeps_setTemp h1 t hv
  | loadThis => exact sustains_get (keeps_push h h.this)
  | pop => exact (sustains_popSlot h).bind fun _ _ _ h1 _ => sustains_pure h1 trivial
  | dup =>
    exact (sustains_peekSlot h).bind fun s m1 _ h1 hs => keeps_modifyFrame h1 (h1.frame.push hs)
  | dupPair =>
    refine (sustains_topTwo h).bind fun top m1 _ h1 ⟨ha, hb, hrest⟩ => keeps_setStack h1 ?_
    simp only [List.forall_mem_cons]
    exact ⟨ha, hb, ha, hb, hrest⟩
  | swap =>
    refine (sustains_topTwo h).bind fun top m1 _ h1 ⟨ha, hb, hrest⟩ => keeps_setStack h1 ?_
    simp only [List.forall_mem_cons]
    exact ⟨hb, ha, hrest⟩
  | nop => exact sustains_pure h trivial
  | jump l => exact keeps_jump h l
  | jumpIfFalse l | jumpIfTrue l =>
    exact (sustains_pop h).bind fun _ _ _ h1 _ => keeps_jumpIf h1 _ l
  | exitScope =>
    refine sustains_get ?_
    dsimp only
    split
    · exact sustains_fatal h _
    · next env scopes hs =>
      have hscopes := h.frame.scopes
      rw [hs] at hscopes
      obtain ⟨henv, hrest⟩ := List.forall_mem_cons.mp hscopes
      refine (keeps_modifyFrame h ⟨h.frame.stack, h.frame.temps, hrest, h.frame.callerEnv,
        h.frame.resume⟩).bind fun _ m1 hg1 h1 _ => ?_
      exact keeps_setEnv h1 (henv.mono hg1.environments)
  | normal | breakTo target | continueTo target => exact keeps_pushCompletion h (ends_of_empty rfl)
  | normalValue | returnValue | throwValue =>
    exact (sustains_pop h).bind fun _ _ _ h1 hv => keeps_pushCompletion h1 (ends_of_value rfl hv)
  | jumpIfAbrupt l | jumpIfKind kind l | jumpUnlessKind kind l | jumpIfBreaksHere labels l
  | jumpIfContinuesHere labels l =>
    exact (sustains_peekCompletion h).bind fun _ _ _ h1 _ => keeps_jumpIf h1 _ l
  | merge =>
    refine (sustains_popCompletion h).bind fun newer m1 _ h1 hn => ?_
    exact (sustains_popCompletion h1).bind fun older m2 hg2 h2 ho =>
      keeps_pushCompletion h2 ((hn.mono hg2.toGrows).merge ho)
  | consumeBreak labels =>
    exact (sustains_popCompletion h).bind fun c m1 _ h1 hc =>
      keeps_pushCompletion h1 (hc.consumeBreak labels)
  | unwrap =>
    exact (sustains_popCompletion h).bind fun c m1 _ h1 hc => keeps_push h1 hc.valueOrUndefined
  | _ => cases hi

/-! ## Growth -/

theorem grows_exitCall (r : Realm) : Grows r r.exitCall := grows_of_objects rfl (Nat.le_refl _)

theorem grows_exec (i : Instruction) (m : Machine) :
    Grows m.realm (stateOf (exec i m)).realm := by
  refine exec_preserves (P := fun m' => Grows m.realm m'.realm) (fun hs => hs.realm.toGrows)
    fun hin => ?_
  cases hin with
  | unit _ hs => exact grows_countRun _ _
  | call hc =>
    obtain ⟨hl, -, -, -, hsteady⟩ := hc
    obtain ⟨ho, he, ha⟩ := (hsteady fun _ => True).toGrows
    exact (hl.realm.toGrows.trans ⟨ho, he, ha⟩).trans (grows_countRun _ _)

theorem grows_step (m : Machine) : Grows m.realm m.step.realm :=
  realm_step (R := Grows m.realm) (.refl _) (grows_exitCall _) (fun i _ _ => grows_exec i m.advance)
    fun r fault h => h.trans (steady_materialize (K := fun _ => True) r fault).toGrows

end Machine

end TreeScript
