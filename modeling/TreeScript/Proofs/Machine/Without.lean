import TreeScript.Proofs.Machine.Founded
import TreeScript.Proofs.Machine.Units
import TreeScript.Proofs.Realm.Without

/-!
# Code that does not name a global

A machine whose units do not mention a name does not come near the global binding of that name.  So
it takes the same steps with the binding as without it.  Names that are bound without being
mentioned, those of parameters and of functions, go into environments made for them.
-/

namespace TreeScript

open Code Realm Upkeep

/-- The unit does not mention the variable. -/
def Code.CodeUnit.Avoids (z : String) (u : CodeUnit) : Prop := z ∉ u.usedVariables

/-- No unit of the artifact mentions the variable. -/
def Code.Artifact.Avoids (z : String) (a : Artifact) : Prop := ∀ u ∈ a.units, u.Avoids z

variable {x : Exec α} {i : OperandIndex} {m' : Machine} {b : Option Binding}

theorem Code.CodeUnit.Avoids.ne {z name : String} {u : CodeUnit} (h : u.Avoids z)
    (hi : u.operands[i]? = some (.binding name)) : name ≠ z := by
  rintro rfl
  refine h ?_
  unfold usedVariables
  rw [List.mem_eraseDups, List.mem_filterMap]
  exact ⟨_, Array.mem_toList_iff.mpr (Array.mem_of_getElem? hi), rfl⟩

theorem Frame.Draws.avoids {z : String} {f : Frame} (h : f.Draws (Artifact.Avoids z)) :
    f.unit.Avoids z := by
  obtain ⟨id, hid⟩ := h.unit
  exact h.artifact _ (Array.mem_of_getElem? hid)

namespace Machine

/-! ## Parts that leave the realm alone -/

/-- A computation that does the same in every realm, and leaves it alone. -/
abbrev Inner (x : Exec α) : Prop := Commutes (fun r m => withRealm m r) x

theorem inner_modifyFrame (f : Frame → Frame) : Inner (modifyFrame f) := fun _ _ => rfl

theorem inner_setContext (context : Context) : Inner (modify ({ · with context })) := fun _ _ => rfl

theorem inner_setEnv (env : EnvRef) : Inner (setEnv env) := fun _ _ => rfl

theorem Own.inner (h : Own true x) : Inner x := by
  induction h with
  | pure a | fatal e => exact fun _ _ => rfl
  | bind _ _ ih ih' => exact ih.bind ih'
  | get hf _ ih => exact commutes_get (fun m r => hf m r m.callers m.status) ih
  | modifyFrame _ => exact inner_modifyFrame _

theorem inner_exec {i : Instruction} (h : i.worksInFrame = true) : Inner (exec i) := by
  by_cases hs : i = .exitScope
  · subst hs
    refine commutes_get (fun _ _ => rfl) fun m => ?_
    dsimp only
    split
    · exact (Own.fatal _).inner
    · exact (inner_modifyFrame _).bind fun _ => inner_setEnv _
  · exact (own_exec h hs).inner

/-! ## Computations that spare a global -/

def without (z : String) (m : Machine) : Machine := m.withRealm (m.realm.without z)

def sparing (z : String) : Upkeep Interrupt Machine where
  along m m' := m'.realm.globalBinding z = m.realm.globalBinding z
  refl _ := rfl
  trans h h' := h'.trans h
  holds m := m.realm.HasEnv globalEnv
  fails _ _ := True

/-- From `m` a computation does the same with the global binding of the name and without it, and
does not touch it. -/
abbrev Spares (z : String) (m : Machine) (x : Exec α) (A : Machine → α → Prop) : Prop :=
  (sparing z).Mirrors (without z) id m x x A

variable {m : Machine} {z : String}

theorem spares_of_inner (hx : Inner x) (hm : m.realm.HasEnv globalEnv) {A : Machine → α → Prop}
    (hA : ∀ a m', x m = .ok a m' → A m' a) : m.Spares z x A := by
  refine mirrors_of_commutes (i := m.realm) (j := m.realm.without z) hx rfl rfl (fun m' h => ?_) hA
    fun _ _ => trivial
  have h := congrArg Machine.realm h
  show m'.realm.globalBinding z = m.realm.globalBinding z ∧ m'.realm.HasEnv globalEnv ∧
    m'.withRealm (m.realm.without z) = m'.without z
  unfold without
  rw [← h]
  exact ⟨rfl, hm, rfl⟩

theorem spares_inner (hx : Inner x) (hm : m.realm.HasEnv globalEnv) :
    m.Spares z x fun _ _ => True :=
  spares_of_inner hx hm fun _ _ _ => trivial

theorem spares_own (hx : Own true x) (hm : m.realm.HasEnv globalEnv) :
    m.Spares z x fun _ _ => True :=
  spares_inner hx.inner hm

theorem mirrors_inRealm {x y : RealmM α} {A : Realm → α → Prop}
    (h : (Realm.sparing z).Mirrors (Realm.without z) id m.realm x y A) :
    (sparing z).Mirrors (without z) id m (inRealm x) (inRealm y) fun m' a => A m'.realm a := by
  have hsustains := h.sustains
  have heq := h.eq
  have hrealm : (m.without z).realm = m.realm.without z := rfl
  unfold Sustains at hsustains
  cases hrun : x m.realm with
  | ok a r =>
    rw [hrun] at hsustains heq
    refine ⟨?_, ?_⟩
    · unfold Sustains
      rw [inRealm_eq, hrun]
      exact hsustains
    · rw [inRealm_eq y, hrealm, heq, inRealm_eq x, hrun]
      rfl
  | error e r =>
    rw [hrun] at hsustains heq
    refine ⟨?_, ?_⟩
    · unfold Sustains
      rw [inRealm_eq, hrun]
      exact ⟨hsustains.1, hsustains.2.1, trivial⟩
    · rw [inRealm_eq y, hrealm, heq, inRealm_eq x, hrun]
      rfl

theorem operand_ok {o : Operand} (h : operand i m = .ok o m') :
    m.frame.unit.operands[i]? = some o := by
  unfold operand at h
  rw [get_bind] at h
  cases ho : m.frame.unit.operands[i]? with
  | none =>
    rw [ho] at h
    cases h
  | some o' =>
    rw [ho] at h
    cases h
    rfl

theorem nameOf_ok {name : String} (h : nameOf i m = .ok name m') :
    m.frame.unit.operands[i]? = some (.binding name) := by
  cases hx : operand i m with
  | error e m1 =>
    rw [show nameOf i m = _ from bind_error hx] at h
    cases h
  | ok o m1 =>
    rw [show nameOf i m = _ from bind_ok hx] at h
    cases o with
    | binding name' =>
      cases h
      exact operand_ok hx
    | constant c => cases h
    | temporary t => cases h

theorem spares_nameOf (hm : m.realm.HasEnv globalEnv) (hu : m.frame.unit.Avoids z)
    (i : OperandIndex) : m.Spares z (nameOf i) fun _ name => name ≠ z :=
  spares_of_inner (own_nameOf i).inner hm fun _ _ h => hu.ne (nameOf_ok h)

/-! ## Calls and functions -/

variable {r : Realm}

theorem spares_newCallEnv (hr : r.HasEnv globalEnv) (closure : Closure) (args : List Value) :
    r.Spares z (newCallEnv closure args) fun _ _ => True := by
  refine (spares_addEnv hr _).bind fun env r1 _ h1 henv => ?_
  refine (spares_of_envless (envless_allocate fun _ _ => rfl) h1).bind fun arguments r2 _ h2 _ => ?_
  exact (spares_modifyLocal h2 henv _).bind fun _ _ _ hr _ => mirrors_pure hr trivial

theorem spares_newClosure (hr : r.HasEnv globalEnv) (a : Artifact) (info : FunctionInfo)
    (env : EnvRef) : r.Spares z (newClosure a info env) fun _ _ => True := by
  unfold newClosure
  split
  · refine (spares_addEnv hr _).bind fun scope r1 _ h1 hscope => ?_
    refine (spares_of_envless (envless_allocate fun _ _ => rfl) h1).bind
      fun function r2 _ h2 _ => ?_
    dsimp only
    split
    · exact mirrors_pure h2 trivial
    · exact (spares_modifyLocal h2 hscope _).bind fun _ _ _ hr _ => mirrors_pure hr trivial
  · exact spares_of_envless (envless_allocate fun _ _ => rfl) hr

theorem spares_newScope (hr : r.HasEnv globalEnv) (outer : EnvRef) (name : String) (v : Value) :
    r.Spares z (newScope outer name v) fun _ _ => True :=
  (spares_addEnv hr _).bind fun _ _ _ h1 hscope =>
    (spares_modifyLocal h1 hscope _).bind fun _ _ _ hr _ => mirrors_pure hr trivial

theorem countRun_without (r : Realm) (z name : String) :
    (r.without z).countRun name = (r.countRun name).without z := by
  have htrace : (r.without z).traceUnits = r.traceUnits := rfl
  unfold countRun
  rw [htrace]
  split <;> rfl

theorem globalBinding_congr {r' : Realm} (h : r'.environments = r.environments) (z : String) :
    r'.globalBinding z = r.globalBinding z := by
  unfold globalBinding env
  rw [h]

theorem hasEnv_congr {r' : Realm} (h : r'.environments = r.environments) {ref : EnvRef}
    (hr : r.HasEnv ref) : r'.HasEnv ref := by
  unfold HasEnv
  rw [h]
  exact hr

theorem spares_enter (hm : m.realm.HasEnv globalEnv) (callee : Frame) :
    m.Spares z (enter callee) fun _ _ => True := by
  have henvs := environments_countRun m.realm callee.unit.name
  refine mirrors_modify (globalBinding_congr henvs z) (hasEnv_congr henvs hm) trivial ?_
  unfold without withRealm
  dsimp only
  rw [countRun_without]

theorem toText_without (r : Realm) (z : String) (v : Value) :
    (r.without z).toText v = r.toText v :=
  toText_withEnvs r _ v

theorem endlessKey_without (r : Realm) (z : String) (list : ObjectRef) (object : Option ObjectRef)
    (n position : Nat) :
    endlessKey (r.without z) list object n position = endlessKey r list object n position := by
  induction n generalizing position with
  | zero => rfl
  | succ n ih =>
    have hget : (r.without z).getFrom list = r.getFrom list := rfl
    have hhas : (r.without z).hasProperty = r.hasProperty := rfl
    have htext (v : Value) : (r.without z).text? v = r.text? v := text?_withEnvs r _ v
    simp only [endlessKey, hget, hhas, htext, ih]

theorem hangs_without (m : Machine) (z : String) (i : Instruction) :
    (m.without z).hangs i = m.hangs i := by
  have hendless (vs : List Value) : (m.without z).realm.endless vs = m.realm.endless vs :=
    endless_withEnvs m.realm _ vs
  cases i with
  | operate op =>
    have hconverted (args : List Value) :
        (m.without z).realm.converted op args = m.realm.converted op args := by
      cases op with
      | putProperty strict =>
        show ite ((_ && (m.realm.without z).toText _ == _) = true) _ _ = _
        rw [toText_without]
        rfl
      | _ => rfl
    show (m.operands? op).any (fun args => (m.without z).realm.endless _) = _
    simp only [hendless, hconverted]
    rfl
  | forInStep keys exhausted =>
    have hnumber (v : Value) : (m.without z).realm.toNumber v = m.realm.toNumber v :=
      toNumber_withEnvs _ _ v
    have hkey := endlessKey_without m.realm z
    show (m.enumeration? keys).any (fun e => _) = (m.enumeration? keys).any (fun e => _)
    refine congrArg (Option.any · _) (funext fun e => ?_)
    obtain ⟨list, object, cursor⟩ := e
    dsimp only
    rw [hendless, hnumber]
    exact congrArg (_ || Option.any · _) (funext fun ref => hkey ref _ _ _)
  | _ => rfl

theorem spares_enterFunction (hm : m.realm.HasEnv globalEnv) (callee receiver : Value)
    (args : List Value) (constructed : Option Value) :
    m.Spares z (enterFunction callee receiver args constructed) fun _ _ => True := by
  have hobject (ref : ObjectRef) : (m.without z).realm.object ref = m.realm.object ref := rfl
  have htext : (m.without z).realm.toText callee = m.realm.toText callee := toText_without _ _ _
  refine mirrors_get ?_
  simp only [hobject, htext]
  cases callee.object? >>= fun ref => (m.realm.object ref).closure? with
  | none => exact mirrors_throw hm trivial rfl
  | some closure =>
    refine mirrors_get ?_
    refine (spares_own (own_startFrame _ _ _) hm).bind fun frame m1 _ h1 _ => ?_
    refine mirrors_get ?_
    have hdepth : (m1.without z).realm.enterCall? = m1.realm.enterCall?.map (Realm.without z) := by
      show (if m1.realm.callDepth < m1.realm.maxCallDepth then _ else _) = _
      unfold enterCall?
      split <;> rfl
    rw [hdepth]
    cases hr : m1.realm.enterCall? with
    | none => exact mirrors_throw h1 trivial rfl
    | some r =>
      have henvs : r.environments = m1.realm.environments := by
        rw [← (enterCall?_eq_some hr).2]
      have hset : (sparing z).Mirrors (without z) id m1 (modifyRealm fun _ => r)
          (modifyRealm fun _ => r.without z) fun _ _ => True :=
        mirrors_inRealm (A := fun _ _ => True) (mirrors_modify (U := Realm.sparing z)
          (globalBinding_congr henvs z) (hasEnv_congr henvs h1) trivial rfl)
      refine hset.bind fun _ m2 _ h2 _ => ?_
      refine (mirrors_inRealm (spares_newCallEnv h2 closure args)).bind fun env m3 _ h3 _ => ?_
      exact (spares_inner (inner_setContext _) h3).bind fun _ m4 _ h4 _ => spares_enter h4 frame

theorem spares_construct (hm : m.realm.HasEnv globalEnv) (callee : Value) (args : List Value) :
    m.Spares z (construct callee args) fun _ _ => True := by
  have hcall : (m.without z).realm.isCallable callee = m.realm.isCallable callee := rfl
  have hread : (m.without z).realm.read callee "prototype" = m.realm.read callee "prototype" := rfl
  have htext : (m.without z).realm.toText callee = m.realm.toText callee := toText_without _ _ _
  refine mirrors_get ?_
  simp only [hcall, hread, htext]
  split
  · refine (mirrors_inRealm (spares_of_envless (acts_liftExcept _).envless hm)).bind
      fun prototype m1 _ h1 _ => ?_
    refine (mirrors_inRealm (spares_of_envless (envless_allocate fun _ _ => rfl) h1)).bind
      fun object m2 _ h2 _ => spares_enterFunction h2 callee object args object
  · exact mirrors_throw hm trivial rfl

/-! ## Instructions -/

theorem spares_push (hm : m.realm.HasEnv globalEnv) (v : Value) :
    m.Spares z (push v) fun _ _ => True :=
  spares_inner (inner_modifyFrame _) hm

theorem spares_operate (hm : m.realm.HasEnv globalEnv) (op : Operation) :
    m.Spares z (operate op) fun _ _ => True := by
  have hargs : m.Spares z (popValues op.arity) fun _ _ => True :=
    spares_own (own_popValues _) hm
  cases op with
  | call argc => exact hargs.bind fun args _ _ h _ => spares_enterFunction h _ _ _ _
  | construct argc => exact hargs.bind fun args _ _ h _ => spares_construct h _ _
  | _ =>
    exact hargs.bind fun args _ _ h _ =>
      (mirrors_inRealm (spares_of_envless (acts_apply _ args).envless h)).bind
        fun v _ _ h _ => spares_push h v

theorem nextPresent_without (r : Realm) (z : String) (list : ObjectRef) (object : Option ObjectRef)
    (n position : Nat) :
    nextPresent (r.without z) list object n position = nextPresent r list object n position := by
  have hget : (r.without z).getFrom list = r.getFrom list := rfl
  have hhas (ref : ObjectRef) (key : String) :
      (r.without z).hasProperty ref key = r.hasProperty ref key := rfl
  induction n generalizing position with
  | zero => rfl
  | succ n ih =>
    unfold nextPresent
    simp only [hget, toText_without, hhas, ih]

theorem spares_nextKey (hm : m.realm.HasEnv globalEnv) (keys : Nat) :
    m.Spares z (nextKey keys) fun _ _ => True := by
  refine (spares_own (own_temp _) hm).bind fun list m1 _ h1 _ => ?_
  refine (spares_own (own_temp _) h1).bind fun object m2 _ h2 _ => ?_
  refine mirrors_get ?_
  have hnumber (v : Value) : (m2.without z).realm.toNumber v = m2.realm.toNumber v :=
    toNumber_withEnvs _ _ v
  have hobject (ref : ObjectRef) : (m2.without z).realm.object ref = m2.realm.object ref := rfl
  have hnext (list : ObjectRef) (object : Option ObjectRef) (n position : Nat) :
      nextPresent (m2.without z).realm list object n position =
        nextPresent m2.realm list object n position :=
    nextPresent_without _ _ _ _ _ _
  simp only [hnumber, hobject, hnext]
  exact (spares_own (own_temp _) h2).bind fun position m3 _ h3 _ =>
    spares_own ((own_setTemp _ _).bind fun _ => .pure _) h3

theorem value_without (r : Realm) {o : Operand} (h : ∀ name, o = .binding name → name ≠ z)
    (env : EnvRef) (temps : Array Value) :
    o.value (r.without z) env temps = o.value r env temps := by
  cases o with
  | binding name => exact valueOf_without r (h name rfl) env
  | constant c => rfl
  | temporary t => rfl

theorem spares_exec (hm : m.realm.HasEnv globalEnv) (hu : m.frame.unit.Avoids z)
    (i : Instruction) : m.Spares z (exec i) fun _ _ => True := by
  cases i with
  | load i =>
    refine Mirrors.bind (A := fun _ o => ∀ name, o = .binding name → name ≠ z)
      (spares_of_inner (own_operand i).inner hm fun o _ ho name hname => ?_)
      fun o m1 _ h1 ho => mirrors_get ?_
    · exact hu.ne (hname ▸ operand_ok ho)
    · have hvalue : o.value (m1.without z).realm (m1.without z).context.env
          (m1.without z).frame.temps = o.value m1.realm m1.context.env m1.frame.temps :=
        value_without m1.realm ho _ _
      rw [hvalue]
      exact (mirrors_inRealm (spares_of_envless (acts_liftExcept _).envless h1)).bind
        fun v _ _ h _ => spares_push h v
  | store i strict =>
    refine (spares_nameOf hm hu i).bind fun name m1 _ h1 hname => ?_
    refine (spares_own own_peek h1).bind fun v m2 _ h2 _ => mirrors_get ?_
    exact mirrors_inRealm (spares_assign h2 hname _ v strict)
  | typeOfVariable i =>
    refine (spares_nameOf hm hu i).bind fun name m1 _ h1 hname => mirrors_get ?_
    have hlookup : (m1.without z).realm.lookup (m1.without z).context.env name =
        m1.realm.lookup m1.context.env name := lookup_without m1.realm hname _
    have htype (v : Value) : (m1.without z).realm.typeName v = m1.realm.typeName v := rfl
    simp only [hlookup, htype]
    exact spares_push h1 _
  | deleteVariable i =>
    refine (spares_nameOf hm hu i).bind fun name m1 _ h1 hname => mirrors_get ?_
    exact (mirrors_inRealm (spares_deleteBinding h1 hname _)).bind fun _ _ _ h _ => spares_push h _
  | declareVariable i =>
    refine (spares_nameOf hm hu i).bind fun name m1 _ h1 hname => mirrors_get ?_
    exact mirrors_inRealm (spares_declare h1 hname _ false)
  | initializeBinding i =>
    refine (spares_nameOf hm hu i).bind fun name m1 _ h1 hname => ?_
    refine (spares_own own_pop h1).bind fun v m2 _ h2 _ => mirrors_get ?_
    exact mirrors_inRealm (spares_bind h2 hname _ v)
  | makeClosure f =>
    refine Mirrors.bind (A := fun _ _ => True) (mirrors_get ?_) fun v _ _ h _ => spares_push h v
    have hfunction : (m.without z).frame.artifact.function? f = m.frame.artifact.function? f := rfl
    rw [hfunction]
    cases m.frame.artifact.function? f with
    | none => exact spares_own (Own.fatal _) hm
    | some info => exact mirrors_inRealm (spares_newClosure hm _ info _)
  | invoke id =>
    refine mirrors_get ?_
    exact (spares_own (own_startFrame _ id .unit) hm).bind
      fun callee _ _ h _ => spares_enter h callee
  | operate op => exact spares_operate hm op
  | enterCatch i =>
    refine (spares_nameOf hm hu i).bind fun name m1 _ h1 hname => ?_
    refine (spares_own own_pop h1).bind fun v m2 _ h2 _ => mirrors_get ?_
    refine (mirrors_inRealm (spares_newScope h2 _ name v)).bind fun scope m3 _ h3 _ => ?_
    exact spares_inner ((inner_modifyFrame _).bind fun _ => inner_setEnv scope) h3
  | forInStep keys l =>
    refine (spares_nextKey hm keys).bind fun key m1 _ h1 _ => ?_
    cases key with
    | some key => exact spares_push h1 _
    | none => exact spares_own (own_jump l) h1
  | _ => exact spares_inner (inner_exec rfl) hm

end Machine

/-! ## Steps and runs -/

def Transition.without (z : String) : Transition → Transition
  | .next m => .next (m.without z)
  | .halt result r context => .halt result (r.without z) context

def Outcome.without (z : String) : Outcome → Outcome
  | .exhausted m => .exhausted (m.without z)
  | .halted result r context => .halted result (r.without z) context

namespace Machine

variable {m : Machine} {z : String}

theorem leave_without (m : Machine) (z : String) (c : Completion) :
    (m.without z).leave c = (m.leave c).without z := by
  obtain ⟨realm, context, frame, callers, status⟩ := m
  cases callers with
  | nil => rfl
  | cons caller callers =>
    cases hr : frame.resume with
    | unit =>
      rw [leave_unit c rfl hr, leave_unit c rfl hr]
      rfl
    | call this strict constructed =>
      rw [leave_call c rfl hr, leave_call c rfl hr]
      cases CallResult.ofCompletion c constructed <;> rfl

theorem throwFault_without (m : Machine) (z : String) (fault : Fault) :
    (m.without z).throwFault fault = (m.throwFault fault).without z := by
  cases fault <;> rfl

theorem step_without (hd : m.Draws (Artifact.Avoids z)) (hm : m.realm.HasEnv globalEnv) :
    (m.without z).step = m.step.without z := by
  have hstatus : (m.without z).status = m.status := rfl
  unfold step
  rw [hstatus]
  cases m.status with
  | finishing c => exact leave_without m z c
  | hanging => rfl
  | running =>
    have hframe : (m.without z).frame = m.frame := rfl
    have hadvance : (m.without z).advance = m.advance.without z := rfl
    unfold proceed
    rw [hframe, hadvance]
    cases m.frame.unit.instructions[m.frame.next]? with
    | none => cases m.frame.finish <;> rfl
    | some i =>
      have hexec := (spares_exec (m := m.advance) hm hd.frame.avoids i).eq
      dsimp only
      rw [hexec, hangs_without]
      split
      · rfl
      · cases exec i m.advance with
        | ok u m' => rfl
        | error e m' =>
          cases e with
          | thrown fault => exact congrArg Transition.next (throwFault_without m' z fault)
          | fatal e => rfl

theorem globalBinding_step (hd : m.Draws (Artifact.Avoids z)) (hm : m.realm.HasEnv globalEnv) :
    m.step.realm.globalBinding z = m.realm.globalBinding z := by
  refine realm_step (R := fun r => r.globalBinding z = m.realm.globalBinding z) rfl
    (globalBinding_congr rfl z) (fun i _ _ => ?_) fun r fault h => ?_
  · have hspares := (spares_exec (m := m.advance) hm hd.frame.avoids i).sustains
    unfold Sustains at hspares
    cases he : exec i m.advance with
    | ok u m' | error e m' =>
      rw [he] at hspares
      exact hspares.1
  · refine (globalBinding_congr ?_ z).trans h
    cases fault <;> rfl

/-- What a run keeps that does not mention the name, from a global binding `b`. -/
structure Sparing (z : String) (b : Option Binding) (m : Machine) : Prop where
  draws : m.Draws (Artifact.Avoids z)
  global : m.realm.HasEnv globalEnv
  binding : m.realm.globalBinding z = b

theorem Sparing.next (h : m.Sparing z b) (hs : m.step = .next m') : m'.Sparing z b := by
  have hbinding := globalBinding_step h.draws h.global
  have hgrows := m.grows_step
  rw [hs] at hbinding hgrows
  exact ⟨h.draws.next hs, h.global.mono hgrows.environments, hbinding.trans h.binding⟩

theorem Sparing.halt {result : Except MachineError Completion} {r : Realm} {context : Context}
    (h : m.Sparing z b) (hs : m.step = .halt result r context) :
    r.globalBinding z = b := by
  have hbinding := globalBinding_step h.draws h.global
  rw [hs] at hbinding
  exact hbinding.trans h.binding

theorem run_without (h : m.Sparing z b) (n : Nat) :
    run n (m.without z) = (run n m).without z := by
  induction n generalizing m with
  | zero => rfl
  | succ n ih =>
    unfold run
    rw [step_without h.draws h.global]
    cases hs : m.step with
    | next m' => exact ih (h.next hs)
    | halt result r context => rfl

theorem sparing_start {a : Artifact} {id : UnitId} {r : Realm} {context : Context} {f : Frame}
    (hr : r.Draws (Artifact.Avoids z)) (hg : r.HasEnv globalEnv) (ha : a.Avoids z)
    (hs : Frame.start a id context.env .unit = .ok f) :
    Sparing z (r.globalBinding z) { realm := r.countRun f.unit.name, context, frame := f } :=
  ⟨draws_start hr ha hs, hasEnv_congr (environments_countRun r _) hg,
    globalBinding_congr (environments_countRun r _) z⟩

end Machine

section

variable {fuel : Nat} {a : Artifact} {id : UnitId} {r r' : Realm} {context context' : Context}
  {z : String}

theorem invoke_without (hr : r.Draws (Artifact.Avoids z)) (hg : r.HasEnv globalEnv)
    (ha : a.Avoids z) (fuel : Nat) (id : UnitId) (context : Context) :
    invoke fuel a id (r.without z) context = (invoke fuel a id r context).without z := by
  unfold invoke
  cases hs : Frame.start a id context.env .unit with
  | error e => rfl
  | ok frame =>
    have hrun := Machine.run_without (Machine.sparing_start hr hg ha hs) fuel
    have hstart : Machine.without z { realm := r.countRun frame.unit.name, context, frame } =
        { realm := (r.without z).countRun frame.unit.name, context, frame } := by
      rw [Machine.countRun_without]
      rfl
    rw [hstart] at hrun
    dsimp only
    rw [hrun]
    cases Machine.run fuel { realm := r.countRun frame.unit.name, context, frame } with
    | exhausted m => rfl
    | halted result r' context' => cases result <;> rfl

theorem globalBinding_invoke {result : Except MachineError Completion}
    (hr : r.Draws (Artifact.Avoids z)) (hg : r.HasEnv globalEnv) (ha : a.Avoids z)
    (h : invoke fuel a id r context = .halted result r' context') :
    r'.globalBinding z = r.globalBinding z :=
  realm_of_invoke (P := Machine.Sparing z (r.globalBinding z))
    (R := fun r' => r'.globalBinding z = r.globalBinding z) (fun hm hs => hm.next hs)
    (fun hm hs => hm.halt hs) (fun hr => hr) rfl
    (fun _ hs => Machine.sparing_start hr hg ha hs) h

end

end TreeScript
