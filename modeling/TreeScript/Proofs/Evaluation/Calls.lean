import TreeScript.Proofs.Evaluation.Expressions
import TreeScript.Proofs.Realm.Arrays
import TreeScript.Proofs.Realm.Bindings

/-!
# Calls

A function is called on a receiver, or to make an object.  Either way its body runs in a new
environment, and the caller then goes on where it was, with the result on its stack or with a throw.
The body is a frame of its own, so what it gives is told by `Frame.Ends`, whatever it calls in turn.
-/

namespace TreeScript

open Code Machine

/-! ## Parameters -/

namespace Environment

theorem get?_bind (e : Environment) (name : String) (v : Value) (name' : String) :
    (e.bind name v).get? name' = if name' = name then some v else e.get? name' := by
  unfold get? Environment.bind
  rw [KeyTable.find?_insert]
  split <;> rfl

def bindAll (e : Environment) (names : List String) (args : List Value) (k : Nat) : Environment :=
  (names.zipIdx k).foldl (fun e (name, i) => e.bind name (args.getD i .undefined)) e

variable {names : List String} {args : List Value}

theorem bindAll_cons (e : Environment) (name : String) (names : List String) (args : List Value)
    (k : Nat) : e.bindAll (name :: names) args k =
      (e.bind name (args.getD k .undefined)).bindAll names args (k + 1) := rfl

theorem outer_bindAll (e : Environment) (names : List String) (args : List Value) (k : Nat) :
    (e.bindAll names args k).outer = e.outer := by
  induction names generalizing e k with
  | nil => rfl
  | cons name names ih => exact ih _ _

theorem get?_bindAll_of_not_mem {name : String} (h : name ∉ names) (e : Environment) (k : Nat) :
    (e.bindAll names args k).get? name = e.get? name := by
  induction names generalizing e k with
  | nil => rfl
  | cons first names ih =>
    obtain ⟨hne, hrest⟩ := not_or.mp (mt List.mem_cons.mpr h)
    rw [bindAll_cons, ih hrest, get?_bind, if_neg hne]

theorem get?_bindAll {i : Nat} {name : String} (hi : names[i]? = some name)
    (hlast : name ∉ names.drop (i + 1)) (e : Environment) (k : Nat) :
    (e.bindAll names args k).get? name = some (args.getD (k + i) .undefined) := by
  induction names generalizing e k i with
  | nil => cases hi
  | cons first names ih =>
    rw [bindAll_cons]
    cases i with
    | zero =>
      cases hi
      have hrest : name ∉ names := hlast
      rw [get?_bindAll_of_not_mem hrest, get?_bind, if_pos rfl]
      rfl
    | succ i => rw [ih hi hlast, Nat.add_right_comm, Nat.add_assoc]

end Environment

theorem Machine.bindParameters_eq (e : Environment) (arguments : Value) (params : List String)
    (args : List Value) :
    bindParameters e arguments params args =
      (e.bind "arguments" arguments).bindAll params args 0 := rfl

/-! ## The environment of a call -/

namespace Realm

/-- From `r` to `r'` the environment of a call is made: no environment that was there, inside that
of the closure.  Each parameter has the argument of the last place where it stands, or `undefined`
if there are not so many, and `arguments` is a new array, unless there is such a parameter.  No
other name is bound, and everything that was there is as it was. -/
structure OpensCall (r : Realm) (closure : Closure) (args : List Value) (env : EnvRef)
    (r' : Realm) : Prop where
  fresh : ¬ r.HasEnv env
  outer : (r'.env env).outer = some closure.env
  params : ∀ i name, closure.info.params[i]? = some name →
    name ∉ closure.info.params.drop (i + 1) →
    (r'.env env).get? name = some (args.getD i .undefined)
  arguments : "arguments" ∉ closure.info.params → ∃ ref o,
    (r'.env env).get? "arguments" = some (.object ref) ∧ r.object? ref = none ∧
      r'.object? ref = some o ∧ o.Lists args ∧ o.prototype = some arrayPrototype
  unbound : ∀ name, name ∉ closure.info.params → name ≠ "arguments" →
    (r'.env env).get? name = none
  environments : ∀ ref, r.HasEnv ref → r'.env ref = r.env ref
  objects : ∀ ref o, r.object? ref = some o → r'.object? ref = some o

variable {closure : Closure} {args : List Value} {env : EnvRef} {r r0 r' : Realm}

def withCall (r : Realm) (closure : Closure) (args : List Value) : Realm :=
  { r with
    objects := r.objects.push (.ofElements arrayPrototype args)
    environments := r.environments.push (bindParameters { outer := some closure.env }
      (.object ⟨r.objects.size⟩) closure.info.params args) }

theorem newCallEnv_withCall (closure : Closure) (args : List Value) (r : Realm) :
    newCallEnv closure args r = .ok ⟨r.environments.size⟩ (r.withCall closure args) := by
  exact congrArg (fun environments => EStateM.Result.ok _
    { r with objects := r.objects.push (.ofElements arrayPrototype args), environments })
    (modify_push_environment _ _ _)

theorem opensCall_of_push {objects : Array Object}
    (he : r'.environments = r.environments.push (bindParameters { outer := some closure.env }
      (.object ⟨objects.size⟩) closure.info.params args))
    (ho : r'.objects = objects.push (.ofElements arrayPrototype args))
    (hold : ∀ ref o, r.object? ref = some o → objects[ref.index]? = some o) :
    r.OpensCall closure args ⟨r.environments.size⟩ r' := by
  have henv (ref : EnvRef) : r'.env ref =
      if ref.index = r.environments.size then
        bindParameters { outer := some closure.env } (.object ⟨objects.size⟩)
          closure.info.params args
      else r.env ref := by
    rw [env_eq, env_eq, he, Array.getElem?_push]
    split <;> rfl
  have hnew : r'.env ⟨r.environments.size⟩ = _ := henv _
  rw [if_pos rfl, bindParameters_eq] at hnew
  have hfresh : r.object? ⟨objects.size⟩ = none := by
    cases hr : r.object? ⟨objects.size⟩ with
    | none => rfl
    | some o =>
      obtain ⟨hlt, -⟩ := Array.getElem?_eq_some_iff.mp (hold _ o hr)
      exact absurd hlt (Nat.lt_irrefl _)
  refine ⟨Nat.lt_irrefl _, ?_, fun i name hi hlast => ?_, fun hnot => ?_, fun name hnot hne => ?_,
    fun ref href => ?_, fun ref o hr => ?_⟩
  · rw [hnew, Environment.outer_bindAll]
    rfl
  · rw [hnew, Environment.get?_bindAll hi hlast, Nat.zero_add]
  · refine ⟨⟨objects.size⟩, _, ?_, hfresh, ?_, Object.lists_ofElements arrayPrototype args, rfl⟩
    · rw [hnew, Environment.get?_bindAll_of_not_mem hnot, Environment.get?_bind, if_pos rfl]
    · unfold object?
      rw [ho]
      exact Array.getElem?_push_size
  · rw [hnew, Environment.get?_bindAll_of_not_mem hnot, Environment.get?_bind, if_neg hne]
    rfl
  · rw [henv, if_neg (Nat.ne_of_lt href)]
  · obtain ⟨hlt, -⟩ := Array.getElem?_eq_some_iff.mp (hold ref o hr)
    unfold object?
    rw [ho, Array.getElem?_push, if_neg (Nat.ne_of_lt hlt)]
    exact hold ref o hr

end Realm

/-! ## Callers and callees -/

inductive CallForm where
  | call (receiver : Value)
  | construct

namespace CallForm

def operation (argc : Nat) : CallForm → Operation
  | call _ => .call argc
  | construct => .construct argc

/-- What the caller has pushed for a call. -/
def operands (callee : Value) (args : List Value) : CallForm → List Value
  | call receiver => [receiver, callee] ++ args
  | construct => [callee] ++ args

/-- What the function is called on.  For a construction that is an object which is new in `r'` and
has nothing but a prototype: the function's `prototype` in `r`, if it is an object. -/
def Receives (function : ObjectRef) (r r' : Realm) (receiver : Value) : CallForm → Prop
  | call v => receiver = v
  | construct => ∃ ref, receiver = .object ref ∧ r.object? ref = none ∧
      r'.object? ref = some { kind := .ordinary, prototype :=
        (r.getFrom function "prototype").object?.getD Realm.objectPrototype }

theorem Receives.of_added {function : ObjectRef} {r r1 r' : Realm} {receiver : Value}
    {form : CallForm} (h : form.Receives function r r1 receiver)
    (ho : ∀ ref o, r1.object? ref = some o → r'.object? ref = some o) :
    form.Receives function r r' receiver := by
  cases form with
  | call v => exact h
  | construct =>
    obtain ⟨ref, rfl, hfresh, hnew⟩ := h
    exact ⟨ref, rfl, hfresh, ho ref _ hnew⟩

/-- What the caller gets if the body gives `v`. -/
def result (receiver v : Value) : CallForm → Value
  | call _ => v
  | construct => if v.object?.isSome then v else receiver

def constructed (receiver : Value) : CallForm → Option Value
  | call _ => none
  | construct => some receiver

variable {c : Completion}

theorem ofCompletion_return (form : CallForm) (receiver : Value) (h : c.kind = .return) :
    CallResult.ofCompletion c (form.constructed receiver) =
      .value (form.result receiver c.valueOrUndefined) := by
  cases form <;> simp only [CallResult.ofCompletion, h, constructed, result]

theorem ofCompletion_normal (form : CallForm) (receiver : Value) (h : c.kind = .normal) :
    CallResult.ofCompletion c (form.constructed receiver) =
      .value (form.result receiver .undefined) := by
  cases form <;> simp only [CallResult.ofCompletion, h, constructed, result]

end CallForm

namespace Machine

structure AtCall (m : Machine) (form : CallForm) (function : ObjectRef) (args : List Value)
    (rest : List Slot) : Prop where
  running : m.status = .running
  next : m.frame.unit.instructions[m.frame.next]? = some (.operate (form.operation args.length))
  stack : m.frame.stack = slots (form.operands (.object function) args) ++ rest

def calling (m : Machine) (rest : List Slot) : Frame :=
  { m.frame with stack := rest, next := m.frame.next + 1 }

/-- From `m` to `m₁` the body of a function was entered, on top of the frame that calls it. -/
structure EntersBody (m : Machine) (closure : Closure) (receiver : Value) (args : List Value)
    (rest : List Slot) (m₁ : Machine) : Prop where
  opens : m.realm.OpensCall closure args m₁.context.env m₁.realm
  globalThis : closure.info.strict = false → receiver = .undefined ∨ receiver = .null →
    m₁.context.this = .object Realm.globalObject
  ownThis : ¬ (closure.info.strict = false ∧ (receiver = .undefined ∨ receiver = .null)) →
    m₁.context.this = receiver
  strict : m₁.context.strict = closure.info.strict
  artifact : m₁.frame.artifact = closure.artifact
  unit : closure.artifact.unit? closure.info.unit = some m₁.frame.unit
  start : m₁.frame.next = 0 ∧ m₁.frame.stack = [] ∧ m₁.frame.scopes = [] ∧
    m₁.frame.temps = Array.replicate m₁.frame.unit.tempCount .undefined
  callers : m₁.callers = m.calling rest :: m.callers
  status : m₁.status = .running
  depth : m₁.realm.callDepth = m.realm.callDepth + 1

/-- How the caller goes on when the body that was entered in `m1` has ended with `c`.  Nothing of
the caller has changed but what it gets: the result on its stack, or a throw that ends its frame. -/
def GoesOn (m : Machine) (form : CallForm) (receiver : Value) (rest : List Slot) (m1 : Machine)
    (c : Completion) (r : Realm) : Prop :=
  let back (v : Value) : Machine :=
    ⟨r.exitCall, m.context, (m.calling rest).push (.value v), m.callers, .running⟩
  match c.kind with
  | .return => m1.Reaches (back (form.result receiver c.valueOrUndefined))
  | .normal => m1.Reaches (back (form.result receiver .undefined))
  | .throw => m1.Reaches ⟨r.exitCall, m.context, m.calling rest, m.callers,
      .finishing (.throwing c.valueOrUndefined)⟩
  | kind => ∃ m2, m1.Reaches m2 ∧
      m2.step = .halt (.error (.escapedCompletion kind m1.frame.unit.name)) r.exitCall m.context

variable {m m1 : Machine} {form : CallForm} {function : ObjectRef} {args : List Value}
  {rest : List Slot} {closure : Closure} {unit : CodeUnit} {receiver : Value} {r r' : Realm}
  {c : Completion}

def readied (m : Machine) (rest : List Slot) (r : Realm) : Machine :=
  (m.advance.withStack rest).withRealm r

/-- Both forms of call come down to entering the function.  A construction makes its object
first. -/
theorem exec_atCall (hm : m.AtCall form function args rest)
    (hc : (m.realm.object function).closure? = some closure) :
    ∃ receiver r, exec (.operate (form.operation args.length)) m.advance =
        enterFunction (.object function) receiver args (form.constructed receiver)
          (m.readied rest r) ∧
      form.Receives function m.realm r receiver ∧ r.environments = m.realm.environments ∧
      (∀ ref o, m.realm.object? ref = some o → r.object? ref = some o) ∧
      r.callDepth = m.realm.callDepth ∧ r.maxCallDepth = m.realm.maxCallDepth := by
  have hstack : m.advance.frame.stack = slots (form.operands (.object function) args) ++ rest :=
    hm.stack
  cases form with
  | call receiver =>
    exact ⟨receiver, m.realm, exec_call hstack (by simp [CallForm.operands]), rfl, rfl,
      fun _ _ ho => ho, rfl, rfl⟩
  | construct =>
    have hcallable : (m.advance.withStack rest).realm.isCallable (.object function) = true := by
      show (m.realm.object function).closure?.isSome = true
      rw [hc]
      rfl
    have hexec : exec (.operate (.construct args.length)) m.advance =
        construct (.object function) args (m.advance.withStack rest) :=
      exec_construct hstack (by simp [CallForm.operands])
    rw [construct_eq, if_pos hcallable] at hexec
    refine ⟨_, _, hexec, ⟨_, rfl, Array.getElem?_eq_none (Nat.le_refl _),
      Array.getElem?_push_size⟩, rfl, fun ref o ho => ?_, rfl, rfl⟩
    obtain ⟨hlt, -⟩ := Array.getElem?_eq_some_iff.mp ho
    exact (Array.getElem?_push.trans (if_neg (Nat.ne_of_lt hlt))).trans ho

theorem thisFor_eq (strict : Bool) (receiver : Value) :
    (strict = false → receiver = .undefined ∨ receiver = .null →
      thisFor strict receiver = .object Realm.globalObject) ∧
    (¬ (strict = false ∧ (receiver = .undefined ∨ receiver = .null)) →
      thisFor strict receiver = receiver) := by
  constructor
  · rintro rfl (rfl | rfl) <;> rfl
  · intro h
    cases strict with
    | true => rfl
    | false =>
      cases receiver with
      | undefined => exact absurd ⟨rfl, .inl rfl⟩ h
      | null => exact absurd ⟨rfl, .inr rfl⟩ h
      | _ => rfl

def entered (m : Machine) (closure : Closure) (unit : CodeUnit) (constructed : Option Value) :
    Frame where
  artifact := closure.artifact
  unit := unit
  temps := Array.replicate unit.tempCount .undefined
  callerEnv := m.context.env
  resume := .call m.context.this m.context.strict constructed

theorem start_entered (hu : closure.artifact.unit? closure.info.unit = some unit)
    (m : Machine) (constructed : Option Value) :
    Frame.start closure.artifact closure.info.unit m.context.env
      (.call m.context.this m.context.strict constructed) =
        .ok (m.entered closure unit constructed) :=
  start_ok_iff.mpr ⟨unit, hu, rfl⟩

def inBody (m : Machine) (form : CallForm) (closure : Closure) (unit : CodeUnit) (receiver : Value)
    (args : List Value) (rest : List Slot) (r : Realm) : Machine :=
  (m.readied rest r).called
    (Realm.withCall { r with callDepth := r.callDepth + 1 } closure args)
    ⟨r.environments.size⟩ (thisFor closure.info.strict receiver) closure.info.strict
    (m.entered closure unit (form.constructed receiver))

theorem objects_inBody (m : Machine) (form : CallForm) (closure : Closure) (unit : CodeUnit)
    (receiver : Value) (args : List Value) (rest : List Slot) (r : Realm) :
    (m.inBody form closure unit receiver args rest r).realm.objects =
      r.objects.push (.ofElements Realm.arrayPrototype args) :=
  (Realm.rebinds_countRun _ _).objects

theorem entersBody_inBody (hu : closure.artifact.unit? closure.info.unit = some unit)
    (henvironments : r.environments = m.realm.environments)
    (hobjects : ∀ ref o, m.realm.object? ref = some o → r.object? ref = some o)
    (hdepth : r.callDepth = m.realm.callDepth) :
    m.EntersBody closure receiver args rest
      (m.inBody form closure unit receiver args rest r) where
  opens := by
    have henv : (m.inBody form closure unit receiver args rest r).realm.environments =
        m.realm.environments.push (bindParameters { outer := some closure.env }
          (.object ⟨r.objects.size⟩) closure.info.params args) := by
      rw [← henvironments]
      exact Realm.environments_countRun _ _
    have hopens := Realm.opensCall_of_push henv (objects_inBody ..) hobjects
    rw [← henvironments] at hopens
    exact hopens
  globalThis := (thisFor_eq _ _).1
  ownThis := (thisFor_eq _ _).2
  strict := rfl
  artifact := rfl
  unit := hu
  start := ⟨rfl, rfl, rfl, rfl⟩
  callers := rfl
  status := rfl
  depth := by
    rw [← hdepth]
    exact (Realm.rebinds_countRun _ _).depth

theorem goesOn_of_reaches {m2 : Machine} (hreach : m1.Reaches m2)
    (hstep : m2.step = (m.readied rest r').afterCall m1.frame (form.constructed receiver) c r) :
    m.GoesOn form receiver rest m1 c r := by
  unfold afterCall at hstep
  unfold GoesOn
  cases hk : c.kind with
  | «return» =>
    rw [form.ofCompletion_return receiver hk] at hstep
    exact hreach.trans (reaches_of_step hstep)
  | normal =>
    rw [form.ofCompletion_normal receiver hk] at hstep
    exact hreach.trans (reaches_of_step hstep)
  | throw =>
    have hresult : CallResult.ofCompletion c (form.constructed receiver) =
        .thrown c.valueOrUndefined := by
      simp only [CallResult.ofCompletion, hk]
    rw [hresult] at hstep
    exact hreach.trans (reaches_of_step hstep)
  | «break» | «continue» =>
    have hresult : CallResult.ofCompletion c (form.constructed receiver) = .escaped c.kind := by
      simp only [CallResult.ofCompletion, hk]
    rw [hresult, hk] at hstep
    exact ⟨m2, hreach, hstep⟩

theorem hangs_atCall (hm : m.AtCall form function args rest)
    (hc : (m.realm.object function).closure? = some closure) :
    m.hangs (.operate (form.operation args.length)) = false := by
  have hcallable : m.realm.isCallable (.object function) = true := Realm.isCallable_of_closureOf hc
  have hlength : (form.operands (.object function) args).length =
      (form.operation args.length).arity := by
    cases form <;> simp [CallForm.operands, CallForm.operation, Operation.arity]
  rw [hangs_operate _ hm.stack hlength]
  cases form with
  | call receiver =>
    exact congrArg m.realm.endless (if_pos hcallable)
  | construct =>
    exact congrArg m.realm.endless (if_pos hcallable)

/-- A call or construction of a function, by any frame and with any arguments.  If the limit of
calls is not yet reached, the body of the function is entered, in an environment of its own and on
its receiver.  When the body ends, the caller goes on in its own context and with its own stack and
temporaries, by how the body has ended; if the body does not end, neither does the call. -/
theorem operate_call_runs_body (hm : m.AtCall form function args rest)
    (hc : (m.realm.object function).closure? = some closure) :
    (∀ unit, closure.artifact.unit? closure.info.unit = some unit →
      if m.realm.callDepth < m.realm.maxCallDepth then
        ∃ receiver m₁, m.step = .next m₁ ∧ form.Receives function m.realm m₁.realm receiver ∧
          m.EntersBody closure receiver args rest m₁ ∧
          (∀ c r, m₁.frame.Ends m₁.context m₁.realm c r → m.GoesOn form receiver rest m₁ c r) ∧
          ((∀ c r, ¬ m₁.frame.Ends m₁.context m₁.realm c r) →
            ∀ n m', run n m₁ = .exhausted m' →
              ∃ frames, m'.callers = frames ++ m.calling rest :: m.callers)
      else ∃ r, m.step = .next (throwFault ⟨r, m.context, m.calling rest, m.callers, .running⟩
        .callDepth)) ∧
    (closure.artifact.unit? closure.info.unit = none →
      ∃ r, m.step = .halt (.error (.missingUnit closure.info.unit)) r m.context) := by
  obtain ⟨receiver, r, hexec, hreceives, henvironments, hobjects, hdepth, hlimit⟩ :=
    exec_atCall hm hc
  have hh := hangs_atCall hm hc
  have hfound : ((Value.object function).object? >>= fun ref =>
      ((m.readied rest r).realm.object ref).closure?) = some closure := by
    show (r.object function).closure? = some closure
    cases ho : m.realm.object? function with
    | none =>
      unfold Realm.object? at ho
      unfold Realm.object at hc
      rw [Array.getD_eq_getD_getElem?, ho] at hc
      cases hc
    | some o =>
      have ho' := hobjects function o ho
      unfold Realm.object? at ho ho'
      unfold Realm.object at hc ⊢
      rw [Array.getD_eq_getD_getElem?, ho] at hc
      rw [Array.getD_eq_getD_getElem?, ho']
      exact hc
  refine ⟨fun unit hu => ?_, fun hu => ⟨r, ?_⟩⟩
  · have hstart := start_entered hu m (form.constructed receiver)
    split
    · next hlt =>
      have henter : (m.readied rest r).realm.enterCall? =
          some { r with callDepth := r.callDepth + 1 } := by
        refine if_pos ?_
        show r.callDepth < r.maxCallDepth
        rw [hdepth, hlimit]
        exact hlt
      have hcalled : exec (.operate (form.operation args.length)) m.advance = .ok ()
          (m.inBody form closure unit receiver args rest r) :=
        hexec.trans (Lowering.enterFunction_called hfound hstart henter
          (Realm.newCallEnv_withCall _ _ _))
      refine ⟨receiver, _, step_exec hm.running hm.next hh hcalled, ?_,
        entersBody_inBody hu henvironments hobjects hdepth, fun c r' hends => ?_, fun hnever => ?_⟩
      · refine hreceives.of_added fun ref o ho => ?_
        obtain ⟨hlt, -⟩ := Array.getElem?_eq_some_iff.mp ho
        unfold Realm.object?
        rw [objects_inBody, Array.getElem?_push, if_neg (Nat.ne_of_lt hlt)]
        exact ho
      · obtain ⟨m₂, hreach, -, hstep⟩ := way_called (m := m.readied rest r) Reaches rfl rfl hends
        exact goesOn_of_reaches hreach hstep
      · exact fun n m' hn => called_stays (m := m.readied rest r) rfl rfl
          (fun c r' hends => absurd hends (hnever c r')) hn
    · next hge =>
      have henter : (m.readied rest r).realm.enterCall? = none := by
        refine if_neg ?_
        show ¬ r.callDepth < r.maxCallDepth
        rw [hdepth, hlimit]
        exact hge
      have hthrown := hexec.trans (Lowering.enterFunction_deep hfound hstart henter)
      exact ⟨r, (step_throw hm.running hm.next hh hthrown).trans rfl⟩
  · have hstart : Frame.start closure.artifact closure.info.unit m.context.env
        (.call m.context.this m.context.strict (form.constructed receiver)) =
        .error (.missingUnit closure.info.unit) := by
      unfold Frame.start
      rw [hu]
    exact step_fatal hm.running hm.next hh
      (hexec.trans (Lowering.enterFunction_bodiless hfound hstart))

end Machine

/-- A function that has one name for two of its parameters. -/
def lastOf : FunctionInfo where
  unit := 1
  name := none
  params := ["a", "b", "a"]
  strict := false
  selfBinding := false

def callingLastOf : Artifact where
  entry := 0
  units := #[
    { name := "Program_0", role := .program, strict := false
      instructions := #[.load 0, .makeClosure 0, .load 1, .load 2, .load 3, .operate (.call 3),
        .normalValue]
      operands := #[.constant .undefined, .constant (.string "x"), .constant (.string "y"),
        .constant (.string "z")]
      labels := #[], tempCount := 0 },
    { name := "Function_0", role := .function, strict := false
      instructions := #[.load 0, .returnValue], operands := #[.binding "a"], labels := #[]
      tempCount := 0 }]
  functions := #[lastOf]

/-- The later argument counts, the function sees the global object, and what it returns is then on
the stack of the caller. -/
theorem operate_call_runs_body_callingLastOf :
    let closure : Closure := ⟨callingLastOf, lastOf, Realm.globalEnv⟩
    let args : List Value := [.string "x", .string "y", .string "z"]
    ∃ m m₁ r, runProgram 5 callingLastOf (.create 16 false) false = .exhausted m ∧
      m.AtCall (.call .undefined) ⟨5⟩ args [] ∧
      (m.realm.object ⟨5⟩).closure? = some closure ∧ m.step = .next m₁ ∧
      m.EntersBody closure .undefined args [] m₁ ∧
      m₁.context.this = .object Realm.globalObject ∧
      m₁.Reaches
        ⟨r, m.context, (m.calling []).push (.value (.string "z")), m.callers, .running⟩ := by
  intro closure args
  obtain ⟨m, hrun, hm, hc, hdepth⟩ : ∃ m,
      runProgram 5 callingLastOf (.create 16 false) false = .exhausted m ∧
      m.AtCall (.call .undefined) ⟨5⟩ args [] ∧ (m.realm.object ⟨5⟩).closure? = some closure ∧
      m.realm.callDepth < m.realm.maxCallDepth :=
    ⟨_, rfl, ⟨rfl, rfl, rfl⟩, rfl, by decide⟩
  obtain ⟨hlaw, -⟩ := operate_call_runs_body hm hc
  have hlaw := hlaw _ rfl
  rw [if_pos hdepth] at hlaw
  obtain ⟨receiver, m₁, hstep, rfl, henters, hends, -⟩ := hlaw
  obtain ⟨r, hr⟩ : ∃ r, m₁.frame.Ends m₁.context m₁.realm (.returning (.string "z")) r := by
    cases hrun
    cases hstep
    with_unfolding_all exact ⟨_, 4, _, rfl⟩
  exact ⟨m, m₁, r.exitCall, hrun, hm, hc, hstep, henters, henters.globalThis rfl (.inl rfl),
    hends _ r hr⟩

end TreeScript
