import TreeScript.Proofs.Evaluation.Evaluator
import TreeScript.Proofs.Lowering.Laid
import TreeScript.Proofs.Lowering.Trees
import TreeScript.Proofs.Machine.Visits

/-!
# Machine and evaluator side by side

`Machine.RunsBy` says that a machine goes on as an evaluation does: it comes to a state that fits
the value, or it ends its frame with a throw of the fault, or it is lost in a call or a text that
comes to nothing.  The rules take the machine over one instruction and the evaluation over the step
that belongs to it.  No evaluation starts a unit, so the rules hold for every way in which the
machine may come to the state.
-/

namespace TreeScript

open Code Syntax

/-! ## Evaluations -/

namespace Eval

variable {α β : Type} {x : Eval α} {f : α → Eval β} {r r' : Realm}

theorem get_bind (f : Realm → Eval α) (r : Realm) : (get >>= f) r = f r r := rfl

theorem bind_ok {a : α} (h : x r = some (.ok a, r')) : (x >>= f) r = f a r' := by
  show (x r).bind _ = _
  rw [h]
  rfl

theorem bind_error {fault : Fault} (h : x r = some (.error fault, r')) :
    (x >>= f) r = some (.error fault, r') := by
  show (x r).bind _ = _
  rw [h]
  rfl

theorem bind_none (h : x r = none) : (x >>= f) r = none := by
  show (x r).bind _ = _
  rw [h]
  rfl

theorem realm_ok {y : RealmM α} {a : α} (h : y r = .ok a r') : realm y r = some (.ok a, r') := by
  unfold realm
  rw [h]

theorem realm_error {y : RealmM α} {fault : Fault} (h : y r = .error fault r') :
    realm y r = some (.error fault, r') := by
  unfold realm
  rw [h]

theorem realm_map {y : RealmM α} (f : α → β) :
    realm (do return f (← y)) = (do return f (← realm y) : Eval β) := by
  funext r
  cases h : y r with
  | ok a r' =>
    rw [bind_ok (realm_ok h)]
    have hmap : (do return f (← y)) r = EStateM.Result.ok (f a) r' := by
      show EStateM.bind y _ r = _
      unfold EStateM.bind
      rw [h]
      rfl
    exact realm_ok hmap
  | error fault r' =>
    rw [bind_error (realm_error h)]
    exact realm_error (by show EStateM.bind y _ r = _; unfold EStateM.bind; rw [h])

theorem converting_bind (vs : List Value) (g : Realm → α) (f : α → Eval β) (r : Realm) :
    (converting vs g >>= f) r = if r.endless vs then none else f (g r) r := by
  cases h : r.endless vs with
  | true => exact bind_none (if_pos h)
  | false => exact bind_ok (if_neg (Bool.eq_false_iff.mp h))

def operation (op : Operation) (vs : List Value) : Eval Value := do
  let _ ← converting ((← get).converted op vs) fun _ => ()
  realm (apply op vs)

theorem operation_eq (op : Operation) (vs : List Value) (r : Realm) :
    operation op vs r = if r.endless (r.converted op vs) then none else realm (apply op vs) r :=
  converting_bind _ _ _ r

theorem realm_eq_operation {op : Operation} {vs : List Value} {x : RealmM Value}
    (hx : apply op vs = x) (h : ∀ r : Realm, r.endless (r.converted op vs) = false) :
    realm x = operation op vs := by
  funext r
  rw [operation_eq, h r, hx]
  rfl

theorem binary_eq (op : BinaryOp) (a b : Value) :
    binary op a b = operation (.ofBinary op) [a, b] := by
  funext r
  rw [operation_eq]
  cases op with
  | «in» => cases b <;> exact converting_bind ..
  | instanceOf => exact congrFun (realm_map Value.boolean).symm r
  | _ => rfl

theorem unary_eq {op : UnaryOp} {o : Operation} (h : Operation.ofUnary? op = some o) (v : Value) :
    unary op v = operation o [v] := by
  funext r
  rw [operation_eq]
  cases op <;> cases h <;> rfl

theorem updated_eq (op : UpdateOp) (n : Float) :
    updated op n = operation (.ofUpdate op) [.number n, .number (Number.ofNat 1)] := by
  funext r
  cases op <;> rfl

theorem property_eq (base key : Value) :
    property base key = operation .getProperty [base, key] := by
  funext r
  rw [operation_eq]
  exact converting_bind ..

theorem delete_eq (strict : Bool) (base key : Value) :
    delete strict base key = operation (.deleteProperty strict) [base, key] := by
  funext r
  rw [operation_eq, show realm (apply (.deleteProperty strict) [base, key]) r = _ from
    congrFun (realm_map (y := Realm.delete base (r.toText key) strict) Value.boolean) r]
  exact converting_bind ..

end Eval

namespace Realm

variable {r : Realm} {v : Value} {closure : Closure}

theorem exists_of_endless {vs : List Value} (h : r.endless vs = true) : ∃ v, r.text? v = none := by
  obtain ⟨v, -, hv⟩ := List.any_eq_true.mp h
  exact ⟨v, Option.isNone_iff_eq_none.mp (Bool.and_eq_true_iff.mp hv).2⟩

def closureOf (r : Realm) (v : Value) : Option Closure :=
  v.object? >>= fun ref => (r.object ref).closure?

theorem isCallable_eq (r : Realm) (v : Value) : r.isCallable v = (r.closureOf v).isSome := by
  cases v <;> rfl

theorem isCallable_of_closureOf (h : r.closureOf v = some closure) : r.isCallable v = true := by
  rw [isCallable_eq, h]
  rfl

theorem closureOf_derive (h : r.closureOf v = some closure) (prototype : Value) :
    (r.derive prototype).2.closureOf v = some closure := by
  obtain ⟨ref, hv, href⟩ := Option.bind_eq_some_iff.mp h
  refine Option.bind_eq_some_iff.mpr ⟨ref, hv, ?_⟩
  have hne : ref.index ≠ r.objects.size := by
    intro hsize
    rw [object, Array.getD_eq_getD_getElem?,
      Array.getElem?_eq_none (Nat.le_of_eq hsize.symm)] at href
    cases href
  unfold derive
  rw [object_addObject, if_neg hne]
  exact href

end Realm

namespace Machine

/-! ## States of one frame -/

/-- The machine at another place in the code of its frame. -/
def placed (m : Machine) (next : Nat) (stack : List Slot) (temps : Array Value) (r : Realm) :
    Machine :=
  { m with realm := r, frame := { m.frame with next, stack, temps } }

/-- The machine runs a frame of the unit `u` of `a`. -/
structure Hosts (a : Artifact) (u : CodeUnit) (m : Machine) : Prop where
  artifact : m.frame.artifact = a
  unit : m.frame.unit = u
  temps : m.frame.temps.size = u.tempCount
  running : m.status = .running

noncomputable def scene (m : Machine) : Scene := ⟨m.frame.artifact, m.context, Frame.result⟩

/-- The frame of `m` has ended with the throw of a fault in the realm `r`. -/
structure Throws (m : Machine) (fault : Fault) (r : Realm) (m' : Machine) : Prop where
  status : m'.status = .finishing (.throwing (r.materialize fault).1)
  realm : m'.realm = (r.materialize fault).2
  context : m'.context = m.context
  frame : m.frame.Alike m'.frame
  callers : m'.callers = m.callers

/-- The frame of `m` comes to nothing: it calls a function whose body is not there, the run does not
get back out of a call or of a unit that it runs, or it hangs because a text has no end. -/
inductive Lost (m m' : Machine) : Prop where
  | bodiless {id : UnitId} {r : Realm} {context : Context} :
    m'.step = .halt (.error (.missingUnit id)) r context → Lost m m'
  | within (caller : Frame) :
    (∀ n m₁, run n m' = .exhausted m₁ → ∃ frames, m₁.callers = frames ++ caller :: m.callers) →
    Lost m m'
  | hanging {v : Value} : m'.status = .hanging → m'.realm.text? v = none → Lost m m'

variable {α β : Type} {m m1 m2 : Machine} {Q : α → Realm → Machine → Prop}

/-- From `m1` on, the frame of `m` goes as an evaluation went: with a value it comes to a state in
`Q`. -/
def RunsBy (m : Machine) (way : Machine → Machine → Prop) (Q : α → Realm → Machine → Prop)
    (m1 : Machine) : Option (Except Fault α × Realm) → Prop
  | some (.ok a, r) => ∃ m', way m1 m' ∧ Q a r m'
  | some (.error fault, r) => ∃ m', way m1 m' ∧ m.Throws fault r m'
  | none => ∃ m', way m1 m' ∧ m.Lost m'

abbrev Runs (m : Machine) (Q : α → Realm → Machine → Prop) (m1 : Machine)
    (out : Option (Except Fault α × Realm)) : Prop :=
  m.RunsBy Reaches Q m1 out

theorem RunsBy.of_way {way : Machine → Machine → Prop} [Way m.callers.length way]
    {out : Option (Except Fault α × Realm)} (h : way m1 m2) (hr : m.RunsBy way Q m2 out) :
    m.RunsBy way Q m1 out := by
  obtain _ | ⟨fault | a, r⟩ := out <;>
    obtain ⟨m', hm, h'⟩ := hr <;> exact ⟨m', Way.trans m.callers.length h hm, h'⟩

end Machine

def Code.Operation.runsCode : Operation → Bool
  | call _ | construct _ => true
  | _ => false

/-! ## Instructions in place -/

namespace Lowering

open Machine

section

variable {α β : Type} {a : Artifact} {u : CodeUnit} {s s' : Stage} {m : Machine}
  {Q : β → Realm → Machine → Prop} {i : Instruction} {stack : List Slot} {temps : Array Value}
  {r : Realm} {out : Option (Except Fault β × Realm)} {way : Machine → Machine → Prop}
  [Way m.callers.length way]

theorem next_placed (h : Adds u i s s') (hm : m.Hosts a u) :
    (m.placed s.offset stack temps r).frame.unit.instructions[
      (m.placed s.offset stack temps r).frame.next]? = some i := by
  show m.frame.unit.instructions[s.offset]? = some i
  rw [hm.unit]
  exact h.code

theorem advance_placed (h : Adds u i s s') :
    (m.placed s.offset stack temps r).advance = m.placed s'.offset stack temps r := by
  rw [h.offset]
  rfl

theorem visit?_placed (h : Adds u i s s') (hm : m.Hosts a u) :
    (m.placed s.offset stack temps r).visit? m.callers.length =
      i.invoked?.map fun id => ⟨id, m.context, r⟩ :=
  visit?_running (m := m.placed s.offset stack temps r) hm.running (next_placed h hm)

theorem quiet_placed (h : Adds u i s s') (hi : i.invoked? = none) (hm : m.Hosts a u) :
    (m.placed s.offset stack temps r).visit? m.callers.length = none := by
  rw [visit?_placed h hm, hi]
  rfl

theorem runs_emit {m' : Machine} (h : Adds u i s s')
    (hi : i.invoked? = none) (hh : (m.placed s.offset stack temps r).hangs i = false)
    (hm : m.Hosts a u) (he : exec i (m.placed s'.offset stack temps r) = .ok () m')
    (hk : m.RunsBy way Q m' out) : m.RunsBy way Q (m.placed s.offset stack temps r) out := by
  rw [← advance_placed h] at he
  have hrunning : (m.placed s.offset stack temps r).status = .running := hm.running
  exact .of_way (Way.step (quiet_placed h hi hm) (step_exec hrunning (next_placed h hm) hh he)) hk

theorem runs_throw {stack' : List Slot} {temps' : Array Value} {r' : Realm} {fault : Fault}
    (h : Adds u i s s') (hi : i.invoked? = none)
    (hh : (m.placed s.offset stack temps r).hangs i = false) (hm : m.Hosts a u)
    (ht : temps'.size = u.tempCount)
    (he : exec i (m.placed s'.offset stack temps r) =
      .error (.thrown fault) (m.placed s'.offset stack' temps' r')) :
    m.RunsBy way Q (m.placed s.offset stack temps r) (some (.error fault, r')) := by
  rw [← advance_placed h] at he
  have hrunning : (m.placed s.offset stack temps r).status = .running := hm.running
  have hstep := step_throw hrunning (next_placed h hm) hh he
  exact ⟨_, Way.step (quiet_placed h hi hm) hstep, rfl, rfl, rfl,
    ⟨rfl, rfl, ht.trans hm.temps.symm, rfl, rfl⟩, rfl⟩

theorem runs_converting {vs : List Value} {f : Realm → α} {k : α → Eval β} (h : Adds u i s s')
    (hi : i.invoked? = none) (hm : m.Hosts a u)
    (hh : (m.placed s.offset stack temps r).hangs i = r.endless vs)
    (hk : (m.placed s.offset stack temps r).hangs i = false →
      m.RunsBy way Q (m.placed s.offset stack temps r) (k (f r) r)) :
    m.RunsBy way Q (m.placed s.offset stack temps r) ((Eval.converting vs f >>= k) r) := by
  rw [Eval.converting_bind]
  cases hvs : r.endless vs with
  | true =>
    have hrunning : (m.placed s.offset stack temps r).status = .running := hm.running
    have hstep := step_hang hrunning (next_placed h hm) (hh.trans hvs)
    obtain ⟨v, hv⟩ := Realm.exists_of_endless hvs
    exact ⟨_, Way.step (quiet_placed h hi hm) hstep, .hanging rfl hv⟩
  | false => exact hk (hh.trans hvs)

theorem runs_settle {x : RealmM α} {k : α → Eval β} {done : α → Realm → Machine}
    {thrown : Realm → Machine} {stack' : List Slot} (h : Adds u i s s')
    (hi : i.invoked? = none) (hh : (m.placed s.offset stack temps r).hangs i = false)
    (hm : m.Hosts a u) (ht : temps.size = u.tempCount)
    (he : exec i (m.placed s'.offset stack temps r) = settle (x r) done thrown)
    (hthrown : ∀ r', thrown r' = m.placed s'.offset stack' temps r')
    (hk : ∀ v r', m.RunsBy way Q (done v r') (k v r')) :
    m.RunsBy way Q (m.placed s.offset stack temps r) ((Eval.realm x >>= k) r) := by
  cases hx : x r with
  | ok v r' =>
    rw [hx] at he
    rw [Eval.bind_ok (Eval.realm_ok hx)]
    exact runs_emit h hi hh hm he (hk v r')
  | error fault r' =>
    rw [hx] at he
    rw [Eval.bind_error (Eval.realm_error hx)]
    have he : exec i (m.placed s'.offset stack temps r) = .error (.thrown fault) (thrown r') := he
    rw [hthrown r'] at he
    exact runs_throw h hi hh hm ht he

theorem operand_placed {o : Operand} {i : OperandIndex} {next : Nat} (hm : m.Hosts a u)
    (ho : u.operands[i]? = some o) :
    (m.placed next stack temps r).frame.unit.operands[i]? = some o := by
  show m.frame.unit.operands[i]? = some o
  rw [hm.unit]
  exact ho

theorem runs_loadConstant {c : Constant}
    (h : Laid a u (loadConstant c) s () s') (hm : m.Hosts a u)
    (hk : m.RunsBy way Q (m.placed s'.offset (.value c.value :: stack) temps r) out) :
    m.RunsBy way Q (m.placed s.offset stack temps r) out := by
  obtain ⟨i, ho, hadd⟩ := laid_loadConstant h
  exact runs_emit hadd rfl rfl hm (exec_load (operand_placed hm ho)) hk

theorem runs_loadTemp {t : Nat}
    (h : Laid a u (load (.temporary t)) s () s') (hm : m.Hosts a u)
    (hk : m.RunsBy way Q
      (m.placed s'.offset (.value (temps.getD t .undefined) :: stack) temps r) out) :
    m.RunsBy way Q (m.placed s.offset stack temps r) out := by
  obtain ⟨i, ho, hadd⟩ := laid_load h
  exact runs_emit hadd rfl rfl hm (exec_load (operand_placed hm ho)) hk

theorem runs_loadName {i : OperandIndex} {name : String} {k : Value → Eval β}
    (h : Adds u (.load i) s s') (hm : m.Hosts a u) (ht : temps.size = u.tempCount)
    (ho : u.operands[i]? = some (.binding name))
    (hk : ∀ v r', m.RunsBy way Q (m.placed s'.offset (.value v :: stack) temps r') (k v r')) :
    m.RunsBy way Q (m.placed s.offset stack temps r) ((m.scene.valueOf name >>= k) r) :=
  runs_settle (x := liftExcept (r.valueOf m.context.env name)) h rfl rfl hm ht
    (exec_load (operand_placed hm ho)) (fun _ => rfl) hk

theorem runs_store {i : OperandIndex} {name : String} {strict : Bool} {v : Value}
    {k : Unit → Eval β} (h : Adds u (.store i strict) s s') (hm : m.Hosts a u)
    (ht : temps.size = u.tempCount) (ho : u.operands[i]? = some (.binding name))
    (hk : ∀ r', m.RunsBy way Q (m.placed s'.offset (.value v :: stack) temps r') (k () r')) :
    m.RunsBy way Q (m.placed s.offset (.value v :: stack) temps r)
      ((Eval.realm (Realm.assign m.context.env name v strict) >>= k) r) :=
  runs_settle h rfl rfl hm ht (exec_store (operand_placed hm ho) rfl) (fun _ => rfl) fun _ => hk

theorem runs_storeTemp {t : Nat} {v : Value}
    (h : Adds u (.storeTemp t) s s') (hm : m.Hosts a u) (ht : t < temps.size)
    (hk : m.RunsBy way Q (m.placed s'.offset stack (temps.setIfInBounds t v) r) out) :
    m.RunsBy way Q (m.placed s.offset (.value v :: stack) temps r) out :=
  runs_emit h rfl rfl hm (exec_storeTemp ht rfl) hk

theorem runs_pop {x : Slot} (h : Adds u .pop s s')
    (hm : m.Hosts a u) (hk : m.RunsBy way Q (m.placed s'.offset stack temps r) out) :
    m.RunsBy way Q (m.placed s.offset (x :: stack) temps r) out :=
  runs_emit h rfl rfl hm (exec_pop rfl) hk

theorem runs_dup {x : Slot} (h : Adds u .dup s s')
    (hm : m.Hosts a u) (hk : m.RunsBy way Q (m.placed s'.offset (x :: x :: stack) temps r) out) :
    m.RunsBy way Q (m.placed s.offset (x :: stack) temps r) out :=
  runs_emit h rfl rfl hm (exec_dup rfl) hk

theorem runs_jump {l : Label} {offset : Nat}
    (h : Adds u (.jump l) s s') (hm : m.Hosts a u) (hl : u.offset? l = some offset)
    (hk : m.RunsBy way Q (m.placed offset stack temps r) out) :
    m.RunsBy way Q (m.placed s.offset stack temps r) out := by
  rw [← hm.unit] at hl
  exact runs_emit h rfl rfl hm (exec_jump hl) hk

theorem runs_jumpIfFalse {l : Label} {offset : Nat} {b : Bool}
    (h : Adds u (.jumpIfFalse l) s s') (hm : m.Hosts a u)
    (hl : u.offset? l = some offset)
    (hyes : b = true → m.RunsBy way Q (m.placed s'.offset stack temps r) out)
    (hno : b = false → m.RunsBy way Q (m.placed offset stack temps r) out) :
    m.RunsBy way Q (m.placed s.offset (.value (.boolean b) :: stack) temps r) out := by
  rw [← hm.unit] at hl
  refine runs_emit h rfl rfl hm (exec_jumpIfFalse hl rfl) ?_
  cases b with
  | true => exact hyes rfl
  | false => exact hno rfl

theorem runs_jumpIfTrue {l : Label} {offset : Nat} {b : Bool}
    (h : Adds u (.jumpIfTrue l) s s') (hm : m.Hosts a u)
    (hl : u.offset? l = some offset)
    (hyes : b = true → m.RunsBy way Q (m.placed offset stack temps r) out)
    (hno : b = false → m.RunsBy way Q (m.placed s'.offset stack temps r) out) :
    m.RunsBy way Q (m.placed s.offset (.value (.boolean b) :: stack) temps r) out := by
  rw [← hm.unit] at hl
  refine runs_emit h rfl rfl hm (exec_jumpIfTrue hl rfl) ?_
  cases b with
  | true => exact hyes rfl
  | false => exact hno rfl

theorem exec_applied {op : Operation} (vs : List Value) (hop : op.runsCode = false)
    (hvs : vs.length = op.arity) (next : Nat) :
    exec (.operate op) (m.placed next (slots vs ++ stack) temps r) = settle (apply op vs r)
      (fun v r' => m.placed next (.value v :: stack) temps r')
      (fun r' => m.placed next stack temps r') := by
  refine exec_operate (fun argc => ?_) (fun argc => ?_) rfl hvs <;>
    rintro rfl <;> cases hop

theorem runs_operate {op : Operation} {supplied : Nat} {k : Value → Eval β} (vs : List Value)
    (h : Laid a u (operate op supplied) s () s') (hvs : vs.length = supplied)
    (hop : op.runsCode = false) (hm : m.Hosts a u) (ht : temps.size = u.tempCount)
    (hk : ∀ v r', m.RunsBy way Q (m.placed s'.offset (.value v :: stack) temps r') (k v r')) :
    m.RunsBy way Q (m.placed s.offset (slots vs ++ stack) temps r)
      ((Eval.operation op vs >>= k) r) := by
  obtain ⟨ha, hadd⟩ := laid_operate h
  have hlength := hvs.trans ha.symm
  unfold Eval.operation
  rw [bind_assoc, Eval.get_bind, bind_assoc]
  refine runs_converting hadd rfl hm (hangs_operate vs rfl hlength) fun hh => ?_
  exact runs_settle hadd rfl hh hm ht (exec_applied _ hop hlength _) (fun _ => rfl) hk

theorem runs_applied {op : Operation} {supplied : Nat} {v : Value}
    (vs : List Value)
    (h : Laid a u (operate op supplied) s () s') (hvs : vs.length = supplied)
    (hop : op.runsCode = false) (hh : r.endless (r.converted op vs) = false) (hm : m.Hosts a u)
    (hv : apply op vs r = .ok v r)
    (hk : m.RunsBy way Q (m.placed s'.offset (.value v :: stack) temps r) out) :
    m.RunsBy way Q (m.placed s.offset (slots vs ++ stack) temps r) out := by
  obtain ⟨ha, hadd⟩ := laid_operate h
  have hlength := hvs.trans ha.symm
  refine runs_emit hadd rfl ((hangs_operate vs rfl hlength).trans hh) hm
    ((exec_applied _ hop hlength s'.offset).trans ?_) hk
  rw [hv]
  rfl

theorem runs_toBoolean {v : Value}
    (h : Laid a u (operate .toBoolean 1) s () s') (hm : m.Hosts a u)
    (hk : m.RunsBy way Q (m.placed s'.offset (.value (.boolean v.truthy) :: stack) temps r) out) :
    m.RunsBy way Q (m.placed s.offset (.value v :: stack) temps r) out :=
  runs_applied [v] h rfl rfl rfl hm rfl hk

theorem runs_toNumber {v : Value} {k : Float → Eval β}
    (h : Laid a u (operate .toNumber 1) s () s') (hm : m.Hosts a u)
    (hk : m.RunsBy way Q (m.placed s'.offset (.value (.number (r.toNumber v)) :: stack) temps r)
      (k (r.toNumber v) r)) :
    m.RunsBy way Q (m.placed s.offset (.value v :: stack) temps r) ((Eval.number v >>= k) r) := by
  have hadd := (laid_operate h).2
  exact runs_converting hadd rfl hm (hangs_operate [v] rfl rfl) fun hh =>
    runs_emit hadd rfl hh hm (exec_applied [v] rfl rfl s'.offset) hk

end

/-! ## Calls -/

section

variable {callee receiver : Value} {args : List Value} {constructed : Option Value}
  {closure : Closure} {frame : Frame} {r r1 r2 : Realm} {env : EnvRef}

theorem enterFunction_uncallable {m : Machine}
    (hc : (callee.object? >>= fun ref => (m.realm.object ref).closure?) = none) :
    enterFunction callee receiver args constructed m =
      .error (.thrown (.notAFunction (m.realm.toText callee))) m := by
  rw [enterFunction_eq, hc]

section

variable {m : Machine}
  (hc : (callee.object? >>= fun ref => (m.realm.object ref).closure?) = some closure)
include hc

theorem enterFunction_bodiless {e : MachineError}
    (hs : Frame.start closure.artifact closure.info.unit m.context.env
      (.call m.context.this m.context.strict constructed) = .error e) :
    enterFunction callee receiver args constructed m = .error (.fatal e) m := by
  rw [enterFunction_eq, hc]
  dsimp only
  rw [hs]

variable (hs : Frame.start closure.artifact closure.info.unit m.context.env
    (.call m.context.this m.context.strict constructed) = .ok frame)
include hs

theorem enterFunction_deep (hd : m.realm.enterCall? = none) :
    enterFunction callee receiver args constructed m = .error (.thrown .callDepth) m := by
  rw [enterFunction_eq, hc]
  dsimp only
  rw [hs]
  rw [hd]

theorem enterFunction_called
    (hd : m.realm.enterCall? = some r1) (he : newCallEnv closure args r1 = .ok env r2) :
    enterFunction callee receiver args constructed m = .ok ()
      (m.called r2 env (thisFor closure.info.strict receiver) closure.info.strict frame) := by
  rw [enterFunction_eq, hc]
  dsimp only
  rw [hs]
  rw [hd]
  dsimp only
  rw [he]

end

variable {scene : Scene}

theorem call_uncallable
    (hc : (callee.object? >>= fun ref => (r.object ref).closure?) = none) :
    scene.call callee receiver args constructed r =
      (Eval.text callee >>= fun name => throw (.notAFunction name)) r := by
  unfold Scene.call
  rw [Eval.get_bind, hc]

section

variable (hc : (callee.object? >>= fun ref => (r.object ref).closure?) = some closure)
include hc

theorem call_bodiless {e : MachineError}
    (hs : Frame.start closure.artifact closure.info.unit scene.context.env
      (.call scene.context.this scene.context.strict constructed) = .error e) :
    scene.call callee receiver args constructed r = none := by
  unfold Scene.call
  rw [Eval.get_bind, hc]
  dsimp only
  rw [hs]
  rfl

variable (hs : Frame.start closure.artifact closure.info.unit scene.context.env
    (.call scene.context.this scene.context.strict constructed) = .ok frame)
include hs

theorem call_deep (hd : r.enterCall? = none) :
    scene.call callee receiver args constructed r = some (.error .callDepth, r) := by
  unfold Scene.call
  rw [Eval.get_bind, hc]
  dsimp only
  rw [hs]
  rw [hd]
  rfl

theorem call_called
    (hd : r.enterCall? = some r1) (he : newCallEnv closure args r1 = .ok env r2) :
    scene.call callee receiver args constructed r =
      (scene.frameResult frame
          ⟨env, thisFor closure.info.strict receiver, closure.info.strict⟩ >>=
        Scene.returned constructed) (r2.countRun frame.unit.name) := by
  unfold Scene.call
  rw [Eval.get_bind, hc]
  dsimp only
  rw [hs]
  rw [hd]
  exact (Eval.bind_ok (x := set r1) rfl).trans (Eval.bind_ok (Eval.realm_ok he))

end

theorem returned_value {c : Completion} {v : Value}
    (h : CallResult.ofCompletion c constructed = .value v) (r : Realm) :
    Scene.returned constructed c r = some (.ok v, r.exitCall) := by
  unfold Scene.returned
  rw [h]
  rfl

theorem returned_thrown {c : Completion} {v : Value}
    (h : CallResult.ofCompletion c constructed = .thrown v) (r : Realm) :
    Scene.returned constructed c r = some (.error (.value v), r.exitCall) := by
  unfold Scene.returned
  rw [h]
  rfl

theorem returned_escaped {c : Completion} {kind : CompletionKind}
    (h : CallResult.ofCompletion c constructed = .escaped kind) (r : Realm) :
    Scene.returned constructed c r = none := by
  unfold Scene.returned
  rw [h]
  rfl

variable {β : Type} {a : Artifact} {u : CodeUnit} {m : Machine} {Q : β → Realm → Machine → Prop}
  {stack : List Slot} {temps : Array Value} {k : Value → Eval β} {next : Nat}
  {way : Machine → Machine → Prop} [Way m.callers.length way]

/-- A call that was entered goes on as the callee's frame does by itself. -/
theorem runs_called {this : Value} {strict : Bool} (hm : m.Hosts a u)
    (ht : temps.size = u.tempCount)
    (hr : frame.resume = .call m.context.this m.context.strict constructed)
    (he : frame.callerEnv = m.context.env)
    (hk : ∀ v r', m.RunsBy way Q (m.placed next (.value v :: stack) temps r') (k v r')) :
    m.RunsBy way Q ((m.placed next stack temps r).called r2 env this strict frame)
      (((m.scene.frameResult frame ⟨env, this, strict⟩ >>= Scene.returned constructed) >>= k)
        (r2.countRun frame.unit.name)) := by
  -- Whatever comes to nothing here stays above the frame that called.
  have hlost (h : ∀ c r', frame.Ends ⟨env, this, strict⟩ (r2.countRun frame.unit.name) c r' →
      ∃ kind, CallResult.ofCompletion c constructed = .escaped kind) :
      m.Lost ((m.placed next stack temps r).called r2 env this strict frame) :=
    .within (m.placed next stack temps r).frame fun n m1 hn =>
      called_stays (m := m.placed next stack temps r) hr he h hn
  cases hres : frame.result ⟨env, this, strict⟩ (r2.countRun frame.unit.name) with
  | none =>
    have heval : m.scene.frameResult frame ⟨env, this, strict⟩ (r2.countRun frame.unit.name) =
        none := by
      show (frame.result _ _).map _ = none
      rw [hres]
      rfl
    rw [Eval.bind_none (Eval.bind_none heval)]
    refine ⟨_, Way.refl m.callers.length _, hlost fun c r' hends => ?_⟩
    rw [Frame.result_eq_some.mpr hends] at hres
    cases hres
  | some out =>
    obtain ⟨c, r'⟩ := out
    have hends := Frame.result_eq_some.mp hres
    have heval : m.scene.frameResult frame ⟨env, this, strict⟩ (r2.countRun frame.unit.name) =
        some (.ok c, r') := by
      show (frame.result _ _).map _ = _
      rw [hres]
      rfl
    have hplaced : Way (m.placed next stack temps r).callers.length way :=
      inferInstanceAs (Way m.callers.length way)
    obtain ⟨m1, hway, hquiet, hstep⟩ :=
      way_called (m := m.placed next stack temps r) way hr he hends
    rw [bind_assoc, Eval.bind_ok heval]
    unfold afterCall at hstep
    cases hof : CallResult.ofCompletion c constructed with
    | value v =>
      rw [hof] at hstep
      rw [Eval.bind_ok (returned_value hof r')]
      refine .of_way (Way.trans m.callers.length hway (Way.step hquiet hstep)) ?_
      have hback : (⟨r'.exitCall, m.context, (m.placed next stack temps r).frame.push (.value v),
          m.callers, .running⟩ : Machine) =
          m.placed next (.value v :: stack) temps r'.exitCall := by
        unfold placed
        rw [hm.running]
        rfl
      exact hback ▸ hk v r'.exitCall
    | thrown v =>
      rw [hof] at hstep
      rw [Eval.bind_error (returned_thrown hof r')]
      exact ⟨_, Way.trans m.callers.length hway (Way.step hquiet hstep), rfl, rfl, rfl,
        ⟨rfl, rfl, ht.trans hm.temps.symm, rfl, rfl⟩, rfl⟩
    | escaped kind =>
      rw [Eval.bind_none (returned_escaped hof r')]
      refine ⟨_, Way.refl m.callers.length _, hlost fun c' r'' hends' => ⟨kind, ?_⟩⟩
      rw [← (hends.unique hends').1]
      exact hof

theorem start_error {id : UnitId} {resume : Resume} {e : MachineError}
    (h : Frame.start a id env resume = .error e) : e = .missingUnit id := by
  unfold Frame.start at h
  split at h
  · cases h
    rfl
  · cases h

variable {s s' : Stage} {i : Instruction} {stack0 : List Slot} {r0 : Realm}

theorem runs_enter (h : Adds u i s s') (hi : i.invoked? = none)
    (hh : (m.placed s.offset stack0 temps r0).hangs i = false) (hm : m.Hosts a u)
    (ht : temps.size = u.tempCount)
    (hc : (callee.object? >>= fun ref => (r.object ref).closure?) = some closure)
    (he : exec i (m.placed s'.offset stack0 temps r0) =
      enterFunction callee receiver args constructed (m.placed s'.offset stack temps r))
    (hk : ∀ v r', m.RunsBy way Q (m.placed s'.offset (.value v :: stack) temps r') (k v r')) :
    m.RunsBy way Q (m.placed s.offset stack0 temps r0)
      ((m.scene.call callee receiver args constructed >>= k) r) := by
  cases hs : Frame.start closure.artifact closure.info.unit m.context.env
      (.call m.context.this m.context.strict constructed) with
  | error e =>
    rw [Eval.bind_none (call_bodiless hc hs)]
    have hfatal := he.trans (enterFunction_bodiless hc hs)
    rw [← advance_placed h, start_error hs] at hfatal
    have hrunning : (m.placed s.offset stack0 temps r0).status = .running := hm.running
    exact ⟨_, Way.refl m.callers.length _,
      .bodiless (step_fatal hrunning (next_placed h hm) hh hfatal)⟩
  | ok frame =>
    cases hd : r.enterCall? with
    | none =>
      rw [Eval.bind_error (call_deep hc hs hd)]
      exact runs_throw h hi hh hm ht (he.trans (enterFunction_deep hc hs hd))
    | some r1 =>
      obtain ⟨env, r2, henv⟩ : ∃ env r2, newCallEnv closure args r1 = .ok env r2 := ⟨_, _, rfl⟩
      obtain ⟨hresume, hcaller⟩ : frame.resume = .call m.context.this m.context.strict constructed ∧
          frame.callerEnv = m.context.env := by
        obtain ⟨u, -, rfl⟩ := start_ok_iff.mp hs
        exact ⟨rfl, rfl⟩
      have hbind : (m.scene.call callee receiver args constructed >>= k) r =
          ((m.scene.frameResult frame
              ⟨env, thisFor closure.info.strict receiver, closure.info.strict⟩ >>=
            Scene.returned constructed) >>= k) (r2.countRun frame.unit.name) := by
        show (m.scene.call callee receiver args constructed r).bind _ = Option.bind _ _
        rw [call_called hc hs hd henv]
      rw [hbind]
      exact runs_emit h hi hh hm (he.trans (enterFunction_called hc hs hd henv))
        (runs_called hm ht hresume hcaller hk)

theorem runs_uncallable {fault : String → Fault} (h : Adds u i s s') (hi : i.invoked? = none)
    (hh : (m.placed s.offset stack0 temps r).hangs i = r.endless [callee]) (hm : m.Hosts a u)
    (ht : temps.size = u.tempCount)
    (he : exec i (m.placed s'.offset stack0 temps r) =
      .error (.thrown (fault (r.toText callee))) (m.placed s'.offset stack temps r)) :
    m.RunsBy way Q (m.placed s.offset stack0 temps r)
      (((do throw (fault (← Eval.text callee)) : Eval Value) >>= k) r) := by
  rw [bind_assoc]
  exact runs_converting h hi hm hh fun hh => runs_throw h hi hh hm ht he

theorem runs_call {argc : Nat} {vs : List Value}
    (h : Laid a u (operate (.call argc) (argc + 2)) s () s') (hvs : vs.length = argc)
    (hm : m.Hosts a u) (ht : temps.size = u.tempCount)
    (hk : ∀ v r', m.RunsBy way Q (m.placed s'.offset (.value v :: stack) temps r') (k v r')) :
    m.RunsBy way Q (m.placed s.offset (slots ([receiver, callee] ++ vs) ++ stack) temps r)
      ((m.scene.call callee receiver vs none >>= k) r) := by
  have hlength : ([receiver, callee] ++ vs).length = argc + 2 := by
    simp [hvs]
  have hexec : exec (.operate (.call argc))
      (m.placed s'.offset (slots ([receiver, callee] ++ vs) ++ stack) temps r) =
      enterFunction callee receiver vs none (m.placed s'.offset stack temps r) :=
    exec_call rfl hlength
  have hadd := (laid_operate h).2
  have hhangs : (m.placed s.offset (slots ([receiver, callee] ++ vs) ++ stack) temps r).hangs
      (.operate (.call argc)) = r.endless (if r.isCallable callee then [] else [callee]) :=
    hangs_operate ([receiver, callee] ++ vs) rfl hlength
  rw [Realm.isCallable_eq] at hhangs
  cases hc : r.closureOf callee with
  | none =>
    rw [hc] at hhangs
    have hcall : (m.scene.call callee receiver vs none >>= k) r =
        ((do throw (.notAFunction (← Eval.text callee)) : Eval Value) >>= k) r := by
      show Option.bind _ _ = Option.bind _ _
      rw [call_uncallable hc]
    rw [hcall]
    exact runs_uncallable hadd rfl hhangs hm ht (hexec.trans (enterFunction_uncallable hc))
  | some closure =>
    rw [hc] at hhangs
    exact runs_enter hadd rfl hhangs hm ht hc hexec hk

theorem runs_construct {argc : Nat} {vs : List Value}
    (h : Laid a u (operate (.construct argc) (argc + 1)) s () s') (hvs : vs.length = argc)
    (hm : m.Hosts a u) (ht : temps.size = u.tempCount)
    (hk : ∀ v r', m.RunsBy way Q (m.placed s'.offset (.value v :: stack) temps r') (k v r')) :
    m.RunsBy way Q (m.placed s.offset (slots ([callee] ++ vs) ++ stack) temps r)
      ((m.scene.construct callee vs >>= k) r) := by
  have hadd := (laid_operate h).2
  have hlength : ([callee] ++ vs).length = argc + 1 := by
    simp [hvs]
  have hexec : exec (.operate (.construct argc))
      (m.placed s'.offset (slots ([callee] ++ vs) ++ stack) temps r) =
      construct callee vs (m.placed s'.offset stack temps r) :=
    exec_construct rfl hlength
  rw [construct_eq] at hexec
  have hrealm : (m.placed s'.offset stack temps r).realm = r := rfl
  unfold Scene.construct
  rw [bind_assoc, Eval.get_bind]
  rw [hrealm] at hexec
  have hhangs : (m.placed s.offset (slots ([callee] ++ vs) ++ stack) temps r).hangs
      (.operate (.construct argc)) = r.endless (if r.isCallable callee then [] else [callee]) :=
    hangs_operate ([callee] ++ vs) rfl hlength
  by_cases hcallable : r.isCallable callee = true
  · rw [if_pos hcallable] at hexec hhangs ⊢
    cases hp : r.read callee "prototype" with
    | error fault =>
      rw [hp] at hexec
      exact runs_throw hadd rfl hhangs hm ht hexec
    | ok prototype =>
      rw [hp] at hexec
      obtain ⟨closure, hc⟩ :=
        Option.isSome_iff_exists.mp ((r.isCallable_eq callee).symm.trans hcallable)
      exact runs_enter hadd rfl hhangs hm ht (Realm.closureOf_derive hc prototype) hexec hk
  · rw [if_neg hcallable] at hexec hhangs ⊢
    exact runs_uncallable hadd rfl hhangs hm ht hexec

end

end Lowering

end TreeScript
