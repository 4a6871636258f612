import TreeScript.Machine.Run

/-!
# Instructions on well-formed stacks

What each instruction does when the entries it takes are on the stack and the operands, labels,
temporaries and units that it names are there.  Each equation gives the whole machine afterwards.
-/

namespace TreeScript

open Code

variable {id : UnitId} {resume : Resume} {t first : Nat} {env : EnvRef} {vs : List Value}
  {a : Artifact} {f : Frame} {x : Exec α} {temps temps' : Array Value} {labels : LabelSet}

namespace Machine

/-! ## The machine with one part changed -/

def withStack (m : Machine) (stack : List Slot) : Machine :=
  { m with frame := { m.frame with stack } }

def pushed (m : Machine) (s : Slot) : Machine := m.withStack (s :: m.frame.stack)

def goto (m : Machine) (next : Nat) : Machine := { m with frame := { m.frame with next } }

def withRealm (m : Machine) (realm : Realm) : Machine := { m with realm }

def withTemp (m : Machine) (index : Nat) (v : Value) : Machine :=
  { m with frame := { m.frame with temps := m.frame.temps.setIfInBounds index v } }

variable {m : Machine}

theorem inRealm_eq (x : RealmM α) (m : Machine) :
    inRealm x m = match x m.realm with
      | .ok a realm => .ok a (m.withRealm realm)
      | .error fault realm => .error (.thrown fault) (m.withRealm realm) :=
  rfl

/-- How an instruction ends that goes on, or throws, when an operation on the realm does. -/
def settle (x : EStateM.Result Fault Realm α) (done : α → Realm → Machine)
    (thrown : Realm → Machine) : EStateM.Result Interrupt Machine Unit :=
  match x with
  | .ok a realm => .ok () (done a realm)
  | .error fault realm => .error (.thrown fault) (thrown realm)

theorem get_bind (f : Machine → Exec α) (m : Machine) : (get >>= f) m = f m m := rfl

theorem bind_ok {f : α → Exec β} {a : α} {m' : Machine} (h : x m = .ok a m') :
    (x >>= f) m = f a m' := by
  show EStateM.bind x f m = _
  unfold EStateM.bind
  rw [h]

theorem bind_error {f : α → Exec β} {e : Interrupt} {m' : Machine} (h : x m = .error e m') :
    (x >>= f) m = .error e m' := by
  show EStateM.bind x f m = _
  unfold EStateM.bind
  rw [h]

theorem bind_congr_at {y : Exec α} (h : x m = y m) (f : α → Exec β) :
    (x >>= f) m = (y >>= f) m := by
  show EStateM.bind x f m = EStateM.bind y f m
  unfold EStateM.bind
  rw [h]

theorem inRealm_bind (x : RealmM α) (f : α → Exec β) (m : Machine) :
    (inRealm x >>= f) m = match x m.realm with
      | .ok a realm => f a (m.withRealm realm)
      | .error fault realm => .error (.thrown fault) (m.withRealm realm) := by
  show EStateM.bind (inRealm x) f m = _
  unfold EStateM.bind
  rw [inRealm_eq]
  cases x m.realm <;> rfl

/-! ## Temporaries -/

structure Kept (first : Nat) (temps temps' : Array Value) : Prop where
  size : temps'.size = temps.size
  below : ∀ t, t < first → temps'[t]? = temps[t]?

theorem Kept.refl (first : Nat) (temps : Array Value) : Kept first temps temps :=
  ⟨rfl, fun _ _ => rfl⟩

theorem Kept.trans {first' : Nat} {temps'' : Array Value} (h : Kept first temps temps')
    (h' : Kept first' temps' temps'') (hle : first ≤ first') :
    Kept first temps temps'' :=
  ⟨h'.size.trans h.size, fun t ht => (h'.below t (Nat.lt_of_lt_of_le ht hle)).trans (h.below t ht)⟩

theorem Kept.mono {first' : Nat} (h : Kept first' temps temps') (hle : first ≤ first') :
    Kept first temps temps' :=
  ⟨h.size, fun t ht => h.below t (Nat.lt_of_lt_of_le ht hle)⟩

theorem Kept.getD_eq (h : Kept first temps temps') (ht : t < first) (v : Value) :
    temps'.getD t v = temps.getD t v := by
  rw [Array.getD_eq_getD_getElem?, Array.getD_eq_getD_getElem?, h.below t ht]

theorem kept_setIfInBounds (ht : first ≤ t) (temps : Array Value) (v : Value) :
    Kept first temps (temps.setIfInBounds t v) := by
  refine ⟨Array.size_setIfInBounds, fun t' ht' => ?_⟩
  rw [Array.getElem?_setIfInBounds_ne (by omega)]

/-! ## The stack -/

section

variable {s s' : Slot} {v : Value} {c : Completion} {rest : List Slot}

theorem peekSlot_eq (h : m.frame.stack = s :: rest) : peekSlot m = .ok s m := by
  unfold peekSlot
  rw [get_bind, h]
  rfl

theorem popSlot_eq (h : m.frame.stack = s :: rest) : popSlot m = .ok s (m.withStack rest) := by
  unfold popSlot
  rw [get_bind, h]
  rfl

theorem pop_eq (h : m.frame.stack = .value v :: rest) : pop m = .ok v (m.withStack rest) :=
  bind_ok (popSlot_eq h)

theorem popCompletion_eq (h : m.frame.stack = .completion c :: rest) :
    popCompletion m = .ok c (m.withStack rest) :=
  bind_ok (popSlot_eq h)

theorem peek_eq (h : m.frame.stack = .value v :: rest) : peek m = .ok v m :=
  bind_ok (peekSlot_eq h)

theorem peekCompletion_eq (h : m.frame.stack = .completion c :: rest) :
    peekCompletion m = .ok c m :=
  bind_ok (peekSlot_eq h)

theorem topTwo_eq (h : m.frame.stack = s :: s' :: rest) : topTwo m = .ok (s, s', rest) m := by
  unfold topTwo
  rw [get_bind, h]
  rfl

end

def slots (vs : List Value) : List Slot := vs.reverse.map .value

theorem slots_append (vs ws : List Value) : slots (vs ++ ws) = slots ws ++ slots vs := by
  simp [slots]

theorem splitTop?_eq (taken front rest : List Slot) :
    splitTop? front.length taken (front ++ rest) = some (front.reverse ++ taken, rest) := by
  induction front generalizing taken with
  | nil => rfl
  | cons s front ih =>
    show splitTop? front.length (s :: taken) (front ++ rest) = _
    rw [ih]
    simp

theorem asValues_eq (vs : List Value) (m : Machine) :
    (vs.map Slot.value).mapM asValue m = .ok vs m := by
  induction vs generalizing m with
  | nil => rfl
  | cons v vs ih =>
    rw [List.map_cons, List.mapM_cons]
    exact bind_ok (ih m)

theorem splitTop?_slots {n : Nat} (hn : vs.length = n) (rest : List Slot) :
    splitTop? n [] (slots vs ++ rest) = some (vs.map .value, rest) := by
  have hl : (slots vs).length = n := by
    simpa [slots] using hn
  rw [← hl, splitTop?_eq]
  simp [slots]

theorem popValues_eq {rest : List Slot} {n : Nat} (h : m.frame.stack = slots vs ++ rest)
    (hn : vs.length = n) :
    popValues n m = .ok vs (m.withStack rest) := by
  unfold popValues
  rw [get_bind, h, splitTop?_slots hn]
  exact asValues_eq vs _

/-! ## Parts of a unit -/

theorem operand_eq {i : OperandIndex} {o : Operand} (h : m.frame.unit.operands[i]? = some o) :
    operand i m = .ok o m := by
  unfold operand
  rw [get_bind, h]
  rfl

theorem nameOf_eq {i : OperandIndex} {name : String}
    (h : m.frame.unit.operands[i]? = some (.binding name)) : nameOf i m = .ok name m :=
  bind_ok (operand_eq h)

theorem jump_eq {l : Label} {offset : Nat} (h : m.frame.unit.offset? l = some offset) :
    jump l m = .ok () (m.goto offset) := by
  unfold jump
  rw [get_bind, h]
  rfl

theorem jumpIf_eq {l : Label} {offset : Nat} (h : m.frame.unit.offset? l = some offset)
    (b : Bool) : jumpIf b l m = .ok () (if b then m.goto offset else m) := by
  cases b with
  | false => rfl
  | true => exact jump_eq h

theorem temp_eq (h : t < m.frame.temps.size) :
    temp t m = .ok (m.frame.temps.getD t .undefined) m := by
  unfold temp
  rw [get_bind, Array.getElem?_eq_getElem h, Array.getD_eq_getD_getElem?,
    Array.getElem?_eq_getElem h]
  rfl

theorem setTemp_eq (h : t < m.frame.temps.size) (v : Value) :
    setTemp t v m = .ok () (m.withTemp t v) := by
  show (if t < m.frame.temps.size then
      modifyFrame fun f => { f with temps := f.temps.setIfInBounds t v }
    else fatal (.missingTemporary m.frame.unit.name t) : Exec Unit) m = _
  rw [if_pos h]
  rfl

/-! ## Instructions -/

section

variable {i : OperandIndex} {name : String} {l : Label} {offset : Nat} {v : Value} {c : Completion}
  {rest : List Slot}

theorem exec_load {o : Operand} (h : m.frame.unit.operands[i]? = some o) :
    exec (.load i) m = settle
      ((liftExcept (o.value m.realm m.context.env m.frame.temps) : RealmM Value) m.realm)
      (fun v realm => (m.withRealm realm).pushed (.value v)) (fun realm => m.withRealm realm) := by
  refine (bind_ok (operand_eq h)).trans ((get_bind _ m).trans ?_)
  cases o.value m.realm m.context.env m.frame.temps <;> rfl

theorem exec_storeTemp (h : t < m.frame.temps.size) (hs : m.frame.stack = .value v :: rest) :
    exec (.storeTemp t) m = .ok () ((m.withStack rest).withTemp t v) :=
  (bind_ok (pop_eq hs)).trans (setTemp_eq (m := m.withStack rest) h v)

theorem exec_loadThis : exec .loadThis m = .ok () (m.pushed (.value m.context.this)) := rfl

section

variable {strict : Bool} (h : m.frame.unit.operands[i]? = some (.binding name))
include h

theorem exec_store (hs : m.frame.stack = .value v :: rest) :
    exec (.store i strict) m = settle (Realm.assign m.context.env name v strict m.realm)
      (fun _ realm => m.withRealm realm) (fun realm => m.withRealm realm) := by
  refine (bind_ok (nameOf_eq h)).trans ((bind_ok (peek_eq hs)).trans ?_)
  refine (inRealm_eq (Realm.assign m.context.env name v strict) m).trans ?_
  cases Realm.assign m.context.env name v strict m.realm <;> rfl

theorem exec_typeOfVariable :
    exec (.typeOfVariable i) m = .ok () (m.pushed (.value (.string
      (((m.realm.lookup m.context.env name).map m.realm.typeName).getD "undefined")))) := by
  refine (bind_ok (nameOf_eq h)).trans ((get_bind _ m).trans ?_)
  cases m.realm.lookup m.context.env name <;> rfl

theorem exec_deleteVariable :
    exec (.deleteVariable i) m = settle (Realm.deleteBinding m.context.env name m.realm)
      (fun b realm => (m.withRealm realm).pushed (.value (.boolean b)))
      (fun realm => m.withRealm realm) := by
  refine (bind_ok (nameOf_eq h)).trans ?_
  refine (inRealm_bind (Realm.deleteBinding m.context.env name) _ m).trans ?_
  cases Realm.deleteBinding m.context.env name m.realm <;> rfl

theorem exec_declareVariable :
    exec (.declareVariable i) m =
      .ok () (m.withRealm (m.realm.modifyEnv m.context.env (·.declare name false))) :=
  bind_ok (nameOf_eq h)

theorem exec_initializeBinding (hs : m.frame.stack = .value v :: rest) :
    exec (.initializeBinding i) m =
      .ok () ((m.withStack rest).withRealm (m.realm.modifyEnv m.context.env (·.bind name v))) :=
  (bind_ok (nameOf_eq h)).trans (bind_ok (pop_eq hs))

theorem exec_enterCatch (hs : m.frame.stack = .value v :: rest) :
    exec (.enterCatch i) m = settle (newScope m.context.env name v m.realm)
      (fun scope realm =>
        { m with
          realm
          context := { m.context with env := scope }
          frame := { m.frame with stack := rest, scopes := m.context.env :: m.frame.scopes } })
      (fun realm => (m.withStack rest).withRealm realm) := by
  refine (bind_ok (nameOf_eq h)).trans ((bind_ok (pop_eq hs)).trans ?_)
  refine (bind_ok (x := get) rfl).trans ?_
  refine (inRealm_bind (newScope m.context.env name v) _ (m.withStack rest)).trans ?_
  have hr : (m.withStack rest).realm = m.realm := rfl
  rw [hr]
  cases newScope m.context.env name v m.realm <;> rfl

end

theorem exec_makeClosure {f : FunctionId} {info : FunctionInfo}
    (h : m.frame.artifact.function? f = some info) :
    exec (.makeClosure f) m = settle (newClosure m.frame.artifact info m.context.env m.realm)
      (fun v realm => (m.withRealm realm).pushed (.value v)) (fun realm => m.withRealm realm) := by
  have hmake : makeClosure f m = inRealm (newClosure m.frame.artifact info m.context.env) m := by
    unfold makeClosure
    rw [get_bind, h]
  refine (bind_congr_at hmake push).trans ?_
  refine (inRealm_bind (newClosure m.frame.artifact info m.context.env) push m).trans ?_
  cases newClosure m.frame.artifact info m.context.env m.realm <;> rfl

variable {s : Slot}

theorem exec_pop (hs : m.frame.stack = s :: rest) :
    exec .pop m = .ok () (m.withStack rest) := by
  show EStateM.map (fun _ => PUnit.unit) popSlot m = _
  unfold EStateM.map
  rw [popSlot_eq hs]

theorem exec_dup (hs : m.frame.stack = s :: rest) :
    exec .dup m = .ok () (m.pushed s) :=
  bind_ok (peekSlot_eq hs)

theorem exec_dupPair {s' : Slot} (hs : m.frame.stack = s :: s' :: rest) :
    exec .dupPair m = .ok () (m.withStack (s :: s' :: s :: s' :: rest)) :=
  bind_ok (topTwo_eq hs)

theorem exec_swap {s' : Slot} (hs : m.frame.stack = s :: s' :: rest) :
    exec .swap m = .ok () (m.withStack (s' :: s :: rest)) :=
  bind_ok (topTwo_eq hs)

theorem exec_jump (h : m.frame.unit.offset? l = some offset) :
    exec (.jump l) m = .ok () (m.goto offset) :=
  jump_eq h

theorem exec_jumpIfFalse (h : m.frame.unit.offset? l = some offset)
    (hs : m.frame.stack = .value v :: rest) :
    exec (.jumpIfFalse l) m =
      .ok () (if !v.truthy then (m.withStack rest).goto offset else m.withStack rest) :=
  (bind_ok (pop_eq hs)).trans (jumpIf_eq (m := m.withStack rest) h _)

theorem exec_jumpIfTrue (h : m.frame.unit.offset? l = some offset)
    (hs : m.frame.stack = .value v :: rest) :
    exec (.jumpIfTrue l) m =
      .ok () (if v.truthy then (m.withStack rest).goto offset else m.withStack rest) :=
  (bind_ok (pop_eq hs)).trans (jumpIf_eq (m := m.withStack rest) h _)

theorem start_ok_iff : Frame.start a id env resume = .ok f ↔ ∃ u, a.unit? id = some u ∧
    f = { artifact := a, unit := u, temps := Array.replicate u.tempCount .undefined
          callerEnv := env, resume } := by
  unfold Frame.start
  cases a.unit? id <;> simp [eq_comm]

theorem startFrame_ok {artifact : Artifact} {frame : Frame}
    (h : Frame.start artifact id m.context.env resume = .ok frame) :
    startFrame artifact id resume m = .ok frame m := by
  unfold startFrame
  rw [get_bind, h]
  rfl

theorem startFrame_error {artifact : Artifact} {e : MachineError}
    (h : Frame.start artifact id m.context.env resume = .error e) :
    startFrame artifact id resume m = .error (.fatal e) m := by
  unfold startFrame
  rw [get_bind, h]
  rfl

theorem exec_invoke {unit : CodeUnit} (h : m.frame.artifact.unit? id = some unit) :
    exec (.invoke id) m = .ok () ⟨m.realm.countRun unit.name, m.context,
      { artifact := m.frame.artifact, unit, temps := Array.replicate unit.tempCount .undefined
        callerEnv := m.context.env, resume := .unit }, m.frame :: m.callers, .running⟩ := by
  have hs : Frame.start m.frame.artifact id m.context.env .unit = .ok _ :=
    start_ok_iff.mpr ⟨unit, h, rfl⟩
  exact bind_ok (startFrame_ok hs)

theorem mapM_value?_map (vs : List Value) : (vs.map Slot.value).mapM Slot.value? = some vs := by
  induction vs with
  | nil => rfl
  | cons v vs ih =>
    rw [List.map_cons, List.mapM_cons, ih]
    rfl

theorem hangs_operate {op : Operation} (vs : List Value) {rest : List Slot}
    (hs : m.frame.stack = slots vs ++ rest) (ha : vs.length = op.arity) :
    m.hangs (.operate op) = m.realm.endless (m.realm.converted op vs) := by
  have hoperands : m.operands? op = some vs := by
    unfold operands?
    rw [hs, splitTop?_slots ha]
    exact mapM_value?_map vs
  show (m.operands? op).any _ = _
  rw [hoperands]
  rfl

theorem exec_operate {op : Operation} (hc : ∀ argc, op ≠ .call argc)
    (hn : ∀ argc, op ≠ .construct argc) (hs : m.frame.stack = slots vs ++ rest)
    (ha : vs.length = op.arity) :
    exec (.operate op) m = settle (apply op vs m.realm)
      (fun v realm => (m.withRealm realm).withStack (.value v :: rest))
      (fun realm => (m.withStack rest).withRealm realm) := by
  have hop : exec (.operate op) m =
      (inRealm (apply op vs) >>= push) (m.withStack rest) := by
    refine (bind_ok (popValues_eq hs ha)).trans ?_
    cases op with
    | call argc => exact absurd rfl (hc argc)
    | construct argc => exact absurd rfl (hn argc)
    | _ => rfl
  have hr : (m.withStack rest).realm = m.realm := rfl
  rw [hop, inRealm_bind, hr]
  cases apply op vs m.realm <;> rfl

theorem exec_call {argc : Nat} (hs : m.frame.stack = slots vs ++ rest) (ha : vs.length = argc + 2) :
    exec (.operate (.call argc)) m =
      enterFunction (vs.getD 1 .undefined) (vs.getD 0 .undefined) (vs.drop 2) none
        (m.withStack rest) :=
  bind_ok (popValues_eq hs ha)

theorem exec_construct {argc : Nat} (hs : m.frame.stack = slots vs ++ rest)
    (ha : vs.length = argc + 1) :
    exec (.operate (.construct argc)) m =
      construct (vs.getD 0 .undefined) (vs.drop 1) (m.withStack rest) :=
  bind_ok (popValues_eq hs ha)

theorem construct_eq (callee : Value) (args : List Value) (m : Machine) :
    construct callee args m =
      if m.realm.isCallable callee then
        match m.realm.read callee "prototype" with
        | .error fault => .error (.thrown fault) m
        | .ok prototype =>
          enterFunction callee (.object (m.realm.derive prototype).1) args
            (some (.object (m.realm.derive prototype).1))
            (m.withRealm (m.realm.derive prototype).2)
      else .error (.thrown (.notAConstructor (m.realm.toText callee))) m := by
  show (if m.realm.isCallable callee then
      inRealm (liftExcept (m.realm.read callee "prototype")) >>= fun prototype =>
        inRealm (allocate (·.derive prototype)) >>= fun object =>
          enterFunction callee object args object
    else throw (.thrown (.notAConstructor (m.realm.toText callee))) : Exec Unit) m = _
  split
  · cases m.realm.read callee "prototype" <;> rfl
  · rfl

theorem exec_exitScope {scopes : List EnvRef} (h : m.frame.scopes = env :: scopes) :
    exec .exitScope m = .ok ()
      { m with context := { m.context with env }, frame := { m.frame with scopes } } := by
  rw [exec, get_bind, h]
  rfl

theorem exec_normalValue (hs : m.frame.stack = .value v :: rest) :
    exec .normalValue m = .ok () (m.withStack (.completion (.normalWith v) :: rest)) :=
  bind_ok (pop_eq hs)

theorem exec_returnValue (hs : m.frame.stack = .value v :: rest) :
    exec .returnValue m = .ok () (m.withStack (.completion (.returning v) :: rest)) :=
  bind_ok (pop_eq hs)

theorem exec_throwValue (hs : m.frame.stack = .value v :: rest) :
    exec .throwValue m = .ok () (m.withStack (.completion (.throwing v) :: rest)) :=
  bind_ok (pop_eq hs)

theorem exec_merge {c' : Completion}
    (hs : m.frame.stack = .completion c :: .completion c' :: rest) :
    exec .merge m = .ok () (m.withStack (.completion (c.merge c') :: rest)) :=
  (bind_ok (popCompletion_eq hs)).trans
    (bind_ok (popCompletion_eq (m := m.withStack (.completion c' :: rest)) rfl))

theorem exec_consumeBreak (hs : m.frame.stack = .completion c :: rest) :
    exec (.consumeBreak labels) m =
      .ok () (m.withStack (.completion (c.consumeBreak labels) :: rest)) :=
  bind_ok (popCompletion_eq hs)

theorem exec_unwrap (hs : m.frame.stack = .completion c :: rest) :
    exec .unwrap m = .ok () (m.withStack (.value c.valueOrUndefined :: rest)) :=
  bind_ok (popCompletion_eq hs)

section

variable {kind : CompletionKind} (h : m.frame.unit.offset? l = some offset)
  (hs : m.frame.stack = .completion c :: rest)
include h hs

theorem exec_jumpIfAbrupt :
    exec (.jumpIfAbrupt l) m = .ok () (if c.isAbrupt then m.goto offset else m) :=
  (bind_ok (peekCompletion_eq hs)).trans (jumpIf_eq h _)

theorem exec_jumpUnlessKind :
    exec (.jumpUnlessKind kind l) m = .ok () (if c.kind != kind then m.goto offset else m) :=
  (bind_ok (peekCompletion_eq hs)).trans (jumpIf_eq h _)

theorem exec_jumpIfBreaksHere :
    exec (.jumpIfBreaksHere labels l) m =
      .ok () (if c.breaksAt labels then m.goto offset else m) :=
  (bind_ok (peekCompletion_eq hs)).trans (jumpIf_eq h _)

theorem exec_jumpIfContinuesHere :
    exec (.jumpIfContinuesHere labels l) m =
      .ok () (if c.continuesAt labels then m.goto offset else m) :=
  (bind_ok (peekCompletion_eq hs)).trans (jumpIf_eq h _)

end

/-- What an enumeration with its first temporary at `keys` goes on to: a key, if there is one left,
and the place after it. -/
def nextEnumerated (r : Realm) (temps : Array Value) (keys : Nat) : Option String × Nat :=
  let temp := fun k => temps.getD (tempAfter keys k) .undefined
  let position := Number.saturated32 (r.toNumber (temp 1))
  match (temps.getD keys .undefined).object? with
  | none => (none, position)
  | some ref =>
    nextPresent r ref (temp 2).object? ((r.object ref).arrayLength - position) position

def enumerated (m : Machine) (keys : Nat) : Machine :=
  m.withTemp (tempAfter keys 1)
    (.number (Number.ofNat (nextEnumerated m.realm m.frame.temps keys).2))

theorem nextKey_eq {keys : Nat} (h0 : keys < m.frame.temps.size)
    (h1 : tempAfter keys 1 < m.frame.temps.size) (h2 : tempAfter keys 2 < m.frame.temps.size) :
    nextKey keys m =
      .ok (nextEnumerated m.realm m.frame.temps keys).1 (m.enumerated keys) := by
  refine (bind_ok (temp_eq h0)).trans ((bind_ok (temp_eq h2)).trans ?_)
  refine (bind_ok (x := get) rfl).trans ((bind_ok (temp_eq h1)).trans ?_)
  exact (bind_ok (setTemp_eq h1 _)).trans rfl

theorem exec_forInStep {keys : Nat} (h : m.frame.unit.offset? l = some offset)
    (h0 : keys < m.frame.temps.size) (h1 : tempAfter keys 1 < m.frame.temps.size)
    (h2 : tempAfter keys 2 < m.frame.temps.size) :
    exec (.forInStep keys l) m = match (nextEnumerated m.realm m.frame.temps keys).1 with
      | some key => .ok () ((m.enumerated keys).pushed (.value (.string key)))
      | none => .ok () ((m.enumerated keys).goto offset) := by
  refine (bind_ok (nextKey_eq h0 h1 h2)).trans ?_
  cases (nextEnumerated m.realm m.frame.temps keys).1 with
  | some key => rfl
  | none => exact jump_eq (m := m.enumerated keys) h

end

end Machine

end TreeScript
