import TreeScript.Proofs.Lowering.Laid
import TreeScript.Proofs.Machine.Effect
import TreeScript.Proofs.Number.Whole

/-!
# Safe code

Code is safe at a place in its unit if every instruction that is run from there finds on the stack
what it needs, and the unit ends with one completion for which a postcondition holds.  Values count
as unknown, but for the objects that literals fill; completions are followed exactly, since jumps
depend on them.

Safety is indexed by a number of steps, so that loops can be treated by induction on it.  The
postcondition of a unit that is run from inside is chosen anew each time it is run.
-/

namespace TreeScript

open Code Lowering

/-- A completion of the form that its kind asks for. -/
def Completion.WellFormed (c : Completion) : Prop :=
  match c.kind with
  | .normal => c.target = none
  | .break | .continue => c.value = none
  | .return | .throw => c.value.isSome ∧ c.target = none

/-- What the safety of code depends on: where a frame stands in its unit, what is on its stack and
how many scopes are open. -/
structure View where
  next : Nat
  stack : List Slot
  scopes : Nat

def Frame.view (f : Frame) : View := ⟨f.next, f.stack, f.scopes.length⟩

namespace View

def start : View := ⟨0, [], 0⟩

def withStack (v : View) (stack : List Slot) : View := { v with stack }

def push (v : View) (s : Slot) : View := v.withStack (s :: v.stack)

def goto (v : View) (next : Nat) : View := { v with next }

end View

/-- What a unit in which the postcondition holds can be trusted with: its completions are well
formed, and a throw can end it anywhere. -/
structure Fair (post : Completion → Prop) : Prop where
  wellFormed : ∀ {c}, post c → c.WellFormed
  throwing : ∀ v, post (.throwing v)

/-- What code relies on beyond its own unit. -/
structure Rules where
  ends : Completion → Prop
  plain : Value → Prop

namespace Rules

variable (rules : Rules)

/-- What an operation asks of its arguments. -/
structure Takes (op : Operation) (vs : List Value) : Prop where
  brief : vs.length ≤ 0xFFFFFFFF
  plain : op = .defineProperty → rules.plain (vs.getD 0 .undefined)

def Gives (op : Operation) (x : Value) : Prop :=
  op = .newObject ∨ op = .defineProperty → rules.plain x

end Rules

section

variable (a : Artifact) (u : CodeUnit) (rules : Rules)

def Code.CodeUnit.Names (i : OperandIndex) : Prop := ∃ name, u.operands[i]? = some (.binding name)

/-- What an instruction needs for `Q` to hold after it.  The `rules` are kept, and `runs` tells how
the units of the artifact can end. -/
def Needs (runs : CodeUnit → (Completion → Prop) → Prop) (Q : View → Prop) (v : View) :
    Instruction → Prop
  | .load i => (∃ o, u.operands[i]? = some o) ∧ ∀ x, Q (v.push (.value x))
  | .store i _ => u.Names i ∧ (∃ x rest, v.stack = .value x :: rest) ∧ Q v
  | .storeTemp t => t < u.tempCount ∧ ∃ x rest, v.stack = .value x :: rest ∧ Q (v.withStack rest)
  | .loadThis => ∀ x, Q (v.push (.value x))
  | .typeOfVariable i | .deleteVariable i => u.Names i ∧ ∀ x, Q (v.push (.value x))
  | .declareVariable i => u.Names i ∧ Q v
  | .initializeBinding i =>
    u.Names i ∧ ∃ x rest, v.stack = .value x :: rest ∧ Q (v.withStack rest)
  | .makeClosure f =>
    ∃ info u', a.function? f = some info ∧ a.unit? info.unit = some u' ∧ runs u' rules.ends ∧
      ∀ x, Q (v.push (.value x))
  | .pop => ∃ s rest, v.stack = s :: rest ∧ Q (v.withStack rest)
  | .dup => ∃ s rest, v.stack = s :: rest ∧ Q (v.push s)
  | .dupPair => ∃ s s' rest, v.stack = s :: s' :: rest ∧
    Q (v.withStack (s :: s' :: s :: s' :: rest))
  | .swap => ∃ s s' rest, v.stack = s :: s' :: rest ∧ Q (v.withStack (s' :: s :: rest))
  | .nop => Q v
  | .jump l => ∃ offset, u.offset? l = some offset ∧ Q (v.goto offset)
  | .jumpIfFalse l | .jumpIfTrue l =>
    ∃ offset x rest, u.offset? l = some offset ∧ v.stack = .value x :: rest ∧
      Q (v.withStack rest) ∧ Q ((v.withStack rest).goto offset)
  | .invoke id =>
    ∃ u' post, a.unit? id = some u' ∧ isDeclaring u'.role = false ∧ Fair post ∧ runs u' post ∧
      ∀ c, post c → Q (v.push (.completion c))
  | .operate op =>
    ∃ vs rest, v.stack = Machine.slots vs ++ rest ∧ vs.length = op.arity ∧ rules.Takes op vs ∧
      ∀ x, rules.Gives op x → Q (v.withStack (.value x :: rest))
  | .enterCatch i =>
    u.Names i ∧ ∃ x rest, v.stack = .value x :: rest ∧ Q ⟨v.next, rest, v.scopes + 1⟩
  | .exitScope => ∃ n, v.scopes = n + 1 ∧ Q { v with scopes := n }
  | .forInStep keys l =>
    keys < u.tempCount ∧ Machine.tempAfter keys 1 < u.tempCount ∧
      Machine.tempAfter keys 2 < u.tempCount ∧
      ∃ offset, u.offset? l = some offset ∧ (∀ x, Q (v.push (.value x))) ∧ Q (v.goto offset)
  | .normal => Q (v.push (.completion .normal))
  | .normalValue =>
    ∃ x rest, v.stack = .value x :: rest ∧ Q (v.withStack (.completion (.normalWith x) :: rest))
  | .breakTo target => Q (v.push (.completion (.breakTo target)))
  | .continueTo target => Q (v.push (.completion (.continueTo target)))
  | .returnValue =>
    ∃ x rest, v.stack = .value x :: rest ∧ Q (v.withStack (.completion (.returning x) :: rest))
  | .throwValue =>
    ∃ x rest, v.stack = .value x :: rest ∧ Q (v.withStack (.completion (.throwing x) :: rest))
  | .jumpIfAbrupt l =>
    ∃ offset c rest, u.offset? l = some offset ∧ v.stack = .completion c :: rest ∧
      Q (if c.isAbrupt then v.goto offset else v)
  | .jumpIfKind kind l =>
    ∃ offset c rest, u.offset? l = some offset ∧ v.stack = .completion c :: rest ∧
      Q (if c.kind == kind then v.goto offset else v)
  | .jumpUnlessKind kind l =>
    ∃ offset c rest, u.offset? l = some offset ∧ v.stack = .completion c :: rest ∧
      Q (if c.kind != kind then v.goto offset else v)
  | .jumpIfBreaksHere labels l =>
    ∃ offset c rest, u.offset? l = some offset ∧ v.stack = .completion c :: rest ∧
      Q (if c.breaksAt labels then v.goto offset else v)
  | .jumpIfContinuesHere labels l =>
    ∃ offset c rest, u.offset? l = some offset ∧ v.stack = .completion c :: rest ∧
      Q (if c.continuesAt labels then v.goto offset else v)
  | .merge =>
    ∃ c c' rest, v.stack = .completion c :: .completion c' :: rest ∧
      Q (v.withStack (.completion (c.merge c') :: rest))
  | .consumeBreak labels =>
    ∃ c rest, v.stack = .completion c :: rest ∧
      Q (v.withStack (.completion (c.consumeBreak labels) :: rest))
  | .unwrap =>
    ∃ c rest, v.stack = .completion c :: rest ∧
      Q (v.withStack (.value c.valueOrUndefined :: rest))

end

def Ending (post : Completion → Prop) (v : View) : Prop := ∃ c, v.stack = [.completion c] ∧ post c

/-- For `n` steps code is safe, and if it ends by then it ends as `post` says. -/
def Safe (a : Artifact) (rules : Rules) : Nat → CodeUnit → (View → Prop) → View → Prop
  | 0, _, _, _ => True
  | n + 1, u, post, v =>
    match u.instructions[v.next]? with
    | none => post v
    | some i =>
      Needs a u rules (fun u' post' => Safe a rules n u' (Ending post') .start)
        (Safe a rules n u post) (v.goto (v.next + 1)) i

variable {a : Artifact} {u : CodeUnit} {rules : Rules} {post : View → Prop} {n : Nat} {v : View}

theorem Needs.mono {runs runs' : CodeUnit → (Completion → Prop) → Prop} {Q Q' : View → Prop}
    {i : Instruction} (h : Needs a u rules runs Q v i)
    (hr : ∀ u' post', runs u' post' → runs' u' post') (hQ : ∀ v, Q v → Q' v) :
    Needs a u rules runs' Q' v i := by
  cases i with
  | store i strict => exact ⟨h.1, h.2.1, hQ _ h.2.2⟩
  | loadThis => exact fun x => hQ _ (h x)
  | load i | typeOfVariable i | deleteVariable i => exact ⟨h.1, fun x => hQ _ (h.2 x)⟩
  | declareVariable i => exact ⟨h.1, hQ _ h.2⟩
  | storeTemp t | initializeBinding i | enterCatch i =>
    obtain ⟨hi, x, rest, hs, hq⟩ := h
    exact ⟨hi, x, rest, hs, hQ _ hq⟩
  | makeClosure f =>
    obtain ⟨info, u', hf, hu, hruns, hq⟩ := h
    exact ⟨info, u', hf, hu, hr _ _ hruns, fun x => hQ _ (hq x)⟩
  | pop | dup =>
    obtain ⟨s, rest, hs, hq⟩ := h
    exact ⟨s, rest, hs, hQ _ hq⟩
  | dupPair | swap | merge =>
    obtain ⟨s, s', rest, hs, hq⟩ := h
    exact ⟨s, s', rest, hs, hQ _ hq⟩
  | nop | normal | breakTo target | continueTo target => exact hQ _ h
  | jump l | exitScope =>
    obtain ⟨offset, hl, hq⟩ := h
    exact ⟨offset, hl, hQ _ hq⟩
  | jumpIfFalse l | jumpIfTrue l =>
    obtain ⟨offset, x, rest, hl, hs, hq, hq'⟩ := h
    exact ⟨offset, x, rest, hl, hs, hQ _ hq, hQ _ hq'⟩
  | invoke id =>
    obtain ⟨u', post', hu, hd, hfair, hruns, hq⟩ := h
    exact ⟨u', post', hu, hd, hfair, hr _ _ hruns, fun c hc => hQ _ (hq c hc)⟩
  | operate op =>
    obtain ⟨vs, rest, hs, ha, ht, hq⟩ := h
    exact ⟨vs, rest, hs, ha, ht, fun x hx => hQ _ (hq x hx)⟩
  | forInStep keys l =>
    obtain ⟨h0, h1, h2, offset, hl, hq, hq'⟩ := h
    exact ⟨h0, h1, h2, offset, hl, fun x => hQ _ (hq x), hQ _ hq'⟩
  | normalValue | returnValue | throwValue | consumeBreak labels | unwrap =>
    obtain ⟨x, rest, hs, hq⟩ := h
    exact ⟨x, rest, hs, hQ _ hq⟩
  | jumpIfAbrupt l | jumpIfKind kind l | jumpUnlessKind kind l | jumpIfBreaksHere labels l
  | jumpIfContinuesHere labels l =>
    obtain ⟨offset, c, rest, hl, hs, hq⟩ := h
    exact ⟨offset, c, rest, hl, hs, hQ _ hq⟩

theorem Safe.pred (h : Safe a rules (n + 1) u post v) : Safe a rules n u post v := by
  induction n generalizing u post v with
  | zero => trivial
  | succ n ih =>
    unfold Safe at h ⊢
    split at h
    · exact h
    · exact h.mono (fun u' post' hr => ih hr) (fun v' hv => ih hv)

theorem Safe.mono {k : Nat} (h : Safe a rules n u post v) (hk : k ≤ n) :
    Safe a rules k u post v := by
  induction hk with
  | refl => exact h
  | step _ ih => exact ih h.pred

/-! ## Where an instruction leads -/

/-- A place in the code of a unit, and what the temporaries hold there. -/
structure Place where
  next : Nat
  temps : Array Value

def Frame.place (f : Frame) : Place := ⟨f.next, f.temps⟩

/-- An instruction that is behind it at `p` can lead to `p'`.  Enumerating either ends, or moves the
position on. -/
def Turns (u : CodeUnit) (p p' : Place) : Instruction → Prop
  | .storeTemp t => ∃ v, p' = { p with temps := p.temps.setIfInBounds t v }
  | .jump l => ∃ offset, u.offset? l = some offset ∧ p' = { p with next := offset }
  | .jumpIfFalse l | .jumpIfTrue l | .jumpIfAbrupt l | .jumpIfKind _ l | .jumpUnlessKind _ l
  | .jumpIfBreaksHere _ l | .jumpIfContinuesHere _ l =>
    p' = p ∨ ∃ offset, u.offset? l = some offset ∧ p' = { p with next := offset }
  | .forInStep keys l =>
    ∃ position next, Machine.tempAfter keys 1 < p.temps.size ∧
      p' = ⟨next, p.temps.setIfInBounds (Machine.tempAfter keys 1)
        (.number (Number.ofNat position))⟩ ∧
      (u.offset? l = some next ∨ next = p.next ∧ position ≤ 0xFFFFFFFF ∧
        ∀ x, p.temps.getD (Machine.tempAfter keys 1) .undefined = .number x →
          Number.saturated32 x < position)
  | _ => p' = p

namespace Machine

/-- An enumeration that comes to a key has moved on, and stays within the length of the list. -/
theorem nextPresent_lt {r : Realm} {list : ObjectRef} {object : Option ObjectRef} {n position : Nat}
    {key : String} (h : (nextPresent r list object n position).1 = some key) :
    position < (nextPresent r list object n position).2 ∧
      (nextPresent r list object n position).2 ≤ position + n := by
  induction n generalizing position with
  | zero => cases h
  | succ n ih =>
    unfold nextPresent at h ⊢
    dsimp only at h ⊢
    split
    · exact ⟨Nat.lt_succ_self _, Nat.add_le_add_left (Nat.succ_pos n) position⟩
    · next hnot =>
      rw [if_neg hnot] at h
      obtain ⟨hlt, hle⟩ := ih h
      omega

theorem arrayLength_le (o : Object) : o.arrayLength ≤ 0xFFFFFFFF := by
  unfold Object.arrayLength
  split
  · split
    · exact Number.saturated32_le _
    · exact Nat.zero_le _
  · exact Nat.zero_le _

theorem nextEnumerated_lt {r : Realm} {temps : Array Value} {keys : Nat} {key : String}
    (h : (nextEnumerated r temps keys).1 = some key) :
    (nextEnumerated r temps keys).2 ≤ 0xFFFFFFFF ∧
      ∀ x, temps.getD (tempAfter keys 1) .undefined = .number x →
        Number.saturated32 x < (nextEnumerated r temps keys).2 := by
  unfold nextEnumerated at h ⊢
  cases hl : (temps.getD keys .undefined).object? with
  | none =>
    rw [hl] at h
    cases h
  | some ref =>
    rw [hl] at h
    dsimp only at h ⊢
    obtain ⟨hlt, hle⟩ := nextPresent_lt h
    have hmax := arrayLength_le (r.object ref)
    refine ⟨by omega, fun x hx => ?_⟩
    have hposition : r.toNumber (temps.getD (tempAfter keys 1) .undefined) = x := by
      rw [hx]
      rfl
    rw [hposition] at hlt ⊢
    exact hlt

/-! ## What needs are good for -/

/-- From `m` to `m'` only the running frame was at work, and it moved the realm along `R`. -/
structure Works (R : Realm → Realm → Prop) (m m' : Machine) : Prop where
  realm : R m.realm m'.realm
  frame : m.frame.Alike m'.frame
  callers : m'.callers = m.callers
  status : m'.status = m.status

/-- What an instruction comes to when `Q` is to hold after it. -/
inductive Comes (R : Realm → Realm → Prop) (runs : CodeUnit → (Completion → Prop) → Prop)
    (Q : View → Prop) (m : Machine) (i : Instruction) :
    EStateM.Result Interrupt Machine Unit → Prop where
  | done {m' : Machine} : Works R m m' → Turns m.frame.unit m.frame.place m'.frame.place i →
    Q m'.frame.view → Comes R runs Q m i (.ok () m')
  | thrown {fault : Fault} {m' : Machine} :
    Works R m m' → Comes R runs Q m i (.error (.thrown fault) m')
  | unit {id : UnitId} {u : CodeUnit} {post : Completion → Prop} : i = .invoke id →
    m.frame.artifact.unit? id = some u → isDeclaring u.role = false → Fair post → runs u post →
    (∀ c, post c → Q (m.frame.view.push (.completion c))) →
    Comes R runs Q m i (exec (.invoke id) m)
  | call {m' : Machine} (callee receiver : Value) (args : List Value)
      (constructed : Option Value) :
    i = .operate (.call args.length) ∨ i = .operate (.construct args.length) →
    args.length ≤ 0xFFFFFFFF → Works R m m' → m'.frame.place = m.frame.place →
    (∀ x, Q (m'.frame.view.push (.value x))) →
    Comes R runs Q m i (enterFunction callee receiver args constructed m')

/-- What an instruction can do to the realm of a machine is along `R`. -/
structure Permits (rules : Rules) (runs : CodeUnit → (Completion → Prop) → Prop)
    (R : Realm → Realm → Prop) (m : Machine) (i : Instruction) : Prop where
  rebinds : ∀ {r r'}, Realm.Rebinds r r' → R r r'
  closure : ∀ {f info u'}, m.frame.artifact.function? f = some info →
    m.frame.artifact.unit? info.unit = some u' → runs u' rules.ends →
    Moves R (newClosure m.frame.artifact info m.context.env)
  apply : ∀ {op vs rest}, i = .operate op → m.frame.stack = slots vs ++ rest →
    vs.length = op.arity → rules.Takes op vs → R m.realm (stateOf (apply op vs m.realm))
  derive : ∀ r prototype, R r (Realm.derive r prototype).2

variable {m : Machine} {R : Realm → Realm → Prop} {i : Instruction}
  {runs : CodeUnit → (Completion → Prop) → Prop} {Q : View → Prop}

theorem Permits.refl (h : Permits rules runs R m i) (r : Realm) : R r r := h.rebinds (.refl r)

/-- New functions have closures for which `K` holds. -/
theorem permits_steady {K : Closure → Prop}
    (hK : ∀ {f info u' env}, m.frame.artifact.function? f = some info →
      m.frame.artifact.unit? info.unit = some u' → runs u' rules.ends →
      K ⟨m.frame.artifact, info, env⟩) : Permits rules runs (Realm.Steady K) m i where
  rebinds := Realm.Rebinds.steady
  closure hf hu hr := moves_newClosure (fun _ => hK hf hu hr) m.context.env
  apply _ _ _ _ := (Realm.acts_apply _ _).moves _
  derive := Realm.steady_derive

theorem works_withStack (hR : ∀ r, R r r) (m : Machine) (stack : List Slot) :
    Works R m (m.withStack stack) :=
  ⟨hR _, ⟨rfl, rfl, rfl, rfl, rfl⟩, rfl, rfl⟩

theorem works_goto (hR : ∀ r, R r r) (m : Machine) (stack : List Slot) (next : Nat) :
    Works R m ((m.withStack stack).goto next) :=
  ⟨hR _, ⟨rfl, rfl, rfl, rfl, rfl⟩, rfl, rfl⟩

theorem works_withRealm (m : Machine) (stack : List Slot) {realm : Realm}
    (h : R m.realm realm) : Works R m ((m.withStack stack).withRealm realm) :=
  ⟨h, ⟨rfl, rfl, rfl, rfl, rfl⟩, rfl, rfl⟩

/-- An operation on the realm after which the frame goes on, or which it throws. -/
theorem comes_realm {x : RealmM α} {f : α → Realm → Machine} {g : Realm → Machine}
    (hx : R m.realm (stateOf (x m.realm)))
    (hf : ∀ a r, x m.realm = .ok a r → R m.realm r → Works R m (f a r) ∧
      Turns m.frame.unit m.frame.place (f a r).frame.place i ∧ Q (f a r).frame.view)
    (hg : ∀ r, R m.realm r → Works R m (g r)) :
    Comes R runs Q m i (settle (x m.realm) f g) := by
  cases h : x m.realm with
  | ok a r =>
    rw [h] at hx
    obtain ⟨hw, ht, hq⟩ := hf a r h hx
    exact .done hw ht hq
  | error fault r =>
    rw [h] at hx
    exact .thrown (hg r hx)

theorem comes_jumpIf {b : Completion → Bool} {l : Label} {offset : Nat} {c : Completion}
    {rest : List Slot} (hR : ∀ r, R r r) (hl : m.frame.unit.offset? l = some offset)
    (hs : m.frame.stack = .completion c :: rest)
    (ht : ∀ p, p = m.frame.place ∨ p = { m.frame.place with next := offset } →
      Turns m.frame.unit m.frame.place p i)
    (hq : Q (if b c then m.frame.view.goto offset else m.frame.view)) :
    Comes R runs Q m i ((peekCompletion >>= fun c => jumpIf (b c) l) m) := by
  rw [bind_ok (peekCompletion_eq hs), jumpIf_eq hl]
  cases hb : b c with
  | true =>
    rw [hb] at hq
    exact .done (works_goto hR m m.frame.stack offset) (ht _ (.inr rfl)) hq
  | false =>
    rw [hb] at hq
    exact .done (works_withStack hR m m.frame.stack) (ht _ (.inl rfl)) hq

theorem comes_construct (hp : Permits rules runs R m i) (callee : Value) {args : List Value}
    (hi : i = .operate (.construct args.length)) (hbrief : args.length ≤ 0xFFFFFFFF)
    {rest : List Slot} (hq : ∀ x, Q (m.frame.view.withStack (.value x :: rest))) :
    Comes R runs Q m i (construct callee args (m.withStack rest)) := by
  rw [construct_eq]
  split
  · split
    · exact .thrown (works_withStack hp.refl m rest)
    · exact .call _ _ _ _ (.inr hi) hbrief (works_withRealm m rest (hp.derive _ _)) rfl hq
  · exact .thrown (works_withStack hp.refl m rest)

/-- A new object is given where the next one goes, and an object that was filled is given back. -/
theorem gives_apply {op : Operation} {vs : List Value} {r r' : Realm} {x : Value}
    (h : apply op vs r = .ok x r') (ht : rules.Takes op vs)
    (hnew : op = .newObject → rules.plain (.object ⟨r.objects.size⟩)) : rules.Gives op x := by
  rintro (rfl | rfl)
  · cases h
    exact hnew rfl
  · have hobject := ht.plain rfl
    cases vs with
    | nil => cases h
    | cons v vs =>
      cases v with
      | object ref =>
        cases h
        exact hobject
      | _ => cases h

theorem comes_operate {op : Operation} {vs : List Value} {rest : List Slot}
    (hp : Permits rules runs R m (.operate op))
    (hs : m.frame.stack = slots vs ++ rest) (ha : vs.length = op.arity) (ht : rules.Takes op vs)
    (hnew : op = .newObject → rules.plain (.object ⟨m.realm.objects.size⟩))
    (hq : ∀ x, rules.Gives op x → Q (m.frame.view.withStack (.value x :: rest))) :
    Comes R runs Q m (.operate op) (exec (.operate op) m) := by
  by_cases hc : ∃ argc, op = .call argc
  · obtain ⟨argc, rfl⟩ := hc
    have hargc : (vs.drop 2).length = argc := by simp [ha, Operation.arity]
    have hbrief := Nat.le_trans (List.drop_sublist 2 vs).length_le ht.brief
    rw [exec_call hs ha]
    exact .call _ _ _ _ (.inl (by rw [hargc])) hbrief (works_withStack hp.refl m rest) rfl
      fun x => hq x (by rintro (h | h) <;> cases h)
  by_cases hn : ∃ argc, op = .construct argc
  · obtain ⟨argc, rfl⟩ := hn
    have hargc : (vs.drop 1).length = argc := by simp [ha, Operation.arity]
    have hbrief := Nat.le_trans (List.drop_sublist 1 vs).length_le ht.brief
    rw [exec_construct hs ha]
    exact comes_construct hp _ (by rw [hargc]) hbrief fun x => hq x (by rintro (h | h) <;> cases h)
  rw [exec_operate (fun argc h => hc ⟨argc, h⟩) (fun argc h => hn ⟨argc, h⟩) hs ha]
  refine comes_realm (hp.apply rfl hs ha ht) ?_ ?_
  · exact fun x r hx hr => ⟨works_withRealm m (.value x :: rest) hr, rfl,
      hq x (gives_apply hx ht hnew)⟩
  · exact fun r hr => works_withRealm m rest hr

/-- An instruction whose needs are met goes through or throws, or enters a frame after which the
running one can go on. -/
theorem comes_of_needs {i : Instruction} (ht : m.frame.temps.size = m.frame.unit.tempCount)
    (hn : Needs m.frame.artifact m.frame.unit rules runs Q m.frame.view i)
    (hnew : i = .operate .newObject → rules.plain (.object ⟨m.realm.objects.size⟩))
    (hp : Permits rules runs R m i) : Comes R runs Q m i (exec i m) := by
  have hR := hp.refl
  cases i with
  | load i =>
    obtain ⟨⟨o, ho⟩, hq⟩ := hn
    rw [exec_load ho]
    refine comes_realm (moves_liftExcept (R := Realm.Rebinds) _ _ |> hp.rebinds) ?_ ?_
    · exact fun x r _ hr => ⟨works_withRealm m _ hr, rfl, hq x⟩
    · exact fun r hr => works_withRealm m m.frame.stack hr
  | store i strict =>
    obtain ⟨⟨name, hi⟩, ⟨x, rest, hs⟩, hq⟩ := hn
    rw [exec_store hi hs]
    refine comes_realm (hp.rebinds (Realm.rebinds_assign m.context.env name x strict _)) ?_ ?_
    · exact fun _ r _ hr => ⟨works_withRealm m m.frame.stack hr, rfl, hq⟩
    · exact fun r hr => works_withRealm m m.frame.stack hr
  | storeTemp t =>
    obtain ⟨hi, x, rest, hs, hq⟩ := hn
    rw [exec_storeTemp (ht ▸ hi) hs]
    exact .done ⟨hR _, ⟨rfl, rfl, Array.size_setIfInBounds, rfl, rfl⟩, rfl, rfl⟩ ⟨x, rfl⟩ hq
  | loadThis => exact .done (works_withStack hR m _) rfl (hn _)
  | typeOfVariable i =>
    obtain ⟨⟨name, hi⟩, hq⟩ := hn
    rw [exec_typeOfVariable hi]
    exact .done (works_withStack hR m _) rfl (hq _)
  | deleteVariable i =>
    obtain ⟨⟨name, hi⟩, hq⟩ := hn
    rw [exec_deleteVariable hi]
    refine comes_realm (hp.rebinds (Realm.rebinds_deleteBinding m.context.env name _)) ?_ ?_
    · exact fun b r _ hr => ⟨works_withRealm m _ hr, rfl, hq _⟩
    · exact fun r hr => works_withRealm m m.frame.stack hr
  | declareVariable i =>
    obtain ⟨⟨name, hi⟩, hq⟩ := hn
    rw [exec_declareVariable hi]
    exact .done (works_withRealm m m.frame.stack (hp.rebinds
      (Realm.rebinds_modifyEnv _ (Environment.retains_declare _ _)))) rfl
      hq
  | initializeBinding i =>
    obtain ⟨⟨name, hi⟩, x, rest, hs, hq⟩ := hn
    rw [exec_initializeBinding hi hs]
    exact .done (works_withRealm m rest (hp.rebinds
      (Realm.rebinds_modifyEnv _ (Environment.retains_bind _ _ _)))) rfl hq
  | makeClosure f =>
    obtain ⟨info, u', hf, hu, hr, hq⟩ := hn
    rw [exec_makeClosure hf]
    refine comes_realm (hp.closure hf hu hr _) ?_ ?_
    · exact fun x r _ hr => ⟨works_withRealm m _ hr, rfl, hq x⟩
    · exact fun r hr => works_withRealm m m.frame.stack hr
  | pop =>
    obtain ⟨s, rest, hs, hq⟩ := hn
    rw [exec_pop hs]
    exact .done (works_withStack hR m _) rfl hq
  | dup =>
    obtain ⟨s, rest, hs, hq⟩ := hn
    rw [exec_dup hs]
    exact .done (works_withStack hR m _) rfl hq
  | dupPair =>
    obtain ⟨s, s', rest, hs, hq⟩ := hn
    rw [exec_dupPair hs]
    exact .done (works_withStack hR m _) rfl hq
  | swap =>
    obtain ⟨s, s', rest, hs, hq⟩ := hn
    rw [exec_swap hs]
    exact .done (works_withStack hR m _) rfl hq
  | nop => exact .done (works_withStack hR m m.frame.stack) rfl hn
  | jump l =>
    obtain ⟨offset, hl, hq⟩ := hn
    rw [exec_jump hl]
    exact .done (works_goto hR m m.frame.stack offset) ⟨offset, hl, rfl⟩ hq
  | jumpIfFalse l =>
    obtain ⟨offset, x, rest, hl, hs, hq, hq'⟩ := hn
    rw [exec_jumpIfFalse hl hs]
    cases !x.truthy with
    | true => exact .done (works_goto hR m rest offset) (.inr ⟨offset, hl, rfl⟩) hq'
    | false => exact .done (works_withStack hR m rest) (.inl rfl) hq
  | jumpIfTrue l =>
    obtain ⟨offset, x, rest, hl, hs, hq, hq'⟩ := hn
    rw [exec_jumpIfTrue hl hs]
    cases x.truthy with
    | true => exact .done (works_goto hR m rest offset) (.inr ⟨offset, hl, rfl⟩) hq'
    | false => exact .done (works_withStack hR m rest) (.inl rfl) hq
  | invoke id =>
    obtain ⟨u', post', hu, hd, hfair, hr, hq⟩ := hn
    exact .unit rfl hu hd hfair hr hq
  | operate op =>
    obtain ⟨vs, rest, hs, ha, ht, hq⟩ := hn
    exact comes_operate hp hs ha ht (fun h => hnew (congrArg _ h)) hq
  | enterCatch i =>
    obtain ⟨⟨name, hi⟩, x, rest, hs, hq⟩ := hn
    rw [exec_enterCatch hi hs]
    refine comes_realm (hp.rebinds (rebinds_newScope m.context.env name x _)) ?_ ?_
    · exact fun scope r _ hr => ⟨⟨hr, ⟨rfl, rfl, rfl, rfl, rfl⟩, rfl, rfl⟩, rfl, hq⟩
    · exact fun r hr => works_withRealm m rest hr
  | exitScope =>
    obtain ⟨n, hs, hq⟩ := hn
    cases hl : m.frame.scopes with
    | nil =>
      rw [Frame.view, hl] at hs
      cases hs
    | cons env scopes =>
      rw [exec_exitScope hl]
      have hn : scopes.length = n := by
        rw [Frame.view, hl] at hs
        exact Nat.succ.inj hs
      subst hn
      exact .done ⟨hR _, ⟨rfl, rfl, rfl, rfl, rfl⟩, rfl, rfl⟩ rfl hq
  | forInStep keys l =>
    obtain ⟨h0, h1, h2, offset, hl, hq, hq'⟩ := hn
    rw [← ht] at h0 h1 h2
    rw [exec_forInStep hl h0 h1 h2]
    cases hkey : (nextEnumerated m.realm m.frame.temps keys).1 with
    | some key =>
      exact .done ⟨hR _, ⟨rfl, rfl, Array.size_setIfInBounds, rfl, rfl⟩, rfl, rfl⟩
        ⟨_, _, h1, rfl, .inr ⟨rfl, nextEnumerated_lt hkey⟩⟩ (hq _)
    | none =>
      exact .done ⟨hR _, ⟨rfl, rfl, Array.size_setIfInBounds, rfl, rfl⟩, rfl, rfl⟩
        ⟨_, _, h1, rfl, .inl hl⟩ hq'
  | normalValue =>
    obtain ⟨x, rest, hs, hq⟩ := hn
    rw [exec_normalValue hs]
    exact .done (works_withStack hR m _) rfl hq
  | normal | breakTo target | continueTo target => exact .done (works_withStack hR m _) rfl hn
  | returnValue =>
    obtain ⟨x, rest, hs, hq⟩ := hn
    rw [exec_returnValue hs]
    exact .done (works_withStack hR m _) rfl hq
  | throwValue =>
    obtain ⟨x, rest, hs, hq⟩ := hn
    rw [exec_throwValue hs]
    exact .done (works_withStack hR m _) rfl hq
  | jumpIfAbrupt l | jumpIfKind kind l | jumpUnlessKind kind l | jumpIfBreaksHere labels l
  | jumpIfContinuesHere labels l =>
    obtain ⟨offset, c, rest, hl, hs, hq⟩ := hn
    exact comes_jumpIf hR hl hs (fun p hp => hp.imp_right fun h => ⟨offset, hl, h⟩) hq
  | merge =>
    obtain ⟨c, c', rest, hs, hq⟩ := hn
    rw [exec_merge hs]
    exact .done (works_withStack hR m _) rfl hq
  | consumeBreak labels =>
    obtain ⟨c, rest, hs, hq⟩ := hn
    rw [exec_consumeBreak hs]
    exact .done (works_withStack hR m _) rfl hq
  | unwrap =>
    obtain ⟨c, rest, hs, hq⟩ := hn
    rw [exec_unwrap hs]
    exact .done (works_withStack hR m _) rfl hq

end Machine

end TreeScript
