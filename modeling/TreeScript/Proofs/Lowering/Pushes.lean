import TreeScript.Proofs.Machine.Safety

/-!
# The stack discipline of constructs

What the code of a construct puts on the stack, if its parts do what they should: expressions leave
one value and statements one completion, and all that was there before stays.  The statements say
how to get from the code behind a construct being safe to the construct being safe in front of it,
whatever is on the stack.
-/

namespace TreeScript.Lowering

open Code Syntax

def IsNormal (c : Completion) : Prop := c.kind = .normal ∧ c.target = none

theorem isNormal_normal : IsNormal .normal := ⟨rfl, rfl⟩

theorem isNormal_merge (c c' : Completion) : IsNormal (c.merge c') := ⟨rfl, rfl⟩

/-- The rest of a run of `u`: how many of its steps count, how it may end, and the scopes that are
open. -/
structure Rest (a : Artifact) (rules : Rules) (u : CodeUnit) where
  steps : Nat
  post : View → Prop
  scopes : Nat

namespace Rest

variable {a : Artifact} {rules : Rules} {u : CodeUnit} (K : Rest a rules u)

def At (offset : Nat) (stack : List Slot) : Prop :=
  Safe a rules K.steps u K.post ⟨offset, stack, K.scopes⟩

def Goes (offset : Nat) (stack : List Slot) : Prop :=
  ∀ acc, IsNormal acc → K.At offset (.completion acc :: stack)

/-- Code is safe from an offset on, with a completion in `C` on top of any value so far. -/
def Leaves (C : Completion → Prop) (offset : Nat) (stack : List Slot) : Prop :=
  ∀ c acc, C c → K.At offset (.completion c :: .completion acc :: stack)

def within (steps : Nat) : Rest a rules u := { K with steps }

variable {K} in
theorem At.within {steps offset : Nat} {stack : List Slot} (h : K.At offset stack)
    (hle : steps ≤ K.steps) : (K.within steps).At offset stack :=
  h.mono hle

end Rest

section

variable (a : Artifact) (rules : Rules)

/-- The code of `g` puts one of the tops in `top` on the stack and goes on behind it. -/
def Pushes {ι : Type} (top : ι → List Slot) (g : Gen Unit) : Prop :=
  ∀ ⦃u : CodeUnit⦄ ⦃s s' : Stage⦄, Laid a u g s () s' →
    ∀ ⦃K : Rest a rules u⦄ ⦃stack : List Slot⦄, (∀ i, K.At s'.offset (top i ++ stack)) →
      K.At s.offset stack

abbrev Evaluates (g : Gen Unit) : Prop := Pushes a rules (fun v : Value => [.value v]) g

/-- The code of a statement that completes as `C` says. -/
abbrev Completes (C : Completion → Prop) (g : Gen Unit) : Prop :=
  Pushes a rules (fun c : { c // C c } => [.completion c.1]) g

abbrev Passes (g : Gen Unit) : Prop := Pushes a rules (fun _ : Unit => []) g

def Replaces {α : Type} (slot : α → Slot) (P : α → Prop) (g : Gen Unit) : Prop :=
  ∀ ⦃u : CodeUnit⦄ ⦃s s' : Stage⦄, Laid a u g s () s' →
    ∀ ⦃K : Rest a rules u⦄ ⦃stack : List Slot⦄, (∀ x, P x → K.At s'.offset (slot x :: stack)) →
      ∀ x, P x → K.At s.offset (slot x :: stack)

/-- What is on the stack for a target: the object of a property and its key. -/
inductive Aimed (u : CodeUnit) : Target → List Slot → Prop where
  | binding {i : OperandIndex} : u.Names i → Aimed u (.binding i) []
  | property (key object : Value) : Aimed u .property [.value key, .value object]

/-- Code that finds out where an assignment goes. -/
def Aims (g : Gen Target) : Prop :=
  ∀ ⦃u : CodeUnit⦄ ⦃s s' : Stage⦄ ⦃t : Target⦄, Laid a u g s t s' →
    ∀ ⦃K : Rest a rules u⦄ ⦃stack : List Slot⦄,
      (∀ top, Aimed u t top → K.At s'.offset (top ++ stack)) → K.At s.offset stack

end

variable {a : Artifact} {rules : Rules} {u : CodeUnit} {s s' : Stage} {K : Rest a rules u}
  {stack : List Slot}

/-! ## Instructions in place -/

abbrev Rest.Needs (K : Rest a rules u) (offset : Nat) (stack : List Slot) (i : Instruction) :
    Prop :=
  TreeScript.Needs a u rules (fun u' post => Safe a rules K.steps u' (Ending post) .start)
    (Safe a rules K.steps u K.post) ⟨offset, stack, K.scopes⟩ i

/-- Code is safe if its first instruction has what it needs, later on. -/
theorem safe_later {i : Instruction} (h : Adds u i s s')
    (hn : ∀ m, m < K.steps → (K.within m).Needs s'.offset stack i) : K.At s.offset stack := by
  obtain ⟨steps, post, scopes⟩ := K
  cases steps with
  | zero => trivial
  | succ n =>
    have hm := hn n (Nat.lt_succ_self n)
    rw [h.offset] at hm
    unfold Rest.At Safe
    rw [h.code]
    exact hm

theorem safe_emit {i : Instruction} (h : Adds u i s s') (hn : K.Needs s'.offset stack i) :
    K.At s.offset stack :=
  safe_later h fun _ hm =>
    hn.mono (fun _ _ hs => hs.mono (Nat.le_of_lt hm)) (fun _ hs => hs.mono (Nat.le_of_lt hm))

theorem safe_keeps (h : Keeps s s') (hs : K.At s'.offset stack) : K.At s.offset stack := by
  rw [← h.offset]
  exact hs

theorem safe_load {o : Operand} (h : Laid a u (load o) s () s')
    (hk : ∀ v, K.At s'.offset (.value v :: stack)) : K.At s.offset stack := by
  obtain ⟨i, ho, hadd⟩ := laid_load h
  exact safe_emit hadd ⟨⟨o, ho⟩, hk⟩

theorem safe_operateMany {op : Operation} {supplied : Nat} (vs : List Value)
    (h : Laid a u (operate op supplied) s () s') (hvs : vs.length = supplied)
    (hbrief : supplied ≤ 0xFFFFFFFF) (hop : op ≠ .defineProperty)
    (hk : ∀ v, K.At s'.offset (.value v :: stack)) :
    K.At s.offset (Machine.slots vs ++ stack) := by
  obtain ⟨ha, hadd⟩ := laid_operate h
  exact safe_emit hadd ⟨vs, stack, rfl, hvs.trans ha.symm,
    ⟨hvs.symm ▸ hbrief, fun hdefine => absurd hdefine hop⟩, fun v _ => hk v⟩

theorem safe_operate {op : Operation} {supplied : Nat} (vs : List Value)
    (h : Laid a u (operate op supplied) s () s') (hvs : vs.length = supplied)
    (hfew : supplied < 3)
    (hk : ∀ v, K.At s'.offset (.value v :: stack)) :
    K.At s.offset (Machine.slots vs ++ stack) := by
  refine safe_operateMany vs h hvs (by omega) ?_ hk
  rintro rfl
  have hthree : 3 = supplied := (laid_operate h).1
  omega

theorem safe_newObject (h : Laid a u (operate .newObject 0) s () s')
    (hk : ∀ v, rules.plain v → K.At s'.offset (.value v :: stack)) : K.At s.offset stack :=
  safe_emit (laid_operate h).2
    ⟨[], stack, rfl, rfl, ⟨by decide, nofun⟩, fun v hv => hk v (hv (.inl rfl))⟩

theorem safe_defineProperty {object key value : Value}
    (h : Laid a u (operate .defineProperty 3) s () s') (ho : rules.plain object)
    (hk : ∀ v, rules.plain v → K.At s'.offset (.value v :: stack)) :
    K.At s.offset (.value value :: .value key :: .value object :: stack) := by
  have hbrief : 3 ≤ 0xFFFFFFFF := by decide
  exact safe_emit (laid_operate h).2
    ⟨[object, key, value], stack, rfl, rfl, ⟨hbrief, fun _ => ho⟩, fun v hv => hk v (hv (.inr rfl))⟩

/-! ## Expressions -/

theorem evaluates_load (o : Operand) : Evaluates a rules (load o) :=
  fun _ _ _ h _ _ hk => safe_load h hk

theorem evaluates_loadConstant (c : Constant) : Evaluates a rules (loadConstant c) :=
  evaluates_load _

variable {C : Completion → Prop} {g g' body : Gen Unit}

theorem evaluates_unary [Composed g] (hg : Evaluates a rules g) (op : Operation) :
    Evaluates a rules (do g; operate op 1) := by
  intro u s s' h K stack hk
  obtain ⟨_, s1, h1, h2⟩ := laid_bind.mp h
  exact hg h1 fun v => safe_operate ([v]) h2 rfl (by decide) hk

variable {strict : Bool} {test right : Gen Unit} {count offset keys : Nat} {target : Gen Target}
  {acc : Completion}

theorem evaluates_condition [Composed test] (ht : Evaluates a rules test) :
    Evaluates a rules (condition test) :=
  evaluates_unary ht _

theorem evaluates_binary [Composed g] [Composed g'] (hg : Evaluates a rules g)
    (hg' : Evaluates a rules g') (op : Operation) : Evaluates a rules (do g; g'; operate op 2) := by
  intro u s s' h K stack hk
  obtain ⟨_, s1, h1, h⟩ := laid_bind.mp h
  obtain ⟨_, s2, h2, h3⟩ := laid_bind.mp h
  exact hg h1 fun v => hg' h2 fun v' => safe_operate ([v, v']) h3 rfl (by decide) hk

theorem evaluates_then [Composed g] [Composed g'] (hg : Evaluates a rules g)
    (hg' : Evaluates a rules g') : Evaluates a rules (do g; emit .pop; g') := by
  intro u s s' h K stack hk
  obtain ⟨_, s1, h1, h⟩ := laid_bind.mp h
  obtain ⟨_, s2, h2, h3⟩ := laid_bind.mp h
  exact hg h1 fun v => safe_emit (laid_emit h2) ⟨_, _, rfl, hg' h3 hk⟩

theorem evaluates_memberKey {computed : Bool} {property : Expr} {key : Gen Unit}
    (hkey : Evaluates a rules key) : Evaluates a rules (memberKey computed property key) := by
  cases computed with
  | true => exact hkey
  | false =>
    cases property with
    | identifier name => exact evaluates_loadConstant _
    | _ => exact fun u s s' h => absurd h not_laid_unsupported

abbrev EvaluatesAll (a : Artifact) (rules : Rules) (count : Nat) (g : Gen Unit) : Prop :=
  Pushes a rules (fun vs : { vs : List Value // vs.length = count } => Machine.slots vs.1) g

theorem evaluatesAll_nil : EvaluatesAll a rules 0 (pure ()) := by
  intro u s s' h K stack hk
  obtain ⟨-, rfl⟩ := laid_pure h
  exact hk ⟨[], rfl⟩

theorem evaluatesAll_cons [Composed g] [Composed g'] (hg : Evaluates a rules g)
    (hg' : EvaluatesAll a rules count g') : EvaluatesAll a rules (count + 1) (do g; g') := by
  intro u s s' h K stack hk
  obtain ⟨_, s1, h1, h2⟩ := laid_bind.mp h
  refine hg h1 fun v => hg' h2 fun vs => ?_
  have hvs := hk ⟨v :: vs.1, congrArg (· + 1) vs.2⟩
  dsimp only at hvs
  rw [← List.singleton_append, Machine.slots_append, List.append_assoc] at hvs
  exact hvs

theorem replaces_pure {α : Type} {slot : α → Slot} {P : α → Prop} :
    Replaces a rules slot P (pure ()) := by
  intro u s s' h K stack hk
  obtain ⟨-, rfl⟩ := laid_pure h
  exact hk

theorem replaces_bind {α : Type} {slot : α → Slot} {P : α → Prop} [Composed g] [Composed g']
    (hg : Replaces a rules slot P g) (hg' : Replaces a rules slot P g') :
    Replaces a rules slot P (do g; g') := by
  intro u s s' h K stack hk
  obtain ⟨_, s1, h1, h2⟩ := laid_bind.mp h
  exact hg h1 (hg' h2 hk)

abbrev Fills (a : Artifact) (rules : Rules) (g : Gen Unit) : Prop :=
  Replaces a rules Slot.value rules.plain g

theorem fills_member {key : Expr} {value : Gen Unit} [Composed value]
    (hv : Evaluates a rules value) : Fills a rules (do
      loadConstant (.string (← literalKey key))
      value
      operate .defineProperty 3) := by
  intro u s s' h K stack hk object hobject
  simp only [laid_bind] at h
  obtain ⟨name, s1, h1, _, s2, h2, _, s3, h3, h4⟩ := h
  cases laid_literalKey h1
  exact safe_load h2 fun k => hv h3 fun v => safe_defineProperty h4 hobject hk

theorem pushes_choice {ι : Type} {top : ι → List Slot} {consequent alternate : Gen Unit}
    [Composed test] [Composed consequent] [Composed alternate] (ht : Evaluates a rules test)
    (hc : Pushes a rules top consequent) (ha : Pushes a rules top alternate) :
    Pushes a rules top (choice test consequent alternate) := by
  intro u s s' h K stack hk
  simp only [choice, laid_bind] at h
  obtain ⟨otherwise, s1, h1, done, s2, h2, _, s3, h3, _, s4, h4, _, s5, h5, _, s6, h6, _, s7, h7,
    _, s8, h8, h9⟩ := h
  obtain ⟨hotherwise, -⟩ := laid_placed h7
  obtain ⟨hdone, k9⟩ := laid_place h9
  rw [k9.offset] at hk
  refine safe_keeps (laid_newLabel h1) (safe_keeps (laid_newLabel h2) ?_)
  refine evaluates_condition ht h3 fun v => ?_
  refine safe_emit (laid_emit h4) ⟨_, _, _, hotherwise, rfl, ?_, ?_⟩
  · exact hc h5 fun i => safe_emit (laid_emit h6) ⟨_, hdone, hk i⟩
  · exact ha h8 hk

theorem evaluates_shortCircuit (op : LogicalOp) {left : Gen Unit} [Composed left] [Composed right]
    (hl : Evaluates a rules left) (hr : Evaluates a rules right) :
    Evaluates a rules (shortCircuit op left right) := by
  intro u s s' h K stack hk
  simp only [shortCircuit_eq, laid_bind] at h
  obtain ⟨done, s1, h1, _, s2, h2, _, s3, h3, _, s4, h4, _, s5, h5, _, s6, h6, _, s7, h7, h8⟩ := h
  obtain ⟨hdone, k8⟩ := laid_place h8
  rw [k8.offset] at hk
  refine safe_keeps (laid_newLabel h1) (hl h2 fun v => ?_)
  refine safe_emit (laid_emit h3) ⟨_, _, rfl, ?_⟩
  refine safe_operate ([v]) h4 rfl (by decide) fun decided => ?_
  have hright : K.At s5.offset (.value v :: stack) := safe_emit (laid_emit h6) ⟨_, _, rfl, hr h7 hk⟩
  refine safe_emit (laid_emit h5) ?_
  cases op with
  | and | or => exact ⟨_, decided, _, hdone, rfl, hright, hk v⟩

/-! ## Assignments -/

section

variable {t : Target} {top : List Slot}

theorem safe_read (h : Laid a u t.read s () s') (ht : Aimed u t top)
    (hk : ∀ v, K.At s'.offset (.value v :: (top ++ stack))) : K.At s.offset (top ++ stack) := by
  cases ht with
  | binding hi =>
    obtain ⟨name, hname⟩ := hi
    exact safe_emit (laid_emit h) ⟨⟨_, hname⟩, hk⟩
  | property key object =>
    simp only [Target.read, laid_bind] at h
    obtain ⟨_, s1, h1, h2⟩ := h
    refine safe_emit (laid_emit h1) ⟨_, _, _, rfl, ?_⟩
    exact safe_operate ([object, key]) h2 rfl (by decide) hk

theorem safe_write {v : Value} (h : Laid a u (t.write strict) s () s') (ht : Aimed u t top)
    (hk : ∀ v, K.At s'.offset (.value v :: stack)) :
    K.At s.offset (.value v :: (top ++ stack)) := by
  cases ht with
  | binding hi => exact safe_emit (laid_emit h) ⟨hi, ⟨v, stack, rfl⟩, hk v⟩
  | property key object => exact safe_operateMany ([object, key, v]) h rfl (by decide) (by simp) hk

end

theorem aims_binding (name : String) : Aims a rules (do return .binding (← binding name)) := by
  intro u s s' t h K stack hk
  obtain ⟨i, h1, rfl⟩ := laid_map h
  obtain ⟨hi, k1⟩ := laid_binding h1
  exact safe_keeps k1 (hk [] (.binding ⟨name, hi⟩))

theorem aims_member {object key : Gen Unit} [Composed object] [Composed key]
    (ho : Evaluates a rules object) (hkey : Evaluates a rules key) :
    Aims a rules (do object; key; return .property) := by
  intro u s s' t h K stack hk
  simp only [laid_bind] at h
  obtain ⟨_, s1, h1, _, s2, h2, h3⟩ := h
  obtain ⟨rfl, rfl⟩ := laid_pure h3
  exact ho h1 fun v => hkey h2 fun v' => hk _ (.property v' v)

theorem evaluates_updateTarget {op : UpdateOp} {prefixed : Bool} [Composed target]
    (ht : Aims a rules target) :
    Evaluates a rules (updateTarget strict op prefixed target) := by
  intro u s s' h K stack hk
  cases prefixed with
  | true =>
    simp only [updateTarget_prefixed, laid_bind] at h
    obtain ⟨t, s1, h1, _, s2, h2, _, s3, h3, _, s4, h4, _, s5, h5, h6⟩ := h
    refine ht h1 fun top haim => safe_read h2 haim fun old => ?_
    refine safe_operate ([old]) h3 rfl (by decide) fun number => ?_
    refine safe_load h4 fun one => safe_operate ([number, one]) h5 rfl (by decide) fun new => ?_
    exact safe_write h6 haim hk
  | false =>
    simp only [updateTarget_postfixed, laid_bind] at h
    obtain ⟨t, s1, h1, _, s2, h2, _, s3, h3, old, s4, h4, _, s5, h5, _, s6, h6, _, s7, h7, _, s8,
      h8, _, s9, h9, _, s10, h10, h11⟩ := h
    obtain ⟨rfl, htemps, hoffset, -⟩ := laid_allocate h4
    have hbound : s3.temps < u.tempCount := by
      have := h4.within.temps
      omega
    refine ht h1 fun top haim => safe_read h2 haim fun old => ?_
    refine safe_operate ([old]) h3 rfl (by decide) fun number => ?_
    rw [← hoffset]
    refine safe_emit (laid_emit h5) ⟨hbound, _, _, rfl, safe_load h6 fun kept => ?_⟩
    refine safe_load h7 fun one => safe_operate ([kept, one]) h8 rfl (by decide) fun new => ?_
    refine safe_write h9 haim fun written => ?_
    exact safe_emit (laid_emit h10) ⟨_, _, rfl, safe_load h11 hk⟩

theorem evaluates_assignTarget {op : Option BinaryOp} {value : Gen Unit} [Composed target]
    [Composed value] (ht : Aims a rules target) (hv : Evaluates a rules value) :
    Evaluates a rules (assignTarget strict op target value) := by
  intro u s s' h K stack hk
  cases op with
  | none =>
    simp only [assignTarget_none, laid_bind] at h
    obtain ⟨t, s1, h1, _, s2, h2, h3⟩ := h
    refine ht h1 fun top haim => hv h2 fun v => ?_
    show K.At s2.offset (.value v :: (top ++ stack))
    exact safe_write h3 haim hk
  | some op =>
    simp only [assignTarget_some, laid_bind] at h
    obtain ⟨t, s1, h1, _, s2, h2, _, s3, h3, _, s4, h4, h5⟩ := h
    refine ht h1 fun top haim => safe_read h2 haim fun old => hv h3 fun v => ?_
    exact safe_operate ([old, v]) h4 rfl (by decide) fun new => safe_write h5 haim hk

/-! ## Units and functions -/

/-- A unit of its own whose code completes as `C` says ends as `C` says. -/
theorem safe_start {n : Nat} (hb : Completes a rules C body) (h : Compiles a u body) :
    Safe a rules n u (Ending C) .start := by
  obtain ⟨s, s', hl, hs, -, hs', -⟩ := h
  have hsafe := @hb u s s' hl ⟨n, Ending C, 0⟩ [] fun c => ?_
  · rw [hs] at hsafe
    exact hsafe
  · cases n with
    | zero => trivial
    | succ n =>
      unfold Rest.At Safe
      rw [hs', Array.getElem?_eq_none (Nat.le_refl _)]
      exact ⟨c.1, rfl, c.2⟩

theorem completes_invoke {role : Role} [Composed body] (hC : Fair C)
    (hr : isDeclaring role = false) (hb : Completes a rules C body) :
    Completes a rules C (invoke role strict body) := by
  intro u s s' h K stack hk
  obtain ⟨id, u', hadds, hu, hrole, hcompiles⟩ := laid_invoke h
  refine safe_emit hadds ⟨u', C, hu, ?_, hC, ?_, ?_⟩
  · rw [hrole]
    exact hr
  · exact safe_start hb hcompiles
  · exact fun c hc => hk ⟨c, hc⟩

/-- Code that lists a function whose body ends as bodies should. -/
def Lists (a : Artifact) (rules : Rules) (g : Gen FunctionId) : Prop :=
  ∀ ⦃u : CodeUnit⦄ ⦃s s' : Stage⦄ ⦃id : FunctionId⦄, Laid a u g s id s' →
    Keeps s s' ∧ ∃ info u', a.function? id = some info ∧ a.unit? info.unit = some u' ∧
      ∀ n, Safe a rules n u' (Ending rules.ends) .start

theorem lists_function {info : UnitId → FunctionInfo} [Composed body]
    (hi : ∀ unit, (info unit).unit = unit) (hb : Completes a rules rules.ends body) :
    Lists a rules (do addFunction (info (← inUnit .function strict body))) := by
  intro u s s' id h
  simp only [laid_bind] at h
  obtain ⟨unit, s1, h1, h2⟩ := h
  obtain ⟨k1, u', hu, -, -, hcompiles⟩ := laid_inUnit h1
  obtain ⟨hf, k2⟩ := laid_addFunction h2
  refine ⟨⟨k2.offset.trans k1.offset, k2.temps.trans k1.temps⟩, _, u', hf, ?_, fun n => ?_⟩
  · rw [hi]
    exact hu
  · exact safe_start hb hcompiles

theorem evaluates_makeClosure {function : Gen FunctionId} [Composed function]
    (hf : Lists a rules function) : Evaluates a rules (do emit (.makeClosure (← function))) := by
  intro u s s' h K stack hk
  obtain ⟨id, s1, h1, h2⟩ := laid_bind.mp h
  obtain ⟨k1, info, u', hinfo, hu, hsafe⟩ := hf h1
  exact safe_keeps k1 (safe_emit (laid_emit h2) ⟨info, u', hinfo, hu, hsafe _, hk⟩)

/-! ## Lists of statements -/

/-- Code that goes on with the value so far, or jumps with an abrupt completion on top of it.  The
place that it jumps to is given. -/
def Accumulates (a : Artifact) (rules : Rules) (C : Completion → Prop) (g : Label → Gen Unit) :
    Prop :=
  ∀ ⦃abrupt : Label⦄ ⦃u : CodeUnit⦄ ⦃s s' : Stage⦄, Laid a u (g abrupt) s () s' →
    ∀ ⦃offset : Nat⦄, u.offset? abrupt = some offset →
    ∀ ⦃K : Rest a rules u⦄ ⦃stack : List Slot⦄, K.Leaves C offset stack → K.Goes s'.offset stack →
      K.Goes s.offset stack

theorem accumulates_pure : Accumulates a rules C fun _ => pure () := by
  intro abrupt u s s' h offset _ K stack _ hk
  obtain ⟨-, rfl⟩ := laid_pure h
  exact hk

/-- A completion on top of the value so far: an abrupt one is jumped with, others are merged. -/
theorem safe_abruptOrMerge {abrupt : Label} {s1 : Stage} {c : Completion}
    (h1 : Laid a u (emit (.jumpIfAbrupt abrupt)) s () s1) (h2 : Laid a u (emit .merge) s1 () s')
    (hl : u.offset? abrupt = some offset) (hc : C c) (ha : K.Leaves C offset stack)
    (hk : K.Goes s'.offset stack) : K.At s.offset (.completion c :: .completion acc :: stack) := by
  refine safe_emit (laid_emit h1) ⟨offset, c, _, hl, rfl, iteInduction (fun _ => ?_) fun _ => ?_⟩
  · exact ha c acc hc
  · exact safe_emit (laid_emit h2) ⟨c, acc, _, rfl, hk _ (isNormal_merge c acc)⟩

theorem accumulates_inList {statement : Gen Unit} [Composed statement]
    (hs : Completes a rules C statement) :
    Accumulates a rules C fun abrupt => inList abrupt statement := by
  intro abrupt u s s' h offset hl K stack ha hk acc _
  simp only [inList, laid_bind] at h
  obtain ⟨_, s1, h1, _, s2, h2, h3⟩ := h
  exact hs h1 fun c => safe_abruptOrMerge h2 h3 hl c.2 ha hk

theorem accumulates_bind {g g' : Label → Gen Unit} [∀ l, Composed (g l)] [∀ l, Composed (g' l)]
    (hg : Accumulates a rules C g) (hg' : Accumulates a rules C g') :
    Accumulates a rules C fun abrupt => (do g abrupt; g' abrupt) := by
  intro abrupt u s s' h offset hl K stack ha hk
  obtain ⟨_, s1, h1, h2⟩ := laid_bind.mp h
  exact hg h1 hl ha (hg' h2 hl ha hk)

theorem safe_dropBelow {c : Completion} (h : Laid a u dropBelow s () s')
    (hk : K.At s'.offset (.completion c :: stack)) :
    K.At s.offset (.completion c :: .completion acc :: stack) := by
  simp only [dropBelow, laid_bind] at h
  obtain ⟨_, s1, h1, h2⟩ := h
  exact safe_emit (laid_emit h1) ⟨_, _, _, rfl, safe_emit (laid_emit h2) ⟨_, _, rfl, hk⟩⟩

theorem completes_emit_normal (hC : ∀ c, IsNormal c → C c) : Completes a rules C (emit .normal) :=
  fun _ _ _ h _ _ hk => safe_emit (laid_emit h) (hk ⟨.normal, hC _ isNormal_normal⟩)

theorem completes_value [Composed g] (hg : Evaluates a rules g) {i : Instruction}
    {f : Value → Completion}
    (hi : ∀ {u runs Q v}, (∃ x rest, v.stack = .value x :: rest ∧
      Q (v.withStack (.completion (f x) :: rest))) → Needs a u rules runs Q v i)
    (hC : ∀ x, C (f x)) : Completes a rules C (do g; emit i) := by
  intro u s s' h K stack hk
  obtain ⟨_, s1, h1, h2⟩ := laid_bind.mp h
  exact hg h1 fun v => safe_emit (laid_emit h2) (hi ⟨v, stack, rfl, hk ⟨f v, hC v⟩⟩)

theorem completes_statementList {body : List Stmt} {each : Label → Gen Unit}
    [∀ l, Composed (each l)] (hC : ∀ c, IsNormal c → C c) (he : Accumulates a rules C each) :
    Completes a rules C (statementList body each) := by
  intro u s s' h K stack hk
  cases body with
  | nil =>
    obtain ⟨_, s1, h1, h2⟩ := laid_bind.mp h
    obtain ⟨-, rfl⟩ := laid_pure h2
    exact completes_emit_normal hC h1 hk
  | cons statement rest =>
    simp only [statementList_cons, laid_bind] at h
    obtain ⟨_, s1, h1, abrupt, s2, h2, done, s3, h3, _, s4, h4, _, s5, h5, _, s6, h6, _, s7, h7,
      h8⟩ := h
    obtain ⟨habrupt, -⟩ := laid_placed h6
    obtain ⟨hdone, k8⟩ := laid_place h8
    rw [k8.offset] at hk
    refine safe_emit (laid_emit h1) ?_
    refine safe_keeps (laid_newLabel h2) (safe_keeps (laid_newLabel h3) ?_)
    refine he h4 habrupt ?_ ?_ _ isNormal_normal
    · intro c acc hc
      exact safe_dropBelow h7 (hk ⟨c, hc⟩)
    · intro acc hacc
      exact safe_emit (laid_emit h5) ⟨_, hdone, hk ⟨acc, hC acc hacc⟩⟩

/-! ## Declarations -/

theorem passes_pure : Passes a rules (pure ()) := by
  intro u s s' h K stack hk
  obtain ⟨-, rfl⟩ := laid_pure h
  exact hk ()

theorem passes_bind {ι : Type} {top : ι → List Slot} [Composed g] [Composed g']
    (hg : Passes a rules g) (hg' : Pushes a rules top g') : Pushes a rules top (do g; g') := by
  intro u s s' h K stack hk
  obtain ⟨_, s1, h1, h2⟩ := laid_bind.mp h
  exact hg h1 fun _ => hg' h2 hk

theorem passes_pop [Composed g] (hg : Evaluates a rules g) : Passes a rules (do g; emit .pop) := by
  intro u s s' h K stack hk
  obtain ⟨_, s1, h1, h2⟩ := laid_bind.mp h
  exact hg h1 fun v => safe_emit (laid_emit h2) ⟨_, _, rfl, hk ()⟩

theorem passes_bindFunction {name : String} {function : Gen FunctionId} [Composed function]
    (hf : Lists a rules function) : Passes a rules (bindFunction name function) := by
  intro u s s' h K stack hk
  simp only [bindFunction, laid_bind] at h
  obtain ⟨id, s1, h1, _, s2, h2, i, s3, h3, h4⟩ := h
  obtain ⟨k1, info, u', hinfo, hu, hsafe⟩ := hf h1
  obtain ⟨hi, k3⟩ := laid_binding h3
  refine safe_keeps k1 (safe_emit (laid_emit h2) ⟨info, u', hinfo, hu, hsafe _, fun v => ?_⟩)
  exact safe_keeps k3 (safe_emit (laid_emit h4) ⟨⟨name, hi⟩, v, stack, rfl, hk ()⟩)

theorem passes_declareVariables (names : List String) :
    Passes a rules (declareVariables names) := by
  induction names with
  | nil => exact passes_pure
  | cons name names ih =>
    intro u s s' h K stack hk
    have h : Laid a u (do
        let _ ← (do emit (.declareVariable (← binding name)))
        declareVariables names) s () s' := h
    simp only [laid_bind] at h
    obtain ⟨_, s2, ⟨i, s1, h1, h2⟩, h3⟩ := h
    obtain ⟨hi, k1⟩ := laid_binding h1
    exact safe_keeps k1 (safe_emit (laid_emit h2) ⟨⟨name, hi⟩, ih h3 hk⟩)

theorem completes_declaringBody {body : List Stmt} {functions statements : Gen Unit}
    [Composed functions] [Composed statements] (hf : Passes a rules functions)
    (hs : Completes a rules C statements) :
    Completes a rules C (declaringBody body functions statements) := by
  intro u s s' h K stack hk
  simp only [declaringBody, laid_bind] at h
  obtain ⟨hoist, s1, h1, _, s2, h2, _, s3, h3, h4⟩ := h
  cases (laid_hoisted h1).2
  exact hf h2 fun _ => passes_declareVariables _ h3 fun _ => hs h4 hk

/-! ## Loops -/

set_option synthInstance.maxSize 512 in
/-- One run of the body of a loop leads to the next one with a value so far, or out of the loop with
the completion of the loop.  The next one comes later. -/
theorem safe_iteration {B : Completion → Prop} {labels : LabelSet} {next done : Label}
    {nextOffset doneOffset : Nat} [Composed body]
    (h : Laid a u (iteration labels body next done) s () s') (hb : Completes a rules B body)
    (hC : ∀ c, IsNormal c → C c)
    (hout : ∀ c, B c → c.breaksAt labels = false → c.continuesAt labels = false → C c)
    (hnextAt : u.offset? next = some nextOffset) (hdoneAt : u.offset? done = some doneOffset)
    (hnext : ∀ m, m < K.steps → (K.within m).Goes nextOffset stack)
    (hdone : ∀ c : { c // C c }, K.At doneOffset (.completion c.1 :: stack)) :
    K.At s.offset (.completion acc :: stack) := by
  simp only [iteration, laid_bind] at h
  obtain ⟨_, s1, h1, broken, s2, h2, continued, s3, h3, abrupt, s4, h4, _, s5, h5, _, s6, h6, _, s7,
    h7, _, s8, h8, _, s9, h9, _, s10, h10, _, s11, h11, _, s12, h12, _, s13, h13, _, s14, h14, _,
    s15, h15, h16⟩ := h
  obtain ⟨hcontinued, k8⟩ := laid_place h8
  obtain ⟨hbroken, -⟩ := laid_placed h11
  obtain ⟨habrupt, -⟩ := laid_placed h14
  refine hb h1 fun c => ?_
  refine safe_keeps (laid_newLabel h2) (safe_keeps (laid_newLabel h3)
    (safe_keeps (laid_newLabel h4) ?_))
  have hcontinue : K.At s7.offset (.completion c.1 :: .completion acc :: stack) := by
    refine safe_keeps k8 (safe_emit (laid_emit h9) ⟨_, _, _, rfl, ?_⟩)
    exact safe_later (laid_emit h10) fun m hm => ⟨_, hnextAt, hnext m hm _ (isNormal_merge _ _)⟩
  refine safe_emit (laid_emit h5)
    ⟨_, _, _, hbroken, rfl, iteInduction (fun _ => ?_) fun hbreaks => ?_⟩
  · refine safe_emit (laid_emit h12) ⟨_, _, _, rfl, ?_⟩
    exact safe_emit (laid_emit h13) ⟨_, hdoneAt, hdone ⟨_, hC _ (isNormal_merge _ _)⟩⟩
  refine safe_emit (laid_emit h6) ⟨_, _, _, hcontinued, rfl,
    iteInduction (fun _ => hcontinue) fun hcontinues => ?_⟩
  refine safe_emit (laid_emit h7) ⟨_, _, _, habrupt, rfl,
    iteInduction (fun _ => ?_) fun _ => hcontinue⟩
  refine safe_dropBelow h15 (safe_emit (laid_emit h16) ⟨_, hdoneAt, hdone ⟨_, hout _ c.2 ?_ ?_⟩⟩)
  · exact Bool.eq_false_iff.mpr hbreaks
  · exact Bool.eq_false_iff.mpr hcontinues

instance {right : Gen Unit} [Composed right] {keys : Nat} : Composed (listKeys right keys) := by
  unfold listKeys
  infer_instance

instance {strict : Bool} {target : Gen Target} [Composed target] {keys : Nat} {done : Label} :
    Composed (assignKey strict target keys done) := by
  unfold assignKey
  infer_instance

theorem safe_listKeys [Composed right] (hr : Evaluates a rules right)
    (h : Laid a u (listKeys right keys) s () s') (hkeys : keys + 4 ≤ u.tempCount)
    (hk : K.At s'.offset stack) : K.At s.offset stack := by
  simp only [listKeys, laid_bind] at h
  obtain ⟨_, s1, h1, _, s2, h2, _, s3, h3, _, s4, h4, _, s5, h5, _, s6, h6, h7⟩ := h
  refine hr h1 fun object => safe_emit (laid_emit h2) ⟨_, _, rfl, ?_⟩
  refine safe_emit (laid_emit h3) ⟨by omega, _, _, rfl, ?_⟩
  refine safe_operate ([object]) h4 rfl (by decide) fun list => ?_
  refine safe_emit (laid_emit h5) ⟨by omega, _, _, rfl, safe_load h6 fun zero => ?_⟩
  exact safe_emit (laid_emit h7) ⟨by omega, _, _, rfl, hk⟩

theorem laid_declaredName {declarators : List Declarator} {name : String}
    (h : Laid a u (declaredName declarators) s name s') : s' = s := by
  unfold declaredName at h
  split at h
  · exact (laid_pure h).2
  · exact absurd h not_laid_unsupported

theorem passes_declaredHead {declarators : List Declarator} {initializers : Gen Unit}
    [Composed initializers] (hi : Passes a rules initializers) :
    Passes a rules (declaredHead declarators initializers) := by
  intro u s s' h K stack hk
  simp only [declaredHead, laid_bind] at h
  obtain ⟨name, s1, h1, _, s2, h2, h3⟩ := h
  cases laid_declaredName h1
  obtain ⟨i, h3, -⟩ := laid_map h3
  exact hi h2 fun _ => safe_keeps (laid_binding h3).2 (hk ())

theorem aims_declaredTarget (declarators : List Declarator) :
    Aims a rules (declaredTarget declarators) := by
  intro u s s' t h K stack hk
  obtain ⟨name, s1, h1, h2⟩ := laid_bind.mp h
  cases laid_declaredName h1
  exact aims_binding name h2 hk

/-- The temporaries of an enumeration have numbers of 16 bits, which do not wrap around. -/
theorem tempAfter_eq {k : Nat} (h : keys + k < 0x10000) :
    Machine.tempAfter keys k = keys + k :=
  Nat.mod_eq_of_lt h

theorem safe_assignKey [Composed target] {done : Label} (ht : Aims a rules target)
    (h : Laid a u (assignKey strict target keys done) s () s') (hkeys : keys + 4 ≤ u.tempCount)
    (hwide : keys + 4 ≤ Builder.maxTemporaries) (hdone : u.offset? done = some offset)
    (hend : K.At offset stack) (hk : K.At s'.offset stack) : K.At s.offset stack := by
  simp only [assignKey, laid_bind] at h
  obtain ⟨_, s1, h1, _, s2, h2, t, s3, h3, _, s4, h4, _, s5, h5, h6⟩ := h
  have hwide : keys + 4 ≤ 0xFFFF := hwide
  refine safe_emit (laid_emit h1) ⟨by omega, ?_, ?_, _, hdone, fun key => ?_, hend⟩
  · rw [tempAfter_eq (by omega)]
    omega
  · rw [tempAfter_eq (by omega)]
    omega
  refine safe_emit (laid_emit h2) ⟨by omega, _, _, rfl, ht h3 fun top haim => ?_⟩
  refine safe_load h4 fun key => safe_write h5 haim fun v => ?_
  exact safe_emit (laid_emit h6) ⟨_, _, rfl, hk⟩

/-- Every run of the body of a loop takes a step, so what is left of the steps gets less each time
around. -/
theorem safe_loop {top doneOffset : Nat}
    (hk : ∀ c : { c // C c }, K.At doneOffset (.completion c.1 :: stack))
    (hstep : ∀ K : Rest a rules u,
      (∀ c : { c // C c }, K.At doneOffset (.completion c.1 :: stack)) →
      (∀ m, m < K.steps → (K.within m).Goes top stack) → K.Goes top stack) :
    K.Goes top stack := by
  obtain ⟨n, post, scopes⟩ := K
  induction n using Nat.strongRecOn with
  | ind n ih => exact hstep _ hk fun k hlt => ih k hlt fun c => (hk c).within (Nat.le_of_lt hlt)

section

variable {B C : Completion → Prop} {labels : LabelSet} [Composed body]
  (hb : Completes a rules B body) (hC : ∀ c, IsNormal c → C c)
  (hout : ∀ c, B c → c.breaksAt labels = false → c.continuesAt labels = false → C c)
include hb hC hout

theorem completes_whileLoop [Composed test] (ht : Evaluates a rules test) :
    Completes a rules C (whileLoop labels test body) := by
  intro u s s' h K stack hk
  simp only [whileLoop, laid_bind] at h
  obtain ⟨again, s1, h1, done, s2, h2, _, s3, h3, _, s4, h4, _, s5, h5, _, s6, h6, _, s7, h7,
    h8⟩ := h
  obtain ⟨hagain, k4⟩ := laid_place h4
  obtain ⟨hdone, k8⟩ := laid_place h8
  rw [k8.offset] at hk
  refine safe_keeps (laid_newLabel h1) (safe_keeps (laid_newLabel h2)
    (safe_emit (laid_emit h3) (safe_loop hk (fun K hend ih acc hacc => ?_) _ isNormal_normal)))
  refine safe_keeps k4 (evaluates_condition ht h5 fun v => ?_)
  refine safe_emit (laid_emit h6) ⟨_, v, _, hdone, rfl, ?_, hend ⟨acc, hC acc hacc⟩⟩
  exact safe_iteration h7 hb hC hout hagain hdone ih hend

theorem completes_doWhileLoop [Composed test] (ht : Evaluates a rules test) :
    Completes a rules C (doWhileLoop labels body test) := by
  intro u s s' h K stack hk
  simp only [doWhileLoop, laid_bind] at h
  obtain ⟨top, s1, h1, again, s2, h2, done, s3, h3, _, s4, h4, _, s5, h5, _, s6, h6, _, s7, h7, _,
    s8, h8, _, s9, h9, h10⟩ := h
  obtain ⟨htop, k5⟩ := laid_place h5
  obtain ⟨hagain, k7⟩ := laid_place h7
  obtain ⟨hdone, k10⟩ := laid_place h10
  rw [k10.offset] at hk
  refine safe_keeps (laid_newLabel h1) (safe_keeps (laid_newLabel h2) (safe_keeps (laid_newLabel h3)
    (safe_emit (laid_emit h4) (safe_loop hk (fun K hend ih acc hacc => ?_) _ isNormal_normal))))
  refine safe_keeps k5 (safe_iteration h6 hb hC hout hagain hdone (fun k hlt acc hacc => ?_) hend)
  refine safe_keeps k7 (evaluates_condition ht h8 fun v => ?_)
  refine safe_emit (laid_emit h9) ⟨_, v, _, htop, rfl, ?_, ih k hlt acc hacc⟩
  exact (hend ⟨acc, hC acc hacc⟩).within (Nat.le_of_lt hlt)

theorem completes_forLoop {init update : Gen Unit} {test : Option (Gen Unit)}
    [∀ l, Composed (forTest l test)] [Composed init] [Composed update] (hi : Passes a rules init)
    (ht : ∀ t, test = some t → Composed t ∧ Evaluates a rules t) (hu : Passes a rules update) :
    Completes a rules C (forLoop labels init test update body) := by
  intro u s s' h K stack hk
  simp only [forLoop_eq, laid_bind] at h
  obtain ⟨again, s1, h1, next, s2, h2, done, s3, h3, _, s4, h4, _, s5, h5, _, s6, h6, _, s7, h7, _,
    s8, h8, _, s9, h9, _, s10, h10, _, s11, h11, h12⟩ := h
  obtain ⟨hagain, k6⟩ := laid_place h6
  obtain ⟨hnext, k9⟩ := laid_place h9
  obtain ⟨hdone, k12⟩ := laid_place h12
  rw [k12.offset] at hk
  have htest : ∀ {K : Rest a rules u} {acc}, K.At s11.offset (.completion acc :: stack) →
      K.At s7.offset (.completion acc :: stack) → K.At s6.offset (.completion acc :: stack) := by
    intro K acc hfalse htrue
    cases test with
    | none =>
      obtain ⟨-, rfl⟩ := laid_pure h7
      exact htrue
    | some test =>
      obtain ⟨_, hev⟩ := ht test rfl
      simp only [forTest, laid_bind] at h7
      obtain ⟨_, t1, h1, h2⟩ := h7
      refine evaluates_condition hev h1 fun v => ?_
      exact safe_emit (laid_emit h2) ⟨_, v, _, hdone, rfl, htrue, hfalse⟩
  refine safe_keeps (laid_newLabel h1) (safe_keeps (laid_newLabel h2)
    (safe_keeps (laid_newLabel h3) (hi h4 fun _ => safe_emit (laid_emit h5) ?_)))
  refine safe_loop hk (fun K hend ih acc hacc => safe_keeps k6 ?_) _ isNormal_normal
  refine htest (hend ⟨acc, hC acc hacc⟩) ?_
  refine safe_iteration h8 hb hC hout hnext hdone (fun k hlt acc hacc => ?_) hend
  refine safe_keeps k9 (hu h10 fun _ => safe_emit (laid_emit h11) ⟨_, hagain, ?_⟩)
  exact ih k hlt acc hacc

theorem completes_forInLoop {head : Gen Unit} [Composed head] [Composed right] [Composed target]
    (hh : Passes a rules head) (hr : Evaluates a rules right) (ht : Aims a rules target) :
    Completes a rules C (forInLoop strict labels head right target body) := by
  intro u s s' h K stack hk
  simp only [forInLoop_eq, laid_bind] at h
  obtain ⟨next, s1, h1, done, s2, h2, keys, s3, h3, _, s4, h4, _, s5, h5, _, s6, h6, _, s7, h7, _,
    s8, h8, _, s9, h9, h10⟩ := h
  obtain ⟨rfl, htemps, hoffset, hwide⟩ := laid_allocate h3
  have hbound : s2.temps + 4 ≤ u.tempCount := htemps ▸ h3.within.temps
  obtain ⟨hnext, k7⟩ := laid_place h7
  obtain ⟨hdone, k10⟩ := laid_place h10
  rw [k10.offset] at hk
  refine safe_keeps (laid_newLabel h1) (safe_keeps (laid_newLabel h2) ?_)
  rw [← hoffset]
  refine hh h4 fun _ => safe_emit (laid_emit h5) (safe_listKeys hr h6 hbound ?_)
  refine safe_loop hk (fun K hend ih acc hacc => safe_keeps k7 ?_) _ isNormal_normal
  refine safe_assignKey ht h8 hbound hwide hdone (hend ⟨acc, hC acc hacc⟩) ?_
  exact safe_iteration h9 hb hC hout hnext hdone ih hend

end

/-! ## `switch` -/

section

variable {C : Completion → Prop}

def Rest.Clauses (K : Rest a rules u) (stack : List Slot) (first : Label) (count : Nat) : Prop :=
  ∀ i, i < count → ∃ offset, u.offset? (first + i) = some offset ∧ K.Goes offset stack

def Selects (a : Artifact) (rules : Rules) (count : Nat)
    (g : Nat → Label → Gen (Option Label)) : Prop :=
  ∀ ⦃subject : Nat⦄ ⦃first : Label⦄ ⦃u : CodeUnit⦄ ⦃s s' : Stage⦄ ⦃default : Option Label⦄,
    Laid a u (g subject first) s default s' →
    (∀ l, default = some l → ∃ i, i < count ∧ l = first + i) ∧
    ∀ ⦃K : Rest a rules u⦄ ⦃stack : List Slot⦄, K.Clauses stack first count →
      K.Goes s'.offset stack → K.Goes s.offset stack

def Falls (a : Artifact) (rules : Rules) (C : Completion → Prop) (count : Nat)
    (g : Label → Label → Gen Unit) : Prop :=
  ∀ ⦃abrupt first : Label⦄ ⦃u : CodeUnit⦄ ⦃s s' : Stage⦄, Laid a u (g abrupt first) s () s' →
    ∀ ⦃offset : Nat⦄, u.offset? abrupt = some offset →
    ∀ ⦃K : Rest a rules u⦄ ⦃stack : List Slot⦄, K.Leaves C offset stack → K.Goes s'.offset stack →
      K.Goes s.offset stack ∧ K.Clauses stack first count

theorem safe_caseTest {subject : Nat} [Composed test] {clause : Label}
    (ht : Evaluates a rules test) (h : Laid a u (caseTest subject test clause) s () s')
    (hl : u.offset? clause = some offset) (hclause : K.At offset stack)
    (hk : K.At s'.offset stack) : K.At s.offset stack := by
  simp only [caseTest, laid_bind] at h
  obtain ⟨_, s1, h1, _, s2, h2, _, s3, h3, h4⟩ := h
  refine safe_load h1 fun v => ht h2 fun v' => ?_
  refine safe_operate ([v, v']) h3 rfl (by decide) fun same => ?_
  exact safe_emit (laid_emit h4) ⟨_, same, _, hl, rfl, hk, hclause⟩

theorem Rest.Clauses.cons {first : Label} (hl : u.offset? first = some offset)
    (hs : K.Goes offset stack) (h : K.Clauses stack (first + 1) count) :
    K.Clauses stack first (count + 1) := by
  intro i hi
  cases i with
  | zero => exact ⟨offset, hl, hs⟩
  | succ i =>
    obtain ⟨offset', hl', hs'⟩ := h i (by omega)
    have hnext : first + (i + 1) = first + 1 + i := Nat.add_right_comm first i 1
    rw [hnext]
    exact ⟨offset', hl', hs'⟩

theorem Rest.Clauses.tail {first : Label} (h : K.Clauses stack first (count + 1)) :
    K.Clauses stack (first + 1) count := by
  intro i hi
  have hnext : first + (i + 1) = first + 1 + i := Nat.add_right_comm first i 1
  rw [← hnext]
  exact h (i + 1) (by omega)

theorem falls_nil : Falls a rules C 0 fun _ _ => pure () := by
  intro abrupt first u s s' h offset _ K stack _ hk
  obtain ⟨-, rfl⟩ := laid_pure h
  exact ⟨hk, fun i hi => absurd hi (Nat.not_lt_zero i)⟩

theorem falls_cons {g : Label → Label → Gen Unit} [Composed body] [∀ l l', Composed (g l l')]
    (hb : Completes a rules C body) (hg : Falls a rules C count g) :
    Falls a rules C (count + 1) fun abrupt first =>
      (do caseBody first abrupt body; g abrupt (first + 1)) := by
  intro abrupt first u s s' h offset hl K stack ha hk
  simp only [caseBody, bind_assoc, laid_bind] at h
  obtain ⟨_, s1, h1, _, s2, h2, _, s3, h3, _, s4, h4, h5⟩ := h
  obtain ⟨hfirst, k1⟩ := laid_place h1
  obtain ⟨hrest, hclauses⟩ := hg h5 hl ha hk
  have hbody : K.Goes s.offset stack := fun acc _ =>
    safe_keeps k1 (hb h2 fun c => safe_abruptOrMerge h3 h4 hl c.2 ha hrest)
  exact ⟨hbody, hclauses.cons hfirst hbody⟩

instance {labels : LabelSet} {abrupt broken done : Label} :
    Composed (endSwitch labels abrupt broken done) := by
  unfold endSwitch
  infer_instance

theorem completes_switchClauses {B : Completion → Prop} {labels : LabelSet}
    {discriminant : Gen Unit} {tests : Nat → Label → Gen (Option Label)}
    {bodies : Label → Label → Gen Unit} [Composed discriminant] [∀ k l, Composed (tests k l)]
    [∀ l l', Composed (bodies l l')] (hd : Evaluates a rules discriminant)
    (ht : Selects a rules count tests) (hb : Falls a rules B count bodies)
    (hC : ∀ c, IsNormal c → C c) (hout : ∀ c, B c → c.breaksAt labels = false → C c) :
    Completes a rules C (switchClauses labels count discriminant tests bodies) := by
  intro u s s' h K stack hk
  simp only [switchClauses_eq, laid_bind] at h
  obtain ⟨abrupt, s1, h1, broken, s2, h2, done, s3, h3, first, s4, h4, subject, s5, h5, _, s6, h6,
    _, s7, h7, _, s8, h8, default, s9, h9, _, s10, h10, _, s11, h11, _, s12, h12, hend⟩ := h
  simp only [endSwitch, laid_bind] at hend
  obtain ⟨_, t1, e1, _, t2, e2, _, t3, e3, _, t4, e4, _, t5, e5, _, t6, e6, e7⟩ := hend
  obtain ⟨rfl, htemps, hoffset, -⟩ := laid_allocate h5
  have hbound : s4.temps < u.tempCount := by
    have := h5.within.temps
    omega
  obtain ⟨habrupt, j1⟩ := laid_place e1
  obtain ⟨hbroken, -⟩ := laid_placed e5
  obtain ⟨hdone, j7⟩ := laid_place e7
  rw [j7.offset] at hk
  have hnormal : K.Goes t6.offset stack := fun acc hacc => hk ⟨acc, hC acc hacc⟩
  -- A completion that jumps out of the clauses is a `break` of this statement, or goes on outside.
  have hjump : K.Leaves B s12.offset stack := by
    intro c acc hc
    refine safe_keeps j1 (safe_emit (laid_emit e2) ⟨_, c, _, hbroken, rfl,
      iteInduction (fun _ => ?_) fun hbreaks => ?_⟩)
    · exact safe_emit (laid_emit e6) ⟨_, _, _, rfl, hnormal _ (isNormal_merge _ _)⟩
    · refine safe_dropBelow e3 (safe_emit (laid_emit e4) ⟨_, hdone, hk ⟨c, hout c hc ?_⟩⟩)
      exact Bool.eq_false_iff.mpr hbreaks
  obtain ⟨-, hclauses⟩ := hb h11 habrupt hjump
    fun acc hacc => safe_emit (laid_emit h12) ⟨_, hdone, hnormal acc hacc⟩
  obtain ⟨hdefault, hselect⟩ := ht h9
  refine safe_keeps (laid_newLabel h1) (safe_keeps (laid_newLabel h2)
    (safe_keeps (laid_newLabel h3) (safe_keeps (laid_newLabels h4) ?_)))
  rw [← hoffset]
  refine hd h6 fun v => safe_emit (laid_emit h7) ⟨hbound, _, _, rfl, safe_emit (laid_emit h8) ?_⟩
  refine hselect hclauses (fun acc hacc => safe_emit (laid_emit h10) ?_) _ isNormal_normal
  cases default with
  | none => exact ⟨_, hdone, hnormal acc hacc⟩
  | some l =>
    obtain ⟨i, hi, rfl⟩ := hdefault l rfl
    obtain ⟨offset, hl, hs⟩ := hclauses i hi
    exact ⟨offset, hl, hs acc hacc⟩

end

/-! ## `try` -/

section

variable {C : Completion → Prop}

theorem replaces_catchThrown {param : String} {handler : Gen Unit} [Composed handler]
    (hh : Completes a rules C handler) : Replaces a rules .completion C
    (catchThrown param handler) := by
  intro u s s' h K stack hk c hc
  simp only [catchThrown, laid_bind] at h
  obtain ⟨after, s1, h1, _, s2, h2, _, s3, h3, i, s4, h4, _, s5, h5, _, s6, h6, _, s7, h7, h8⟩ := h
  obtain ⟨hi, k4⟩ := laid_binding h4
  obtain ⟨hafter, k8⟩ := laid_place h8
  rw [k8.offset] at hk
  refine safe_keeps (laid_newLabel h1) (safe_emit (laid_emit h2) ⟨_, c, _, hafter, rfl,
    iteInduction (fun _ => hk c hc) fun _ => ?_⟩)
  refine safe_emit (laid_emit h3) ⟨_, _, rfl, safe_keeps k4 ?_⟩
  refine safe_emit (laid_emit h5) ⟨⟨param, hi⟩, _, _, rfl, ?_⟩
  refine @hh u _ _ h6 { K with scopes := K.scopes + 1 } stack fun c' => ?_
  exact safe_emit (laid_emit h7) ⟨K.scopes, rfl, hk c'.1 c'.2⟩

theorem replaces_withFinalizer {finalizer : Gen Unit} [Composed finalizer]
    (hf : Completes a rules C finalizer) : Replaces a rules .completion C
    (withFinalizer finalizer) := by
  intro u s s' h K stack hk c hc
  simp only [withFinalizer, laid_bind] at h
  obtain ⟨override, s1, h1, done, s2, h2, _, s3, h3, _, s4, h4, _, s5, h5, _, s6, h6, _, s7, h7, _,
    s8, h8, h9⟩ := h
  obtain ⟨hoverride, -⟩ := laid_placed h7
  obtain ⟨hdone, k9⟩ := laid_place h9
  rw [k9.offset] at hk
  refine safe_keeps (laid_newLabel h1) (safe_keeps (laid_newLabel h2) (hf h3 fun c' => ?_))
  refine safe_emit (laid_emit h4) ⟨_, _, _, hoverride, rfl, iteInduction (fun _ => ?_) fun _ => ?_⟩
  · exact safe_dropBelow h8 (hk c'.1 c'.2)
  · refine safe_emit (laid_emit h5) ⟨_, _, rfl, ?_⟩
    exact safe_emit (laid_emit h6) ⟨_, hdone, hk c hc⟩

theorem completes_replaced [Composed g] [Composed g'] (hg : Completes a rules C g)
    (hg' : Replaces a rules .completion C g') : Completes a rules C (do g; g') := by
  intro u s s' h K stack hk
  obtain ⟨_, s1, h1, h2⟩ := laid_bind.mp h
  exact hg h1 fun c => hg' h2 (fun c' hc' => hk ⟨c', hc'⟩) c.1 c.2

end

end TreeScript.Lowering
