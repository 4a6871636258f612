import TreeScript.Proofs.Evaluation.Switching

/-!
# Labels

A `break` with a label leaves all statements between itself and the one with the label.  Each of
them hands it on: a body that ends with it is left for the frame that started the body, and a
statement whose part ends with it ends so itself, unless its own labels are meant or a finalizer
ends abruptly.  `Machine.Leaves` is one such passage, and any number of them in a row leads to the
statement with the label, which then ends normally: a loop or a `switch` takes the `break` itself,
and behind any other statement it ends at the label.
-/

namespace TreeScript

open Code Syntax Machine

def Completion.IsBreak (c : Completion) (L : String) : Prop := c.kind = .break ∧ c.target = some L

instance (c : Completion) (L : String) : Decidable (c.IsBreak L) :=
  inferInstanceAs (Decidable (_ ∧ _))

namespace Completion.IsBreak

variable {c : Completion} {L : String}

theorem isAbrupt (h : c.IsBreak L) : c.isAbrupt = true := by
  unfold Completion.isAbrupt
  rw [h.1]
  rfl

theorem breaksAt_eq (h : c.IsBreak L) (labels : List String) :
    c.breaksAt ⟨labels⟩ = decide (L ∈ labels) := by
  unfold breaksAt LabelSet.handles LabelSet.contains
  rw [h.1, h.2]
  simp

theorem continuesAt_eq_false (h : c.IsBreak L) (labels : LabelSet) :
    c.continuesAt labels = false := by
  unfold continuesAt
  rw [h.1]
  rfl

end Completion.IsBreak

theorem Completion.not_isBreak_merge (c acc : Completion) (L : String) :
    ¬ (c.merge acc).IsBreak L := by
  intro h
  cases h.1

theorem Completion.consumeBreak_single (c : Completion) (L : String) :
    c.consumeBreak ⟨[L]⟩ =
      if c.IsBreak L then { kind := .normal, value := c.value } else c := by
  obtain ⟨kind, value, target⟩ := c
  cases target with
  | none => simp [consumeBreak, IsBreak]
  | some M => simp [consumeBreak, IsBreak, LabelSet.contains]

def Syntax.Stmt.unlabeled : Stmt → Stmt
  | .labeled _ body => body.unlabeled
  | s => s

theorem Syntax.Stmt.takesLabel_of_unlabeled {s : Stmt} (h : s.unlabeled.isBreakable = true) :
    s.takesLabel = true := by
  cases s with
  | labeled => rfl
  | _ => exact h

/-- The machine with a completion on its stack. -/
def Machine.completing (m : Machine) (c : Completion) : Machine := m.pushed (.completion c)

namespace Lowering

variable {a : Artifact} {u : CodeUnit} {s s' s1 s2 : Stage} {strict : Bool} {labels : List String}
  {L : String} {k : Nat}

/-! ## Passages -/

/-- The unit that is started has this role. -/
def StartsRole (a : Artifact) (u : CodeUnit) (s s' : Stage) (k : Nat) (id : UnitId)
    (role : Role) : Prop :=
  Starts u s s' k id ∧ ∃ unit, a.unit? id = some unit ∧ unit.role = role

/-- `PartEnds a u L labels s s' stmt k top`: a part of the statement ends at the offset `k`, with
`top` on the stack that is the statement's own, and a `break` to `L` is not meant for the statement
itself.  Its code is between `s` and `s'`, and `labels` stand in front of it. -/
inductive PartEnds (a : Artifact) (u : CodeUnit) (L : String) (labels : List String)
    (s s' : Stage) : Stmt → Nat → List Slot → Prop where
  | block {body : List Stmt} {k : Nat} {l : Label} (acc : Completion) :
    u.instructions[k]? = some (.jumpIfAbrupt l) → s.offset ≤ k → k < s'.offset →
    u.offset? l = some (s'.offset - 2) →
    PartEnds a u L labels s s' (.block body) k [.completion acc]
  | labeled {M : String} {body : Stmt} :
    M ≠ L → PartEnds a u L labels s s' (.labeled M body) (s'.offset - 1) []
  | branch {test : Expr} {consequent : Stmt} {alternate : Option Stmt} {k : Nat} {id : UnitId} :
    Starts u s s' k id → PartEnds a u L labels s s' (.ifElse test consequent alternate) (k + 1) []
  /-- The body of a loop, or of a clause of a `switch`. -/
  | body {stmt : Stmt} {k : Nat} {id : UnitId} (acc : Completion) :
    stmt.isBreakable = true → L ∉ labels → Starts u s s' k id →
    PartEnds a u L labels s s' stmt (k + 1) [.completion acc]
  | finalizer {block : List Stmt} {handler : Option CatchClause} {finalizer : Option (List Stmt)}
    {k : Nat} {id : UnitId} (before : Completion) :
    StartsRole a u s s' k id .finally →
    PartEnds a u L labels s s' (.tryCatch block handler finalizer) (k + 1) [.completion before]

/-- The finalizer of a `try` lets completions pass: there is none, or it ends normally. -/
inductive Finalizes (a : Artifact) (u : CodeUnit) (s s' : Stage) (context : Context) (r : Realm) :
    Option (List Stmt) → Realm → Prop where
  | none : Finalizes a u s s' context r none r
  | some {body : List Stmt} {k : Nat} {id : UnitId} {f : Completion} {r' : Realm} :
    StartsRole a u s s' k id .finally → unitResult a id context r = some (f, r') →
    f.isAbrupt = false → Finalizes a u s s' context r (some body) r'

end Lowering

open Lowering

/-- A `break` to `L` that ends a statement, or the body of one, in `w` ends the one around it, in
the same function, in `w'`. -/
inductive Machine.Leaves (a : Artifact) (L : String) : Machine → Machine → Prop where
  /-- A body that is a unit of its own is left for the frame that started it. -/
  | unit {w : Machine} {caller : Frame} {callers : List Frame} :
    w.status = .running → w.frame.resume = .unit →
    w.frame.next = w.frame.unit.instructions.size → w.frame.stack = [] →
    w.callers = caller :: callers →
    Leaves a L w
      ⟨w.realm, { w.context with env := w.frame.callerEnv }, caller, callers, .running⟩
  | part {w : Machine} {u : CodeUnit} {s s' : Stage} {strict : Bool} {labels : List String}
    {stmt : Stmt} {top stack : List Slot} :
    w.Hosts a u → Laid a u (genStmt strict labels stmt) s () s' →
    PartEnds a u L labels s s' stmt w.frame.next top → w.frame.stack = top ++ stack →
    Leaves a L w (w.placed s'.offset stack w.frame.temps w.realm)
  | block {w : Machine} {u : CodeUnit} {s s' : Stage} {strict : Bool} {labels : List String}
    {block : List Stmt} {handler : Option CatchClause} {finalizer : Option (List Stmt)} {k : Nat}
    {id : UnitId} {r : Realm} :
    w.Hosts a u → Laid a u (genStmt strict labels (.tryCatch block handler finalizer)) s () s' →
    StartsRole a u s s' k id .body → w.frame.next = k + 1 →
    Finalizes a u s s' w.context w.realm finalizer r →
    Leaves a L w (w.placed s'.offset w.frame.stack w.frame.temps r)
  /-- The handler of a `try`, in its scope. -/
  | handler {w : Machine} {u : CodeUnit} {s s' : Stage} {strict : Bool} {labels : List String}
    {block : List Stmt} {handler : Option CatchClause} {finalizer : Option (List Stmt)} {k : Nat}
    {id : UnitId} {scope : EnvRef} {r : Realm} :
    w.Hosts a u → Laid a u (genStmt strict labels (.tryCatch block handler finalizer)) s () s' →
    StartsRole a u s s' k id .catch → w.frame.next = k + 1 →
    Finalizes a u s s' w.context w.realm finalizer r →
    Leaves a L (w.inScope scope) (w.placed s'.offset w.frame.stack w.frame.temps r)

variable {x : Unit} {body : Stmt} {m : Machine} {r : Realm} {test : Expr} {α : Type}
  {i : Instruction} {abrupt : Label}

namespace Lowering

variable {a : Artifact} {u : CodeUnit} {s s' s1 s2 : Stage} {strict : Bool} {labels : List String}
  {L : String} {k : Nat} {id : UnitId}

/-! ## Ways out -/

/-- A `break` to `L` goes from one offset of a unit to another, past what is on the stack there. -/
def Leads (a : Artifact) (u : CodeUnit) (L : String) (k : Nat) (top : List Slot) (e : Nat) : Prop :=
  ∀ ⦃m : Machine⦄, m.Hosts a u → ∀ ⦃c : Completion⦄, c.IsBreak L → ∀ stack : List Slot,
    Reaches (m.placed k (.completion c :: (top ++ stack)) m.frame.temps m.realm)
      (m.placed e (.completion c :: stack) m.frame.temps m.realm)

theorem reaches_exec {m' : Machine} {stack : List Slot} {temps : Array Value}
    (hi : u.instructions[k]? = some i) (hh : (m.placed k stack temps r).hangs i = false)
    (hm : m.Hosts a u) (he : exec i (m.placed (k + 1) stack temps r) = .ok () m') :
    Reaches (m.placed k stack temps r) m' := by
  rw [← hm.unit] at hi
  exact reaches_of_step (step_exec hm.running hi hh he)

theorem hosts_placed (h : m.Hosts a u) {next : Nat} (stack : List Slot) :
    (m.placed next stack m.frame.temps r).Hosts a u :=
  ⟨h.artifact, h.unit, h.temps, h.running⟩

theorem offset_dropBelow (h : Laid a u dropBelow s x s') :
    s'.offset = s.offset + 2 := by
  obtain ⟨_, s1, hswap, hpop⟩ := laid_bind.mp h
  rw [(laid_emit hpop).offset, (laid_emit hswap).offset]

theorem leads_block {body : List Stmt} {l : Label} (acc : Completion)
    (h : Laid a u (genStmt strict labels (.block body)) s () s')
    (hk : u.instructions[k]? = some (.jumpIfAbrupt l)) (hfirst : s.offset ≤ k)
    (hlast : k < s'.offset) (hl : u.offset? l = some (s'.offset - 2)) :
    Leads a u L k [.completion acc] s'.offset := by
  cases body with
  | nil =>
    have hadds : Adds u .normal s s' := laid_emit h
    have hoffset := hadds.offset
    have hks : k = s.offset := by omega
    rw [hks, hadds.code] at hk
    cases hk
  | cons t ts =>
    have h : Laid a u (statementList (t :: ts) (genStatements strict labels (t :: ts))) s () s' := h
    simp only [statementList_cons, laid_bind] at h
    obtain ⟨_, s1, h1, abrupt, s2, h2, done, s3, h3, _, s4, h4, _, s5, h5, _, s6, h6, _, s7, h7,
      h8⟩ := h
    have hends := (laid_place h8).2
    have hstart : s'.offset - 2 = s6.offset := by
      rw [hends.offset, offset_dropBelow h7]
      rfl
    rw [hstart] at hl
    intro m hm c hc stack
    have hjump := exec_jumpIfAbrupt (m := m.placed (k + 1)
      (.completion c :: .completion acc :: stack) m.frame.temps m.realm) (hm.unit ▸ hl) rfl
    rw [if_pos hc.isAbrupt] at hjump
    have hat := travels_refl m.callers.length
      (m.placed s6.offset (.completion c :: .completion acc :: stack) m.frame.temps m.realm)
    have hout := travels_keeps (travels_dropBelow hat h7 hm) hends
    exact (reaches_exec hk rfl hm hjump).trans hout.reaches

theorem laid_labeled {M : String} (h : Laid a u (genStmt strict labels (.labeled M body)) s () s') :
    ∃ s1, Laid a u (genStmt strict (if body.takesLabel then labels ++ [M] else []) body) s () s1 ∧
      Adds u (.consumeBreak ⟨[M]⟩) s1 s' := by
  obtain ⟨_, s1, h1, h2⟩ := laid_bind.mp h
  exact ⟨s1, h1, laid_emit h2⟩

theorem step_consumed {M : String} (hadds : Adds u (.consumeBreak ⟨[M]⟩) s s') (hm : m.Hosts a u)
    (hnext : m.frame.next = s.offset) (c : Completion) :
    (m.completing c).step = .next ((m.goto s'.offset).completing
      (if c.IsBreak M then { kind := .normal, value := c.value } else c)) := by
  have hcode : m.frame.unit.instructions[m.frame.next]? = some (.consumeBreak ⟨[M]⟩) := by
    rw [hm.unit, hnext]
    exact hadds.code
  have hadvance : (m.completing c).advance = (m.goto s'.offset).completing c := by
    rw [hadds.offset, ← hnext]
    rfl
  rw [← Completion.consumeBreak_single]
  refine step_exec hm.running hcode rfl ?_
  rw [hadvance]
  exact exec_consumeBreak rfl

theorem reaches_consumed {M : String} {c : Completion} {stack : List Slot}
    (hadds : Adds u (.consumeBreak ⟨[M]⟩) s s') (hm : m.Hosts a u) (hc : ¬ c.IsBreak M) :
    Reaches (m.placed s.offset (.completion c :: stack) m.frame.temps m.realm)
      (m.placed s'.offset (.completion c :: stack) m.frame.temps m.realm) := by
  have hstep := step_consumed hadds (hosts_placed (r := m.realm) hm stack) rfl c
  rw [if_neg hc] at hstep
  exact reaches_of_step hstep

theorem leads_labeled {M : String} (hM : M ≠ L)
    (h : Laid a u (genStmt strict labels (.labeled M body)) s () s') :
    Leads a u L (s'.offset - 1) [] s'.offset := by
  obtain ⟨s1, -, hadds⟩ := laid_labeled h
  have hstart : s'.offset - 1 = s1.offset := by
    rw [hadds.offset]
    rfl
  rw [hstart]
  intro m hm c hc stack
  exact reaches_consumed hadds hm fun hb => hM (Option.some.inj (hb.2.symm.trans hc.2))

theorem leads_branch {consequent : Stmt} {alternate : Option Stmt}
    (h : Laid a u (genStmt strict labels (.ifElse test consequent alternate)) s () s')
    (hk : Starts u s s' k id) : Leads a u L (k + 1) [] s'.offset := by
  simp only [genStmt_ifElse, choice, laid_bind] at h
  obtain ⟨_, s1, h1, done, s2, h2, _, s3, h3, _, s4, h4, _, s5, h5, _, s6, h6, _, s7, h7, _, s8, h8,
    h9⟩ := h
  obtain ⟨hdone, k9⟩ := laid_placed h9
  obtain ⟨_, _, hinvoke, -⟩ := laid_invoke h5
  rcases ((((hk.skip h1).skip h2).skip h3).skip h4).split s5 with hk | hk
  · rw [(hk.eq hinvoke).1, ← hinvoke.offset]
    intro m hm c hc stack
    exact (travels_jump (travels_refl _ _) (laid_emit h6) hm hdone).reaches
  · have hk := ((hk.skip h6).skip h7).cut h9
    cases alternate with
    | none => exact absurd hk (still_quiet (g := emit .normal) h8 k id)
    | some alternate =>
      obtain ⟨_, _, hinvoke, -⟩ := laid_invoke h8
      rw [(hk.eq hinvoke).1, ← hinvoke.offset, ← k9.offset]
      intro m hm c hc stack
      exact .refl _

/-! ### Bodies of loops -/

/-- Behind a body of a loop or `switch`: a `break` to one of its labels ends it normally, and any
other one ends it. -/
def Decides (a : Artifact) (u : CodeUnit) (L : String) (labels : List String) (k e : Nat) : Prop :=
  ∀ ⦃m : Machine⦄, m.Hosts a u → ∀ ⦃c : Completion⦄, c.IsBreak L →
    ∀ (acc : Completion) (stack : List Slot),
    Reaches (m.placed k (.completion c :: .completion acc :: stack) m.frame.temps m.realm)
      (m.placed e (.completion (if L ∈ labels then c.merge acc else c) :: stack) m.frame.temps
        m.realm)

theorem reaches_settles {start : Nat} {f : Completion → Completion → Nat × Completion}
    (h : Settles a u start f) (hm : m.Hosts a u) (acc c : Completion) (stack : List Slot) :
    Reaches (m.placed start (.completion c :: .completion acc :: stack) m.frame.temps m.realm)
      (m.placed (f acc c).1 (.completion (f acc c).2 :: stack) m.frame.temps m.realm) :=
  (h hm (travels_refl _ _)).reaches

theorem decides_dispatch {start next done : Nat}
    (h : Settles a u start (dispatch ⟨labels⟩ next done)) : Decides a u L labels start done := by
  intro m hm c hc acc stack
  have hdispatch : dispatch ⟨labels⟩ next done acc c =
      (done, if L ∈ labels then c.merge acc else c) := by
    unfold dispatch
    rw [hc.breaksAt_eq, hc.continuesAt_eq_false, hc.isAbrupt]
    by_cases hL : L ∈ labels <;> simp [hL]
  have hat := reaches_settles h hm acc c stack
  rw [hdispatch] at hat
  exact hat

theorem decides_loop (loop : Loop) (h : Laid a u (genStmt strict labels (loop.stmt body)) s () s')
    (hk : Starts u s s' k id) : Decides a u L labels (k + 1) s'.offset := by
  obtain ⟨_, _, _, -, hloops⟩ := loops_of_laid h
  obtain ⟨inner, next, hone, hsettles, -⟩ := hloops.code
  rw [(hone.only hk).1]
  exact decides_dispatch hsettles

theorem decides_forInLoop {head right : Gen Unit} {target : Gen Target} [Quiet head] [Quiet right]
    [Quiet target] [Composed head] [Composed right] [Composed target]
    (h : Laid a u (forInLoop strict ⟨labels⟩ head right target (loopBody strict body)) s () s')
    (hk : Starts u s s' k id) : Decides a u L labels (k + 1) s'.offset := by
  simp only [forInLoop_eq, laid_bind] at h
  obtain ⟨_, s1, h1, done, s2, h2, _, s3, h3, _, s4, h4, _, s5, h5, _, s6, h6, _, s7, h7, _, s8, h8,
    _, s9, h9, h10⟩ := h
  obtain ⟨_, -, hone, hsettles, -⟩ :=
    iterates_iteration h9 (laid_placed h7).1 (laid_placed h10).1
  have hone := ((((hone.skip h8).skip h7).skip h6).skip h5).skip h4
  have hone := (((hone.skip h3).skip h2).skip h1).cut h10
  rw [(hone.only hk).1]
  exact decides_dispatch hsettles

/-! ### `switch` -/

theorem leads_genClauses {clauses : List SwitchClause} {clause : Label}
    (h : Laid a u (genClauses strict clauses abrupt clause) s x s') (hk : Starts u s s' k id) :
    u.instructions[k + 1]? = some (.jumpIfAbrupt abrupt) := by
  induction clauses generalizing s clause with
  | nil =>
    obtain ⟨-, rfl⟩ := laid_pure h
    have := hk.first
    have := hk.last
    omega
  | cons c clauses ih =>
    obtain ⟨test, body⟩ := c
    obtain ⟨_, s1, h1, h2⟩ := laid_bind.mp h
    rcases hk.split s1 with hk | hk
    · simp only [caseBody, laid_bind] at h1
      obtain ⟨_, s3, h3, _, s4, h4, _, s5, h5, h6⟩ := h1
      obtain ⟨_, _, hinvoke, -⟩ := laid_invoke h4
      have hk := ((hk.skip h3).cut h6).cut h5
      rw [(hk.eq hinvoke).1, ← hinvoke.offset]
      exact (laid_emit h5).code
    · exact ih h2 hk

theorem still_endSwitch {labels : LabelSet} {broken done : Label}
    (h : Laid a u (endSwitch labels abrupt broken done) s x s') : Still u s s' := by
  obtain ⟨_, s1, h1, h⟩ := laid_bind.mp h
  obtain ⟨_, s2, h2, h3⟩ := laid_bind.mp h
  exact ((still_quiet h1).trans (still_adds (laid_emit h2) rfl)).trans (still_quiet h3)

set_option synthInstance.maxSize 512 in
theorem decides_switch {discriminant : Expr} {clauses : List SwitchClause}
    (h : Laid a u (genStmt strict labels (.switch discriminant clauses)) s () s')
    (hk : Starts u s s' k id) : Decides a u L labels (k + 1) s'.offset := by
  simp only [genStmt_switch, switchClauses_eq, laid_bind] at h
  obtain ⟨abrupt, s1, h1, broken, s2, h2, done, s3, h3, first, s4, h4, subject, s5, h5, _, s6, h6,
    _, s7, h7, _, s8, h8, default, s9, h9, _, s10, h10, _, s11, h11, _, s12, h12, h13⟩ := h
  obtain ⟨habrupt, hdone, hends⟩ := travels_endSwitch h13
  have hk := ((((hk.skip h1).skip h2).skip h3).skip h4).skip h5
  have hk := ((((hk.skip h6).skip h7).skip h8).skip h9).skip h10
  have hcode := leads_genClauses h11 ((hk.before (still_endSwitch h13)).cut h12)
  intro m hm c hc acc stack
  have hjump := exec_jumpIfAbrupt (m := m.placed (k + 1 + 1)
    (.completion c :: .completion acc :: stack) m.frame.temps m.realm) (hm.unit ▸ habrupt) rfl
  rw [if_pos hc.isAbrupt] at hjump
  have hout := reaches_settles hends hm acc c stack
  simp only [hc.breaksAt_eq, decide_eq_true_eq] at hout
  exact (reaches_exec hcode rfl hm hjump).trans hout

/-! ### `try` -/

variable {finalizer : Option (List Stmt)} {handler : Option CatchClause}

/-- Behind a finalizer that was started, a `break` counts. -/
theorem leads_tryFinalizer (before : Completion)
    (h : Laid a u (tryFinalizer strict finalizer) s () s') (hk : Starts u s s' k id) :
    Leads a u L (k + 1) [.completion before] s'.offset := by
  cases finalizer with
  | none => exact absurd hk (still_quiet (g := pure ()) h k id)
  | some body =>
    obtain ⟨_, hsome, -⟩ := transforms_finalizer h
    obtain ⟨-, hone, hsettles⟩ := hsome rfl
    rw [(hone.only hk).1]
    intro m hm c hc stack
    have hat := reaches_settles hsettles hm before c stack
    rw [hc.isAbrupt] at hat
    exact hat

theorem started_invoke {role : Role} {body : Gen Unit} [Composed body]
    (h : Laid a u (invoke role strict body) s x s') (hk : Starts u s s' k id) :
    k = s.offset ∧ s'.offset = k + 1 ∧ ∃ unit, a.unit? id = some unit ∧ unit.role = role := by
  obtain ⟨id', unit, hadds, hunit, hrole, -⟩ := laid_invoke h
  obtain ⟨rfl, hid⟩ := hk.eq hadds
  cases hid
  exact ⟨rfl, hadds.offset, unit, hunit, hrole⟩

theorem started_tryHandler (h : Laid a u (tryHandler strict handler) s () s')
    (hk : Starts u s s' k id) :
    (∃ unit, a.unit? id = some unit ∧ unit.role = .catch) ∧
      u.instructions[k + 1]? = some .exitScope ∧ s'.offset = k + 2 := by
  cases handler with
  | none => exact absurd hk (still_quiet (g := pure ()) h k id)
  | some clause =>
    obtain ⟨param, body⟩ := clause
    obtain ⟨_, hsome, -⟩ := transforms_handler h
    obtain ⟨⟨unit, hunit, hrole, -⟩, _, hone, hexit⟩ := hsome rfl
    obtain ⟨rfl, rfl⟩ := hone.only hk
    exact ⟨⟨unit, hunit, hrole⟩, hexit⟩

theorem started_tryFinalizer (h : Laid a u (tryFinalizer strict finalizer) s () s')
    (hk : Starts u s s' k id) : ∃ unit, a.unit? id = some unit ∧ unit.role = .finally := by
  cases finalizer with
  | none => exact absurd hk (still_quiet (g := pure ()) h k id)
  | some body =>
    obtain ⟨_, hsome, -⟩ := transforms_finalizer h
    obtain ⟨⟨unit, hunit, hrole, -⟩, hone, -⟩ := hsome rfl
    obtain ⟨-, rfl⟩ := hone.only hk
    exact ⟨unit, hunit, hrole⟩

/-- Which part of a `try` a unit is, by its role. -/
theorem StartsRole.tryPart {role : Role} {block : Gen Unit} [Composed block]
    (hk : StartsRole a u s s' k id role) (h1 : Laid a u (invoke .body strict block) s x s1)
    (h2 : Laid a u (tryHandler strict handler) s1 () s2)
    (h3 : Laid a u (tryFinalizer strict finalizer) s2 () s') :
    role = .body ∧ Starts u s s1 k id ∨ role = .catch ∧ Starts u s1 s2 k id ∨
      role = .finally ∧ Starts u s2 s' k id := by
  obtain ⟨hk, unit, hunit, rfl⟩ := hk
  have hsame {role : Role} (h : ∃ unit, a.unit? id = some unit ∧ unit.role = role) :
      unit.role = role := by
    obtain ⟨unit', hunit', hrole⟩ := h
    cases hunit.symm.trans hunit'
    exact hrole
  rcases hk.split s1 with hk | hk
  · exact .inl ⟨hsame (started_invoke h1 hk).2.2, hk⟩
  rcases hk.split s2 with hk | hk
  · exact .inr (.inl ⟨hsame (started_tryHandler h2 hk).1, hk⟩)
  · exact .inr (.inr ⟨hsame (started_tryFinalizer h3 hk), hk⟩)

theorem Transforms.reaches {course : Context → Completion → Course Completion} {c c' : Completion}
    {stack : List Slot} {visits : List Visit} (h : Transforms a u s s' course) (hm : m.Hosts a u)
    (hcourse : course m.context c (m.realm, []) = some (c', r, visits)) :
    Reaches (m.placed s.offset (.completion c :: stack) m.frame.temps m.realm)
      (m.placed s'.offset (.completion c' :: stack) m.frame.temps r) := by
  have hat : Pursues _ _ (course m.context c (m.realm, [])) :=
    h (hosts_placed hm (.completion c :: stack))
      (travels_refl _ (m.placed s.offset (.completion c :: stack) m.frame.temps m.realm))
  rw [hcourse] at hat
  obtain ⟨_, htravels, rfl⟩ := hat
  exact htravels.reaches

theorem leads_tryHandler (h : Laid a u (tryHandler strict handler) s () s') :
    Leads a u L s.offset [] s'.offset := by
  obtain ⟨id, -, htransforms⟩ := transforms_handler h
  intro m hm c hc stack
  exact htransforms.reaches hm (Course.handle_passed _ _ _ _ (by rw [hc.1]; decide))

theorem reaches_finalized {c : Completion} {stack : List Slot} (hm : m.Hosts a u)
    (h : Laid a u (tryFinalizer strict finalizer) s () s')
    (hf : Finalizes a u s s' m.context m.realm finalizer r) :
    Reaches (m.placed s.offset (.completion c :: stack) m.frame.temps m.realm)
      (m.placed s'.offset (.completion c :: stack) m.frame.temps r) := by
  obtain ⟨id, hsome, htransforms⟩ := transforms_finalizer h
  cases hf with
  | none => exact htransforms.reaches hm rfl
  | some hstarts hresult hnormal =>
    obtain ⟨-, rfl⟩ := (hsome rfl).2.1.only hstarts.1
    exact htransforms.reaches hm (Course.finalize_passed _ _ _ hresult hnormal)

/-! ## From part to statement -/

theorem decides_body {stmt : Stmt} (h : Laid a u (genStmt strict labels stmt) s () s')
    (hs : stmt.isBreakable = true) (hk : Starts u s s' k id) :
    Decides a u L labels (k + 1) s'.offset := by
  cases stmt with
  | whileLoop test => exact decides_loop (.whileLoop test) h hk
  | doWhile _ test => exact decides_loop (.doWhile test) h hk
  | forLoop init test update => exact decides_loop (.forLoop init test update) h hk
  | forIn left right body =>
    cases left with
    | declaration _ => exact decides_forInLoop h hk
    | expression _ => exact decides_forInLoop h hk
  | «switch» => exact decides_switch h hk
  | _ => cases hs

theorem leads_part {stmt : Stmt} {top : List Slot}
    (h : Laid a u (genStmt strict labels stmt) s () s')
    (hp : PartEnds a u L labels s s' stmt k top) : Leads a u L k top s'.offset := by
  cases hp with
  | block acc hk hfirst hlast hl => exact leads_block acc h hk hfirst hlast hl
  | labeled hM => exact leads_labeled hM h
  | branch hk => exact leads_branch h hk
  | body acc hs hL hk =>
    intro m hm c hc stack
    have hout := decides_body h hs hk hm hc acc stack
    rw [if_neg hL] at hout
    exact hout
  | finalizer before hk =>
    obtain ⟨s1, s2, h1, h2, h3⟩ := laid_tryCatch h
    rcases hk.tryPart h1 h2 h3 with ⟨hrole, -⟩ | ⟨hrole, -⟩ | ⟨-, hk⟩
    · cases hrole
    · cases hrole
    · exact leads_tryFinalizer before h3 hk

/-- A `break` to a label of a loop or `switch` that comes out of its body ends it normally, whatever
other labels stand between that label and the statement. -/
theorem reaches_taken {c : Completion} (hc : c.IsBreak L) (hm : m.Hosts a u) (acc : Completion)
    (stack : List Slot) :
    (stmt : Stmt) → ∀ {labels : List String} {s s' : Stage},
      Laid a u (genStmt strict labels stmt) s () s' → stmt.unlabeled.isBreakable = true →
      L ∈ labels → Starts u s s' k id →
      Reaches (m.placed (k + 1) (.completion c :: .completion acc :: stack) m.frame.temps m.realm)
        (m.placed s'.offset (.completion (c.merge acc) :: stack) m.frame.temps m.realm)
  | .labeled M body, labels, s, s', h, hs, hL, hk => by
    obtain ⟨s1, hbody, hadds⟩ := laid_labeled h
    rw [if_pos (Stmt.takesLabel_of_unlabeled (s := body) hs)] at hbody
    have hk := hk.before (still_adds hadds rfl)
    exact (reaches_taken hc hm acc stack body hbody hs (List.mem_append_left _ hL) hk).trans
      (reaches_consumed hadds hm (Completion.not_isBreak_merge c acc M))
  | .whileLoop .., _, _, _, h, hs, hL, hk | .doWhile .., _, _, _, h, hs, hL, hk
  | .forLoop .., _, _, _, h, hs, hL, hk | .forIn .., _, _, _, h, hs, hL, hk
  | .switch .., _, _, _, h, hs, hL, hk => by
    have hout := decides_body h hs hk hm hc acc stack
    rw [if_pos hL] at hout
    exact hout

theorem Finalizes.after {block : Gen Unit} [Composed block] {context : Context} {r' : Realm}
    (hf : Finalizes a u s s' context r finalizer r')
    (h1 : Laid a u (invoke .body strict block) s x s1)
    (h2 : Laid a u (tryHandler strict handler) s1 () s2)
    (h3 : Laid a u (tryFinalizer strict finalizer) s2 () s') :
    Finalizes a u s2 s' context r finalizer r' := by
  cases hf with
  | none => exact .none
  | some hk hresult hnormal =>
    rcases hk.tryPart h1 h2 h3 with ⟨hrole, -⟩ | ⟨hrole, -⟩ | ⟨-, hk'⟩
    · cases hrole
    · cases hrole
    · exact .some ⟨hk', hk.2⟩ hresult hnormal

end Lowering

/-! ## Out of nested statements -/

namespace Machine

variable {a : Artifact} {L : String} {w w' : Machine} {c : Completion}

theorem reaches_left {caller : Frame} {callers : List Frame} (hr : w.status = .running)
    (hresume : w.frame.resume = .unit) (hnext : w.frame.next = w.frame.unit.instructions.size)
    (hstack : w.frame.stack = []) (hcallers : w.callers = caller :: callers) :
    (w.completing c).Reaches (completing
      ⟨w.realm, { w.context with env := w.frame.callerEnv }, caller, callers, .running⟩ c) := by
  have hfinish : (w.completing c).step = .next { w.completing c with status := .finishing c } := by
    have hnone : w.frame.unit.instructions[w.frame.next]? = none := by
      rw [hnext]
      exact Array.getElem?_size
    have hend : (w.completing c).frame.finish = .ok c := by
      show Frame.finish { w.frame with stack := .completion c :: w.frame.stack } = _
      rw [hstack]
      rfl
    exact step_ended hr hnone hend
  refine (reaches_of_step hfinish).trans (reaches_of_step ?_)
  exact leave_unit c hcallers hresume

theorem Leaves.reaches (h : Leaves a L w w') (hc : c.IsBreak L) :
    (w.completing c).Reaches (w'.completing c) := by
  cases h with
  | unit hr hresume hnext hstack hcallers => exact reaches_left hr hresume hnext hstack hcallers
  | @part _ _ _ _ _ _ _ _ stack hm h hp hstack =>
    have hout := leads_part h hp hm hc stack
    rw [← hstack] at hout
    exact hout
  | block hm h hk hnext hf =>
    obtain ⟨s1, s2, h1, h2, h3⟩ := laid_tryCatch h
    rcases hk.tryPart h1 h2 h3 with ⟨-, hk⟩ | ⟨hrole, -⟩ | ⟨hrole, -⟩
    · rw [← (started_invoke h1 hk).2.1] at hnext
      have hhandler := leads_tryHandler h2 hm hc w.frame.stack
      rw [← hnext] at hhandler
      exact hhandler.trans (reaches_finalized hm h3 (hf.after h1 h2 h3))
    · cases hrole
    · cases hrole
  | @handler w _ _ _ _ _ _ _ _ _ _ scope _ hm h hk hnext hf =>
    obtain ⟨s1, s2, h1, h2, h3⟩ := laid_tryCatch h
    rcases hk.tryPart h1 h2 h3 with ⟨hrole, -⟩ | ⟨-, hk⟩ | ⟨hrole, -⟩
    · cases hrole
    · obtain ⟨-, hexit, hends⟩ := started_tryHandler h2 hk
      have hscope : Reaches
          ((w.inScope scope).placed _ (.completion c :: w.frame.stack) w.frame.temps w.realm) _ :=
        reaches_exec hexit rfl (hosts_inScope hm scope) exec_exitScope_placed
      rw [← hends, ← hnext] at hscope
      exact hscope.trans (reaches_finalized hm h3 (hf.after h1 h2 h3))
    · cases hrole

def atEndOf (m : Machine) (unit : CodeUnit) : Machine :=
  { m with
    frame := { artifact := m.frame.artifact, unit
               temps := Array.replicate unit.tempCount .undefined, next := unit.instructions.size
               callerEnv := m.context.env, resume := .unit }
    callers := m.frame :: m.callers }

theorem hosts_atEndOf {u : CodeUnit} (h : m.Hosts a u) (unit : CodeUnit) :
    (m.atEndOf unit).Hosts a unit :=
  ⟨h.artifact, rfl, Array.size_replicate, h.running⟩

theorem leaves_atEndOf (h : m.status = .running) (unit : CodeUnit) :
    Leaves a L (m.atEndOf unit) m := by
  obtain ⟨realm, context, frame, callers, status⟩ := m
  cases h
  exact .unit rfl rfl rfl rfl rfl

theorem leaves_placed {u : CodeUnit} {s s' : Stage} {strict : Bool} {labels : List String}
    {stmt : Stmt} {k : Nat} {top : List Slot} (hm : m.Hosts a u)
    (h : Laid a u (genStmt strict labels stmt) s () s')
    (hp : PartEnds a u L labels s s' stmt k top) (stack : List Slot) :
    Leaves a L (m.placed k (top ++ stack) m.frame.temps m.realm)
      (m.placed s'.offset stack m.frame.temps m.realm) :=
  .part (hosts_placed hm _) h hp rfl

theorem reaches_of_leaves (h : Relation.ReflTransGen (Leaves a L) w w') (hc : c.IsBreak L) :
    (w.completing c).Reaches (w'.completing c) := by
  induction h with
  | refl => exact .refl _
  | tail _ hleaves ih => exact ih.trans (hleaves.reaches hc)

end Machine

namespace Lowering

variable {p : Program} {strict : Bool} {a : Artifact} {id : UnitId} {u : CodeUnit}

/-- Labels do what they say in every program that compiles.

Every unit is the code of a part of the program, and its exits answer to exactly those labels that
stand directly in front of the loops and `switch` statements of that part, the outermost first.

Behind a statement with the label `L` no label waits.  It ends normally, with the value there is, if
what is behind the label ends with a `break` to `L`, and otherwise it ends as that does.  It ends
normally also when the `break` comes out of a statement at any depth inside it in the same function:
the way leads either to the end of what is behind the label, or to the end of the body of the loop
or `switch` that the label is for. -/
theorem compile_labels (h : compile p strict = .ok a) (hu : a.unit? id = some u) :
    (∃ (fs : List FunctionDef) (source : Body),
      p.Stands fs source.part ∧ Compiles a u (source.gen u.strict) ∧ u.exits = source.exits) ∧
    ∀ {flag : Bool} {labels : List String} {L : String} {body : Stmt} {s s' : Stage},
      Laid a u (genStmt flag labels (.labeled L body)) s () s' →
        pendingAfter labels (.labeled L body) = [] ∧
        (∃ s₁, s'.offset = s₁.offset + 1 ∧
          Laid a u (genStmt flag (if body.takesLabel then labels ++ [L] else []) body) s () s₁ ∧
          ∀ w : Machine, w.Hosts a u → w.frame.next = s₁.offset →
            (∀ c, (w.completing c).step = .next ((w.goto s'.offset).completing
              (if c.kind = .break ∧ c.target = some L then { kind := .normal, value := c.value }
                else c))) ∧
            ∀ (w₀ : Machine) (v : Option Value), Relation.ReflTransGen (Leaves a L) w₀ w →
              (w₀.completing { kind := .break, value := v, target := some L }).Reaches
                ((w.goto s'.offset).completing { kind := .normal, value := v })) ∧
        ∀ {k : Nat} {inner : UnitId}, body.unlabeled.isBreakable = true →
          Starts u s s' k inner → ∀ w : Machine, w.Hosts a u → w.frame.next = k + 1 →
            ∀ (w₀ : Machine) (v : Option Value) (acc : Completion),
              Relation.ReflTransGen (Leaves a L) w₀ (w.completing acc) →
              (w₀.completing { kind := .break, value := v, target := some L }).Reaches
                ((w.goto s'.offset).completing { kind := .normal, value := v <|> acc.value }) := by
  refine ⟨?_, fun {flag labels L body s s'} hlaid => ⟨?_, ?_, ?_⟩⟩
  · obtain ⟨fs, source, hplaced⟩ := placed_of_unit h hu
    cases hplaced with
    | intro hunit hs hc hstrict =>
      cases hu.symm.trans hunit
      rw [← hstrict] at hc
      exact ⟨fs, source, hs, hc, exits_of_compiles hc⟩
  · exact pendingAfter_eq_nil (.labeled L body) (fun ht => Bool.noConfusion ht)
  · obtain ⟨s₁, h₁, hadds⟩ := laid_labeled hlaid
    refine ⟨s₁, hadds.offset, h₁, fun w hm hnext => ?_⟩
    have hstep := step_consumed hadds hm hnext
    refine ⟨hstep, fun w₀ v hw => ?_⟩
    have hbreak : Completion.IsBreak { kind := .break, value := v, target := some L } L :=
      ⟨rfl, rfl⟩
    have hlast := hstep { kind := .break, value := v, target := some L }
    rw [if_pos hbreak] at hlast
    exact (reaches_of_leaves hw hbreak).trans (reaches_of_step hlast)
  · intro k inner hs hk w hm hnext w₀ v acc hw
    have hbreak : Completion.IsBreak { kind := .break, value := v, target := some L } L :=
      ⟨rfl, rfl⟩
    obtain ⟨s₁, hbody, hadds⟩ := laid_labeled hlaid
    rw [if_pos (Stmt.takesLabel_of_unlabeled hs)] at hbody
    have htaken := reaches_taken hbreak hm acc w.frame.stack body hbody hs
      List.mem_concat_self (hk.before (still_adds hadds rfl))
    rw [← hnext] at htaken
    exact ((reaches_of_leaves hw hbreak).trans htaken).trans
      (reaches_consumed hadds hm (Completion.not_isBreak_merge _ acc L))

/-- `L: while (true) M: while (true) break L;` -/
def leavingLoops : Stmt :=
  .labeled "L" (.whileLoop (.boolean true)
    (.labeled "M" (.whileLoop (.boolean true) (.break (some "L")))))

theorem exits_leavingLoops :
    (compile { body := [leavingLoops] } false).map (fun a => a.units.toList.map CodeUnit.exits) =
      .ok [[.onBreak ["L"], .onContinue ["L"]], [.onBreak ["M"], .onContinue ["M"]], []] := by
  decide +kernel

/-- A `break` in the body of the inner loop goes through that loop and its label, and is taken by
the outer loop. -/
theorem compile_labels_leavingLoops :
    ∃ a u, compile { body := [leavingLoops] } false = .ok a ∧ a.entryUnit? = some u ∧
      (∃ (fs : List FunctionDef) (source : Body),
        Program.Stands { body := [leavingLoops] } fs source.part ∧
          Compiles a u (source.gen u.strict) ∧ u.exits = source.exits) ∧
      ∃ (w₀ w : Machine) (next : Nat), w.Hosts a u ∧ w.callers = [] ∧ w₀.callers.length = 2 ∧
        (w₀.completing (.breakTo (some "L"))).Reaches ((w.goto next).completing .normal) := by
  obtain ⟨a, hc, -⟩ := ok_of_map exits_leavingLoops
  obtain ⟨u, s, s', hu, hlaid⟩ := laid_statement hc
  obtain ⟨hunits, hlabels⟩ := compile_labels hc hu
  obtain ⟨-, ⟨s₁, hends, hloop, -⟩, htaken⟩ := hlabels hlaid
  refine ⟨a, u, hc, hu, hunits, ?_⟩
  obtain ⟨_, _, _, ⟨outer, -, -, b, b', hM, -, -, hsize, -⟩, hcode⟩ := loops_whileLoop hloop
  obtain ⟨k, _, hk, -⟩ := hcode.code
  obtain ⟨t, hinner, addsM⟩ := laid_labeled hM
  obtain ⟨_, _, _, ⟨inner, -⟩, hcode'⟩ := loops_whileLoop hinner
  obtain ⟨k', _, hk', -⟩ := hcode'.code
  obtain ⟨m, hm, hnext, hcallers⟩ : ∃ m : Machine, m.Hosts a u ∧ m.frame.next = k + 1 ∧
      m.callers = [] :=
    ⟨atOffset a u (k + 1), ⟨rfl, rfl, Array.size_replicate, rfl⟩, rfl, rfl⟩
  have hcompleting : (m.completing .normal).Hosts a u :=
    ⟨hm.artifact, hm.unit, hm.temps, hm.running⟩
  obtain ⟨m₁, hm₁, hstack, hnext₁, hcallers₁, hwhole⟩ : ∃ m₁ : Machine, m₁.Hosts a outer ∧
      m₁.frame.stack = [] ∧ m₁.frame.next = b'.offset ∧ m₁.callers.length = 1 ∧
      Leaves a "L" m₁ (m.completing .normal) :=
    ⟨_, hosts_atEndOf hcompleting outer, rfl, hsize.symm,
      congrArg (fun callers => callers.length + 1) hcallers,
      leaves_atEndOf hcompleting.running outer⟩
  -- Out of the body, the inner loop and its label.
  have hframe : Leaves a "L" (atEndOf (m₁.placed (k' + 1) [.completion .normal]
      m₁.frame.temps m₁.realm) inner) _ :=
    leaves_atEndOf (hosts_placed hm₁ _).running inner
  have hbody := leaves_placed hm₁ hinner
    (.body (L := "L") .normal rfl (by decide) hk'.toStarts) []
  have hafterM := leaves_placed hm₁ hM (.labeled (L := "L") (by decide)) []
  have hend : b'.offset - 1 = t.offset := by rw [addsM.offset]; rfl
  have hback : m₁.placed b'.offset [] m₁.frame.temps m₁.realm = m₁ := by
    rw [← hstack, ← hnext₁]
    rfl
  rw [hend, hback] at hafterM
  refine ⟨_, m, s'.offset, hm, hcallers, ?_, htaken rfl
    ⟨hk.code, hk.first, Nat.lt_trans hk.last (by omega)⟩ m hm hnext _ none .normal <|
    .head hframe <| .head hbody <| .head hafterM <| .single hwhole⟩
  exact congrArg (· + 1) hcallers₁

end Lowering

end TreeScript
