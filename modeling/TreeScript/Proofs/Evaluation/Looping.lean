import TreeScript.Proofs.Evaluation.Course
import TreeScript.Proofs.Lowering.Exits

/-!
# Loops

`while`, `do`-`while` and `for` are one loop with different parts around its body: what is done once
in front, the test before a pass, and what follows a pass.  `Loop.passes` tells how far a number of
passes comes, and the code of the loop takes that course for every number.
-/

namespace TreeScript

open Code Syntax Machine

/-! ## The parts of a loop -/

inductive Loop where
  | whileLoop (test : Expr)
  | doWhile (test : Expr)
  | forLoop (init : Option ForHead) (test update : Option Expr)

def Loop.stmt (body : Stmt) : Loop → Stmt
  | whileLoop test => .whileLoop test body
  | doWhile test => .doWhile body test
  | forLoop init test update => .forLoop init test update body

def initializersLinked (P : FunctionDef → FunctionInfo → Prop) : List Declarator → Links → Prop
  | [], _ => True
  | .mk _ init :: ds, links => elementLinked P init (links.part 0) ∧
    initializersLinked P ds (links.part 1)

def headLinked (P : FunctionDef → FunctionInfo → Prop) : Option ForHead → Links → Prop
  | none, _ => True
  | some (.declaration declarators), links => initializersLinked P declarators links
  | some (.expression e), links => e.Linked P links

def Loop.Linked (P : FunctionDef → FunctionInfo → Prop) : Loop → Links → Prop
  | whileLoop test, links | doWhile test, links => test.Linked P (links.part 1)
  | forLoop init test update, links => headLinked P init (links.part 0) ∧
    elementLinked P test (links.part 1) ∧ elementLinked P update (links.part 2)

section

variable (scene : Scene) (strict : Bool)

def evalInitializers : List Declarator → Links → Eval Unit
  | [], _ => return ()
  | .mk _ none :: ds, links => evalInitializers ds (links.part 1)
  | .mk name (some e) :: ds, links => do
    let v ← eval scene strict e (links.part 0)
    Eval.realm (Realm.assign scene.context.env name v strict)
    evalInitializers ds (links.part 1)

def evalEffect (e : Option Expr) (links : Links) : Eval Unit :=
  match e with
  | none => return ()
  | some e => do
    let _ ← eval scene strict e links
    return ()

def evalTest (test : Option Expr) (links : Links) : Eval Bool :=
  match test with
  | none => return true
  | some test => do
    let v ← eval scene strict test links
    return v.truthy

namespace Loop

/-- What is done once, before anything else. -/
def start (loop : Loop) (links : Links) : Eval Unit :=
  match loop with
  | whileLoop _ | doWhile _ => return ()
  | forLoop init .. =>
    match init with
    | none => return ()
    | some (.declaration declarators) => evalInitializers scene strict declarators (links.part 0)
    | some (.expression e) => evalEffect scene strict (some e) (links.part 0)

/-- What is done before a pass, and whether there is one. -/
def enters (loop : Loop) (links : Links) : Eval Bool :=
  match loop with
  | whileLoop test => evalTest scene strict (some test) (links.part 1)
  | doWhile _ => return true
  | forLoop _ test _ => evalTest scene strict test (links.part 1)

/-- What is done after a pass, and whether there may be another one. -/
def repeats (loop : Loop) (links : Links) : Eval Bool :=
  match loop with
  | whileLoop _ => return true
  | doWhile test => evalTest scene strict (some test) (links.part 1)
  | forLoop _ _ update => do
    evalEffect scene strict update (links.part 2)
    return true

end Loop

end

/-! ## The course -/

/-- The normal completion of a loop whose body ended with these completions: it has the last value
that one of them carries. -/
def Completion.settled (cs : List Completion) : Completion where
  kind := .normal
  value := (cs.filterMap (·.value)).getLast?

/-- How far a loop is.  The completions of its body are there in order. -/
inductive Progress where
  | going (cs : List Completion)
  | ended (cs : List Completion) (c : Completion)

namespace Loop

variable (loop : Loop) (results : Results) (scene : Scene) (strict : Bool) (links : Links)
  (labels : LabelSet) (body : UnitId)

def pass (cs : List Completion) : ExceptT Fault Course Progress := do
  if ← Course.eval (loop.enters scene strict links) then
    let c ← ExceptT.lift (Course.body results body scene.context)
    if c.breaksAt labels then return .ended (cs ++ [c]) (.settled (cs ++ [c]))
    else if c.isAbrupt && !c.continuesAt labels then return .ended (cs ++ [c]) c
    else if ← Course.eval (loop.repeats scene strict links) then return .going (cs ++ [c])
    else return .ended (cs ++ [c]) (.settled (cs ++ [c]))
  else return .ended cs (.settled cs)

/-- The first `n` passes, or as many as there are. -/
def passes : Nat → ExceptT Fault Course Progress
  | 0 => do
    Course.eval (loop.start scene strict links)
    return .going []
  | n + 1 => do
    match ← passes n with
    | .going cs => loop.pass results scene strict links labels body cs
    | .ended cs c => return .ended cs c

end Loop

/-! ## How often the body is run -/

/-- Whatever comes of a course, the visits that were made are as `Q` says. -/
def Course.Ensures {α : Type} (x : ExceptT Fault Course α)
    (Q : Except Fault α → List Visit → Prop) (state : Realm × List Visit) : Prop :=
  ∀ ⦃out r visits⦄, x state = some (out, r, visits) → Q out visits

namespace Course

variable {α β : Type} {Q : Except Fault α → List Visit → Prop}
  {Q' : Except Fault β → List Visit → Prop}

theorem Ensures.bind {x : ExceptT Fault Course α} {f : α → ExceptT Fault Course β}
    {state : Realm × List Visit} (hx : Ensures x Q state)
    (hf : ∀ y r visits, Q (.ok y) visits → Ensures (f y) Q' (r, visits))
    (herror : ∀ fault visits, Q (.error fault) visits → Q' (.error fault) visits) :
    Ensures (x >>= f) Q' state := by
  intro out r visits h
  obtain ⟨⟨y, r1, visits1⟩, hy, h⟩ := Option.bind_eq_some_iff.mp h
  cases y with
  | ok y => exact hf y r1 visits1 (hx hy) h
  | error fault =>
    cases h
    exact herror fault visits (hx hy)

theorem ensures_pure {x : α} {r : Realm} {visits : List Visit} (h : Q (.ok x) visits) :
    Ensures (pure x) Q (r, visits) := by
  intro out r' visits' hx
  cases hx
  exact h

theorem ensures_eval (x : Eval α) (r : Realm) (visits : List Visit) :
    Ensures (eval x) (fun _ visits' => visits' = visits) (r, visits) := by
  intro out r' visits' h
  obtain ⟨result, -, hresult⟩ := Option.map_eq_some_iff.mp h
  cases hresult
  rfl

theorem ensures_body (results : Results) (id : UnitId) (context : Context) (r : Realm)
    (visits : List Visit) :
    Ensures (ExceptT.lift (body results id context))
      (fun out visits' => out.isOk = true ∧ visits' = visits ++ [⟨id, context, r⟩])
      (r, visits) := by
  intro out r' visits' h
  obtain ⟨result, hbody, hout⟩ := Option.bind_eq_some_iff.mp h
  obtain ⟨_, -, hresult⟩ := Option.map_eq_some_iff.mp hbody
  cases hresult
  cases hout
  exact ⟨rfl, rfl⟩

end Course

/-- The visits are so many runs of one unit in one context. -/
def OnlyRuns (id : UnitId) (context : Context) (count : Nat) (visits : List Visit) : Prop :=
  visits.map (fun v => (v.unit, v.context)) = List.replicate count (id, context)

theorem OnlyRuns.append {id : UnitId} {context : Context} {count : Nat} {visits : List Visit}
    (h : OnlyRuns id context count visits) (r : Realm) :
    OnlyRuns id context (count + 1) (visits ++ [⟨id, context, r⟩]) := by
  unfold OnlyRuns at h ⊢
  rw [List.map_append, h, List.replicate_succ']
  rfl

/-- After `n` passes, or fewer if the loop has ended, the body was run once for each of its
completions, and nothing else was. -/
def BodyRuns (id : UnitId) (context : Context) (n : Nat) : Except Fault Progress → List Visit → Prop
  | .ok (.going cs), visits => cs.length = n ∧ OnlyRuns id context n visits
  | .ok (.ended cs _), visits => cs.length ≤ n ∧ OnlyRuns id context cs.length visits
  | .error _, visits => ∃ count, count ≤ n ∧ OnlyRuns id context count visits

namespace Loop

open Course

variable {loop : Loop} {results : Results} {scene : Scene} {strict : Bool} {links : Links}
  {labels : LabelSet} {body : UnitId} {r : Realm} {visits : List Visit}

theorem ensures_pass {cs : List Completion} (h : OnlyRuns body scene.context cs.length visits) :
    Ensures (loop.pass results scene strict links labels body cs)
      (BodyRuns body scene.context (cs.length + 1)) (r, visits) := by
  refine (ensures_eval _ r visits).bind (fun b r1 visits1 hv => ?_) fun _ _ hv =>
    ⟨_, Nat.le_succ _, hv ▸ h⟩
  cases hv
  cases b with
  | false => exact ensures_pure ⟨Nat.le_succ _, h⟩
  | true =>
    refine (ensures_body _ _ _ r1 visits).bind (fun c r2 visits2 hv => ?_) fun _ _ hv =>
      absurd hv.1 Bool.false_ne_true
    obtain ⟨-, rfl⟩ := hv
    have hlength : (cs ++ [c]).length = cs.length + 1 := List.length_append
    have hrun := h.append r1
    have hended (c' : Completion) :
        BodyRuns body scene.context (cs.length + 1) (.ok (.ended (cs ++ [c]) c'))
          (visits ++ [⟨body, scene.context, r1⟩]) :=
      ⟨Nat.le_of_eq hlength, hlength ▸ hrun⟩
    by_cases hbreak : c.breaksAt labels = true
    · rw [if_pos hbreak]
      exact ensures_pure (hended _)
    rw [if_neg hbreak]
    by_cases habrupt : (c.isAbrupt && !c.continuesAt labels) = true
    · rw [if_pos habrupt]
      exact ensures_pure (hended _)
    rw [if_neg habrupt]
    refine (ensures_eval _ r2 _).bind (fun b r3 visits3 hv => ?_) fun _ _ hv =>
      ⟨_, Nat.le_refl _, hv ▸ hrun⟩
    cases hv
    cases b with
    | false => exact ensures_pure (hended _)
    | true => exact ensures_pure ⟨hlength, hrun⟩

theorem ensures_passes (n : Nat) :
    Ensures (loop.passes results scene strict links labels body n)
      (BodyRuns body scene.context n) (r, []) := by
  induction n with
  | zero =>
    refine (ensures_eval _ r []).bind (fun _ r1 visits hv => ?_) fun _ _ hv =>
      ⟨0, Nat.le_refl _, hv ▸ rfl⟩
    cases hv
    exact ensures_pure ⟨rfl, rfl⟩
  | succ n ih =>
    refine ih.bind (fun p r1 visits hv => ?_) fun _ _ ⟨count, hle, hv⟩ =>
      ⟨count, Nat.le_succ_of_le hle, hv⟩
    cases p with
    | going cs =>
      obtain ⟨rfl, hv⟩ := hv
      exact ensures_pass hv
    | ended cs c => exact ensures_pure ⟨Nat.le_succ_of_le hv.1, hv.2⟩

end Loop

theorem Completion.merge_settled (c : Completion) (cs : List Completion) :
    c.merge (.settled cs) = .settled (cs ++ [c]) := by
  unfold merge settled
  cases hv : c.value with
  | none => simp [hv]
  | some v => simp [hv]

def Machine.AtLoop (m : Machine) (first top done : Nat) (p : Progress) (r : Realm) (m' : Machine) :
    Prop :=
  ∃ temps, Kept first m.frame.temps temps ∧
    match p with
    | .going cs => m' = m.placed top (.completion (.settled cs) :: m.frame.stack) temps r
    | .ended _ c => m' = m.placed done (.completion c :: m.frame.stack) temps r

/-! ## Code around the body -/

namespace Lowering

variable {a : Artifact} {u : CodeUnit} {s s' s1 : Stage} {strict : Bool} {P : Links → Prop}

abbrev MeansEffect (a : Artifact) (P : Links → Prop) (ev : Scene → Links → Eval Unit)
    (g : Gen Unit) : Prop :=
  Means a (fun _ => True) (fun _ => []) P ev g

theorem computes_skip :
    Computes a u s s (fun _ : Unit => True) (fun _ => []) fun _ => pure () :=
  turns_pure (t := fun _ => []) trivial

theorem means_skip : MeansEffect a (fun _ => True) (fun _ _ => pure ()) (pure ()) := by
  intro u s s' h
  obtain ⟨-, rfl⟩ := laid_pure h
  exact ⟨default, trivial, computes_skip⟩

theorem means_effect (e : Option Expr) :
    MeansEffect a (elementLinked (Implements a strict) e)
      (fun scene links => evalEffect scene strict e links) (forUpdate strict e) := by
  cases e with
  | none => exact means_skip
  | some e =>
    intro u s s' h
    obtain ⟨_, s1, h1, h2⟩ := laid_bind.mp h
    obtain ⟨l, hl, hc⟩ := means_genExpr strict e h1
    exact ⟨l, hl, hc.bind (laid_temps h1) fun v _ =>
      computes_skip.emit (laid_emit h2) rfl rfl (exec_pop rfl)⟩

theorem means_initializers (ds : List Declarator) :
    MeansEffect a (initializersLinked (Implements a strict) ds)
      (fun scene links => evalInitializers scene strict ds links) (genInitializers strict ds) := by
  induction ds with
  | nil => exact means_skip
  | cons d ds ih =>
    obtain ⟨name, _ | e⟩ := d
    · intro u s s' h
      obtain ⟨l, hl, hc⟩ := ih h
      exact ⟨.join [default, l], ⟨trivial, hl⟩, hc⟩
    · intro u s s' h
      rw [genInitializers_some] at h
      simp only [laid_bind] at h
      obtain ⟨_, s1, h1, i, s2, h2, _, s3, h3, _, s4, h4, h5⟩ := h
      obtain ⟨l, hl, hc⟩ := means_genExpr strict e h1
      obtain ⟨l', hl', hc'⟩ := ih h5
      obtain ⟨hi, k2⟩ := laid_binding h2
      exact ⟨.join [l, l'], ⟨hl, hl'⟩, hc.bind (laid_temps h1) fun v _ =>
        ((turns_write (t := .binding i) h3 (.binding hi)).bind (laid_temps h3) fun _ _ =>
          hc'.emit (laid_emit h4) rfl rfl (exec_pop rfl)).keeps k2⟩

theorem means_forInit (init : Option ForHead) (test update : Option Expr) :
    MeansEffect a (fun links => headLinked (Implements a strict) init (links.part 0))
      (fun scene links => (Loop.forLoop init test update).start scene strict links)
      (forInit strict init) := by
  obtain _ | declarators | e := init
  · exact means_skip
  · exact (means_initializers declarators).whole
  · exact (means_effect (some e)).whole

/-- The code from `start` on decides between two places as an evaluation does. -/
def Branches (a : Artifact) (u : CodeUnit) (first start yes no : Nat) (ev : Scene → Eval Bool) :
    Prop :=
  ∀ ⦃m : Machine⦄, m.Hosts a u → ∀ ⦃stack : List Slot⦄ ⦃temps : Array Value⦄ ⦃r : Realm⦄,
    temps.size = u.tempCount →
      m.RunsBy (Travels m.callers.length [])
        (fun b r' m' => ∃ temps', Kept first temps temps' ∧
          m' = m.placed (if b then yes else no) stack temps' r')
        (m.placed start stack temps r) (ev m.scene r)

theorem branches_always {first start no : Nat} :
    Branches a u first start start no fun _ => pure true :=
  fun _ _ _ temps _ _ => ⟨_, travels_refl _ _, temps, .refl _ _, rfl⟩

theorem means_condition (e : Expr) :
    Means a (fun _ => True) (fun b => [.value (.boolean b)]) (e.Linked (Implements a strict))
      (fun scene links => evalTest scene strict (some e) links)
      (condition (genExpr strict e)) := by
  intro u s s' h
  obtain ⟨_, s1, h1, h2⟩ := laid_bind.mp h
  obtain ⟨links, hlinks, hc⟩ := means_genExpr strict e h1
  refine ⟨links, hlinks, hc.bind (laid_temps h1) fun v _ => ?_⟩
  have harity : [v].length = Operation.toBoolean.arity := rfl
  exact (turns_pure (t := fun b => [.value (.boolean b)]) trivial).emit (laid_operate h2).2 rfl
    (hangs_operate [v] rfl harity) (exec_applied _ rfl harity _)

section

variable {ev : Scene → Eval Bool} {l : Label} {offset first : Nat}
  (hc : Computes a u s s1 (fun _ => True) (fun b => [.value (.boolean b)]) ev)
  (hl : u.offset? l = some offset) (hfirst : first ≤ s.temps)

include hc hl hfirst

theorem branches_jumpIfFalse (hjump : Adds u (.jumpIfFalse l) s1 s') :
    Branches a u first s.offset s'.offset offset ev := by
  intro m hm stack temps r ht
  rw [← bind_pure (ev m.scene)]
  refine hc hm ht fun b temps1 r1 _ k1 => ?_
  refine runs_jumpIfFalse hjump hm hl (fun hb => ?_) fun hb => ?_ <;>
    exact ⟨_, travels_refl _ _, temps1, k1.mono hfirst, by rw [hb]; rfl⟩

theorem branches_jumpIfTrue (hjump : Adds u (.jumpIfTrue l) s1 s') :
    Branches a u first s.offset offset s'.offset ev := by
  intro m hm stack temps r ht
  rw [← bind_pure (ev m.scene)]
  refine hc hm ht fun b temps1 r1 _ k1 => ?_
  refine runs_jumpIfTrue hjump hm hl (fun hb => ?_) fun hb => ?_ <;>
    exact ⟨_, travels_refl _ _, temps1, k1.mono hfirst, by rw [hb]; rfl⟩

end

/-! ## The body -/

/-- A unit of the artifact has the code of a statement that is the body of a loop. -/
def LoopBody (a : Artifact) (strict : Bool) (body : Stmt) (id : UnitId) : Prop :=
  ∃ u, a.unit? id = some u ∧ u.role = .body ∧ Compiles a u ((Body.statement body).gen strict)

/-- Where a loop goes when its body has ended, and the completion that it then has. -/
def dispatch (labels : LabelSet) (next done : Nat) (acc c : Completion) : Nat × Completion :=
  if c.breaksAt labels then (done, c.merge acc)
  else if c.isAbrupt && !c.continuesAt labels then (done, c)
  else (next, c.merge acc)

/-- The code from `start` on runs the body once and goes by its completion: on to `next` or out to
`done`. -/
def Iterates (a : Artifact) (u : CodeUnit) (labels : LabelSet) (id : UnitId)
    (start next done : Nat) : Prop :=
  ∀ ⦃m : Machine⦄, m.Hosts a u →
    ∀ ⦃acc : Completion⦄ ⦃stack : List Slot⦄ ⦃temps : Array Value⦄ ⦃r : Realm⦄
      ⦃visits : List Visit⦄,
      Travels m.callers.length visits m (m.placed start (.completion acc :: stack) temps r) →
      m.Pursues
        (fun c r' m' => m' = m.placed (dispatch labels next done acc c).1
          (.completion (dispatch labels next done acc c).2 :: stack) temps r')
        (Course.body (unitResult a) id m.context (r, visits))

set_option synthInstance.maxSize 512 in
theorem iterates_iteration {labels : LabelSet} {body : Stmt} {next done : Label}
    {nextOffset doneOffset : Nat} {x : Unit}
    (h : Laid a u (iteration labels (loopBody strict body) next done) s x s')
    (hnext : u.offset? next = some nextOffset) (hdone : u.offset? done = some doneOffset) :
    ∃ id, LoopBody a strict body id ∧ StartsOne u s s' s.offset id ∧
      Settles a u (s.offset + 1) (dispatch labels nextOffset doneOffset) ∧
      Iterates a u labels id s.offset nextOffset doneOffset := by
  simp only [iteration, laid_bind] at h
  obtain ⟨_, s1, h1, broken, s2, h2, continued, s3, h3, abrupt, s4, h4, _, s5, h5, _, s6, h6, _, s7,
    h7, _, s8, h8, _, s9, h9, _, s10, h10, _, s11, h11, _, s12, h12, _, s13, h13, _, s14, h14, _,
    s15, h15, h16⟩ := h
  obtain ⟨id, unit, hinvoke, hunit, hrole, hcompiles⟩ := laid_invoke h1
  obtain ⟨hcontinued, k8⟩ := laid_placed h8
  obtain ⟨hbroken, -⟩ := laid_placed h11
  obtain ⟨habrupt, -⟩ := laid_placed h14
  have hone := (((startsOne_adds hinvoke).cut h2).cut h3).cut h4
  have hone := (((hone.pass (laid_emit h5) rfl).pass (laid_emit h6) rfl).cut h7).cut h8
  have hone := (((((((hone.cut h9).cut h10).cut h11).cut h12).cut h13).cut h14).cut h15).cut h16
  have hsettles : Settles a u s1.offset (dispatch labels nextOffset doneOffset) := by
    intro m m0 hm acc c stack temps r visits hat
    unfold dispatch
    have k4 := ((laid_newLabel h2).trans (laid_newLabel h3)).trans (laid_newLabel h4)
    have hbreak := travels_branch (travels_keeps hat k4) (laid_emit h5) rfl rfl hm hbroken
      fun hl => exec_jumpIfBreaksHere hl rfl
    by_cases hb : c.breaksAt labels = true
    · rw [if_pos hb] at hbreak ⊢
      exact travels_jump (travels_merge hbreak (laid_emit h12) hm) (laid_emit h13) hm hdone
    rw [if_neg hb] at hbreak ⊢
    have hcontinue := travels_branch hbreak (laid_emit h6) rfl rfl hm hcontinued
      fun hl => exec_jumpIfContinuesHere hl rfl
    have hmerge (hat : Travels m.callers.length visits m0
        (m.placed s8.offset (.completion c :: .completion acc :: stack) temps r)) :=
      travels_jump (travels_merge hat (laid_emit h9) hm) (laid_emit h10) hm hnext
    by_cases hc : c.continuesAt labels = true
    · rw [if_pos hc] at hcontinue
      rw [if_neg (by simp [hc])]
      exact hmerge hcontinue
    rw [if_neg hc] at hcontinue
    have hjump := travels_branch hcontinue (laid_emit h7) rfl rfl hm habrupt
      fun hl => exec_jumpIfAbrupt hl rfl
    by_cases ha : c.isAbrupt = true
    · rw [if_pos ha] at hjump
      rw [if_pos (by simp [ha, hc])]
      exact travels_jump (travels_dropBelow hjump h15 hm) (laid_emit h16) hm hdone
    · rw [if_neg ha] at hjump
      rw [if_neg (by simp [ha])]
      exact hmerge (travels_keeps hjump k8)
  refine ⟨id, ⟨unit, hunit, hrole, hcompiles⟩, hone, hinvoke.offset ▸ hsettles,
    fun m hm acc stack temps r visits hat => ?_⟩
  refine (pursues_invoke rfl hat hinvoke hunit hm).onward fun c r' visits' m' hm' hq => ?_
  cases hq
  exact ⟨_, hsettles hm hm', rfl⟩

/-! ## Passes -/

/-- The code of a loop: the test at `top`, the body at `inner`, what follows a pass at `next`. -/
structure LoopCode (a : Artifact) (u : CodeUnit) (labels : LabelSet) (id : UnitId)
    (first top inner next done : Nat) (enters repeats : Scene → Eval Bool) : Prop where
  enters : Branches a u first top inner done enters
  body : Iterates a u labels id inner next done
  repeats : Branches a u first next top done repeats

section

variable {labels : LabelSet} {id : UnitId} {first top inner next done : Nat} {loop : Loop}
  {links : Links} {m : Machine}

theorem pursues_pass
    (hcode : LoopCode a u labels id first top inner next done
      (fun scene => loop.enters scene strict links) (fun scene => loop.repeats scene strict links))
    (hm : m.Hosts a u) {cs : List Completion} {r : Realm} {visits : List Visit} {m' : Machine}
    (htravels : Travels m.callers.length visits m m')
    (hat : m.AtLoop first top done (.going cs) r m') :
    m.Pursues (m.OrThrows (m.AtLoop first top done))
      (loop.pass (unitResult a) m.scene strict links labels id cs (r, visits)) := by
  obtain ⟨temps, hkept, rfl⟩ := hat
  have ht := hkept.size.trans hm.temps
  refine pursues_bind_orThrows (pursues_eval htravels (hcode.enters hm ht))
    fun b r1 visits1 m1 htravels1 hb => ?_
  obtain ⟨temps1, hkept1, rfl⟩ := hb
  have hkept1 := hkept.trans hkept1 (Nat.le_refl _)
  cases b with
  | false => exact ⟨_, htravels1, temps1, hkept1, rfl⟩
  | true =>
    refine pursues_bind_orThrows (pursues_lift (hcode.body hm htravels1))
      fun c r2 visits2 m2 htravels2 hc => ?_
    unfold dispatch at hc
    rw [Completion.merge_settled] at hc
    by_cases hbreak : c.breaksAt labels = true
    · rw [if_pos hbreak] at hc ⊢
      exact ⟨m2, htravels2, temps1, hkept1, hc⟩
    rw [if_neg hbreak] at hc ⊢
    by_cases habrupt : (c.isAbrupt && !c.continuesAt labels) = true
    · rw [if_pos habrupt] at hc ⊢
      exact ⟨m2, htravels2, temps1, hkept1, hc⟩
    rw [if_neg habrupt] at hc ⊢
    cases hc
    have ht1 := hkept1.size.trans hm.temps
    refine pursues_bind_orThrows (pursues_eval htravels2 (hcode.repeats hm ht1))
      fun b r3 visits3 m3 htravels3 hb => ?_
    obtain ⟨temps3, hkept3, rfl⟩ := hb
    have hkept3 := hkept1.trans hkept3 (Nat.le_refl _)
    cases b with
    | false | true => exact ⟨_, htravels3, temps3, hkept3, rfl⟩

theorem pursues_passes
    (hcode : LoopCode a u labels id first top inner next done
      (fun scene => loop.enters scene strict links) (fun scene => loop.repeats scene strict links))
    (hm : m.Hosts a u)
    (hstart : m.RunsBy (Travels m.callers.length [])
      (fun _ => m.AtLoop first top done (.going [])) m
      (loop.start m.scene strict links m.realm)) (n : Nat) :
    m.Pursues (m.OrThrows (m.AtLoop first top done))
      (loop.passes (unitResult a) m.scene strict links labels id n (m.realm, [])) := by
  induction n with
  | zero =>
    refine pursues_bind_orThrows (pursues_eval (travels_refl _ m) hstart)
      fun _ r visits m' htravels hat => ?_
    exact ⟨m', htravels, hat⟩
  | succ n ih =>
    refine pursues_bind_orThrows ih fun p r visits m' htravels hat => ?_
    cases p with
    | going cs => exact pursues_pass hcode hm htravels hat
    | ended cs c => exact ⟨m', htravels, hat⟩

end

/-! ## The three loops -/

/-- What the code of a loop does, with `top` as the place where a pass begins. -/
structure Loops (a : Artifact) (u : CodeUnit) (strict : Bool) (labels : LabelSet) (loop : Loop)
    (s s' : Stage) (links : Links) (id : UnitId) (top : Nat) : Prop where
  linked : loop.Linked (Implements a strict) links
  start : ∀ ⦃m : Machine⦄, m.Hosts a u → m.frame.next = s.offset →
    m.RunsBy (Travels m.callers.length [])
      (fun _ => m.AtLoop s.temps top s'.offset (.going [])) m
      (loop.start m.scene strict links m.realm)
  code : ∃ inner next, StartsOne u s s' inner id ∧
    Settles a u (inner + 1) (dispatch labels next s'.offset) ∧
    LoopCode a u labels id s.temps top inner next s'.offset
      (fun scene => loop.enters scene strict links) (fun scene => loop.repeats scene strict links)

theorem starts_loop {m : Machine} {s0 s2 : Stage} {done : Nat} {ev : Scene → Eval Unit}
    (hc : Computes a u s s1 (fun _ => True) (fun _ => []) ev) (hnormal : Adds u .normal s1 s2)
    (hkeeps : Keeps s0 s) (hm : m.Hosts a u) (hnext : m.frame.next = s0.offset) :
    m.RunsBy (Travels m.callers.length [])
      (fun _ => m.AtLoop s0.temps s2.offset done (.going [])) m (ev m.scene m.realm) := by
  have hstart : m = m.placed s.offset m.frame.stack m.frame.temps m.realm := by
    rw [hkeeps.offset, ← hnext]
    rfl
  have hruns : m.RunsBy (Travels m.callers.length [])
      (fun _ => m.AtLoop s0.temps s2.offset done (.going []))
      (m.placed s.offset m.frame.stack m.frame.temps m.realm)
      ((ev m.scene >>= pure) m.realm) := by
    refine hc hm hm.temps fun x temps r _ hkept => ?_
    refine runs_emit hnormal rfl rfl hm rfl ⟨_, travels_refl _ _, temps, ?_, rfl⟩
    rw [← hkeeps.temps]
    exact hkept
  rw [← hstart, bind_pure] at hruns
  exact hruns

section

variable {labels : List String} {body : Stmt}

theorem loops_whileLoop {test : Expr}
    (h : Laid a u (genStmt strict labels (.whileLoop test body)) s () s') :
    ∃ links id top, LoopBody a strict body id ∧
      Loops a u strict ⟨labels⟩ (.whileLoop test) s s' links id top := by
  simp only [genStmt_whileLoop, whileLoop, laid_bind] at h
  obtain ⟨again, s1, h1, done, s2, h2, _, s3, h3, _, s4, h4, _, s5, h5, _, s6, h6, _, s7, h7,
    h8⟩ := h
  have k2 := (laid_newLabel h1).trans (laid_newLabel h2)
  obtain ⟨hagain, k4⟩ := laid_placed h4
  obtain ⟨hdone, k8⟩ := laid_placed h8
  have htemps := (k4.temps.trans (laid_emit h3).temps).trans k2.temps
  obtain ⟨l, hl, hc⟩ := means_condition test h5
  obtain ⟨id, hid, hone, hsettles, hbody⟩ := iterates_iteration h7 hagain hdone
  have hone := ((((((hone.skip h6).skip h5).skip h4).skip h3).skip h2).skip h1).cut h8
  refine ⟨.join [default, l], id, s4.offset, hid, hl, fun m hm hnext => ?_, s6.offset, s4.offset,
    hone, hsettles, branches_jumpIfFalse hc hdone (Nat.le_of_eq htemps.symm) (laid_emit h6), hbody,
    branches_always⟩
  rw [k4.offset]
  exact starts_loop computes_skip (laid_emit h3) k2 hm hnext

theorem loops_doWhile {test : Expr}
    (h : Laid a u (genStmt strict labels (.doWhile body test)) s () s') :
    ∃ links id top, LoopBody a strict body id ∧
      Loops a u strict ⟨labels⟩ (.doWhile test) s s' links id top := by
  simp only [genStmt_doWhile, doWhileLoop, laid_bind] at h
  obtain ⟨top, s1, h1, again, s2, h2, done, s3, h3, _, s4, h4, _, s5, h5, _, s6, h6, _, s7, h7, _,
    s8, h8, _, s9, h9, h10⟩ := h
  have k3 := ((laid_newLabel h1).trans (laid_newLabel h2)).trans (laid_newLabel h3)
  obtain ⟨htop, k5⟩ := laid_placed h5
  obtain ⟨hagain, k7⟩ := laid_placed h7
  obtain ⟨hdone, k10⟩ := laid_placed h10
  have htemps := (k5.temps.trans (laid_emit h4).temps).trans k3.temps
  have htemps' : s.temps ≤ s7.temps := by
    rw [← htemps, k7.temps]
    exact laid_temps h6
  obtain ⟨l, hl, hc⟩ := means_condition test h8
  obtain ⟨id, hid, hone, hsettles, hbody⟩ := iterates_iteration h6 hagain hdone
  have hone := ((((hone.skip h5).skip h4).skip h3).skip h2).skip h1
  have hone := (((hone.cut h7).cut h8).cut h9).cut h10
  have hrepeats := branches_jumpIfTrue hc htop htemps' (laid_emit h9)
  rw [← k10.offset] at hrepeats
  refine ⟨.join [default, l], id, s5.offset, hid, hl, fun m hm hnext => ?_, s5.offset, s7.offset,
    hone, hsettles, branches_always, hbody, hrepeats⟩
  rw [k5.offset]
  exact starts_loop computes_skip (laid_emit h4) k3 hm hnext

theorem branches_forTest {test : Option Expr} {done : Label} {offset first : Nat} {x : Unit}
    (h : Laid a u (forTest done (test.map (genExpr strict))) s x s')
    (hdone : u.offset? done = some offset) (hfirst : first ≤ s.temps) :
    ∃ links, elementLinked (Implements a strict) test links ∧
      Branches a u first s.offset s'.offset offset
        fun scene => evalTest scene strict test links := by
  cases test with
  | none =>
    obtain ⟨-, rfl⟩ := laid_pure h
    exact ⟨default, trivial, branches_always⟩
  | some test =>
    obtain ⟨_, s1, h1, h2⟩ := laid_bind.mp h
    obtain ⟨l, hl, hc⟩ := means_condition test h1
    exact ⟨l, hl, branches_jumpIfFalse hc hdone hfirst (laid_emit h2)⟩

theorem branches_update {update : Option Expr} {again : Label} {offset first no : Nat} {x : Unit}
    (h : Laid a u (forUpdate strict update) s x s1) (hjump : Adds u (.jump again) s1 s')
    (hagain : u.offset? again = some offset) (hfirst : first ≤ s.temps) :
    ∃ links, elementLinked (Implements a strict) update links ∧
      Branches a u first s.offset offset no fun scene => do
        evalEffect scene strict update links
        return true := by
  obtain ⟨l, hl, hc⟩ := means_effect update h
  refine ⟨l, hl, fun m hm stack temps r ht => ?_⟩
  refine hc hm ht fun _ temps1 r1 _ k1 => runs_jump hjump hm hagain ?_
  exact ⟨_, travels_refl _ _, temps1, k1.mono hfirst, rfl⟩

theorem loops_forLoop {init : Option ForHead} {test update : Option Expr}
    (h : Laid a u (genStmt strict labels (.forLoop init test update body)) s () s') :
    ∃ links id top, LoopBody a strict body id ∧
      Loops a u strict ⟨labels⟩ (.forLoop init test update) s s' links id top := by
  simp only [genStmt_forLoop, forLoop_eq, laid_bind] at h
  obtain ⟨again, s1, h1, next, s2, h2, done, s3, h3, _, s4, h4, _, s5, h5, _, s6, h6, _, s7, h7, _,
    s8, h8, _, s9, h9, _, s10, h10, _, s11, h11, h12⟩ := h
  have k3 := ((laid_newLabel h1).trans (laid_newLabel h2)).trans (laid_newLabel h3)
  obtain ⟨hagain, k6⟩ := laid_placed h6
  obtain ⟨hnext, k9⟩ := laid_placed h9
  obtain ⟨hdone, k12⟩ := laid_placed h12
  have t3 := k3.temps
  have t4 := laid_temps h4
  have t5 := (laid_emit h5).temps
  have t6 := k6.temps
  have t7 := laid_temps h7
  have t8 := laid_temps h8
  have t9 := k9.temps
  have hfirst : s.temps ≤ s6.temps := by omega
  have hfirst' : s.temps ≤ s9.temps := by omega
  obtain ⟨l, hl, hinit⟩ := means_forInit init test update h4
  obtain ⟨l', hl', hc⟩ := branches_forTest h7 hdone hfirst
  obtain ⟨l'', hl'', hu⟩ := branches_update h10 (laid_emit h11) hagain hfirst'
  obtain ⟨id, hid, hone, hsettles, hbody⟩ := iterates_iteration h8 hnext hdone
  have hone := ((((((hone.skip h7).skip h6).skip h5).skip h4).skip h3).skip h2).skip h1
  have hone := (((hone.cut h9).cut h10).cut h11).cut h12
  refine ⟨.join [l.part 0, l', l''], id, s6.offset, hid, ⟨hl, hl', hl''⟩, fun m hm hnext => ?_,
    s7.offset, s9.offset, hone, hsettles, hc, hbody, hu⟩
  rw [k6.offset]
  exact starts_loop hinit (laid_emit h5) k3 hm hnext

end

theorem loops_of_laid {labels : List String} {loop : Loop} {body : Stmt}
    (h : Laid a u (genStmt strict labels (loop.stmt body)) s () s') :
    ∃ links id top, LoopBody a strict body id ∧
      Loops a u strict ⟨labels⟩ loop s s' links id top := by
  cases loop with
  | whileLoop test => exact loops_whileLoop h
  | doWhile test => exact loops_doWhile h
  | forLoop init test update => exact loops_forLoop h

/-- A loop takes its course, for every number of passes.  While it goes on it comes to the place
where a pass begins, with a normal completion that has the last value of its body.  When it has
ended it comes to the end of its code with its completion.  When a part around the body throws, the
frame ends with that throw.  In all these cases the loop has run its body once for each completion,
in the context of the statement, and no other unit.  Otherwise a unit or a function that is run has
no result. -/
theorem genStmt_loop_course {labels : List String} {loop : Loop} {body : Stmt}
    (h : Laid a u (genStmt strict labels (loop.stmt body)) s () s') :
    ∃ links id top, loop.Linked (Implements a strict) links ∧ LoopBody a strict body id ∧
      ∀ m : Machine, m.Hosts a u → m.frame.next = s.offset → ∀ n,
        match loop.passes (unitResult a) m.scene strict links ⟨labels⟩ id n (m.realm, []) with
        | some (.ok (.going cs), r, visits) =>
          (∃ temps, Kept s.temps m.frame.temps temps ∧ Travels m.callers.length visits m
            (m.placed top (.completion (.settled cs) :: m.frame.stack) temps r)) ∧
          cs.length = n ∧ OnlyRuns id m.context n visits
        | some (.ok (.ended cs c), r, visits) =>
          (∃ temps, Kept s.temps m.frame.temps temps ∧ Travels m.callers.length visits m
            (m.placed s'.offset (.completion c :: m.frame.stack) temps r)) ∧
          cs.length ≤ n ∧ OnlyRuns id m.context cs.length visits
        | some (.error fault, r, visits) =>
          (∃ m', Travels m.callers.length visits m m' ∧ m.Throws fault r m') ∧
          ∃ count, count ≤ n ∧ OnlyRuns id m.context count visits
        | none => ∃ visits m', Travels m.callers.length visits m m' ∧ m.Lost m' := by
  obtain ⟨links, id, top, hbody, hlinked, hstart, inner, next, -, -, hcode⟩ := loops_of_laid h
  refine ⟨links, id, top, hlinked, hbody, fun m hm hnext n => ?_⟩
  have hpursues := pursues_passes hcode hm (hstart hm hnext) n
  cases hout : loop.passes (unitResult a) m.scene strict links ⟨labels⟩ id n (m.realm, []) with
  | none =>
    rw [hout] at hpursues
    exact hpursues
  | some out =>
    have hruns := Loop.ensures_passes n hout
    rw [hout] at hpursues
    obtain ⟨fault | p, r, visits⟩ := out
    · exact ⟨hpursues, hruns⟩
    · obtain ⟨m', htravels, temps, hkept, hat⟩ := hpursues
      cases p with
      | going cs | ended cs c =>
        cases hat
        exact ⟨⟨temps, hkept, htravels⟩, hruns⟩

theorem passes_within_le (fuel : Nat) (a : Artifact) (loop : Loop) (scene : Scene) (strict : Bool)
    (links : Links) (labels : LabelSet) (id : UnitId) (n : Nat) :
    Course.Le (loop.passes (Course.within fuel a) scene strict links labels id n)
      (loop.passes (unitResult a) scene strict links labels id n) := by
  induction n with
  | zero => exact .refl _
  | succ n ih =>
    refine Course.Le.bind ih fun out => ?_
    obtain fault | cs | ⟨cs, c⟩ := out
    · exact .refl _
    · refine (Course.Le.refl _).bind fun b => ?_
      obtain fault | _ | _ := b
      · exact .refl _
      · exact .refl _
      · exact (Course.body_within_le fuel a _ _).lift.bind fun _ => .refl _
    · exact .refl _

/-- `for (more = true; ; more = false) { if (!more) break; "a" }`, without its body -/
def onceMore : Loop :=
  .forLoop (some (.expression (.assignment .assign (.identifier "more") (.boolean true)))) none
    (some (.assignment .assign (.identifier "more") (.boolean false)))

def breaking : Stmt :=
  .block [.ifElse (.unary .not (.identifier "more")) (.break none) none, .expression (.string "a")]

/-- The roles of the units of an artifact, and how two passes of a loop with its first body end: the
kind and the text of the completion, and the units that were run. -/
def twice (a : Artifact) : List Role × Option (CompletionKind × String × List UnitId) :=
  (roles a,
    match onceMore.passes (Course.within 30 a) ⟨default, .global false, fun _ _ _ => none⟩ false
        default ⟨[]⟩ 1 2 (.create 16 false, []) with
    | some (.ok (.ended _ c), r, visits) =>
      some (c.kind, r.toText c.valueOrUndefined, visits.map (·.unit))
    | _ => none)

theorem twice_onceMore :
    (compile { body := [onceMore.stmt breaking] } false).toOption.map twice =
      some ([.program, .body, .then], some (.normal, "a", [1, 1])) := by
  decide +kernel

/-- The second pass ends with a `break` that carries no value, and the value of the first one
stays. -/
theorem genStmt_loop_course_onceMore :
    ∃ a u s s', compile { body := [onceMore.stmt breaking] } false = .ok a ∧
      a.entryUnit? = some u ∧ Laid a u (genStmt false [] (onceMore.stmt breaking)) s () s' ∧
      ∃ c temps r visits, Travels 0 visits (atOffset a u s.offset)
          ((atOffset a u s.offset).placed s'.offset [.completion c] temps r) ∧
        c.kind = .normal ∧ r.toText c.valueOrUndefined = "a" ∧ visits.map (·.unit) = [1, 1] := by
  obtain ⟨a, hc, htwice⟩ := Option.map_eq_some_iff.mp twice_onceMore
  have hc := ok_of_toOption hc
  obtain ⟨hroles, hpasses⟩ := Prod.mk.inj htwice
  obtain ⟨u, s, s', hu, hlaid⟩ := laid_statement hc
  refine ⟨a, u, s, s', hc, hu, hlaid, ?_⟩
  obtain ⟨links, id, top, -, ⟨unit, hunit, hrole, -⟩, htravels⟩ := genStmt_loop_course hlaid
  cases id_of_role (i := 1) hroles (by decide) hunit (congrArg some hrole.symm)
  have htravels := htravels (atOffset a u s.offset) ⟨rfl, rfl, Array.size_replicate, rfl⟩ rfl 2
  have hle := passes_within_le 30 a onceMore (atOffset a u s.offset).scene false links ⟨[]⟩ 1 2
  -- The parts around the body call nothing and make no functions.
  have hscene : onceMore.passes (Course.within 30 a) (atOffset a u s.offset).scene false links
      ⟨[]⟩ 1 2 = onceMore.passes (Course.within 30 a) ⟨default, .global false, fun _ _ _ => none⟩
        false default ⟨[]⟩ 1 2 := rfl
  cases hout : onceMore.passes (Course.within 30 a) ⟨default, .global false, fun _ _ _ => none⟩
      false default ⟨[]⟩ 1 2 (.create 16 false, []) with
  | none =>
    rw [hout] at hpasses
    cases hpasses
  | some out =>
    have hresult : onceMore.passes (unitResult a) (atOffset a u s.offset).scene false links ⟨[]⟩ 1
        2 ((atOffset a u s.offset).realm, []) = some out := hle hout
    rw [hout] at hpasses
    rw [hresult] at htravels
    obtain ⟨fault | cs | ⟨cs, c⟩, r, visits⟩ := out
    · cases hpasses
    · cases hpasses
    · obtain ⟨hkind, hpasses⟩ := Prod.mk.inj (Option.some.inj hpasses)
      obtain ⟨htext, hvisits⟩ := Prod.mk.inj hpasses
      obtain ⟨⟨temps, -, htravels⟩, -⟩ := htravels
      exact ⟨c, temps, r, visits, htravels, hkind, htext, hvisits⟩

end Lowering

end TreeScript
