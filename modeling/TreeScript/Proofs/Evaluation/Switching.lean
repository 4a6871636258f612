import TreeScript.Proofs.Evaluation.Looping
import TreeScript.Proofs.Evaluation.Trying
import TreeScript.Proofs.Lowering.Pushes

/-!
# `switch` statements

A `switch` compares its subject with one test after the other until it has found the clause to begin
with, and then runs the bodies of the clauses from there on, each of which falls through to the
next.  `evalEntry` tells which clause is the first, `Course.fall` which bodies are run, and the code
of the statement takes that course.
-/

namespace TreeScript

open Code Syntax Machine

/-! ## The first clause -/

def lastDefault : List SwitchClause → Option Nat
  | [] => none
  | .mk test _ :: clauses =>
    ((lastDefault clauses).map (· + 1)).or (if test.isNone then some 0 else none)

def clausesLinked (P : FunctionDef → FunctionInfo → Prop) : List SwitchClause → Links → Prop
  | [], _ => True
  | .mk test _ :: clauses, links => elementLinked P test (links.part 0) ∧
    clausesLinked P clauses (links.part 1)

section

variable (scene : Scene) (strict : Bool)

/-- The first clause with a test that is strictly equal to the subject, with the clauses numbered
from `k` on.  The tests behind it are not evaluated. -/
def evalMatch (subject : Value) : List SwitchClause → Nat → Links → Eval (Option Nat)
  | [], _, _ => return none
  | .mk none _ :: clauses, k, links => evalMatch subject clauses (k + 1) (links.part 1)
  | .mk (some test) _ :: clauses, k, links => do
    let v ← eval scene strict test (links.part 0)
    if subject.strictEquals v then return some k
    else evalMatch subject clauses (k + 1) (links.part 1)

def evalEntry (discriminant : Expr) (clauses : List SwitchClause) (links : Links) :
    Eval (Option Nat) := do
  let subject ← eval scene strict discriminant (links.part 0)
  let matched ← evalMatch scene strict subject clauses 0 (links.part 1)
  return matched.or (lastDefault clauses)

end

/-! ## The course -/

/-- How far the bodies of clauses were run: these ended normally, and then perhaps one did not. -/
structure Fall where
  normal : List Completion
  abrupt : Option Completion

namespace Fall

def completion (labels : LabelSet) (fall : Fall) : Completion :=
  match fall.abrupt with
  | none => .settled fall.normal
  | some c => if c.breaksAt labels then .settled (fall.normal ++ [c]) else c

def count (fall : Fall) : Nat := fall.normal.length + fall.abrupt.toList.length

end Fall

namespace Course

variable (results : Results)

/-- Runs units in order until one of them ends abruptly. -/
def fall (context : Context) : List UnitId → List Completion → Course Fall
  | [], cs => return ⟨cs, none⟩
  | id :: ids, cs => do
    let c ← Course.body results id context
    if c.isAbrupt then return ⟨cs, some c⟩ else fall context ids (cs ++ [c])

/-- The units of the clauses from the first one on. -/
def fallen (units : List UnitId) (entry : Option Nat) : List UnitId := entry.elim [] units.drop

def switch (scene : Scene) (strict : Bool) (links : Links) (discriminant : Expr)
    (clauses : List SwitchClause) (units : List UnitId) :
    ExceptT Fault Course (Option Nat × Fall) := do
  let entry ← Course.eval (evalEntry scene strict discriminant clauses links)
  let fall ← ExceptT.lift (Course.fall results scene.context (fallen units entry) [])
  return (entry, fall)

end Course

def RunsAll (ids : List UnitId) (context : Context) (visits : List Visit) : Prop :=
  visits.map (fun v => (v.unit, v.context)) = ids.map (·, context)

theorem Course.fall_runs {results : Results} {context : Context} {ids ran : List UnitId}
    {cs : List Completion} {r r' : Realm} {visits visits' : List Visit} {fall : Fall}
    (hran : RunsAll ran context visits)
    (h : Course.fall results context ids cs (r, visits) = some (fall, r', visits')) :
    ∃ n, fall.count = cs.length + n ∧ RunsAll (ran ++ ids.take n) context visits' := by
  induction ids generalizing ran cs r visits with
  | nil =>
    cases h
    refine ⟨0, rfl, ?_⟩
    rw [List.take_nil, List.append_nil]
    exact hran
  | cons id ids ih =>
    obtain ⟨⟨c, r1, visits1⟩, hbody, h⟩ := Option.bind_eq_some_iff.mp h
    obtain ⟨_, -, hresult⟩ := Option.map_eq_some_iff.mp hbody
    cases hresult
    have hone : RunsAll (ran ++ [id]) context (visits ++ [⟨id, context, r⟩]) := by
      unfold RunsAll at hran ⊢
      rw [List.map_append, List.map_append, hran]
      rfl
    dsimp only at h
    split at h
    · cases h
      exact ⟨1, rfl, hone⟩
    · obtain ⟨n, hcount, hruns⟩ := ih hone h
      refine ⟨n + 1, ?_, ?_⟩
      · rw [hcount, List.length_append, List.length_singleton]
        omega
      · rw [List.append_assoc] at hruns
        exact hruns

def SwitchRuns (units : List UnitId) (context : Context) :
    Except Fault (Option Nat × Fall) → List Visit → Prop
  | .ok (entry, fall), visits =>
    RunsAll ((Course.fallen units entry).take fall.count) context visits
  | .error _, visits => visits = []

variable {x : Unit} {clauses : List SwitchClause} {first abrupt : Label}

theorem Course.switch_runs {results : Results} {scene : Scene} {strict : Bool} {links : Links}
    {discriminant : Expr} {units : List UnitId} {r : Realm} :
    Ensures (Course.switch results scene strict links discriminant clauses units)
      (SwitchRuns units scene.context) (r, []) := by
  refine (ensures_eval _ r []).bind (fun entry r1 visits hv => ?_) fun _ _ hv => hv
  cases hv
  intro out r' visits h
  obtain ⟨⟨fall, r2, visits2⟩, hfall, h⟩ := Option.bind_eq_some_iff.mp h
  obtain ⟨⟨fall', r3, visits3⟩, hfall', hlift⟩ := Option.bind_eq_some_iff.mp hfall
  cases hlift
  cases h
  have hnone : RunsAll [] scene.context [] := rfl
  obtain ⟨n, hcount, hruns⟩ := Course.fall_runs hnone hfall'
  rw [List.length_nil, Nat.zero_add] at hcount
  subst hcount
  exact hruns

def Machine.AtEntry (m : Machine) (first count done : Nat) (places : Nat → Nat)
    (entry : Option Nat) (r : Realm) (m' : Machine) : Prop :=
  (∀ i ∈ entry, i < count) ∧ ∃ temps, Kept first m.frame.temps temps ∧
    m' = m.placed (entry.elim done places) (.completion .normal :: m.frame.stack) temps r

namespace Lowering

variable {a : Artifact} {u : CodeUnit} {s s' : Stage} {strict : Bool}

/-! ## Tests -/

theorem lastDefault_map (clauses : List SwitchClause) (test : Option Expr) (body : List Stmt)
    (clause : Label) (default : Option Label) :
    ((lastDefault (.mk test body :: clauses)).map (clause + ·)).or default =
      ((lastDefault clauses).map (clause + 1 + ·)).or
        (if test.isNone then some clause else default) := by
  show ((((lastDefault clauses).map (· + 1)).or _).map (clause + ·)).or default = _
  cases lastDefault clauses with
  | some i => exact congrArg some (Nat.add_right_comm clause i 1)
  | none => cases test <;> rfl

/-- The code of the tests from `s` to `s'` leads to the clause that matches, which is at `places`,
or to its end. -/
def Chooses (a : Artifact) (u : CodeUnit) (strict : Bool) (s s' : Stage) (subject : Nat)
    (clauses : List SwitchClause) (k : Nat) (places : Nat → Nat) (links : Links) : Prop :=
  ∀ ⦃m : Machine⦄, m.Hosts a u →
    ∀ ⦃stack : List Slot⦄ ⦃temps : Array Value⦄ ⦃r : Realm⦄, temps.size = u.tempCount →
    ∀ ⦃β : Type⦄ ⦃Q : β → Realm → Machine → Prop⦄ ⦃f : Option Nat → Eval β⦄,
      (∀ matched temps' r', (∀ i ∈ matched, i < k + clauses.length) → Kept s.temps temps temps' →
        m.RunsBy (Travels m.callers.length []) Q
          (m.placed (matched.elim s'.offset places) stack temps' r') (f matched r')) →
      m.RunsBy (Travels m.callers.length []) Q (m.placed s.offset stack temps r)
        ((evalMatch m.scene strict (temps.getD subject .undefined) clauses k links >>= f) r)

theorem chooses_genTests {subject k : Nat} {places : Nat → Nat} (clauses : List SwitchClause)
    (hplaces : ∀ i, k ≤ i → i < k + clauses.length → u.offset? (first + i) = some (places i))
    {default default' : Option Label} (hsubject : subject < s.temps)
    (h : Laid a u (genTests strict subject clauses (first + k) default) s default' s') :
    default' = ((lastDefault clauses).map (first + k + ·)).or default ∧
      ∃ links, clausesLinked (Implements a strict) clauses links ∧
        Chooses a u strict s s' subject clauses k places links := by
  induction clauses generalizing k s default with
  | nil =>
    obtain ⟨rfl, rfl⟩ := laid_pure h
    refine ⟨rfl, Inhabited.default, trivial, fun m hm stack temps r ht β Q f hf => ?_⟩
    unfold evalMatch
    exact hf none temps r nofun (.refl _ _)
  | cons clause clauses ih =>
    have hrest (i : Nat) (hlo : k + 1 ≤ i) (hhi : i < k + 1 + clauses.length) :
        u.offset? (first + i) = some (places i) := by
      refine hplaces i (by omega) ?_
      rw [List.length_cons]
      omega
    have hbound {matched : Option Nat} (h : ∀ i ∈ matched, i < k + 1 + clauses.length) :
        ∀ i ∈ matched, i < k + (clause :: clauses).length := by
      intro i hi
      rw [List.length_cons]
      have := h i hi
      omega
    obtain ⟨_ | test, body⟩ := clause
    · obtain ⟨hdefault, links, hlinks, hchooses⟩ := ih (k := k + 1) hrest hsubject h
      refine ⟨hdefault.trans (lastDefault_map clauses none body (first + k) default).symm,
        .join [Inhabited.default, links], ⟨trivial, hlinks⟩, ?_⟩
      intro m hm stack temps r ht β Q f hf
      exact hchooses hm ht fun matched temps' r' hin => hf matched temps' r' (hbound hin)
    · simp only [genTests_some, caseTest, laid_bind] at h
      obtain ⟨_, s4, ⟨_, s1, h1, _, s2, h2, _, s3, h3, h4⟩, h5⟩ := h
      obtain ⟨i, ho, hload⟩ := laid_load h1
      obtain ⟨l, hl, hc⟩ := means_genExpr strict test h2
      have t1 := hload.temps
      have t2 := laid_temps h2
      have t3 := (laid_operate h3).2.temps
      have t4 := (laid_emit h4).temps
      have hsubject' : subject < s4.temps := by omega
      obtain ⟨hdefault, links, hlinks, hchooses⟩ := ih (k := k + 1) hrest hsubject' h5
      refine ⟨hdefault.trans (lastDefault_map clauses (some test) body (first + k) default).symm,
        .join [l, links], ⟨hl, hlinks⟩, ?_⟩
      intro m hm stack temps r ht β Q f hf
      have hplace := hplaces k (Nat.le_refl _) (by rw [List.length_cons]; omega)
      unfold evalMatch
      rw [bind_assoc]
      refine runs_loadTemp h1 hm (hc hm ht fun v temps1 r1 _ k1 => ?_)
      have hsame : temps1.getD subject .undefined = temps.getD subject .undefined :=
        k1.getD_eq (by omega) _
      refine runs_applied (v := .boolean ((temps.getD subject .undefined).strictEquals v))
        [temps.getD subject .undefined, v] h3 rfl rfl rfl hm rfl ?_
      refine runs_jumpIfTrue (laid_emit h4) hm hplace (fun heq => ?_) fun hne => ?_
      · rw [if_pos heq, pure_bind]
        refine hf (some k) temps1 r1 (fun i hi => ?_) (k1.mono (by omega))
        cases hi
        rw [List.length_cons]
        omega
      · rw [if_neg (by rw [hne]; exact Bool.false_ne_true), ← hsame]
        refine hchooses hm (k1.size.trans ht) fun matched temps2 r2 hin k2 => ?_
        exact hf matched temps2 r2 (hbound hin) ((k1.mono (by omega)).trans k2 (by omega))

/-! ## Bodies -/

/-- The units have the code of the bodies of the clauses, one each. -/
def ClauseUnits (a : Artifact) (strict : Bool) : List SwitchClause → List UnitId → Prop
  | [], [] => True
  | .mk test body :: clauses, id :: ids =>
    UnitOf a (if test.isNone then .default else .case) strict body id ∧
      ClauseUnits a strict clauses ids
  | _, _ => False

def fellTo (m : Machine) (abrupt done : Nat) (stack : List Slot) (temps : Array Value) (fall : Fall)
    (r : Realm) : Machine :=
  match fall.abrupt with
  | none => m.placed done (.completion (.settled fall.normal) :: stack) temps r
  | some c => m.placed abrupt (.completion c :: .completion (.settled fall.normal) :: stack) temps r

def FallsOn (a : Artifact) (u : CodeUnit) (abrupt done : Nat) (ids : List UnitId) (start : Nat) :
    Prop :=
  ∀ ⦃m : Machine⦄, m.Hosts a u →
    ∀ ⦃cs : List Completion⦄ ⦃stack : List Slot⦄ ⦃temps : Array Value⦄ ⦃r : Realm⦄
      ⦃visits : List Visit⦄,
      Travels m.callers.length visits m
        (m.placed start (.completion (.settled cs) :: stack) temps r) →
      m.Pursues (fun fall r' m' => m' = fellTo m abrupt done stack temps fall r')
        (Course.fall (unitResult a) m.context ids cs (r, visits))

theorem fallsOn_caseBody {clause : Label} {abruptOffset done : Nat} {ids : List UnitId}
    {role : Role} {body : List Stmt}
    (h : Laid a u (caseBody clause abrupt (invoke role strict ((Body.statements body).gen strict)))
      s x s') (habrupt : u.offset? abrupt = some abruptOffset)
    (hrest : FallsOn a u abruptOffset done ids s'.offset) :
    u.offset? clause = some s.offset ∧ ∃ id, UnitOf a role strict body id ∧
      FallsOn a u abruptOffset done (id :: ids) s.offset := by
  simp only [caseBody, laid_bind] at h
  obtain ⟨_, s1, h1, _, s2, h2, _, s3, h3, h4⟩ := h
  obtain ⟨hclause, k1⟩ := laid_place h1
  obtain ⟨id, unit, hinvoke, hunit, hrole, hcompiles⟩ := laid_invoke h2
  refine ⟨hclause, id, ⟨unit, hunit, hrole, hcompiles⟩, ?_⟩
  intro m hm cs stack temps r visits hat
  refine pursues_bind (pursues_invoke rfl (travels_keeps hat k1) hinvoke hunit hm)
    fun c r' visits' m' hm' hq => ?_
  cases hq
  have hjump := travels_branch hm' (laid_emit h3) rfl rfl hm habrupt
    fun hl => exec_jumpIfAbrupt hl rfl
  by_cases hc : c.isAbrupt = true
  · rw [if_pos hc] at hjump ⊢
    exact ⟨_, hjump, rfl⟩
  · rw [if_neg hc] at hjump ⊢
    have hmerge := travels_merge hjump (laid_emit h4) hm
    rw [Completion.merge_settled] at hmerge
    exact hrest hm hmerge

theorem fallsOn_genClauses {abruptOffset k : Nat} (clauses : List SwitchClause)
    (habrupt : u.offset? abrupt = some abruptOffset)
    (h : Laid a u (genClauses strict clauses abrupt (first + k)) s x s') :
    ∃ ids, ClauseUnits a strict clauses ids ∧
      FallsOn a u abruptOffset s'.offset ids s.offset ∧
      ∀ i, i < clauses.length → ∃ place, u.offset? (first + (k + i)) = some place ∧
        FallsOn a u abruptOffset s'.offset (ids.drop i) place := by
  induction clauses generalizing k s with
  | nil =>
    obtain ⟨-, rfl⟩ := laid_pure h
    exact ⟨[], trivial, fun m hm cs stack temps r visits hat => ⟨_, hat, rfl⟩,
      fun i hi => absurd hi (Nat.not_lt_zero i)⟩
  | cons clause clauses ih =>
    obtain ⟨test, body⟩ := clause
    obtain ⟨_, s1, h1, h2⟩ := laid_bind.mp h
    obtain ⟨ids, hids, hfalls, hplaces⟩ := ih (k := k + 1) h2
    obtain ⟨hclause, id, hid, hfall⟩ := fallsOn_caseBody h1 habrupt hfalls
    refine ⟨id :: ids, ⟨hid, hids⟩, hfall, fun i hi => ?_⟩
    cases i with
    | zero => exact ⟨s.offset, hclause, hfall⟩
    | succ i =>
      obtain ⟨place, hplace, hfall⟩ := hplaces i (Nat.lt_of_succ_lt_succ hi)
      refine ⟨place, ?_, hfall⟩
      rw [← hplace, Nat.add_right_comm k 1 i, Nat.add_assoc k i 1]

theorem travels_endSwitch {labels : LabelSet} {broken done : Label}
    (h : Laid a u (endSwitch labels abrupt broken done) s x s') :
    u.offset? abrupt = some s.offset ∧ u.offset? done = some s'.offset ∧
      Settles a u s.offset
        fun acc c => (s'.offset, if c.breaksAt labels then c.merge acc else c) := by
  simp only [endSwitch, laid_bind] at h
  obtain ⟨_, s1, h1, _, s2, h2, _, s3, h3, _, s4, h4, _, s5, h5, _, s6, h6, h7⟩ := h
  obtain ⟨habrupt, k1⟩ := laid_place h1
  obtain ⟨hbroken, -⟩ := laid_placed h5
  obtain ⟨hdone, k7⟩ := laid_placed h7
  refine ⟨habrupt, hdone, fun m m0 hm acc c stack temps r visits hat => ?_⟩
  dsimp only
  have hjump := travels_branch (travels_keeps hat k1) (laid_emit h2) rfl rfl hm hbroken
    fun hl => exec_jumpIfBreaksHere hl rfl
  by_cases hb : c.breaksAt labels = true
  · rw [if_pos hb] at hjump ⊢
    exact travels_keeps (travels_merge hjump (laid_emit h6) hm) k7
  · rw [if_neg hb] at hjump ⊢
    exact travels_jump (travels_dropBelow hjump h3 hm) (laid_emit h4) hm hdone

/-! ## The statement -/

theorem lastDefault_lt :
    ∀ i ∈ lastDefault clauses, i < clauses.length := by
  induction clauses with
  | nil => nofun
  | cons clause clauses ih =>
    obtain ⟨test, body⟩ := clause
    intro i hi
    have hi : ((lastDefault clauses).map (· + 1)).or (if test.isNone then some 0 else none) =
        some i := hi
    cases hd : lastDefault clauses with
    | some j =>
      rw [hd] at hi
      cases hi
      exact Nat.succ_lt_succ (ih j hd)
    | none =>
      rw [hd] at hi
      cases test with
      | some e => cases hi
      | none =>
        cases hi
        exact Nat.succ_pos _

theorem runs_entry {discriminant : Expr} {done : Label} {done' : Nat} {places : Nat → Nat}
    {default : Option Label} {s1 s2 s3 s4 s5 : Stage}
    (h1 : Laid a u (genExpr strict discriminant) s x s1)
    (h2 : Adds u (.storeTemp (s.temps - 1)) s1 s2) (h3 : Adds u .normal s2 s3)
    (h4 : Laid a u (genTests strict (s.temps - 1) clauses first none) s3 default s4)
    (h5 : Adds u (.jump (default.getD done)) s4 s5) (htemps : 0 < s.temps)
    (hplaces : ∀ i, i < clauses.length → u.offset? (first + i) = some (places i))
    (hdone : u.offset? done = some done') :
    ∃ links, discriminant.Linked (Implements a strict) (links.part 0) ∧
      clausesLinked (Implements a strict) clauses (links.part 1) ∧
      ∀ ⦃m : Machine⦄, m.Hosts a u → m.frame.next = s.offset →
        m.RunsBy (Travels m.callers.length [])
          (m.AtEntry (s.temps - 1) clauses.length done' places) m
          (evalEntry m.scene strict discriminant clauses links m.realm) := by
  obtain ⟨l, hl, hc⟩ := means_genExpr strict discriminant h1
  have t1 := laid_temps h1
  have t2 := h2.temps
  have t3 := h3.temps
  have hbound := h1.within.temps
  obtain ⟨hdefault, links, hlinks, hchooses⟩ := chooses_genTests (k := 0) clauses
    (fun i _ hi => hplaces i (by omega)) (by omega) h4
  refine ⟨.join [l, links], hl, hlinks, fun m hm hnext => ?_⟩
  have hstart : m = m.placed s.offset m.frame.stack m.frame.temps m.realm := by
    rw [← hnext]
    rfl
  have hruns : m.RunsBy (Travels m.callers.length [])
      (m.AtEntry (s.temps - 1) clauses.length done' places)
      (m.placed s.offset m.frame.stack m.frame.temps m.realm)
      (evalEntry m.scene strict discriminant clauses (.join [l, links]) m.realm) := by
    refine hc hm hm.temps fun v temps r _ k1 => ?_
    have hsize := k1.size.trans hm.temps
    refine runs_storeTemp h2 hm (by omega) (runs_emit h3 rfl rfl hm rfl ?_)
    -- From here on the temporary holds the subject.
    have hsubject : (temps.setIfInBounds (s.temps - 1) v).getD (s.temps - 1) .undefined = v := by
      rw [Array.getD_eq_getD_getElem?, Array.getElem?_setIfInBounds_self_of_lt (by omega)]
      rfl
    have hkept := (k1.mono (Nat.sub_le _ 1)).trans
      (kept_setIfInBounds (Nat.le_refl _) temps v) (Nat.le_refl _)
    have hmatch := @hchooses m hm (.completion .normal :: m.frame.stack) _ r
      (hkept.size.trans hm.temps) _ (m.AtEntry (s.temps - 1) clauses.length done' places)
      (fun matched => pure (matched.or (lastDefault clauses))) fun matched temps' r' hin k2 => ?_
    · rw [hsubject] at hmatch
      exact hmatch
    have hkept' := hkept.trans k2 (by omega)
    cases matched with
    | some i =>
      exact ⟨_, travels_refl _ _, fun j hj => by have := hin j hj; omega, temps', hkept', rfl⟩
    | none =>
      have hplace : u.offset? (default.getD done) =
          some ((lastDefault clauses).elim done' places) := by
        rw [hdefault]
        cases hd : lastDefault clauses with
        | none => exact hdone
        | some i => exact hplaces i (lastDefault_lt i hd)
      exact runs_jump h5 hm hplace ⟨_, travels_refl _ _, lastDefault_lt, temps', hkept', rfl⟩
  rw [← hstart] at hruns
  exact hruns

set_option synthInstance.maxSize 512 in
/-- A `switch` takes its course, in any unit, environment and realm and over any stack.  The subject
is evaluated once, then the tests in order up to the first that is strictly equal to it.  The bodies
from that clause on, or else from the last default on, are run in order and once each, until one
ends abruptly.  The statement then ends as `Fall.completion` tells: a `break` that is meant for it
ends it normally, with the last value that a body carries, and every other abrupt completion is its
own.  When the subject or a test throws, no body was run and the frame ends with that throw.
Otherwise a unit or a function that is run has no result. -/
theorem genStmt_switch_course {labels : List String} {discriminant : Expr}
    {clauses : List SwitchClause}
    (h : Laid a u (genStmt strict labels (.switch discriminant clauses)) s () s') :
    ∃ links units, discriminant.Linked (Implements a strict) (links.part 0) ∧
      clausesLinked (Implements a strict) clauses (links.part 1) ∧
      ClauseUnits a strict clauses units ∧
      ∀ m : Machine, m.Hosts a u → m.frame.next = s.offset →
        match Course.switch (unitResult a) m.scene strict links discriminant clauses units
          (m.realm, []) with
        | some (.ok (entry, fall), r, visits) =>
          (∃ temps, Kept s.temps m.frame.temps temps ∧ Travels m.callers.length visits m
            (m.placed s'.offset (.completion (fall.completion ⟨labels⟩) :: m.frame.stack)
              temps r)) ∧
          RunsAll ((Course.fallen units entry).take fall.count) m.context visits
        | some (.error fault, r, visits) =>
          visits = [] ∧ ∃ m', Travels m.callers.length [] m m' ∧ m.Throws fault r m'
        | none => ∃ visits m', Travels m.callers.length visits m m' ∧ m.Lost m' := by
  simp only [genStmt_switch, switchClauses_eq, laid_bind] at h
  obtain ⟨abrupt, s₁, h₁, broken, s₂, h₂, done, s₃, h₃, first, s₄, h₄, subject, s₅, h₅, _, s₆, h₆,
    _, s₇, h₇, _, s₈, h₈, default, s₉, h₉, _, s₁₀, h₁₀, _, s₁₁, h₁₁, _, s₁₂, h₁₂, h₁₃⟩ := h
  have k₄ := (((laid_newLabel h₁).trans (laid_newLabel h₂)).trans (laid_newLabel h₃)).trans
    (laid_newLabels h₄)
  obtain ⟨rfl, t₅, o₅, -⟩ := laid_allocate h₅
  obtain ⟨habrupt, hdone, hends⟩ := travels_endSwitch h₁₃
  obtain ⟨units, hunits, -, hfalls⟩ := fallsOn_genClauses (k := 0) clauses habrupt h₁₁
  have hplaces (i : Nat) (hi : i < clauses.length) :
      u.offset? (first + i) = some ((u.offset? (first + i)).getD 0) ∧
        FallsOn a u s₁₂.offset s₁₁.offset (units.drop i) ((u.offset? (first + i)).getD 0) := by
    obtain ⟨place, hplace, hfall⟩ := hfalls i hi
    rw [Nat.zero_add] at hplace
    rw [hplace]
    exact ⟨rfl, hfall⟩
  have hsubject : s₄.temps = s₅.temps - 1 := by omega
  rw [hsubject] at h₇ h₉
  obtain ⟨links, hdiscriminant, hclauses, hentry⟩ := runs_entry h₆ (laid_emit h₇) (laid_emit h₈) h₉
    (laid_emit h₁₀) (by omega) (fun i hi => (hplaces i hi).1) hdone
  refine ⟨links, units, hdiscriminant, hclauses, hunits, fun m hm hnext => ?_⟩
  have hpursues : m.Pursues (m.OrThrows fun out r m' => ∃ temps, Kept s.temps m.frame.temps temps ∧
        m' = m.placed s'.offset (.completion (out.2.completion ⟨labels⟩) :: m.frame.stack) temps r)
      (Course.switch (unitResult a) m.scene strict links discriminant clauses units
        (m.realm, [])) := by
    have hbegin := hentry hm (hnext.trans (k₄.offset.symm.trans o₅.symm))
    refine pursues_bind_orThrows (pursues_eval (travels_refl _ m) hbegin)
      fun entry r visits m₁ htravels hat => ?_
    obtain ⟨hin, temps, hkept, rfl⟩ := hat
    have hkept : Kept s.temps m.frame.temps temps :=
      hkept.mono (Nat.le_of_eq (k₄.temps.symm.trans hsubject))
    cases entry with
    | none => exact ⟨_, htravels, temps, hkept, rfl⟩
    | some i =>
      have hfall := @(hplaces i (hin i rfl)).2 m hm [] _ _ _ _ htravels
      refine pursues_bind_orThrows (pursues_lift hfall) fun fall r' visits' m₂ htravels₂ hq => ?_
      cases hq
      refine ⟨_, ?_, temps, hkept, rfl⟩
      obtain ⟨cs, _ | c⟩ := fall
      · exact travels_jump htravels₂ (laid_emit h₁₂) hm hdone
      · have hended := hends hm htravels₂
        dsimp only at hended
        rw [Completion.merge_settled] at hended
        exact hended
  cases hout : Course.switch (unitResult a) m.scene strict links discriminant clauses units
      (m.realm, []) with
  | none =>
    rw [hout] at hpursues
    exact hpursues
  | some out =>
    have hruns := Course.switch_runs hout
    rw [hout] at hpursues
    obtain ⟨fault | ⟨entry, fall⟩, r, visits⟩ := out
    · cases hruns
      exact ⟨rfl, hpursues⟩
    · obtain ⟨m', htravels, temps, hkept, rfl⟩ := hpursues
      exact ⟨⟨temps, hkept, htravels⟩, hruns⟩

theorem fall_within_le (fuel : Nat) (a : Artifact) (context : Context) (ids : List UnitId)
    (cs : List Completion) :
    (Course.fall (Course.within fuel a) context ids cs).Le
      (Course.fall (unitResult a) context ids cs) := by
  induction ids generalizing cs with
  | nil => exact .refl _
  | cons id ids ih =>
    refine (Course.body_within_le fuel a _ _).bind fun c => ?_
    split
    · exact .refl _
    · exact ih _

theorem switch_within_le (fuel : Nat) (a : Artifact) (scene : Scene) (strict : Bool) (links : Links)
    (discriminant : Expr) (clauses : List SwitchClause) (units : List UnitId) :
    Course.Le (Course.switch (Course.within fuel a) scene strict links discriminant clauses units)
      (Course.switch (unitResult a) scene strict links discriminant clauses units) := by
  refine (Course.Le.refl _).bind fun entry => ?_
  cases entry with
  | error fault => exact .refl _
  | ok entry => exact (fall_within_le fuel a _ _ _).lift.bind fun _ => .refl _

/-- `default: "d"` and `case "b": "e"; break` -/
def defaultFirst : List SwitchClause :=
  [.mk none [.expression (.string "d")],
    .mk (some (.string "b")) [.expression (.string "e"), .break none]]

/-- The roles of the units of an artifact, and how a `switch` on `"a"` with these clauses ends: the
kind and the text of its completion, and the units that were run. -/
def mismatched (a : Artifact) : List Role × Option (CompletionKind × String × List UnitId) :=
  (roles a,
    match Course.switch (Course.within 30 a) ⟨default, .global false, fun _ _ _ => none⟩ false
        default (.string "a") defaultFirst [1, 2] (.create 16 false, []) with
    | some (.ok (_, fall), r, visits) =>
      let c := fall.completion ⟨[]⟩
      some (c.kind, r.toText c.valueOrUndefined, visits.map (·.unit))
    | _ => none)

theorem mismatched_defaultFirst :
    (compile { body := [.switch (.string "a") defaultFirst] } false).toOption.map mismatched =
      some ([.program, .default, .case], some (.normal, "d", [1, 2])) := by
  decide +kernel

/-- No test matches, so the `switch` begins with the default and falls through to the `break`, which
carries no value. -/
theorem genStmt_switch_course_defaultFirst :
    ∃ a u s s', compile { body := [.switch (.string "a") defaultFirst] } false = .ok a ∧
      a.entryUnit? = some u ∧
      Laid a u (genStmt false [] (.switch (.string "a") defaultFirst)) s () s' ∧
      ∃ c temps r visits, Travels 0 visits (atOffset a u s.offset)
          ((atOffset a u s.offset).placed s'.offset [.completion c] temps r) ∧
        c.kind = .normal ∧ r.toText c.valueOrUndefined = "d" ∧ visits.map (·.unit) = [1, 2] := by
  obtain ⟨a, hc, hmismatched⟩ := Option.map_eq_some_iff.mp mismatched_defaultFirst
  have hc := ok_of_toOption hc
  obtain ⟨hroles, hcourse⟩ := Prod.mk.inj hmismatched
  obtain ⟨u, s, s', hu, hlaid⟩ := laid_statement hc
  refine ⟨a, u, s, s', hc, hu, hlaid, ?_⟩
  obtain ⟨links, units, -, -, hunits, htravels⟩ := genStmt_switch_course hlaid
  have hdistinct : [Role.program, .default, .case].Nodup := by decide
  obtain _ | ⟨id, _ | ⟨id', _ | _⟩⟩ := units
  · exact hunits.elim
  · exact hunits.2.elim
  · cases hunits.1.id_eq (i := 1) hroles hdistinct rfl
    cases hunits.2.1.id_eq (i := 2) hroles hdistinct rfl
    have htravels := htravels (atOffset a u s.offset) ⟨rfl, rfl, Array.size_replicate, rfl⟩ rfl
    have hle := switch_within_le 30 a (atOffset a u s.offset).scene false links (.string "a")
      defaultFirst [1, 2]
    -- Subject and tests call nothing and make no functions.
    have hscene : Course.switch (Course.within 30 a) (atOffset a u s.offset).scene false links
        (.string "a") defaultFirst [1, 2] = Course.switch (Course.within 30 a)
          ⟨default, .global false, fun _ _ _ => none⟩ false default (.string "a") defaultFirst
          [1, 2] := rfl
    cases hout : Course.switch (Course.within 30 a) ⟨default, .global false, fun _ _ _ => none⟩
        false default (.string "a") defaultFirst [1, 2] (.create 16 false, []) with
    | none =>
      rw [hout] at hcourse
      cases hcourse
    | some out =>
      have hresult : Course.switch (unitResult a) (atOffset a u s.offset).scene false links
          (.string "a") defaultFirst [1, 2] ((atOffset a u s.offset).realm, []) = some out :=
        hle hout
      rw [hout] at hcourse
      rw [hresult] at htravels
      obtain ⟨fault | ⟨entry, fall⟩, r, visits⟩ := out
      · cases hcourse
      · obtain ⟨hkind, hcourse⟩ := Prod.mk.inj (Option.some.inj hcourse)
        obtain ⟨htext, hvisits⟩ := Prod.mk.inj hcourse
        obtain ⟨⟨temps, -, htravels⟩, -⟩ := htravels
        exact ⟨_, temps, r, visits, htravels, hkind, htext, hvisits⟩
  · exact hunits.2.2.elim

end Lowering

end TreeScript
