import TreeScript.Proofs.Evaluation.Course
import TreeScript.Proofs.Lowering.Exits
import TreeScript.Proofs.Machine.Scopes

/-!
# `try` statements

The block, the handler and the finalizer of a `try` are units of their own.  `TryUnits.course` tells
in which contexts they are run and which of their completions the statement has, and the code of the
statement takes that course.
-/

namespace TreeScript

open Code Syntax Machine

/-! ## The scope of a handler -/

def Environment.single (outer : EnvRef) (name : String) (v : Value) : Environment where
  bindings := KeyTable.empty.insert name ⟨v, false⟩
  outer := some outer

namespace Realm

def withScope (r : Realm) (outer : EnvRef) (name : String) (v : Value) : Realm :=
  { r with environments := r.environments.push (.single outer name v) }

/-- What a new scope is: no environment that was there, inside `outer`, with one name.  All other
environments are as they were. -/
structure Opens (r : Realm) (outer : EnvRef) (name : String) (v : Value) (scope : EnvRef)
    (r' : Realm) : Prop where
  fresh : ¬ r.HasEnv scope
  outer : (r'.env scope).outer = some outer
  binds : ∀ name', (r'.env scope).get? name' = if name' = name then some v else none
  others : ∀ ref, r.HasEnv ref → r'.env ref = r.env ref

theorem env_withScope (r : Realm) (outer : EnvRef) (name : String) (v : Value) (ref : EnvRef) :
    (r.withScope outer name v).env ref =
      if ref.index = r.environments.size then .single outer name v else r.env ref := by
  rw [env_eq, env_eq]
  show ((r.environments.push (.single outer name v))[ref.index]?).getD {} = _
  rw [Array.getElem?_push]
  split <;> rfl

theorem opens_withScope (r : Realm) (outer : EnvRef) (name : String) (v : Value) :
    r.Opens outer name v ⟨r.environments.size⟩ (r.withScope outer name v) := by
  have hscope : (r.withScope outer name v).env ⟨r.environments.size⟩ = .single outer name v := by
    rw [env_withScope, if_pos rfl]
  refine ⟨Nat.lt_irrefl _, ?_, fun name' => ?_, fun ref href => ?_⟩
  · rw [hscope]
    rfl
  · rw [hscope]
    show ((KeyTable.empty.insert name _).find? name').map Binding.value = _
    rw [KeyTable.find?_insert]
    split <;> rfl
  · rw [env_withScope, if_neg (Nat.ne_of_lt href)]

theorem newScope_withScope (outer : EnvRef) (name : String) (v : Value) (r : Realm) :
    newScope outer name v r = .ok ⟨r.environments.size⟩ (r.withScope outer name v) := by
  exact congrArg (fun environments => EStateM.Result.ok _ { r with environments })
    (modify_push_environment _ _ _)

end Realm

def Course.scope (outer : EnvRef) (name : String) (v : Value) : Course EnvRef := fun state =>
  some (⟨state.1.environments.size⟩, state.1.withScope outer name v, state.2)

/-! ## The course -/

variable {r : Realm} {param : String} {m : Machine}

namespace Course

variable (results : Results) (context : Context) (id : UnitId)

/-- A handler runs if the block has thrown, in a scope of its own, and its completion counts. -/
def handle (handler : Option CatchClause) (b : Completion) : Course Completion :=
  match handler with
  | none => return b
  | some (.mk param _) =>
    if b.kind == .throw then do
      let scope ← Course.scope context.env param b.valueOrUndefined
      Course.body results id { context with env := scope }
    else return b

theorem handle_thrown {body : List Stmt} {b : Completion} {visits : List Visit}
    (h : b.kind = .throw) :
    handle results context id (some (.mk param body)) b (r, visits) =
      Course.body results id { context with env := ⟨r.environments.size⟩ }
        (r.withScope context.env param b.valueOrUndefined, visits) :=
  congrFun (if_pos (beq_iff_eq.mpr h)) (r, visits)

theorem handle_passed (handler : Option CatchClause) {b : Completion} {visits : List Visit}
    (h : b.kind ≠ .throw) :
    handle results context id handler b (r, visits) = some (b, r, visits) := by
  obtain _ | ⟨param, body⟩ := handler
  · rfl
  · exact congrFun (if_neg (mt beq_iff_eq.mp h)) (r, visits)

/-- A finalizer always runs, and its completion counts if it is abrupt. -/
def finalize (finalizer : Option (List Stmt)) (c : Completion) : Course Completion :=
  match finalizer with
  | none => return c
  | some _ => do
    let f ← Course.body results id context
    return if f.isAbrupt then f else c

theorem finalize_passed {body : List Stmt} {c f : Completion} {r' : Realm} {visits : List Visit}
    (h : results id context r = some (f, r')) (hf : f.isAbrupt = false) :
    finalize results context id (some body) c (r, visits) =
      some (c, r', visits ++ [⟨id, context, r⟩]) := by
  have hbody : Course.body results id context (r, visits) =
      some (f, r', visits ++ [⟨id, context, r⟩]) := by
    rw [Course.body, h]
    rfl
  show (Course.body results id context (r, visits)).bind
    (fun out => some (if out.1.isAbrupt then out.1 else c, out.2)) = _
  rw [hbody, Option.bind_some, hf]
  rfl

end Course

structure TryUnits where
  block : UnitId
  handler : UnitId
  finalizer : UnitId

def TryUnits.course (t : TryUnits) (results : Results) (context : Context)
    (handler : Option CatchClause) (finalizer : Option (List Stmt)) : Course Completion := do
  let b ← Course.body results t.block context
  let c ← Course.handle results context t.handler handler b
  Course.finalize results context t.finalizer finalizer c

/-! ## The code -/

def Machine.inScope (m : Machine) (scope : EnvRef) : Machine :=
  { m with
    context := { m.context with env := scope }
    frame := { m.frame with scopes := m.context.env :: m.frame.scopes } }

namespace Lowering

/-- A unit of the artifact has the code of these statements. -/
def UnitOf (a : Artifact) (role : Role) (strict : Bool) (body : List Stmt) (id : UnitId) : Prop :=
  ∃ u, a.unit? id = some u ∧ u.role = role ∧ Compiles a u ((Body.statements body).gen strict)

theorem UnitOf.id_eq {a : Artifact} {role : Role} {strict : Bool} {body : List Stmt} {id : UnitId}
    {l : List Role} (h : UnitOf a role strict body id) (hroles : roles a = l) (hl : l.Nodup)
    {i : Nat} (hi : l[i]? = some role) : id = i := by
  obtain ⟨unit, hunit, rfl, -⟩ := h
  exact id_of_role hroles hl hunit hi

/-- The units have the code of the parts of a `try`. -/
structure ImplementsTry (a : Artifact) (strict : Bool) (block : List Stmt)
    (handler : Option CatchClause) (finalizer : Option (List Stmt)) (t : TryUnits) : Prop where
  block : UnitOf a .body strict block t.block
  handler : ∀ {param body}, handler = some (.mk param body) →
    UnitOf a .catch strict body t.handler
  finalizer : ∀ {body}, finalizer = some body → UnitOf a .finally strict body t.finalizer

def Transforms (a : Artifact) (u : CodeUnit) (s s' : Stage)
    (course : Context → Completion → Course Completion) : Prop :=
  ∀ ⦃m : Machine⦄, m.Hosts a u →
    ∀ ⦃b : Completion⦄ ⦃stack : List Slot⦄ ⦃temps : Array Value⦄ ⦃r : Realm⦄ ⦃visits : List Visit⦄,
      Travels m.callers.length visits m (m.placed s.offset (.completion b :: stack) temps r) →
      m.Pursues (fun c r' m' => m' = m.placed s'.offset (.completion c :: stack) temps r')
        (course m.context b (r, visits))

variable {a : Artifact} {u : CodeUnit} {s s' : Stage} {strict : Bool}

theorem transforms_pure : Transforms a u s s fun _ b => pure b :=
  fun _ _ _ _ _ _ _ hat => ⟨_, hat, rfl⟩

theorem hosts_inScope (h : m.Hosts a u) (scope : EnvRef) :
    (m.inScope scope).Hosts a u :=
  ⟨h.artifact, h.unit, h.temps, h.running⟩

theorem exec_enterCatch_placed {i : OperandIndex} {v : Value} {next : Nat} {stack : List Slot}
    {temps : Array Value} (hm : m.Hosts a u) (hi : u.operands[i]? = some (.binding param)) :
    exec (.enterCatch i) (m.placed next (.value v :: stack) temps r) =
      .ok () ((m.inScope ⟨r.environments.size⟩).placed next stack temps
        (r.withScope m.context.env param v)) := by
  refine (exec_enterCatch (operand_placed hm hi) rfl).trans ?_
  have hscope : newScope (m.placed next (.value v :: stack) temps r).context.env param v
      (m.placed next (.value v :: stack) temps r).realm =
      .ok ⟨r.environments.size⟩ (r.withScope m.context.env param v) :=
    Realm.newScope_withScope _ _ _ _
  rw [hscope]
  rfl

theorem exec_exitScope_placed {scope : EnvRef} {next : Nat} {stack : List Slot}
    {temps : Array Value} :
    exec .exitScope ((m.inScope scope).placed next stack temps r) =
      .ok () (m.placed next stack temps r) :=
  exec_exitScope rfl

theorem transforms_handler {handler : Option CatchClause}
    (h : Laid a u (tryHandler strict handler) s () s') :
    ∃ id, (∀ {param body}, handler = some (.mk param body) → UnitOf a .catch strict body id ∧
        ∃ k, StartsOne u s s' k id ∧ u.instructions[k + 1]? = some .exitScope ∧
          s'.offset = k + 2) ∧
      Transforms a u s s' fun context => Course.handle (unitResult a) context id handler := by
  cases handler with
  | none =>
    obtain ⟨-, rfl⟩ := laid_pure h
    refine ⟨0, ?_, transforms_pure⟩
    rintro _ _ ⟨⟩
  | some clause =>
    obtain ⟨param, body⟩ := clause
    simp only [tryHandler, catchThrown, laid_bind] at h
    obtain ⟨after, s1, h1, _, s2, h2, _, s3, h3, i, s4, h4, _, s5, h5, _, s6, h6, _, s7, h7,
      h8⟩ := h
    obtain ⟨id, unit, hinvoke, hunit, hrole, hcompiles⟩ := laid_invoke h6
    obtain ⟨hparam, k4⟩ := laid_binding h4
    obtain ⟨hafter, k8⟩ := laid_placed h8
    have hexit := laid_emit h7
    refine ⟨id, ?_, fun m hm b stack temps r visits hat => ?_⟩
    · rintro _ _ ⟨⟩
      have hone := (((startsOne_adds hinvoke).cut h7).cut h8).skip h5
      refine ⟨⟨unit, hunit, hrole, hcompiles⟩, s5.offset,
        (((hone.skip h4).skip h3).skip h2).skip h1, ?_, ?_⟩
      · rw [← hinvoke.offset]
        exact hexit.code
      · rw [k8.offset, hexit.offset, hinvoke.offset]
    have hkept := travels_keeps hat (laid_newLabel h1)
    have hjump := travels_branch hkept (laid_emit h2) rfl rfl hm hafter
      fun hl => exec_jumpUnlessKind hl rfl
    show m.Pursues _
      (Course.handle (unitResult a) m.context id (some (.mk param body)) b (r, visits))
    by_cases hthrow : b.kind = .throw
    · rw [if_neg (by rw [hthrow]; decide)] at hjump
      have hunwrap : Travels m.callers.length visits m
          (m.placed s3.offset (.value b.valueOrUndefined :: stack) temps r) :=
        travels_emit hjump (laid_emit h3) rfl rfl hm (exec_unwrap rfl)
      have henter := travels_emit (travels_keeps hunwrap k4) (laid_emit h5) rfl rfl hm
        (exec_enterCatch_placed hm hparam)
      have hscoped := hosts_inScope hm ⟨r.environments.size⟩
      have hcallers : m.callers = (m.inScope ⟨r.environments.size⟩).callers := rfl
      have hbody := pursues_invoke hcallers henter hinvoke hunit hscoped
      rw [Course.handle_thrown (unitResult a) m.context id hthrow]
      refine hbody.onward fun c r' visits' m' hm' hq => ?_
      cases hq
      have hleft := travels_emit hm' hexit rfl rfl hscoped exec_exitScope_placed
      exact ⟨_, travels_keeps hleft k8, rfl⟩
    · rw [if_pos (bne_iff_ne.mpr hthrow)] at hjump
      rw [Course.handle_passed (unitResult a) m.context id _ hthrow]
      exact ⟨_, hjump, rfl⟩

theorem transforms_finalizer {finalizer : Option (List Stmt)}
    (h : Laid a u (tryFinalizer strict finalizer) s () s') :
    ∃ id, (∀ {body}, finalizer = some body → UnitOf a .finally strict body id ∧
        StartsOne u s s' s.offset id ∧ Settles a u (s.offset + 1)
          fun c f => (s'.offset, if f.isAbrupt then f else c)) ∧
      Transforms a u s s' fun context => Course.finalize (unitResult a) context id finalizer := by
  cases finalizer with
  | none =>
    obtain ⟨-, rfl⟩ := laid_pure h
    refine ⟨0, ?_, transforms_pure⟩
    rintro _ ⟨⟩
  | some body =>
    simp only [tryFinalizer, withFinalizer, laid_bind] at h
    obtain ⟨override, s1, h1, done, s2, h2, _, s3, h3, _, s4, h4, _, s5, h5, _, s6, h6, _, s7, h7,
      _, s8, h8, h9⟩ := h
    obtain ⟨id, unit, hinvoke, hunit, hrole, hcompiles⟩ := laid_invoke h3
    obtain ⟨hoverride, -⟩ := laid_placed h7
    obtain ⟨hdone, k9⟩ := laid_placed h9
    have k2 := (laid_newLabel h1).trans (laid_newLabel h2)
    have hsettles : Settles a u s3.offset fun c f => (s'.offset, if f.isAbrupt then f else c) := by
      intro m m0 hm c f stack temps r visits hat
      dsimp only
      have hjump := travels_branch hat (laid_emit h4) rfl rfl hm hoverride
        fun hl => exec_jumpIfAbrupt hl rfl
      by_cases habrupt : f.isAbrupt = true
      · rw [if_pos habrupt] at hjump ⊢
        exact travels_keeps (travels_dropBelow hjump h8 hm) k9
      · rw [if_neg habrupt] at hjump ⊢
        exact travels_jump (travels_pop hjump (laid_emit h5) hm) (laid_emit h6) hm hdone
    refine ⟨id, ?_, fun m hm c stack temps r visits hat => ?_⟩
    · rintro _ ⟨⟩
      have hone := (((((startsOne_adds hinvoke).cut h4).cut h5).cut h6).cut h7).cut h8
      have hone := ((hone.cut h9).skip h2).skip h1
      rw [hinvoke.offset, k2.offset] at hsettles
      rw [k2.offset] at hone
      exact ⟨⟨unit, hunit, hrole, hcompiles⟩, hone, hsettles⟩
    refine pursues_bind (pursues_invoke rfl (travels_keeps hat k2) hinvoke hunit hm)
      fun f r' visits' m' hm' hq => ?_
    cases hq
    exact ⟨_, hsettles hm hm', rfl⟩

theorem laid_tryCatch {labels : List String} {block : List Stmt} {handler : Option CatchClause}
    {finalizer : Option (List Stmt)}
    (h : Laid a u (genStmt strict labels (.tryCatch block handler finalizer)) s () s') :
    ∃ s1 s2, Laid a u (invoke .body strict ((Body.statements block).gen strict)) s () s1 ∧
      Laid a u (tryHandler strict handler) s1 () s2 ∧
      Laid a u (tryFinalizer strict finalizer) s2 () s' := by
  rw [genStmt_tryCatch] at h
  by_cases hbare : (handler.isNone && finalizer.isNone) = true
  · rw [if_pos hbare] at h
    obtain ⟨_, s1, h1, -⟩ := laid_bind.mp h
    exact absurd h1 not_laid_unsupported
  · rw [if_neg hbare] at h
    obtain ⟨_, s1, h1, h⟩ := laid_bind.mp h
    obtain ⟨_, s2, h2, h3⟩ := laid_bind.mp h
    exact ⟨s1, s2, h1, h2, h3⟩

/-- A `try` takes its course, in any unit, environment and realm and over any stack.  The block is
run once.  If it throws and there is a handler, the handler is run once, in a new scope that binds
the thrown value and nothing else inside the environment of the statement, and it decides how the
statement ends; otherwise it is not run.  If there is a finalizer, it is run once, after these and
in the context of the statement, and the statement ends as the finalizer does if that is abrupt and
else as before.  The context and the stack below are then as they were.  There is no such end if a
unit has no result. -/
theorem genStmt_tryCatch_course {labels : List String} {block : List Stmt}
    {handler : Option CatchClause} {finalizer : Option (List Stmt)}
    (h : Laid a u (genStmt strict labels (.tryCatch block handler finalizer)) s () s') :
    ∃ t, ImplementsTry a strict block handler finalizer t ∧
      (∀ (r : Realm) (outer : EnvRef) (param : String) (v : Value),
        r.Opens outer param v ⟨r.environments.size⟩ (r.withScope outer param v)) ∧
      ∀ m : Machine, m.Hosts a u → m.frame.next = s.offset →
        match t.course (unitResult a) m.context handler finalizer (m.realm, []) with
        | some (c, r, visits) => Travels m.callers.length visits m
            (m.placed s'.offset (.completion c :: m.frame.stack) m.frame.temps r)
        | none => ∃ visits m', Travels m.callers.length visits m m' ∧ m.Lost m' := by
  obtain ⟨s₁, s₂, h₁, h₂, h₃⟩ := laid_tryCatch h
  obtain ⟨id, unit, hinvoke, hunit, hrole, hcompiles⟩ := laid_invoke h₁
  obtain ⟨id₁, hhandler, handles⟩ := transforms_handler h₂
  obtain ⟨id₂, hfinalizer, finalizes⟩ := transforms_finalizer h₃
  refine ⟨⟨id, id₁, id₂⟩,
    ⟨⟨unit, hunit, hrole, hcompiles⟩, fun h => (hhandler h).1, fun h => (hfinalizer h).1⟩,
    Realm.opens_withScope, fun m hm hnext => ?_⟩
  have hstart : Travels m.callers.length [] m
      (m.placed s.offset m.frame.stack m.frame.temps m.realm) := by
    rw [← hnext]
    exact travels_refl _ m
  obtain ⟨out, hcourse⟩ : ∃ out, TryUnits.course ⟨id, id₁, id₂⟩ (unitResult a) m.context handler
      finalizer (m.realm, []) = out := ⟨_, rfl⟩
  have hpursues : m.Pursues
      (fun c r m' => m' = m.placed s'.offset (.completion c :: m.frame.stack) m.frame.temps r)
      out := by
    rw [← hcourse]
    refine pursues_bind (pursues_invoke rfl hstart hinvoke hunit hm) fun b r visits m₁ h₁ hq => ?_
    cases hq
    refine pursues_bind (handles hm h₁) fun c r visits m₂ h₂ hq => ?_
    cases hq
    exact finalizes hm h₂
  rw [hcourse]
  cases out with
  | none => exact hpursues
  | some out =>
    obtain ⟨_, htravels, rfl⟩ := hpursues
    exact htravels

theorem course_within_le (fuel : Nat) (a : Artifact) (t : TryUnits) (context : Context)
    (handler : Option CatchClause) (finalizer : Option (List Stmt)) :
    (t.course (Course.within fuel a) context handler finalizer).Le
      (t.course (unitResult a) context handler finalizer) := by
  refine (Course.body_within_le fuel a _ _).bind fun b => Course.Le.bind ?_ fun c => ?_
  · obtain _ | ⟨param, body⟩ := handler
    · exact .refl _
    · unfold Course.handle
      dsimp only
      split
      · exact (Course.Le.refl _).bind fun scope => Course.body_within_le fuel a _ _
      · exact .refl _
  · cases finalizer with
    | none => exact .refl _
    | some body => exact (Course.body_within_le fuel a _ _).bind fun f => .refl _

/-- `catch (e) { throw e + "b" }` -/
def rethrower : CatchClause := .mk "e" [.throw (.binary .add (.identifier "e") (.string "b"))]

/-- `try { throw "a" } catch (e) { throw e + "b" } finally { "c" }` -/
def rethrowing : Stmt :=
  .tryCatch [.throw (.string "a")] (some rethrower) (some [.expression (.string "c")])

/-- The roles of the units of an artifact, and how a `try` with these units ends: the kind and the
text of its completion, and the units that were run. -/
def trial (a : Artifact) : List Role × Option (CompletionKind × String × List UnitId) :=
  (roles a,
    (TryUnits.course ⟨1, 2, 3⟩ (Course.within 20 a) (.global false) (some rethrower)
      (some [.expression (.string "c")]) (.create 16 false, [])).map fun out =>
        (out.1.kind, out.2.1.toText out.1.valueOrUndefined, out.2.2.map (·.unit)))

theorem trial_rethrowing :
    (compile { body := [rethrowing] } false).toOption.map trial =
      some ([.program, .body, .catch, .finally], some (.throw, "ab", [1, 2, 3])) := by
  decide +kernel

/-- The handler throws in its turn, the finalizer runs, and what the handler has thrown comes out of
the statement. -/
theorem genStmt_tryCatch_course_rethrowing :
    ∃ a u s s', compile { body := [rethrowing] } false = .ok a ∧ a.entryUnit? = some u ∧
      Laid a u (genStmt false [] rethrowing) s () s' ∧
      ∃ c r visits, Travels 0 visits (atOffset a u s.offset)
          ((atOffset a u s.offset).placed s'.offset [.completion c]
            (Array.replicate u.tempCount .undefined) r) ∧
        c.kind = .throw ∧ r.toText c.valueOrUndefined = "ab" ∧ visits.map (·.unit) = [1, 2, 3] := by
  obtain ⟨a, hc, htrial⟩ := Option.map_eq_some_iff.mp trial_rethrowing
  have hc := ok_of_toOption hc
  obtain ⟨hroles, hcourse⟩ := Prod.mk.inj htrial
  obtain ⟨⟨c, r, visits⟩, hcourse, hout⟩ := Option.map_eq_some_iff.mp hcourse
  obtain ⟨hkind, hout⟩ := Prod.mk.inj hout
  obtain ⟨htext, hvisits⟩ := Prod.mk.inj hout
  obtain ⟨u, s, s', hu, hlaid⟩ := laid_statement hc
  refine ⟨a, u, s, s', hc, hu, hlaid, c, r, visits, ?_, hkind, htext, hvisits⟩
  obtain ⟨⟨id, id₁, id₂⟩, ht, -, htravels⟩ := genStmt_tryCatch_course hlaid
  have hdistinct : [Role.program, .body, .catch, .finally].Nodup := by decide
  cases ht.block.id_eq (i := 1) hroles hdistinct rfl
  cases (ht.handler rfl).id_eq (i := 2) hroles hdistinct rfl
  cases (ht.finalizer rfl).id_eq (i := 3) hroles hdistinct rfl
  have htravels := htravels (atOffset a u s.offset) ⟨rfl, rfl, Array.size_replicate, rfl⟩ rfl
  have hresult : TryUnits.course ⟨1, 2, 3⟩ (unitResult a) (atOffset a u s.offset).context
      (some rethrower) (some [.expression (.string "c")]) ((atOffset a u s.offset).realm, []) =
      some (c, r, visits) :=
    course_within_le 20 a _ _ _ _ hcourse
  rw [hresult] at htravels
  exact htravels

end Lowering

end TreeScript
