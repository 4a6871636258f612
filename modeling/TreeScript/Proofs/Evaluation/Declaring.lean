import TreeScript.Proofs.Evaluation.Expressions
import TreeScript.Proofs.Lowering.Prologue

/-!
# What declarations do

A body begins with its declarations.  They bind the functions to new closures, in the order of the
source, and then the names of variables that are not bound yet to `undefined`.
-/

namespace TreeScript

open Code Syntax Lowering

/-! ## Realms before and after declarations -/

/-- The name is bound in `env` to a closure of `f` that `r` did not have. -/
def Realm.BoundTo (a : Artifact) (strict : Bool) (env : EnvRef) (r r' : Realm) (name : String)
    (f : FunctionDef) : Prop :=
  ∃ ref info o, (r'.env env).get? name = some (.object ref) ∧ r.object? ref = none ∧
    r'.object? ref = some o ∧ o.kind = .function ⟨a, info, env⟩ ∧ Records a strict f info

/-- From `r` to `r'` functions and variables were declared in `env`.  A function that is declared
several times has its last declaration. -/
structure Realm.Declared (a : Artifact) (strict : Bool) (fs : List (String × FunctionDef))
    (vars : List String) (env : EnvRef) (r r' : Realm) : Prop where
  count : r'.environments.size = r.environments.size
  elsewhere : ∀ ref ≠ env, r'.env ref = r.env ref
  outer : (r'.env env).outer = (r.env env).outer
  objects : ∀ {ref o}, r.object? ref = some o → r'.object? ref = some o
  functions : ∀ {before name f after}, fs = before ++ (name, f) :: after →
    name ∉ after.map Prod.fst → r.BoundTo a strict env r' name f
  others : ∀ {name}, name ∉ fs.map Prod.fst → (r'.env env).bindings.find? name =
    ((r.env env).bindings.find? name).or (if name ∈ vars then some ⟨.undefined, false⟩ else none)

variable {name : String} {f : FunctionDef} {x : Unit}

namespace Realm

variable {a : Artifact} {strict : Bool} {fs fs' : List (String × FunctionDef)}
  {vars vars' : List String} {env : EnvRef} {r r1 r' : Realm}

theorem declared_refl (r : Realm) : Declared a strict [] [] env r r where
  count := rfl
  elsewhere _ _ := rfl
  outer := rfl
  objects h := h
  functions h := by cases (List.append_eq_nil_iff.mp h.symm).2
  others _ := by simp

theorem BoundTo.since (h : r1.BoundTo a strict env r' name f)
    (hobjects : ∀ {ref o}, r.object? ref = some o → r1.object? ref = some o) :
    r.BoundTo a strict env r' name f := by
  obtain ⟨ref, info, o, hget, hnew, hrest⟩ := h
  refine ⟨ref, info, o, hget, ?_, hrest⟩
  cases ho : r.object? ref with
  | none => rfl
  | some o => exact absurd (hobjects ho) (by simp [hnew])

theorem Declared.append (h : Declared a strict fs vars env r r1)
    (h' : Declared a strict fs' vars' env r1 r') :
    Declared a strict (fs ++ fs') (vars ++ vars') env r r' where
  count := h'.count.trans h.count
  elsewhere ref hne := (h'.elsewhere ref hne).trans (h.elsewhere ref hne)
  outer := h'.outer.trans h.outer
  objects ho := h'.objects (h.objects ho)
  functions {before name f after} hsplit hlast := by
    rcases List.append_eq_append_iff.mp hsplit with ⟨between, -, hsplit⟩ | ⟨between, hfs, hsplit⟩
    · exact (h'.functions hsplit hlast).since h.objects
    · cases between with
      | nil =>
        have hsplit : fs' = [] ++ (name, f) :: after := hsplit.symm
        exact (h'.functions hsplit hlast).since h.objects
      | cons first between =>
        -- The later declarations leave the name alone.
        obtain ⟨rfl, rfl⟩ := List.cons.inj hsplit
        have hlast : name ∉ (between ++ fs').map Prod.fst := hlast
        rw [List.map_append, List.mem_append, not_or] at hlast
        obtain ⟨ref, info, o, hget, hnew, ho, hrest⟩ := h.functions hfs hlast.1
        refine ⟨ref, info, o, ?_, hnew, h'.objects ho, hrest⟩
        obtain ⟨b, hb, hv⟩ := Option.map_eq_some_iff.mp hget
        unfold Environment.get?
        rw [h'.others hlast.2, hb]
        exact congrArg some hv
  others {name} hname := by
    rw [List.map_append, List.mem_append, not_or] at hname
    rw [h'.others hname.2, h.others hname.1, Option.or_assoc]
    by_cases hv : name ∈ vars <;> simp [hv]

theorem object?_newFunction (r : Realm) (closure : Closure) :
    (∃ o, (r.newFunction closure).2.object? (r.newFunction closure).1 = some o ∧
      o.kind = .function closure) ∧
    ∀ {ref o}, r.object? ref = some o → (r.newFunction closure).2.object? ref = some o := by
  unfold newFunction object?
  refine ⟨?_, fun {ref o} ho => ?_⟩
  · rw [Array.getElem?_push, if_neg (by simp), Array.getElem?_push_size]
    exact ⟨_, rfl, rfl⟩
  · have hlt := (Array.getElem?_eq_some_iff.mp ho).1
    rw [Array.getElem?_push, if_neg (by simp; omega), Array.getElem?_push, if_neg (by omega)]
    exact ho

theorem declared_function (name : String) {info : FunctionInfo} (hinfo : Records a strict f info)
    (henv : r.HasEnv env) :
    Declared a strict [(name, f)] [] env r ((r.newFunction ⟨a, info, env⟩).2.modifyEnv env
      (·.bind name (.object (r.newFunction ⟨a, info, env⟩).1))) := by
  have hself := env_modifyEnv_self (r := (r.newFunction ⟨a, info, env⟩).2) henv
    (·.bind name (.object (r.newFunction ⟨a, info, env⟩).1))
  obtain ⟨⟨o, hobject, hkind⟩, hobjects⟩ := r.object?_newFunction ⟨a, info, env⟩
  refine ⟨Array.size_modify, fun ref hne => env_modifyEnv_of_ne _ hne _, by rw [hself]; rfl,
    hobjects, fun {before name' f' after} hsplit _ => ?_, fun {name'} hname => ?_⟩
  · obtain ⟨rfl, hrest⟩ : before = [] ∧ [(name, f)] = (name', f') :: after := by
      cases before with
      | nil => exact ⟨rfl, hsplit⟩
      | cons _ before => cases before <;> cases hsplit
    cases hrest
    refine ⟨_, info, o, ?_, Array.getElem?_eq_none (Nat.le_refl _), hobject, hkind, hinfo⟩
    rw [hself]
    unfold Environment.get? Environment.bind
    rw [KeyTable.find?_insert, if_pos rfl]
    rfl
  · have hne : name' ≠ name := fun h => hname (h ▸ List.mem_singleton_self _)
    rw [hself]
    unfold Environment.bind
    rw [KeyTable.find?_insert, if_neg hne, if_neg List.not_mem_nil, Option.or_none]
    rfl

theorem declared_var (henv : r.HasEnv env) (name : String) :
    Declared a strict [] [name] env r (r.modifyEnv env (·.declare name false)) := by
  have hself := env_modifyEnv_self henv (·.declare name false)
  refine ⟨Array.size_modify, fun ref hne => env_modifyEnv_of_ne _ hne _, ?_, id,
    fun h _ => ?_, fun {name'} _ => ?_⟩
  · rw [hself]
    unfold Environment.declare
    split <;> rfl
  · cases (List.append_eq_nil_iff.mp h.symm).2
  · rw [hself]
    unfold Environment.declare Environment.has
    rw [KeyTable.contains_eq_isSome_find?]
    cases hfind : (r.env env).bindings.find? name with
    | some b =>
      by_cases hname : name' = name
      · simp [hname, hfind]
      · simp [hname]
    | none =>
      by_cases hname : name' = name
      · simp [hname, hfind, KeyTable.find?_insert]
      · simp [hname, KeyTable.find?_insert]

end Realm

/-! ## The code of declarations -/

namespace Lowering

open Machine

variable {a : Artifact} {u : CodeUnit} {s s1 s' : Stage} {strict : Bool}
  {fs fs' : List (String × FunctionDef)} {vars vars' : List String}

def Enacts (a : Artifact) (u : CodeUnit) (strict : Bool) (fs : List (String × FunctionDef))
    (vars : List String) (s s' : Stage) : Prop :=
  ∀ (m : Machine) (stack : List Slot) (temps : Array Value) (r : Realm), m.Hosts a u →
    r.HasEnv m.context.env → ∃ r', Realm.Declared a strict fs vars m.context.env r r' ∧
      (m.placed s.offset stack temps r).Reaches (m.placed s'.offset stack temps r')

theorem enacts_refl (h : s'.offset = s.offset) : Enacts a u strict [] [] s s' := by
  intro m stack temps r _ _
  rw [h]
  exact ⟨r, Realm.declared_refl r, .refl _⟩

theorem Enacts.append (h : Enacts a u strict fs vars s s1)
    (h' : Enacts a u strict fs' vars' s1 s') :
    Enacts a u strict (fs ++ fs') (vars ++ vars') s s' := by
  intro m stack temps r hm henv
  obtain ⟨r1, hr1, hreaches1⟩ := h m stack temps r hm henv
  have henv1 : r1.HasEnv m.context.env := by
    unfold Realm.HasEnv
    rw [hr1.count]
    exact henv
  obtain ⟨r', hr', hreaches'⟩ := h' m stack temps r1 hm henv1
  exact ⟨r', hr1.append hr', hreaches1.trans hreaches'⟩

theorem reaches_adds {i : Instruction} {m m' : Machine} {stack : List Slot} {temps : Array Value}
    {r : Realm} (h : Adds u i s s') (hh : (m.placed s.offset stack temps r).hangs i = false)
    (hm : m.Hosts a u) (he : exec i (m.placed s'.offset stack temps r) = .ok () m') :
    (m.placed s.offset stack temps r).Reaches m' := by
  rw [← advance_placed h] at he
  have hrunning : (m.placed s.offset stack temps r).status = .running := hm.running
  exact reaches_of_step (step_exec hrunning (next_placed h hm) hh he)

theorem enacts_declareVariable (h : Laid a u (do emit (.declareVariable (← binding name))) s x s') :
    Enacts a u strict [] [name] s s' := by
  obtain ⟨i, s1, hbinding, hemit⟩ := laid_bind.mp h
  obtain ⟨hoperand, hkeeps⟩ := laid_binding hbinding
  have hemit := laid_emit hemit
  intro m stack temps r hm henv
  rw [← hkeeps.offset]
  rw [← hm.unit] at hoperand
  exact ⟨_, Realm.declared_var henv name, reaches_adds hemit rfl hm
    (exec_declareVariable (m := m.placed s'.offset stack temps r) hoperand)⟩

theorem newClosure_eq {info : FunctionInfo} (h : info.selfBinding = false) (env : EnvRef)
    (r : Realm) :
    newClosure a info env r = .ok (.object (r.newFunction ⟨a, info, env⟩).1)
      (r.newFunction ⟨a, info, env⟩).2 := by
  unfold newClosure
  rw [h]
  rfl

theorem enacts_bindFunction (h : Laid a u (bindFunction name (genFunction strict false f)) s x s') :
    Enacts a u strict [(name, f)] [] s s' := by
  obtain ⟨n, s1, hf, h⟩ := laid_bind.mp h
  obtain ⟨_, s2, hmake, h⟩ := laid_bind.mp h
  obtain ⟨i, s3, hbinding, hinit⟩ := laid_bind.mp h
  obtain ⟨k1, info, hinfo, hrecords⟩ := records_genFunction hf
  obtain ⟨hoperand, hkeeps⟩ := laid_binding hbinding
  intro m stack temps r hm henv
  rw [← k1.offset]
  rw [← hm.unit] at hoperand
  rw [← hm.artifact] at hinfo
  have hclosure : newClosure m.frame.artifact info m.context.env r =
      .ok (.object (r.newFunction ⟨a, info, m.context.env⟩).1)
        (r.newFunction ⟨a, info, m.context.env⟩).2 := by
    rw [hm.artifact]
    exact newClosure_eq hrecords.selfBinding _ _
  have hdeclared := Realm.declared_function name hrecords henv
  have hmade := exec_makeClosure (m := m.placed s2.offset stack temps r) hinfo
  generalize r.newFunction ⟨a, info, m.context.env⟩ = made at hclosure hdeclared
  obtain ⟨ref, r1⟩ := made
  have hmade : exec (.makeClosure n) (m.placed s2.offset stack temps r) =
      .ok () (m.placed s2.offset (.value (.object ref) :: stack) temps r1) :=
    hmade.trans (congrArg (settle · _ _) hclosure)
  refine ⟨_, hdeclared, (reaches_adds (laid_emit hmake) rfl hm hmade).trans ?_⟩
  rw [← hkeeps.offset]
  exact reaches_adds (laid_emit hinit) rfl hm (exec_initializeBinding
    (m := m.placed s'.offset (.value (.object ref) :: stack) temps r1) hoperand rfl)

theorem enacts_forM {α : Type} {g : α → Gen Unit} (fs : α → List (String × FunctionDef))
    (vars : α → List String) [hg : ∀ y, Composed (g y)]
    (hstep : ∀ {y s x s'}, Laid a u (g y) s x s' → Enacts a u strict (fs y) (vars y) s s')
    {ys : List α} (h : Laid a u (ys.forM g) s x s') :
    Enacts a u strict (ys.flatMap fs) (ys.flatMap vars) s s' := by
  induction ys generalizing s with
  | nil =>
    obtain ⟨-, rfl⟩ := laid_pure h
    exact enacts_refl rfl
  | cons y ys ih =>
    have : Composed (ys.forM g) := built_forM hg ys
    obtain ⟨_, s1, hy, hys⟩ := laid_bind.mp h
    exact (hstep hy).append (ih hys)

/-- Hoisting is exact.  A body declares each name that a `var` has somewhere in it, outside of other
functions, in the order in which they are first met, and each function declaration in the order of
the source.  Before the statements of the body are run, each function's name is bound to a new
closure of its last declaration; of the other names of variables those that are not bound yet are
bound to `undefined`; and that is all that changes in any environment. -/
theorem declaringBody_hoists {body : List Stmt} {all : Hoisted}
    (h : Hoisted.collect body = .ok all) :
    all.vars = ((stmtsWithin body).flatMap Stmt.vars).eraseDups ∧
    all.functions = (stmtsWithin body).flatMap Stmt.functions ∧
    ∀ {a : Artifact} {u : CodeUnit} {strict : Bool},
      Compiles a u ((Body.declaring body).gen strict) →
      ∃ s s', Laid a u (statementList body (genStatements strict [] body)) s () s' ∧
        ∀ m : Machine, m.Hosts a u → m.frame.next = 0 → m.realm.HasEnv m.context.env →
          ∃ r, m.Reaches (m.placed s.offset m.frame.stack m.frame.temps r) ∧
            m.realm.Declared a strict all.functions all.vars m.context.env r := by
  obtain ⟨hvars, hfunctions, -⟩ := collects_addStmts false body h
  refine ⟨hvars.trans (Hoisted.foldl_enter_eraseDups [] _), hfunctions, fun {a u strict} hc => ?_⟩
  obtain ⟨s₀, s', hlaid, hzero, -⟩ := hc
  obtain ⟨all', s₁, hhoisted, hlaid⟩ := laid_bind.mp hlaid
  obtain ⟨_, s₂, hbound, hlaid⟩ := laid_bind.mp hlaid
  obtain ⟨_, s₃, hdeclared, hstatements⟩ := laid_bind.mp hlaid
  obtain ⟨hcollect, rfl⟩ := laid_hoisted hhoisted
  cases h.symm.trans hcollect
  rw [(collects_addStmts strict body hcollect).code, ← List.nil_append (List.flatMap ..),
    ← (collects_addStmts strict body hcollect).functions] at hbound
  have henacts := (enacts_forM (fun f => [f]) (fun _ => []) enacts_bindFunction hbound).append
    (enacts_forM (fun _ => []) (fun name => [name]) enacts_declareVariable hdeclared)
  rw [List.flatMap_singleton', List.flatMap_singleton', List.flatMap_eq_nil_iff.mpr fun _ _ => rfl,
    List.flatMap_eq_nil_iff.mpr fun _ _ => rfl, List.append_nil, List.nil_append] at henacts
  refine ⟨s₃, s', hstatements, fun m hm hnext henv => ?_⟩
  obtain ⟨r, hdeclared, hreaches⟩ := henacts m m.frame.stack m.frame.temps m.realm hm henv
  refine ⟨r, ?_, hdeclared⟩
  rw [hzero, ← hnext] at hreaches
  exact hreaches

/-- `var x; function f() {} { var f, x; } function f(y) {}` -/
def declaringTwice : List Stmt :=
  [.declaration [.mk "x" none], .function (.mk (some "f") [] [] false),
    .block [.declaration [.mk "f" none, .mk "x" none]], .function (.mk (some "f") ["y"] [] false)]

theorem compiles_declaringTwice :
    (compile { body := declaringTwice } false).toOption.isSome = true := by
  decide +kernel

/-- The second function with the name is the one that is bound, and the variable with that name does
not change it. -/
theorem declaringBody_hoists_declaringTwice :
    ∃ a u next temps r, compile { body := declaringTwice } false = .ok a ∧ a.entryUnit? = some u ∧
      (atOffset a u 0).Reaches ((atOffset a u 0).placed next [] temps r) ∧
      (r.env Realm.globalEnv).get? "x" = some .undefined ∧
      ∃ ref info o, (r.env Realm.globalEnv).get? "f" = some (.object ref) ∧
        r.object? ref = some o ∧ o.kind = .function ⟨a, info, Realm.globalEnv⟩ ∧
        info.params = ["y"] := by
  have hcompiles := compiles_declaringTwice
  cases hc : compile { body := declaringTwice } false with
  | error e =>
    rw [hc] at hcompiles
    cases hcompiles
  | ok a =>
    obtain ⟨u, hu, -, -, hunit⟩ := compile_entry hc
    have hcollect : Hoisted.collect declaringTwice = .ok ⟨["x", "f"],
        [("f", .mk (some "f") [] [] false)] ++ [("f", .mk (some "f") ["y"] [] false)]⟩ := rfl
    obtain ⟨-, -, hruns⟩ := declaringBody_hoists hcollect
    obtain ⟨s, s', -, hruns⟩ := hruns hunit
    obtain ⟨r, hreaches, hdeclared⟩ :=
      hruns (atOffset a u 0) ⟨rfl, rfl, Array.size_replicate, rfl⟩ rfl Nat.one_pos
    refine ⟨a, u, _, _, r, rfl, hu, hreaches, ?_, ?_⟩
    · have hnone : ((Realm.create 16 false).env Realm.globalEnv).get? "x" = none := by
        decide +kernel
      have hx : (r.env Realm.globalEnv).bindings.find? "x" =
          (((Realm.create 16 false).env Realm.globalEnv).bindings.find? "x").or
            (some ⟨.undefined, false⟩) := hdeclared.others (show "x" ∉ ["f", "f"] by decide)
      unfold Environment.get?
      rw [hx, Option.map_eq_none_iff.mp hnone]
      rfl
    · obtain ⟨ref, info, o, hget, -, ho, hkind, hrecords⟩ :=
        hdeclared.functions rfl List.not_mem_nil
      exact ⟨ref, info, o, hget, ho, hkind, hrecords.params⟩

end Lowering

end TreeScript
