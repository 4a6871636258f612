import TreeScript.Proofs.Lowering.Sources
import TreeScript.Proofs.Machine.Locals

/-!
# Declarations come first

The names that a body declares, wherever they stand in it, are collected before its code is
generated.  Their declarations are the first instructions of the unit, with nothing else between
them.
-/

namespace TreeScript

namespace Syntax

/-! ## Names that a body declares -/

def Declarator.name : Declarator → String
  | mk name _ => name

/-- The names of the `var` that a statement is or has in its head. -/
def Stmt.vars : Stmt → List String
  | declaration declarators | forLoop (some (.declaration declarators)) _ _ _
  | forIn (.declaration declarators) _ _ => declarators.map Declarator.name
  | _ => []

/-- The function that a statement declares, with its name. -/
def Stmt.functions : Stmt → List (String × FunctionDef)
  | function f => f.name.toList.map fun name => (name, f)
  | _ => []

/-- The names that a statement declares, without those of the statements inside it. -/
def Stmt.names (s : Stmt) : List String := s.vars ++ s.functions.map Prod.fst

/-! ## The statements of a body

In the order of the source, and wherever they stand but in functions. -/

mutual

def Stmt.within : Stmt → List Stmt
  | s@(.block body) => s :: stmtsWithin body
  | s@(.ifElse _ consequent none) => s :: consequent.within
  | s@(.ifElse _ consequent (some alternate)) => s :: (consequent.within ++ alternate.within)
  | s@(.whileLoop _ body) | s@(.doWhile body _) | s@(.labeled _ body) | s@(.withObject _ body)
  | s@(.forLoop _ _ _ body) | s@(.forIn _ _ body) => s :: body.within
  | s@(.switch _ clauses) => s :: clausesWithin clauses
  | s@(.tryCatch block handler finalizer) =>
    s :: (stmtsWithin block ++ (handlerWithin handler ++ finalizerWithin finalizer))
  | s => [s]

def handlerWithin : Option CatchClause → List Stmt
  | none => []
  | some (.mk _ body) => stmtsWithin body

def finalizerWithin : Option (List Stmt) → List Stmt
  | none => []
  | some body => stmtsWithin body

def stmtsWithin : List Stmt → List Stmt
  | [] => []
  | s :: ss => s.within ++ stmtsWithin ss

def clausesWithin : List SwitchClause → List Stmt
  | [] => []
  | .mk _ body :: cs => stmtsWithin body ++ clausesWithin cs

end

namespace Part

/-- One part is somewhere inside another one, and in the same function. -/
inductive Holds (x : Part) : Part → Prop where
  | self : Holds x x
  | part {y z : Part} : Holds x y → z ∈ y.parts → Holds x z

def within : Part → List Stmt
  | body ss => stmtsWithin ss
  | stmt s => s.within
  | expr _ | member _ | function _ => []

/-- A `var` or a function declaration, anywhere but inside another function, has this name. -/
def Declares (x : Part) (name : String) : Prop := ∃ s, x.Holds (.stmt s) ∧ name ∈ s.names

end Part

namespace Hoisted

def enter (names : List String) (name : String) : List String :=
  if names.contains name then names else names ++ [name]

theorem mem_foldl_enter {names new : List String} {name : String} :
    name ∈ new.foldl enter names ↔ name ∈ names ∨ name ∈ new := by
  induction new generalizing names with
  | nil => simp
  | cons n new ih =>
    rw [List.foldl_cons, ih, enter]
    by_cases hc : names.contains n = true
    · grind
    · rw [if_neg hc]
      simp [or_assoc]

theorem foldl_enter_eraseDups (names new : List String) :
    new.foldl enter names.eraseDups = (names ++ new).eraseDups := by
  induction new generalizing names with
  | nil => rw [List.append_nil]; rfl
  | cons n new ih =>
    have hstep : enter names.eraseDups n = (names ++ [n]).eraseDups := by
      rw [List.eraseDups_append, enter]
      by_cases hn : n ∈ names
      · simp [hn, List.removeAll]
      · simp [hn, List.removeAll, List.eraseDups_cons]
    rw [List.foldl_cons, hstep, ih, List.append_assoc]
    rfl

theorem vars_addVar (h : Hoisted) (name : String) : (h.addVar name).vars = enter h.vars name := by
  unfold addVar enter
  split <;> rfl

theorem functions_addVar (h : Hoisted) (name : String) :
    (h.addVar name).functions = h.functions := by
  unfold addVar
  split <;> rfl

theorem vars_addVars (h : Hoisted) (declarators : List Declarator) :
    (h.addVars declarators).vars = (declarators.map Declarator.name).foldl enter h.vars := by
  induction declarators generalizing h with
  | nil => rfl
  | cons d declarators ih =>
    cases d with
    | mk name init => exact (ih (h.addVar name)).trans (by rw [vars_addVar]; rfl)

theorem functions_addVars (h : Hoisted) (declarators : List Declarator) :
    (h.addVars declarators).functions = h.functions := by
  induction declarators generalizing h with
  | nil => rfl
  | cons d declarators ih =>
    cases d with
    | mk name init => exact (ih (h.addVar name)).trans (h.functions_addVar name)

def addHandler (h : Hoisted) : Option CatchClause → Except HoistError Hoisted
  | none => pure h
  | some (.mk _ body) => h.addStmts body

def addFinalizer (h : Hoisted) : Option (List Stmt) → Except HoistError Hoisted
  | none => pure h
  | some body => h.addStmts body

theorem addStmt_tryCatch (h : Hoisted) (block : List Stmt) (handler : Option CatchClause)
    (finalizer : Option (List Stmt)) :
    h.addStmt (.tryCatch block handler finalizer) = (do
      let h ← h.addStmts block
      let h ← h.addHandler handler
      h.addFinalizer finalizer) := by
  rcases handler with _ | ⟨param, body⟩ <;> cases finalizer <;> rfl

end Hoisted

end Syntax

namespace Lowering

open Code Syntax

/-! ## Functions are bound as they were collected -/

def bindFunctions (strict : Bool) (functions : List (String × FunctionDef)) : Gen Unit :=
  functions.forM fun (name, f) => bindFunction name (genFunction strict false f)

/-- From one collection to the other come the names that some statements declare, and the functions
that the code binds, in its order. -/
structure Collects (strict : Bool) (g : Gen Unit) (ss : List Stmt) (h h' : Hoisted) : Prop where
  vars : h'.vars = (ss.flatMap Stmt.vars).foldl Hoisted.enter h.vars
  functions : h'.functions = h.functions ++ ss.flatMap Stmt.functions
  code : g = bindFunctions strict (ss.flatMap Stmt.functions)

section

variable {strict : Bool} {g g' : Gen Unit} {ss ss' : List Stmt} {h h1 h' : Hoisted}

theorem collects_refl (h : Hoisted) : Collects strict (pure ()) [] h h :=
  ⟨rfl, (List.append_nil _).symm, rfl⟩

theorem Collects.append (hg : Collects strict g ss h h1) (hg' : Collects strict g' ss' h1 h') :
    Collects strict (do g; g') (ss ++ ss') h h' := by
  refine ⟨?_, ?_, ?_⟩
  · rw [List.flatMap_append, List.foldl_append, ← hg.vars, hg'.vars]
  · rw [List.flatMap_append, ← List.append_assoc, ← hg.functions, hg'.functions]
  · rw [List.flatMap_append, hg.code, hg'.code]
    exact (List.forM_append ..).symm

theorem Collects.declaring {s : Stmt} {declarators : List Declarator}
    (hg : Collects strict g ss (h.addVars declarators) h')
    (hv : s.vars = declarators.map Declarator.name) (hf : s.functions = []) :
    Collects strict g (s :: ss) h h' := by
  refine ⟨?_, ?_, ?_⟩
  · rw [List.flatMap_cons, List.foldl_append, hv, ← h.vars_addVars]
    exact hg.vars
  · rw [List.flatMap_cons, hf, List.nil_append, ← h.functions_addVars declarators]
    exact hg.functions
  · rw [List.flatMap_cons, hf, List.nil_append]
    exact hg.code

theorem Collects.around {s : Stmt} (hg : Collects strict g ss h h') (hv : s.vars = [])
    (hf : s.functions = []) : Collects strict g (s :: ss) h h' :=
  have hg : Collects strict g ss (h.addVars []) h' := hg
  hg.declaring hv hf

end

mutual

theorem collects_addStmt (strict : Bool) : ∀ (s : Stmt) {h h' : Hoisted}, h.addStmt s = .ok h' →
    Collects strict (genDeclaration strict s) s.within h h'
  | .block body, _, _, hs => (collects_addStmts strict body hs).around rfl rfl
  | .declaration declarators, h, _, hs => by
    cases hs
    exact (collects_refl _).declaring rfl rfl
  | .function (.mk none _ _ _), _, _, hs => nomatch hs
  | .function (.mk (some name) params body ownStrict), h, _, hs => by
    cases hs
    exact ⟨rfl, rfl, (bind_pure _).symm⟩
  | .ifElse _ consequent none, _, _, hs => by
    obtain ⟨_, hc, hs⟩ := ok_of_bind hs
    cases hs
    have hcollects := (collects_addStmt strict consequent hc).append (collects_refl _)
    rw [List.append_nil] at hcollects
    exact hcollects.around rfl rfl
  | .ifElse _ consequent (some alternate), _, _, hs => by
    obtain ⟨h1, hc, ha⟩ := ok_of_bind hs
    exact ((collects_addStmt strict consequent hc).append
      (collects_addStmt strict alternate ha)).around rfl rfl
  | .whileLoop _ body, _, _, hs | .doWhile body _, _, _, hs | .labeled _ body, _, _, hs
  | .withObject _ body, _, _, hs | .forLoop none _ _ body, _, _, hs
  | .forLoop (some (.expression _)) _ _ body, _, _, hs | .forIn (.expression _) _ body, _, _, hs =>
    (collects_addStmt strict body hs).around rfl rfl
  | .forLoop (some (.declaration _)) _ _ body, _, _, hs
  | .forIn (.declaration _) _ body, _, _, hs => (collects_addStmt strict body hs).declaring rfl rfl
  | .switch _ clauses, _, _, hs => (collects_addClauses strict clauses hs).around rfl rfl
  | .tryCatch block handler finalizer, _, _, hs => by
    rw [Hoisted.addStmt_tryCatch] at hs
    obtain ⟨h1, hb, hs⟩ := ok_of_bind hs
    obtain ⟨h2, hh, hf⟩ := ok_of_bind hs
    rw [genDeclaration_tryCatch]
    exact ((collects_addStmts strict block hb).append
      ((collects_addHandler strict handler hh).append
        (collects_addFinalizer strict finalizer hf))).around rfl rfl
  | .expression _, h, _, hs | .throw _, h, _, hs | .return _, h, _, hs | .break _, h, _, hs
  | .continue _, h, _, hs | .print _, h, _, hs | .empty, h, _, hs => by
    cases hs
    exact (collects_refl h).around rfl rfl

theorem collects_addHandler (strict : Bool) : ∀ (handler : Option CatchClause) {h h' : Hoisted},
    h.addHandler handler = .ok h' →
    Collects strict (handlerDeclarations strict handler) (handlerWithin handler) h h'
  | none, h, _, hs => by
    cases hs
    exact collects_refl h
  | some (.mk _ body), _, _, hs => collects_addStmts strict body hs

theorem collects_addFinalizer (strict : Bool) : ∀ (finalizer : Option (List Stmt))
    {h h' : Hoisted}, h.addFinalizer finalizer = .ok h' →
    Collects strict (finalizerDeclarations strict finalizer) (finalizerWithin finalizer) h h'
  | none, h, _, hs => by
    cases hs
    exact collects_refl h
  | some body, _, _, hs => collects_addStmts strict body hs

theorem collects_addStmts (strict : Bool) : ∀ (ss : List Stmt) {h h' : Hoisted},
    h.addStmts ss = .ok h' → Collects strict (genDeclarations strict ss) (stmtsWithin ss) h h'
  | [], h, _, hs => by
    cases hs
    exact collects_refl h
  | s :: ss, _, _, hs => by
    obtain ⟨h1, hs, hss⟩ := ok_of_bind hs
    exact (collects_addStmt strict s hs).append (collects_addStmts strict ss hss)

theorem collects_addClauses (strict : Bool) : ∀ (cs : List SwitchClause) {h h' : Hoisted},
    h.addClauses cs = .ok h' →
    Collects strict (genClauseDeclarations strict cs) (clausesWithin cs) h h'
  | [], h, _, hs => by
    cases hs
    exact collects_refl h
  | .mk _ body :: cs, _, _, hs => by
    obtain ⟨h1, hb, hcs⟩ := ok_of_bind hs
    exact (collects_addStmts strict body hb).append (collects_addClauses strict cs hcs)

end

/-! ## Every name is collected -/

section

variable {y : Part}

theorem within_ofExpr {e : Expr} (hy : y ∈ Part.ofExpr e) : y.within = [] := by
  cases y with
  | body ss | stmt s => cases e <;> simp [Part.ofExpr] at hy
  | _ => rfl

theorem within_initializers {declarators : List Declarator}
    (hy : y ∈ Part.initializers declarators) : y.within = [] := by
  obtain ⟨⟨name, init⟩, -, hy⟩ := List.mem_filterMap.mp hy
  obtain ⟨e, -, rfl⟩ := Option.map_eq_some_iff.mp hy
  rfl

theorem within_head {head : ForHead} (hy : y ∈ Part.head head) : y.within = [] := by
  cases head with
  | declaration declarators => exact within_initializers hy
  | expression e =>
    obtain rfl := List.mem_singleton.mp hy
    rfl

theorem within_option {e : Option Expr} (hy : y ∈ (e.map Part.expr).toList) : y.within = [] := by
  obtain ⟨e, -, rfl⟩ := Option.map_eq_some_iff.mp (Option.mem_toList.mp hy)
  rfl

theorem subset_of_nil {l l' : List Stmt} (h : l = []) : l ⊆ l' := h ▸ List.nil_subset l'

theorem within_stmts {ss : List Stmt} {s : Stmt} (h : s ∈ ss) : s.within ⊆ stmtsWithin ss := by
  induction ss with
  | nil => cases h
  | cons s' ss ih =>
    rcases List.mem_cons.mp h with rfl | h
    · exact List.subset_append_left _ _
    · exact List.subset_append_of_subset_right _ (ih h)

theorem within_clauses {cs : List SwitchClause} (hy : y ∈ cs.flatMap Part.clause) :
    y.within ⊆ clausesWithin cs := by
  induction cs with
  | nil => cases hy
  | cons c cs ih =>
    obtain ⟨test, body⟩ := c
    rcases List.mem_append.mp hy with hy | hy
    · rcases List.mem_append.mp hy with hy | hy
      · exact subset_of_nil (within_option hy)
      · obtain rfl := List.mem_singleton.mp hy
        exact List.subset_append_left _ _
    · exact List.subset_append_of_subset_right _ (ih hy)

theorem within_tryCatch {block : List Stmt} {handler : Option CatchClause}
    {finalizer : Option (List Stmt)} (hy : y ∈ Part.ofStmt (.tryCatch block handler finalizer)) :
    y.within ⊆ (Stmt.tryCatch block handler finalizer).within := by
  refine List.subset_cons_of_subset _ ?_
  rcases List.mem_cons.mp hy with rfl | hy
  · exact List.subset_append_left _ _
  refine List.subset_append_of_subset_right _ ?_
  rcases List.mem_append.mp hy with hy | hy
  · obtain ⟨⟨param, body⟩, rfl, rfl⟩ := Option.map_eq_some_iff.mp (Option.mem_toList.mp hy)
    exact List.subset_append_left _ _
  · obtain ⟨body, rfl, rfl⟩ := Option.map_eq_some_iff.mp (Option.mem_toList.mp hy)
    exact List.subset_append_right _ _

theorem within_ifElse {test : Expr} {consequent : Stmt} {alternate : Option Stmt}
    (hy : y ∈ Part.ofStmt (.ifElse test consequent alternate)) :
    y.within ⊆ (Stmt.ifElse test consequent alternate).within := by
  rcases List.mem_cons.mp hy with rfl | hy
  · exact List.nil_subset _
  rcases List.mem_cons.mp hy with rfl | hy
  · cases alternate with
    | none => exact List.subset_cons_self _ _
    | some alternate => exact List.subset_cons_of_subset _ (List.subset_append_left _ _)
  · obtain ⟨alternate, rfl, rfl⟩ := Option.map_eq_some_iff.mp (Option.mem_toList.mp hy)
    exact List.subset_cons_of_subset _ (List.subset_append_right _ _)

theorem within_forLoop {init : Option ForHead} {test update : Option Expr} {body : Stmt}
    (hy : y ∈ Part.ofStmt (.forLoop init test update body)) :
    y.within ⊆ (Stmt.forLoop init test update body).within := by
  rcases List.mem_append.mp hy with hy | hy
  · rcases List.mem_append.mp hy with hy | hy
    · rcases List.mem_append.mp hy with hy | hy
      · cases init with
        | none => cases hy
        | some head => exact subset_of_nil (within_head hy)
      · exact subset_of_nil (within_option hy)
    · exact subset_of_nil (within_option hy)
  · obtain rfl := List.mem_singleton.mp hy
    exact List.subset_cons_self _ _

theorem within_ofStmt {s : Stmt} (hy : y ∈ Part.ofStmt s) : y.within ⊆ s.within := by
  cases s with
  | block body | labeled label body =>
    obtain rfl := List.mem_singleton.mp hy
    exact List.subset_cons_self _ _
  | declaration declarators => exact subset_of_nil (within_initializers hy)
  | function f | expression e | throw e | print e =>
    obtain rfl := List.mem_singleton.mp hy
    exact List.nil_subset _
  | ifElse test consequent alternate => exact within_ifElse hy
  | whileLoop test body | doWhile body test | withObject test body =>
    rcases List.mem_cons.mp hy with rfl | hy
    · exact List.nil_subset _
    · obtain rfl := List.mem_singleton.mp hy
      exact List.subset_cons_self _ _
  | forLoop init test update body => exact within_forLoop hy
  | forIn left right body =>
    rcases List.mem_append.mp hy with hy | hy
    · exact subset_of_nil (within_head hy)
    rcases List.mem_cons.mp hy with rfl | hy
    · exact List.nil_subset _
    · obtain rfl := List.mem_singleton.mp hy
      exact List.subset_cons_self _ _
  | switch discriminant clauses =>
    rcases List.mem_cons.mp hy with rfl | hy
    · exact List.nil_subset _
    · exact List.subset_cons_of_subset _ (within_clauses hy)
  | tryCatch block handler finalizer => exact within_tryCatch hy
  | «return» argument => exact subset_of_nil (within_option hy)
  | «break» label | «continue» label | empty => cases hy

theorem within_parts {x : Part} (hy : y ∈ x.parts) : y.within ⊆ x.within := by
  cases x with
  | body ss =>
    obtain ⟨s, hs, rfl⟩ := List.mem_map.mp hy
    exact within_stmts hs
  | stmt s => exact within_ofStmt hy
  | expr e => exact subset_of_nil (within_ofExpr hy)
  | member m =>
    cases m with
    | value key value =>
      rcases List.mem_cons.mp hy with rfl | hy
      · exact List.nil_subset _
      · obtain rfl := List.mem_singleton.mp hy
        exact List.nil_subset _
    | accessor kind key params body => cases hy
  | function f => cases hy

theorem within_holds {x : Part} (h : x.Holds y) : y.within ⊆ x.within := by
  induction h with
  | self => exact List.Subset.refl _
  | part _ hy ih => exact List.Subset.trans (within_parts hy) ih

theorem mem_within (s : Stmt) : s ∈ s.within := by
  cases s with
  | ifElse test consequent alternate => cases alternate <;> exact List.mem_cons_self
  | _ => exact List.mem_cons_self

theorem mem_of_declares {body : List Stmt} {all : Hoisted} {name : String}
    (hc : Hoisted.collect body = .ok all) (hd : (Part.body body).Declares name) :
    name ∈ all.vars ∨ name ∈ all.functions.map Prod.fst := by
  obtain ⟨s, hholds, hname⟩ := hd
  have hs : s ∈ stmtsWithin body := within_holds hholds (mem_within s)
  obtain ⟨hvars, hfunctions, -⟩ := collects_addStmts false body hc
  rcases List.mem_append.mp hname with hname | hname
  · rw [hvars]
    exact .inl (Hoisted.mem_foldl_enter.mpr (.inr (List.mem_flatMap.mpr ⟨s, hs, hname⟩)))
  · obtain ⟨f, hf, rfl⟩ := List.mem_map.mp hname
    rw [hfunctions]
    exact .inr (List.mem_map_of_mem (List.mem_append_right _ (List.mem_flatMap.mpr ⟨s, hs, hf⟩)))

end

/-! ## The first instructions -/

/-- What the record of a declared function says, and that its unit has the code of the function's
body. -/
structure Records (a : Artifact) (strict : Bool) (f : FunctionDef) (info : FunctionInfo) :
    Prop where
  listed : ∃ id, a.function? id = some info
  name : info.name = f.name
  params : info.params = f.params
  strict : info.strict = (strict || f.strict)
  selfBinding : info.selfBinding = false
  body : ∃ u, a.unit? info.unit = some u ∧ u.role = .function ∧ u.strict = info.strict ∧
    Compiles a u ((Body.declaring f.body).gen info.strict)

/-- Between two stages there are only declarations, and there is one for each of the names. -/
structure Binds (u : CodeUnit) (names : List String) (s s' : Stage) : Prop where
  le : s.offset ≤ s'.offset
  declares : ∀ {k}, s.offset ≤ k → k < s'.offset →
    ∃ i, u.instructions[k]? = some i ∧ i.declares = true
  binds : ∀ {name}, name ∈ names →
    ∃ offset, s.offset ≤ offset ∧ offset < s'.offset ∧ u.BindsAt offset name

section

variable {a : Artifact} {u : CodeUnit} {s s1 s' : Stage} {names names' : List String}

theorem binds_keeps (h : s'.offset = s.offset) : Binds u [] s s' where
  le := Nat.le_of_eq h.symm
  declares _ _ := by omega
  binds := nofun

theorem binds_adds {i : Instruction} (h : Adds u i s s') (hi : i.declares = true)
    (hn : ∀ name ∈ names, u.BindsAt s.offset name) : Binds u names s s' := by
  have hoffset := h.offset
  refine ⟨by omega, fun {k} hk hk' => ?_, fun {name} hname => ?_⟩
  · have hks : k = s.offset := by omega
    rw [hks]
    exact ⟨i, h.code, hi⟩
  · exact ⟨s.offset, Nat.le_refl _, by omega, hn name hname⟩

theorem Binds.append (h : Binds u names s s1) (h' : Binds u names' s1 s') :
    Binds u (names ++ names') s s' := by
  have hle := h.le
  have hle' := h'.le
  refine ⟨Nat.le_trans hle hle', fun {k} hk hk' => ?_, fun {name} hname => ?_⟩
  · by_cases hlt : k < s1.offset
    · exact h.declares hk hlt
    · exact h'.declares (Nat.le_of_not_lt hlt) hk'
  · rcases List.mem_append.mp hname with hname | hname
    · obtain ⟨offset, hge, hlt, hb⟩ := h.binds hname
      exact ⟨offset, hge, by omega, hb⟩
    · obtain ⟨offset, hge, hlt, hb⟩ := h'.binds hname
      exact ⟨offset, by omega, hlt, hb⟩

theorem binds_forM {α : Type} {f : α → Gen Unit} (name : α → String) [hf : ∀ y, Composed (f y)]
    (hstep : ∀ {y s x s'}, Laid a u (f y) s x s' → Binds u [name y] s s') {ys : List α} {x : Unit}
    (h : Laid a u (ys.forM f) s x s') : Binds u (ys.map name) s s' := by
  induction ys generalizing s with
  | nil =>
    obtain ⟨-, rfl⟩ := laid_pure h
    exact binds_keeps rfl
  | cons y ys ih =>
    have : Composed (ys.forM f) := built_forM hf ys
    obtain ⟨_, s1, hy, hys⟩ := laid_bind.mp h
    exact (hstep hy).append (ih hys)

theorem records_genFunction {strict : Bool} {f : FunctionDef} {id : FunctionId}
    (h : Laid a u (genFunction strict false f) s id s') :
    Keeps s s' ∧ ∃ info, a.function? id = some info ∧ Records a strict f info := by
  obtain ⟨name, params, body, ownStrict⟩ := f
  obtain ⟨unit, s1, h1, h2⟩ := laid_bind.mp h
  obtain ⟨k1, u', hu, hrole, hstrict, hcompiles⟩ := laid_inUnit h1
  obtain ⟨hf, k2⟩ := laid_addFunction h2
  exact ⟨⟨k2.offset.trans k1.offset, k2.temps.trans k1.temps⟩, _, hf,
    ⟨id, hf⟩, rfl, rfl, rfl, rfl, u', hu, hrole, hstrict, hcompiles⟩

theorem binds_bindFunction {strict : Bool} {name : String} {f : FunctionDef} {x : Unit}
    (h : Laid a u (bindFunction name (genFunction strict false f)) s x s') :
    Binds u [name] s s' := by
  obtain ⟨n, s1, hf, h⟩ := laid_bind.mp h
  obtain ⟨_, s2, hmake, h⟩ := laid_bind.mp h
  obtain ⟨i, s3, hbinding, hinit⟩ := laid_bind.mp h
  obtain ⟨hoperand, hkeeps⟩ := laid_binding hbinding
  have hinit := laid_emit hinit
  have hmake : Binds u [] s1 s2 := binds_adds (laid_emit hmake) rfl (List.forall_mem_nil _)
  refine ((binds_keeps (records_genFunction hf).1.offset).append hmake).append
    ((binds_keeps hkeeps.offset).append (binds_adds hinit rfl fun name' hname => ?_))
  obtain rfl := List.mem_singleton.mp hname
  exact ⟨i, .inr hinit.code, hoperand⟩

theorem binds_declareVariable {name : String} {x : Unit}
    (h : Laid a u (do emit (.declareVariable (← binding name))) s x s') : Binds u [name] s s' := by
  obtain ⟨i, s1, hbinding, hemit⟩ := laid_bind.mp h
  obtain ⟨hoperand, hkeeps⟩ := laid_binding hbinding
  have hemit := laid_emit hemit
  refine (binds_keeps hkeeps.offset).append (binds_adds hemit rfl fun name' hname => ?_)
  obtain rfl := List.mem_singleton.mp hname
  exact ⟨i, .inl hemit.code, hoperand⟩

theorem bindsAt_of_declares {strict : Bool} {body : List Stmt} {name : String}
    (h : Compiles a u ((Body.declaring body).gen strict)) (hd : (Part.body body).Declares name) :
    ∃ offset, offset < u.prologue ∧ u.BindsAt offset name := by
  obtain ⟨s, s', hlaid, hzero, -⟩ := h
  obtain ⟨all, s1, hhoisted, hlaid⟩ := laid_bind.mp hlaid
  obtain ⟨_, s2, hfunctions, hlaid⟩ := laid_bind.mp hlaid
  obtain ⟨_, s3, hvars, -⟩ := laid_bind.mp hlaid
  obtain ⟨hcollect, rfl⟩ := laid_hoisted hhoisted
  obtain ⟨-, hfs, hgen⟩ := collects_addStmts strict body hcollect
  rw [hgen, ← List.nil_append (List.flatMap ..), ← hfs] at hfunctions
  have hbinds := (binds_forM Prod.fst binds_bindFunction hfunctions).append
    (binds_forM id binds_declareVariable hvars)
  have hmem : name ∈ all.functions.map Prod.fst ++ all.vars.map id := by
    rw [List.map_id, List.mem_append]
    exact (mem_of_declares hcollect hd).symm
  obtain ⟨offset, -, hlt, hb⟩ := hbinds.binds hmem
  refine ⟨offset, Nat.lt_of_lt_of_le hlt ?_, hb⟩
  exact CodeUnit.le_prologue fun k hk => hbinds.declares (by omega) hk

end

end Lowering

end TreeScript
