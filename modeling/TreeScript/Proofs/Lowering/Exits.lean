import TreeScript.Proofs.Lowering.Strictness

/-!
# Where jumps are taken

A loop has two exits in its code, one that takes a `break` and one that takes a `continue`, and a
`switch` has one.  `Stmt.exits` tells from the tree which labels they answer to: those that stand
directly in front of the statement, the outermost first.  All other code is quiet, and the exits of
a unit are those of the part of the program that it is compiled from.
-/

namespace TreeScript

namespace Code

/-- A place that takes the jumps to one of these labels, and those without a target. -/
inductive Exit where
  | onBreak (labels : List String)
  | onContinue (labels : List String)
  deriving DecidableEq

namespace Instruction

def exit? : Instruction → Option Exit
  | jumpIfBreaksHere labels _ => some (.onBreak labels.names)
  | jumpIfContinuesHere labels _ => some (.onContinue labels.names)
  | _ => none

def isQuiet (i : Instruction) : Bool := i.exit?.isNone && i.invoked?.isNone

end Instruction

def CodeUnit.exits (u : CodeUnit) : List Exit := u.instructions.toList.filterMap Instruction.exit?

end Code

open Code

namespace Syntax

mutual

/-- The exits of a statement with these labels directly in front of it.  A block is part of the code
around it, and other bodies are units of their own. -/
def Stmt.exits (labels : List String) : Stmt → List Exit
  | .labeled label body => body.exits (labels ++ [label])
  | .whileLoop .. | .doWhile .. | .forLoop .. | .forIn .. => [.onBreak labels, .onContinue labels]
  | .switch .. => [.onBreak labels]
  | .block body => stmtsExits body
  | _ => []

def stmtsExits : List Stmt → List Exit
  | [] => []
  | s :: ss => s.exits [] ++ stmtsExits ss

end

theorem Stmt.exits_of_not_takesLabel {s : Stmt} (h : s.takesLabel = false)
    (labels labels' : List String) : s.exits labels = s.exits labels' := by
  cases s with
  | labeled | whileLoop | doWhile | forLoop | forIn | switch => cases h
  | _ => rfl

end Syntax

namespace Lowering

open Syntax

def Body.exits : Body → List Exit
  | declaring body | statements body => stmtsExits body
  | statement s => s.exits []

/-! ## Quiet code -/

/-- Code generation that adds no exits and starts no units. -/
class Quiet {α : Type} (g : Gen α) : Prop where
  adds {s s' : Stage} {x : α} : Yields g s x s' →
    ∃ code, s'.builder.instructions.toList = s.builder.instructions.toList ++ code ∧
      ∀ i ∈ code, i.isQuiet = true

section

variable {α β : Type}

theorem quiet_same {g : Gen α}
    (h : ∀ {s s' : Stage} {x : α}, Yields g s x s' →
      s'.builder.instructions = s.builder.instructions) : Quiet g :=
  ⟨fun hy => ⟨[], by rw [h hy, List.append_nil], nofun⟩⟩

theorem quiet_emit {i : Instruction} (h : i.isQuiet = true) : Quiet (emit i) where
  adds hy := by
    cases yields_emit.mp hy
    exact ⟨[i], Array.toList_push, List.forall_mem_singleton.mpr h⟩

instance (x : α) : Quiet (pure x : Gen α) :=
  quiet_same fun hy => by rw [(yields_pure.mp hy).2]

instance {g : Gen α} {f : α → Gen β} [hg : Quiet g] [hf : ∀ x, Quiet (f x)] : Quiet (g >>= f) where
  adds hy := by
    obtain ⟨x, s1, h1, h2⟩ := yields_bind.mp hy
    obtain ⟨code, hcode, hquiet⟩ := hg.adds h1
    obtain ⟨code', hcode', hquiet'⟩ := (hf x).adds h2
    refine ⟨code ++ code', by rw [hcode', hcode, List.append_assoc], fun i hi => ?_⟩
    exact (List.mem_append.mp hi).elim (hquiet i) (hquiet' i)

instance (priority := high) {g : Gen α} {h : Gen β} [Quiet g] [Quiet h] :
    Quiet (g >>= fun _ => h) :=
  inferInstance

instance {g : Gen α} [Quiet g] {f : α → β} : Quiet (f <$> g) := by
  rw [← bind_pure_comp]
  infer_instance

instance {g : Gen α} [Quiet g] : Quiet (discard g) :=
  inferInstanceAs (Quiet ((fun _ => PUnit.unit) <$> g))

instance (count : Nat) : Quiet (newLabels count) :=
  quiet_same fun hy => by rw [(yields_newLabels.mp hy).2]; rfl

instance : Quiet newLabel := newLabel_eq ▸ inferInstance

instance (l : Label) : Quiet (place l) := quiet_same fun hy => by rw [(yields_place.mp hy).2]

instance (o : Operand) : Quiet (intern o) := quiet_same fun hy => by
  rcases yields_intern hy with ⟨-, rfl⟩ | ⟨-, -, -, rfl⟩ <;> rfl

instance (count : Nat) : Quiet (allocate count) :=
  quiet_same fun hy => by rw [(yields_allocate hy).2.1]

instance (op : Operation) (supplied : Nat) : Quiet (operate op supplied) where
  adds hy := by
    obtain ⟨-, rfl⟩ := yields_operate hy
    exact ⟨[.operate op], Array.toList_push, List.forall_mem_singleton.mpr rfl⟩

/-- A unit of its own does not go into the code around it. -/
instance (role : Role) (strict : Bool) (body : Gen Unit) : Quiet (inUnit role strict body) :=
  quiet_same fun hy => by
    obtain ⟨_, _, _, -, -, -, rfl⟩ := yields_inUnit hy
    rfl

instance (info : FunctionInfo) : Quiet (addFunction info) :=
  quiet_same fun hy => by rw [(yields_addFunction.mp hy).2]

instance (construct : Unsupported) : Quiet (unsupported construct : Gen α) :=
  ⟨fun hy => absurd hy not_yields_unsupported⟩

instance (what : Numbered) : Quiet (tooMany what : Gen α) :=
  ⟨fun hy => absurd hy not_yields_tooMany⟩

instance (o : OperandIndex) : Quiet (emit (.load o)) := quiet_emit rfl
instance (o : OperandIndex) (strict : Bool) : Quiet (emit (.store o strict)) := quiet_emit rfl
instance (t : Nat) : Quiet (emit (.storeTemp t)) := quiet_emit rfl
instance (o : OperandIndex) : Quiet (emit (.declareVariable o)) := quiet_emit rfl
instance (f : FunctionId) : Quiet (emit (.makeClosure f)) := quiet_emit rfl
instance : Quiet (emit .pop) := quiet_emit rfl
instance : Quiet (emit .dup) := quiet_emit rfl
instance : Quiet (emit .swap) := quiet_emit rfl
instance (l : Label) : Quiet (emit (.jump l)) := quiet_emit rfl
instance (l : Label) : Quiet (emit (.jumpIfFalse l)) := quiet_emit rfl
instance (l : Label) : Quiet (emit (.jumpIfTrue l)) := quiet_emit rfl
instance (o : OperandIndex) : Quiet (emit (.enterCatch o)) := quiet_emit rfl
instance : Quiet (emit .exitScope) := quiet_emit rfl
instance (keys : Nat) (l : Label) : Quiet (emit (.forInStep keys l)) := quiet_emit rfl
instance : Quiet (emit .normal) := quiet_emit rfl
instance : Quiet (emit .normalValue) := quiet_emit rfl
instance (target : Option String) : Quiet (emit (.breakTo target)) := quiet_emit rfl
instance (target : Option String) : Quiet (emit (.continueTo target)) := quiet_emit rfl
instance : Quiet (emit .returnValue) := quiet_emit rfl
instance : Quiet (emit .throwValue) := quiet_emit rfl
instance (l : Label) : Quiet (emit (.jumpIfAbrupt l)) := quiet_emit rfl
instance (kind : CompletionKind) (l : Label) : Quiet (emit (.jumpUnlessKind kind l)) :=
  quiet_emit rfl
instance : Quiet (emit .merge) := quiet_emit rfl
instance (labels : LabelSet) : Quiet (emit (.consumeBreak labels)) := quiet_emit rfl
instance : Quiet (emit .unwrap) := quiet_emit rfl

/-! ### Shapes -/

instance (o : Operand) : Quiet (load o) := by
  rw [load_eq]
  infer_instance

instance (c : Constant) : Quiet (loadConstant c) := inferInstanceAs (Quiet (load _))

instance (name : String) : Quiet (binding name) := inferInstanceAs (Quiet (intern _))

instance {test : Gen Unit} [Quiet test] : Quiet (condition test) := by
  unfold condition
  infer_instance

instance : Quiet dropBelow := by
  unfold dropBelow
  infer_instance

instance (strict : Bool) (target : Target) : Quiet (target.write strict) := by
  cases target <;> unfold Target.write <;> infer_instance

theorem quiet_forM {f : α → Gen Unit} (h : ∀ x, Quiet (f x)) (xs : List α) :
    Quiet (xs.forM f) := by
  induction xs with
  | nil => exact inferInstanceAs (Quiet (pure _))
  | cons x xs ih => exact inferInstanceAs (Quiet (f x >>= fun _ => xs.forM f))

instance (names : List String) : Quiet (declareVariables names) :=
  quiet_forM (fun _ => inferInstance) names

instance (body : List Stmt) : Quiet (hoisted body) := by
  unfold hoisted
  split <;> infer_instance

instance (declarators : List Declarator) : Quiet (declaredName declarators) := by
  unfold declaredName
  split <;> infer_instance

instance {declarators : List Declarator} {initializers : Gen Unit} [Quiet initializers] :
    Quiet (declaredHead declarators initializers) := by
  unfold declaredHead
  infer_instance

instance (declarators : List Declarator) : Quiet (declaredTarget declarators) := by
  unfold declaredTarget
  infer_instance

instance {right : Gen Unit} {keys : Nat} [Quiet right] : Quiet (listKeys right keys) := by
  unfold listKeys
  infer_instance

instance {strict : Bool} {target : Gen Target} {keys : Nat} {done : Label} [Quiet target] :
    Quiet (assignKey strict target keys done) := by
  unfold assignKey
  infer_instance

instance {subject : Nat} {test : Gen Unit} {clause : Label} [Quiet test] :
    Quiet (caseTest subject test clause) := by
  unfold caseTest
  infer_instance

end

/-! ### Trees

Functions are units of their own, so nothing has to be said of their bodies. -/

theorem Fits.isQuiet {c : Setting} {w : Site} {known : List Reference} {pending : List Label}
    {i : Instruction} (h : Fits c w known pending i) (hc : ¬ c.loud) : i.isQuiet = true := by
  cases i <;> first | rfl | exact absurd h.1 hc | cases h

theorem quiet_of_regular {c : Setting} {w : Site} {known : List Reference} {pending : List Label}
    {t : Nat} {α : Type} {g : Bool → Gen α} {d : Demand} {ok : Prop} {Q : Result α}
    (h : Regular c w known pending t g d ok Q) (hc : ¬ c.loud) : Quiet (g c.strict) := by
  induction h with
  | emit i hi => exact quiet_emit (hi.isQuiet hc)
  | bind _ _ _ ihg ihf =>
    have := ihg hc
    have := fun x => ihf x hc
    infer_instance
  | temporaries count _ ih =>
    have := fun first => ih first hc
    infer_instance
  | enumeration _ _ _ ihs ihe =>
    have := fun keys => ihs keys hc
    have := fun keys => ihe keys hc
    infer_instance
  | invoke hloud => exact absurd hloud hc
  | closure =>
    unfold closure
    infer_instance
  | _ => infer_instance

section

variable (strict : Bool)

def Setting.quiet : Setting := ⟨(Setting.all strict).terrain, [], False⟩

variable {strict} in
theorem Regulates.quiet {g : Bool → Gen Unit} {x : Tally} {ok : Prop}
    (h : Regulates (.quiet strict) g x ok) : Quiet (g strict) := by
  have hstrict : (Setting.quiet strict).strict = strict := strictIn_nil strict
  exact hstrict ▸ quiet_of_regular (h {} [] [] 0) not_false

instance (e : Expr) : Quiet (genExpr strict e) :=
  (regulates_genExpr (.quiet strict) e trivial).quiet

instance (e : Expr) : Quiet (genTarget strict e) := by
  have hstrict : (Setting.quiet strict).strict = strict := strictIn_nil strict
  exact hstrict ▸
    quiet_of_regular (regulates_genTarget (.quiet strict) e trivial {} [] [] 0) not_false

instance (e : Option Expr) : Quiet (genElement strict e) :=
  (regulates_genElement (.quiet strict) e fun _ _ => trivial).quiet

instance (ds : List Declarator) : Quiet (genInitializers strict ds) :=
  (regulates_genInitializers (.quiet strict) ds fun _ _ _ => trivial).quiet

instance (ss : List Stmt) : Quiet (genDeclarations strict ss) :=
  (regulates_genDeclarations (.quiet strict) ss fun _ _ => trivial).quiet

end

instance (strict : Bool) (subject : Nat) (cs : List SwitchClause) (clause : Label)
    (default : Option Label) : Quiet (genTests strict subject cs clause default) := by
  induction cs generalizing clause default with
  | nil => exact inferInstanceAs (Quiet (pure default))
  | cons c cs ih =>
    obtain ⟨_ | test, body⟩ := c
    · exact ih _ _
    · rw [genTests_some]
      infer_instance

/-! ## Exits -/

def Stage.exits (s : Stage) : List Exit :=
  s.builder.instructions.toList.filterMap Instruction.exit?

/-- The code of `g` has these exits. -/
class Exits {α : Type} (g : Gen α) (es : List Exit) : Prop where
  adds {s s' : Stage} {x : α} : Yields g s x s' → s'.exits = s.exits ++ es

section

variable {α β : Type} {es es' : List Exit}

instance (priority := low) {g : Gen α} [h : Quiet g] : Exits g [] where
  adds {s s' x} hy := by
    obtain ⟨code, hcode, hquiet⟩ := h.adds hy
    unfold Stage.exits
    rw [hcode, List.filterMap_append, List.append_right_inj, List.filterMap_eq_nil_iff]
    intro i hi
    exact Option.isNone_iff_eq_none.mp (Bool.and_eq_true_iff.mp (hquiet i hi)).1

theorem exits_emit (i : Instruction) : Exits (emit i) i.exit?.toList where
  adds {s s' x} hy := by
    cases yields_emit.mp hy
    show (s.builder.instructions.push i).toList.filterMap _ = _
    cases hi : i.exit? <;> simp [Stage.exits, hi]

theorem Exits.bind {g : Gen α} {f : α → Gen β} (hg : Exits g es) (hf : ∀ x, Exits (f x) es') :
    Exits (g >>= f) (es ++ es') where
  adds hy := by
    obtain ⟨x, s1, h1, h2⟩ := yields_bind.mp hy
    rw [(hf x).adds h2, hg.adds h1, List.append_assoc]

theorem Exits.after {g : Gen α} {f : α → Gen β} [hg : Exits g []] (hf : ∀ x, Exits (f x) es) :
    Exits (g >>= f) es :=
  hg.bind hf

theorem Exits.before {g : Gen α} {f : α → Gen β} (hg : Exits g es) [hf : ∀ x, Exits (f x) []] :
    Exits (g >>= f) es := by
  have h := hg.bind hf
  rwa [List.append_nil] at h

instance {g : Gen α} {f : α → Gen β} [Exits g []] [hf : ∀ x, Exits (f x) []] :
    Exits (g >>= f) [] :=
  .after hf

instance (priority := high) {g : Gen α} {h : Gen β} [Exits g []] [hh : Exits h []] :
    Exits (g >>= fun _ => h) [] :=
  .after fun _ => hh

instance {p : Prop} [Decidable p] {g g' : Gen α} [Exits g []] [Exits g' []] :
    Exits (if p then g else g') [] := by
  split <;> assumption

/-- The exits of another unit are not its own. -/
instance (role : Role) (strict : Bool) (body : Gen Unit) : Exits (invoke role strict body) [] := by
  exact .after fun id => exits_emit (.invoke id)

/-! ### Shapes -/

instance {test consequent alternate : Gen Unit} [Quiet test] [Exits consequent []]
    [Exits alternate []] : Exits (choice test consequent alternate) [] := by
  unfold choice
  infer_instance

theorem exits_statementList {body : List Stmt} {each : Label → Gen Unit}
    (hnil : body = [] → es = []) (h : ∀ l, Exits (each l) es) :
    Exits (statementList body each) es := by
  cases body with
  | nil =>
    rw [hnil rfl]
    exact inferInstanceAs (Exits (emit _) [])
  | cons s ss =>
    exact .after fun _ => .after fun _ => .after fun _ => .before (h _)

theorem exits_inList {abrupt : Label} {statement : Gen Unit} (h : Exits statement es) :
    Exits (inList abrupt statement) es := by
  exact h.before

theorem exits_iteration {labels : LabelSet} {body : Gen Unit} {next done : Label}
    [Exits body []] :
    Exits (iteration labels body next done) [.onBreak labels.names, .onContinue labels.names] := by
  refine .after fun _ => .after fun broken => .after fun continued => .after fun _ => ?_
  exact (exits_emit (.jumpIfBreaksHere labels broken)).bind fun _ =>
    (exits_emit (.jumpIfContinuesHere labels continued)).before

theorem exits_switchClauses {labels : LabelSet} {count : Nat} {discriminant : Gen Unit}
    {tests : Nat → Label → Gen (Option Label)} {bodies : Label → Label → Gen Unit}
    [Quiet discriminant] [∀ n l, Quiet (tests n l)] [∀ l l', Exits (bodies l l') []] :
    Exits (switchClauses labels count discriminant tests bodies) [.onBreak labels.names] := by
  rw [switchClauses_eq]
  refine .after fun _ => .after fun broken => .after fun _ => .after fun _ => .after fun _ =>
    .after fun _ => .after fun _ => .after fun _ => .after fun _ => .after fun _ => .after fun _ =>
    .after fun _ => ?_
  exact .after fun _ => (exits_emit (.jumpIfBreaksHere labels broken)).before

end

/-! ### Trees -/

instance {g : Gen Unit} (clause abrupt : Label) [Exits g []] :
    Exits (caseBody clause abrupt g) [] := by
  unfold caseBody
  infer_instance

instance (strict : Bool) (cs : List SwitchClause) (abrupt clause : Label) :
    Exits (genClauses strict cs abrupt clause) [] := by
  induction cs generalizing clause with
  | nil => exact inferInstanceAs (Exits (pure ()) [])
  | cons c cs ih =>
    obtain ⟨test, body⟩ := c
    exact .after fun _ => ih (clause + 1)

instance (strict : Bool) (alternate : Option Stmt) : Exits (otherwise strict alternate) [] := by
  cases alternate <;> unfold otherwise <;> infer_instance

instance (strict : Bool) (init : Option ForHead) : Quiet (forInit strict init) := by
  rcases init with _ | _ | _ <;> unfold forInit <;> infer_instance

instance (strict : Bool) (update : Option Expr) : Quiet (forUpdate strict update) := by
  cases update <;> unfold forUpdate <;> infer_instance

instance (strict : Bool) (done : Label) (test : Option Expr) :
    Quiet (forTest done (test.map (genExpr strict))) := by
  cases test with
  | none => exact inferInstanceAs (Quiet (pure ()))
  | some e =>
    exact inferInstanceAs (Quiet (do condition (genExpr strict e); emit (.jumpIfFalse done)))

instance (strict : Bool) (body : Stmt) : Exits (loopBody strict body) [] := by
  unfold loopBody
  infer_instance

instance (strict : Bool) (handler : Option CatchClause) : Exits (tryHandler strict handler) [] := by
  rcases handler with _ | ⟨param, body⟩
  · exact inferInstanceAs (Exits (pure ()) [])
  · show Exits (catchThrown param _) []
    unfold catchThrown
    infer_instance

instance (strict : Bool) (finalizer : Option (List Stmt)) :
    Exits (tryFinalizer strict finalizer) [] := by
  cases finalizer with
  | none => exact inferInstanceAs (Exits (pure ()) [])
  | some body =>
    show Exits (withFinalizer _) []
    unfold withFinalizer
    infer_instance

section

variable (strict : Bool) (labels : List String)

theorem exits_forIn {head right : Gen Unit} {target : Gen Target} {body : Stmt} [Quiet head]
    [Quiet right] [Quiet target] :
    Exits (forInLoop strict ⟨labels⟩ head right target (loopBody strict body))
      [.onBreak labels, .onContinue labels] := by
  rw [forInLoop_eq]
  exact .after fun _ => .after fun _ => .after fun _ => .after fun _ => .after fun _ =>
    .after fun _ => .after fun _ => .after fun _ => .before exits_iteration

end

mutual

theorem exits_genStmt (strict : Bool) (labels : List String) :
    (s : Stmt) → (s.takesLabel = false → labels = []) →
      Exits (genStmt strict labels s) (s.exits labels)
  | .block body, hp => by
    rw [hp rfl]
    exact exits_statementList (by rintro rfl; rfl) (exits_genStatements strict body)
  | .declaration declarators, _ => .after fun _ => exits_emit _
  | .function _, _ | .break _, _ | .continue _, _ | .empty, _ => inferInstanceAs (Exits (emit _) [])
  | .expression e, _ | .throw e, _ => .after fun _ => exits_emit _
  | .ifElse test consequent alternate, _ => by
    rw [genStmt_ifElse]
    exact inferInstanceAs (Exits _ [])
  | .whileLoop test body, _ =>
    .after fun _ => .after fun _ => .after fun _ => .after fun _ => .after fun _ =>
      .after fun _ => .before exits_iteration
  | .doWhile body test, _ =>
    .after fun _ => .after fun _ => .after fun _ => .after fun _ => .after fun _ =>
      .before exits_iteration
  | .forLoop init test update body, _ => by
    rw [genStmt_forLoop, forLoop_eq]
    exact .after fun _ => .after fun _ => .after fun _ => .after fun _ => .after fun _ =>
      .after fun _ => .after fun _ => .before exits_iteration
  | .forIn (.expression _) _ _, _ | .forIn (.declaration _) _ _, _ => exits_forIn strict labels
  | .switch _ _, _ => exits_switchClauses
  | .tryCatch block handler finalizer, _ => by
    rw [genStmt_tryCatch]
    exact inferInstanceAs (Exits (ite _ _ _) [])
  | .return argument, _ => by
    rw [genStmt_return]
    exact inferInstanceAs (Exits _ [])
  | .labeled label body, _ => by
    have h := exits_genStmt strict (if body.takesLabel then labels ++ [label] else []) body
      fun ht => if_neg (Bool.eq_false_iff.mp ht)
    have hexits : body.exits (if body.takesLabel then labels ++ [label] else []) =
        body.exits (labels ++ [label]) := by
      cases ht : body.takesLabel with
      | true => rfl
      | false => exact Stmt.exits_of_not_takesLabel ht _ _
    rw [hexits] at h
    exact h.before
  | .print argument, _ => .after fun _ => .after fun _ => .after fun _ => exits_emit _
  | .withObject _ _, _ => inferInstanceAs (Exits (unsupported _) [])

theorem exits_genStatements (strict : Bool) :
    (ss : List Stmt) → (abrupt : Label) → Exits (genStatements strict [] ss abrupt) (stmtsExits ss)
  | [], _ => inferInstanceAs (Exits (pure ()) [])
  | s :: ss, abrupt => by
    rw [genStatements_cons]
    exact (exits_inList (exits_genStmt strict [] s fun _ => rfl)).bind fun _ =>
      exits_genStatements strict ss abrupt

end

theorem exits_gen (strict : Bool) (source : Body) : Exits (source.gen strict) source.exits := by
  have hlist (body : List Stmt) :
      Exits (statementList body (genStatements strict [] body)) (stmtsExits body) :=
    exits_statementList (by rintro rfl; rfl) (exits_genStatements strict body)
  cases source with
  | declaring body =>
    show Exits (declaringBody body _ _) _
    exact .after fun _ => .after fun _ => .after fun _ => hlist body
  | statements body => exact hlist body
  | statement s => exact exits_genStmt strict [] s fun _ => rfl

theorem exits_of_compiles {a : Artifact} {u : CodeUnit} {source : Body} {strict : Bool}
    (h : Compiles a u (source.gen strict)) : u.exits = source.exits := by
  obtain ⟨s, s', hlaid, hfirst, -, hlast, -⟩ := h
  have hadds := (exits_gen strict source).adds hlaid.yields
  have hempty : s.builder.instructions = #[] := Array.eq_empty_of_size_eq_zero hfirst
  have hcode : u.instructions = s'.builder.instructions := by
    refine Array.ext hlast.symm fun i hi hi' => ?_
    have hget := hlaid.within.instructions (Array.getElem?_eq_getElem hi')
    exact (Array.getElem?_eq_some_iff.mp hget).2
  unfold Stage.exits at hadds
  unfold CodeUnit.exits
  rw [hcode, hadds, hempty]
  rfl

theorem isQuiet_of_laid {α : Type} {a : Artifact} {u : CodeUnit} {g : Gen α} {s s' : Stage} {x : α}
    [hg : Quiet g] (h : Laid a u g s x s') {k : Nat} {i : Instruction} (hk : s.offset ≤ k)
    (hk' : k < s'.offset) (hi : u.instructions[k]? = some i) : i.isQuiet = true := by
  obtain ⟨code, hcode, hquiet⟩ := hg.adds h.yields
  have hget : s'.builder.instructions[k]? = some i := by
    have hextends := h.within.instructions (Array.getElem?_eq_getElem hk')
    rw [hi] at hextends
    rw [Array.getElem?_eq_getElem hk']
    exact hextends.symm
  rw [← Array.getElem?_toList, hcode,
    List.getElem?_append_right (by simpa [Stage.offset] using hk)] at hget
  exact hquiet i (List.mem_of_getElem? hget)

/-! ## Units that are started in a stretch of code -/

/-- The code between two stages starts the unit `id` at the offset `k`. -/
structure Starts (u : CodeUnit) (s s' : Stage) (k : Nat) (id : UnitId) : Prop where
  code : u.instructions[k]? = some (.invoke id)
  first : s.offset ≤ k
  last : k < s'.offset

variable {α : Type} {a : Artifact} {u : CodeUnit} {s s' s1 : Stage} {i : Instruction} {k : Nat}
  {id : UnitId}

/-- No unit is started between two stages. -/
def Still (u : CodeUnit) (s s' : Stage) : Prop := ∀ k id, ¬ Starts u s s' k id

theorem still_quiet {g : Gen α} [Quiet g] {x : α} (h : Laid a u g s x s') :
    Still u s s' := by
  intro k id hk
  cases isQuiet_of_laid h hk.first hk.last hk.code

theorem still_adds (h : Adds u i s s') (hi : i.invoked? = none) :
    Still u s s' := by
  intro k id hk
  have hoffset := h.offset
  have hks : k = s.offset := by
    have := hk.first
    have := hk.last
    omega
  have hcode := hk.code
  rw [hks, h.code] at hcode
  cases hcode
  cases hi

theorem Starts.split (h : Starts u s s' k id) (s1 : Stage) :
    Starts u s s1 k id ∨ Starts u s1 s' k id := by
  rcases Nat.lt_or_ge k s1.offset with hlt | hge
  · exact .inl ⟨h.code, h.first, hlt⟩
  · exact .inr ⟨h.code, hge, h.last⟩

theorem Starts.after (h : Starts u s s' k id) (hs : Still u s s1) : Starts u s1 s' k id :=
  (h.split s1).resolve_left (hs k id)

theorem Starts.before (h : Starts u s s' k id) (hs : Still u s1 s') : Starts u s s1 k id :=
  (h.split s1).resolve_right (hs k id)

theorem Starts.skip {g : Gen α} [Quiet g] {x : α} (hk : Starts u s s' k id)
    (h : Laid a u g s x s1) : Starts u s1 s' k id :=
  hk.after (still_quiet h)

theorem Starts.cut {g : Gen α} [Quiet g] {x : α} (hk : Starts u s s' k id)
    (h : Laid a u g s1 x s') : Starts u s s1 k id :=
  hk.before (still_quiet h)

theorem Still.trans (h : Still u s s1) (h' : Still u s1 s') : Still u s s' :=
  fun k id hk => h' k id (hk.after h)

theorem Starts.eq (h : Starts u s s' k id) (hadds : Adds u i s s') :
    k = s.offset ∧ i = .invoke id := by
  have hoffset := hadds.offset
  have hk : k = s.offset := by
    have := h.first
    have := h.last
    omega
  have hcode := h.code
  rw [hk, hadds.code] at hcode
  exact ⟨hk, Option.some.inj hcode⟩

/-- A unit is started at one place between two stages, and no other. -/
structure StartsOne (u : CodeUnit) (s s' : Stage) (k : Nat) (id : UnitId) : Prop
    extends Starts u s s' k id where
  only : ∀ {k' id'}, Starts u s s' k' id' → k' = k ∧ id' = id

theorem startsOne_adds (h : Adds u (.invoke id) s s') : StartsOne u s s' s.offset id where
  code := h.code
  first := Nat.le_refl _
  last := Nat.lt_of_lt_of_eq (Nat.lt_succ_self _) h.offset.symm
  only hk := by
    obtain ⟨hoffset, hid⟩ := hk.eq h
    cases hid
    exact ⟨hoffset, rfl⟩

namespace StartsOne

theorem skip {g : Gen α} [Quiet g] [Composed g] {x : α} (h : StartsOne u s1 s' k id)
    (hg : Laid a u g s x s1) : StartsOne u s s' k id :=
  ⟨⟨h.code, Nat.le_trans (laid_offset_le hg) h.first, h.last⟩, fun hk => h.only (hk.skip hg)⟩

theorem cut {g : Gen α} [Quiet g] [Composed g] {x : α} (h : StartsOne u s s1 k id)
    (hg : Laid a u g s1 x s') : StartsOne u s s' k id :=
  ⟨⟨h.code, h.first, Nat.lt_of_lt_of_le h.last (laid_offset_le hg)⟩, fun hk => h.only (hk.cut hg)⟩

theorem pass (h : StartsOne u s s1 k id) (hadds : Adds u i s1 s') (hi : i.invoked? = none) :
    StartsOne u s s' k id :=
  ⟨⟨h.code, h.first, Nat.lt_trans h.last (hadds.offset ▸ Nat.lt_succ_self _)⟩,
    fun hk => h.only (hk.before (still_adds hadds hi))⟩

end StartsOne

end Lowering
end TreeScript
