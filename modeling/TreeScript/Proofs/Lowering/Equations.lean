import TreeScript.Lowering.Tree

/-!
# The code of each construct

What is generated for each kind of expression and statement, as equations to rewrite with.
-/

namespace TreeScript.Lowering

open Code Syntax

variable (strict : Bool)

/-! ## Shapes -/

def decidingJump : LogicalOp → Label → Instruction
  | .and, l => .jumpIfFalse l
  | .or, l => .jumpIfTrue l

theorem shortCircuit_eq (op : LogicalOp) (left right : Gen Unit) :
    shortCircuit op left right = (do
      let done ← newLabel
      left
      emit .dup
      operate .toBoolean 1
      emit (decidingJump op done)
      emit .pop
      right
      place done) := by
  cases op <;> rfl

theorem updateTarget_prefixed (op : UpdateOp) (target : Gen Target) :
    updateTarget strict op true target = (do
      let target ← target
      target.read
      operate .toNumber 1
      loadConstant (.number (Number.ofNat 1))
      operate (.ofUpdate op) 2
      target.write strict) :=
  rfl

theorem updateTarget_postfixed (op : UpdateOp) (target : Gen Target) :
    updateTarget strict op false target = (do
      let target ← target
      target.read
      operate .toNumber 1
      let old ← allocate 1
      emit (.storeTemp old)
      load (.temporary old)
      loadConstant (.number (Number.ofNat 1))
      operate (.ofUpdate op) 2
      target.write strict
      emit .pop
      load (.temporary old)) :=
  rfl

theorem assignTarget_none (target : Gen Target) (value : Gen Unit) :
    assignTarget strict none target value = (do
      let target ← target
      value
      target.write strict) :=
  rfl

theorem assignTarget_some (op : BinaryOp) (target : Gen Target) (value : Gen Unit) :
    assignTarget strict (some op) target value = (do
      let target ← target
      target.read
      value
      operate (.ofBinary op) 2
      target.write strict) :=
  rfl

theorem statementList_cons (s : Stmt) (ss : List Stmt) (each : Label → Gen Unit) :
    statementList (s :: ss) each = (do
      emit .normal
      let abrupt ← newLabel
      let done ← newLabel
      each abrupt
      emit (.jump done)
      place abrupt
      dropBelow
      place done) :=
  rfl

def forTest (done : Label) : Option (Gen Unit) → Gen Unit
  | none => pure ()
  | some test => do
    condition test
    emit (.jumpIfFalse done)

theorem forLoop_eq (labels : LabelSet) (init : Gen Unit) (test : Option (Gen Unit))
    (update body : Gen Unit) :
    forLoop labels init test update body = (do
      let again ← newLabel
      let next ← newLabel
      let done ← newLabel
      init
      emit .normal
      place again
      forTest done test
      iteration labels body next done
      place next
      update
      emit (.jump again)
      place done) := by
  cases test with
  | none => rfl
  | some test =>
    simp only [forTest, bind_assoc]
    rfl

def listKeys (right : Gen Unit) (keys : Nat) : Gen Unit := do
  right
  emit .dup
  emit (.storeTemp (keys + 2))
  operate .enumerateKeys 1
  emit (.storeTemp keys)
  loadConstant (.number (Number.ofNat 0))
  emit (.storeTemp (keys + 1))

def assignKey (strict : Bool) (target : Gen Target) (keys : Nat) (done : Label) : Gen Unit := do
  emit (.forInStep keys done)
  emit (.storeTemp (keys + 3))
  let target ← target
  load (.temporary (keys + 3))
  target.write strict
  emit .pop

theorem forInLoop_eq (labels : LabelSet) (head right : Gen Unit) (target : Gen Target)
    (body : Gen Unit) :
    forInLoop strict labels head right target body = (do
      let next ← newLabel
      let done ← newLabel
      let keys ← allocate 4
      head
      emit .normal
      listKeys right keys
      place next
      assignKey strict target keys done
      iteration labels body next done
      place done) := by
  simp only [forInLoop, listKeys, assignKey, bind_assoc]

def endSwitch (labels : LabelSet) (abrupt broken done : Label) : Gen Unit := do
  place abrupt
  emit (.jumpIfBreaksHere labels broken)
  dropBelow
  emit (.jump done)
  place broken
  emit .merge
  place done

theorem switchClauses_eq (labels : LabelSet) (count : Nat) (discriminant : Gen Unit)
    (tests : Nat → Label → Gen (Option Label)) (bodies : Label → Label → Gen Unit) :
    switchClauses labels count discriminant tests bodies = (do
      let abrupt ← newLabel
      let broken ← newLabel
      let done ← newLabel
      let first ← newLabels count
      let subject ← allocate 1
      discriminant
      emit (.storeTemp subject)
      emit .normal
      let default ← tests subject first
      emit (.jump (default.getD done))
      bodies abrupt first
      emit (.jump done)
      endSwitch labels abrupt broken done) :=
  rfl

/-! ## Expressions -/

theorem genExpr_array (elements : List (Option Expr)) : genExpr strict (.array elements) = (do
    unless elements.length < 0x100000000 do
      tooMany .arrayElements
    genElements strict elements
    operate (.newArray elements.length) elements.length) :=
  rfl

def callWith (strict : Bool) (arguments : List Expr) : Gen Unit := do
  let argc ← argumentCount arguments
  genExprs strict arguments
  operate (.call argc) (argc + 2)

theorem genFunction_eq (selfBinding : Bool) (name : Option String) (params : List String)
    (body : List Stmt) (ownStrict : Bool) :
    genFunction strict selfBinding (.mk name params body ownStrict) = (do
      let unit ← inUnit .function (strict || ownStrict)
        ((Body.declaring body).gen (strict || ownStrict))
      addFunction { unit, name, params, strict := strict || ownStrict, selfBinding }) :=
  rfl

/-! ## Declarations -/

def handlerDeclarations (strict : Bool) : Option CatchClause → Gen Unit
  | none => pure ()
  | some (.mk _ body) => genDeclarations strict body

def finalizerDeclarations (strict : Bool) : Option (List Stmt) → Gen Unit
  | none => pure ()
  | some body => genDeclarations strict body

theorem genDeclaration_tryCatch (block : List Stmt) (handler : Option CatchClause)
    (finalizer : Option (List Stmt)) :
    genDeclaration strict (.tryCatch block handler finalizer) = (do
      genDeclarations strict block
      handlerDeclarations strict handler
      finalizerDeclarations strict finalizer) := by
  rcases handler with _ | ⟨param, body⟩ <;> cases finalizer <;> rfl

theorem genInitializers_some (name : String) (e : Expr) (ds : List Declarator) :
    genInitializers strict (.mk name (some e) :: ds) = (do
      genExpr strict e
      emit (.store (← binding name) strict)
      emit .pop
      genInitializers strict ds) :=
  rfl

/-! ## Statements -/

mutual

/-- No label waits behind a statement, if labels wait in front of it only when it takes them. -/
theorem pendingAfter_eq_nil :
    (s : Stmt) → ∀ {pending : List String}, (s.takesLabel = false → pending = []) →
      pendingAfter pending s = []
  | .block body, _, h => by
    rw [h rfl]
    exact pendingAfterAll_nil body
  | .labeled label body, pending, _ => by
    refine pendingAfter_eq_nil body fun ht => ?_
    rw [ht]
    rfl
  | .whileLoop _ _, _, _ | .doWhile _ _, _, _ | .forLoop _ _ _ _, _, _ | .forIn _ _ _, _, _
  | .switch _ _, _, _ => rfl
  | .declaration _, _, h | .function _, _, h | .expression _, _, h | .ifElse _ _ _, _, h
  | .tryCatch _ _ _, _, h | .throw _, _, h | .return _, _, h | .break _, _, h | .continue _, _, h
  | .print _, _, h | .withObject _ _, _, h | .empty, _, h => h rfl

theorem pendingAfterAll_nil : (ss : List Stmt) → pendingAfterAll [] ss = []
  | [] => rfl
  | s :: ss => by
    show pendingAfterAll (pendingAfter [] s) ss = []
    rw [pendingAfter_eq_nil s fun _ => rfl]
    exact pendingAfterAll_nil ss

end

theorem genStatements_cons (s : Stmt) (ss : List Stmt) (abrupt : Label) :
    genStatements strict [] (s :: ss) abrupt = (do
      inList abrupt (genStmt strict [] s)
      genStatements strict [] ss abrupt) := by
  show (do
    inList abrupt (genStmt strict [] s)
    genStatements strict (pendingAfter [] s) ss abrupt) = _
  rw [pendingAfter_eq_nil s fun _ => rfl]

theorem genTests_some (subject : Nat) (test : Expr) (body : List Stmt) (cs : List SwitchClause)
    (clause : Label) (default : Option Label) :
    genTests strict subject (.mk (some test) body :: cs) clause default = (do
      caseTest subject (genExpr strict test) clause
      genTests strict subject cs (clause + 1) default) :=
  rfl

variable (labels : List String)

def otherwise (strict : Bool) : Option Stmt → Gen Unit
  | none => emit .normal
  | some alternate => invoke .else strict ((Body.statement alternate).gen strict)

theorem genStmt_ifElse (test : Expr) (consequent : Stmt) (alternate : Option Stmt) :
    genStmt strict labels (.ifElse test consequent alternate) =
      choice (genExpr strict test)
        (invoke .then strict ((Body.statement consequent).gen strict))
        (otherwise strict alternate) := by
  cases alternate <;> rfl

def loopBody (strict : Bool) (body : Stmt) : Gen Unit :=
  invoke .body strict ((Body.statement body).gen strict)

theorem genStmt_whileLoop (test : Expr) (body : Stmt) :
    genStmt strict labels (.whileLoop test body) =
      whileLoop ⟨labels⟩ (genExpr strict test) (loopBody strict body) :=
  rfl

theorem genStmt_doWhile (body : Stmt) (test : Expr) :
    genStmt strict labels (.doWhile body test) =
      doWhileLoop ⟨labels⟩ (loopBody strict body) (genExpr strict test) :=
  rfl

def forInit (strict : Bool) : Option ForHead → Gen Unit
  | none => pure ()
  | some (.declaration declarators) => genInitializers strict declarators
  | some (.expression e) => do
    genExpr strict e
    emit .pop

def forUpdate (strict : Bool) : Option Expr → Gen Unit
  | none => pure ()
  | some e => do
    genExpr strict e
    emit .pop

theorem genStmt_forLoop (init : Option ForHead) (test update : Option Expr) (body : Stmt) :
    genStmt strict labels (.forLoop init test update body) =
      forLoop ⟨labels⟩ (forInit strict init) (test.map (genExpr strict)) (forUpdate strict update)
        (loopBody strict body) := by
  rcases init with _ | _ | _ <;> cases test <;> cases update <;> rfl

theorem genStmt_switch (discriminant : Expr) (clauses : List SwitchClause) :
    genStmt strict labels (.switch discriminant clauses) =
      switchClauses ⟨labels⟩ clauses.length (genExpr strict discriminant)
        (fun subject first => genTests strict subject clauses first none)
        (fun abrupt first => genClauses strict clauses abrupt first) :=
  rfl

def tryHandler (strict : Bool) : Option CatchClause → Gen Unit
  | none => pure ()
  | some (.mk param body) =>
    catchThrown param (invoke .catch strict ((Body.statements body).gen strict))

def tryFinalizer (strict : Bool) : Option (List Stmt) → Gen Unit
  | none => pure ()
  | some body => withFinalizer (invoke .finally strict ((Body.statements body).gen strict))

theorem genStmt_tryCatch (block : List Stmt) (handler : Option CatchClause)
    (finalizer : Option (List Stmt)) :
    genStmt strict labels (.tryCatch block handler finalizer) = (do
      if handler.isNone && finalizer.isNone then
        unsupported .bareTry
      invoke .body strict ((Body.statements block).gen strict)
      tryHandler strict handler
      tryFinalizer strict finalizer) := by
  rcases handler with _ | ⟨param, body⟩ <;> cases finalizer
  · rfl
  · simp only [tryHandler, pure_bind]
    rfl
  · rfl
  · rfl

theorem genStmt_return (argument : Option Expr) :
    genStmt strict labels (.return argument) = (do
      genElement strict argument
      emit .returnValue) := by
  cases argument <;> rfl

end TreeScript.Lowering
