import TreeScript.Lowering.Shape

/-!
# Compiling program trees

The code of each expression and statement, by recursion on the tree, and the compiler built on it.
A label waits until a loop or a `switch` takes it, so a statement is given the labels that wait in
front of it, and hands on those that still wait behind it.
-/

namespace TreeScript.Lowering

open Code Syntax

mutual

/-- The labels that wait behind a statement, if `pending` wait in front of it.  A label that is in
front of anything but a loop, a `switch` or another label makes all be forgotten. -/
def pendingAfter (pending : List String) : Stmt → List String
  | .block body => pendingAfterAll pending body
  | .whileLoop .. | .doWhile .. | .forLoop .. | .forIn .. | .switch .. => []
  | .labeled label body => pendingAfter (if body.takesLabel then pending ++ [label] else []) body
  | _ => pending

def pendingAfterAll (pending : List String) : List Stmt → List String
  | [] => pending
  | s :: ss => pendingAfterAll (pendingAfter pending s) ss

end

mutual

def genExpr (strict : Bool) : Expr → Gen Unit
  | .this => emit .loadThis
  | .undefined => loadConstant .undefined
  | .null => loadConstant .null
  | .boolean value => loadConstant (.boolean value)
  | .number value => loadConstant (.number value)
  | .string value => loadConstant (.string value)
  | .regExp pattern flags => do
    loadConstant (.string pattern)
    loadConstant (.string flags)
    operate .newRegExp 2
  | .identifier name => load (.binding name)
  | .array elements => do
    let length := elements.length
    unless length < 0x100000000 do
      tooMany .arrayElements
    genElements strict elements
    operate (.newArray length) length
  | .object members => do
    operate .newObject 0
    genMembers strict members
  | .function definition => do
    emit (.makeClosure (← genFunction strict definition.name.isSome definition))
  | .member object property computed => do
    genExpr strict object
    memberKey computed property (genExpr strict property)
    operate .getProperty 2
  | .call callee arguments => do
    match callee with
    | .member object property computed =>
      genExpr strict object
      emit .dup
      memberKey computed property (genExpr strict property)
      operate .getProperty 2
    | function =>
      loadConstant .undefined
      genExpr strict function
    let argc ← argumentCount arguments
    genExprs strict arguments
    operate (.call argc) (argc + 2)
  | .construct callee arguments => do
    genExpr strict callee
    let argc ← argumentCount arguments
    genExprs strict arguments
    operate (.construct argc) (argc + 1)
  | .unary .delete argument =>
    match argument with
    | .identifier name => do
      emit (.deleteVariable (← binding name))
    | .member object property computed => do
      genExpr strict object
      memberKey computed property (genExpr strict property)
      operate (.deleteProperty strict) 2
    | other => do
      genExpr strict other
      emit .pop
      loadConstant (.boolean true)
  | .unary .void argument => do
    genExpr strict argument
    emit .pop
    loadConstant .undefined
  | .unary .typeOf argument =>
    match argument with
    | .identifier name => do
      emit (.typeOfVariable (← binding name))
    | other => do
      genExpr strict other
      operate .typeOf 1
  | .unary op argument =>
    match Operation.ofUnary? op with
    | none => unsupported .unaryOperator
    | some operation => do
      genExpr strict argument
      operate operation 1
  | .update op argument prefixed => updateTarget strict op prefixed (genTarget strict argument)
  | .binary op left right => do
    genExpr strict left
    genExpr strict right
    operate (.ofBinary op) 2
  | .logical op left right => shortCircuit op (genExpr strict left) (genExpr strict right)
  | .conditional test consequent alternate =>
    choice (genExpr strict test) (genExpr strict consequent) (genExpr strict alternate)
  | .assignment op target value =>
    assignTarget strict op.binary? (genTarget strict target) (genExpr strict value)
  | .sequence expressions => genSequence strict expressions

/-- The parts of an assignment target that come before the value. -/
def genTarget (strict : Bool) : Expr → Gen Target
  | .identifier name => return .binding (← binding name)
  | .member object property computed => do
    genExpr strict object
    memberKey computed property (genExpr strict property)
    return .property
  | _ => unsupported .assignmentTarget

def genExprs (strict : Bool) : List Expr → Gen Unit
  | [] => return ()
  | e :: es => do
    genExpr strict e
    genExprs strict es

def genSequence (strict : Bool) : List Expr → Gen Unit
  | [] => loadConstant .undefined
  | [e] => genExpr strict e
  | e :: es => do
    genExpr strict e
    emit .pop
    genSequence strict es

def genElement (strict : Bool) : Option Expr → Gen Unit
  | none => loadConstant .undefined
  | some e => genExpr strict e

def genElements (strict : Bool) : List (Option Expr) → Gen Unit
  | [] => return ()
  | e :: es => do
    genElement strict e
    genElements strict es

def genMember (strict : Bool) : Member → Gen Unit
  | .value key value => do
    loadConstant (.string (← literalKey key))
    genExpr strict value
    operate .defineProperty 3
  | .accessor .get _ _ _ => unsupported .getter
  | .accessor .set _ _ _ => unsupported .setter

def genMembers (strict : Bool) : List Member → Gen Unit
  | [] => return ()
  | m :: ms => do
    genMember strict m
    genMembers strict ms

def genFunction (strict selfBinding : Bool) : FunctionDef → Gen FunctionId
  | .mk name params body ownStrict => do
    let strict := strict || ownStrict
    let unit ← inUnit .function strict
      (declaringBody body (genDeclarations strict body)
        (statementList body (genStatements strict [] body)))
    addFunction { unit, name, params, strict, selfBinding }

/-- Binds the function declarations of a statement, nested blocks included. -/
def genDeclaration (strict : Bool) : Stmt → Gen Unit
  | .block body => genDeclarations strict body
  | .function definition =>
    match definition.name with
    | none => unsupported .namelessFunction
    | some name => bindFunction name (genFunction strict false definition)
  | .ifElse _ consequent alternate => do
    genDeclaration strict consequent
    match alternate with
    | none => return ()
    | some alternate => genDeclaration strict alternate
  | .whileLoop _ body | .doWhile body _ | .labeled _ body | .withObject _ body
  | .forLoop _ _ _ body | .forIn _ _ body => genDeclaration strict body
  | .switch _ clauses => genClauseDeclarations strict clauses
  | .tryCatch block handler finalizer => do
    genDeclarations strict block
    match handler with
    | none => pure ()
    | some (.mk _ body) => genDeclarations strict body
    match finalizer with
    | none => return ()
    | some body => genDeclarations strict body
  | .declaration _ | .expression _ | .throw _ | .return _ | .break _ | .continue _ | .print _
  | .empty => return ()

def genDeclarations (strict : Bool) : List Stmt → Gen Unit
  | [] => return ()
  | s :: ss => do
    genDeclaration strict s
    genDeclarations strict ss

def genClauseDeclarations (strict : Bool) : List SwitchClause → Gen Unit
  | [] => return ()
  | .mk _ body :: cs => do
    genDeclarations strict body
    genClauseDeclarations strict cs

def genInitializers (strict : Bool) : List Declarator → Gen Unit
  | [] => return ()
  | .mk name init :: ds => do
    match init with
    | none => pure ()
    | some e =>
      genExpr strict e
      emit (.store (← binding name) strict)
      emit .pop
    genInitializers strict ds

def genStatements (strict : Bool) (pending : List String) : List Stmt → Label → Gen Unit
  | [], _ => return ()
  | s :: ss, abrupt => do
    inList abrupt (genStmt strict pending s)
    genStatements strict (pendingAfter pending s) ss abrupt

/-- The tests of the clauses from `clause` on.  The result is the last default. -/
def genTests (strict : Bool) (subject : Nat) : List SwitchClause → Label → Option Label →
    Gen (Option Label)
  | [], _, default => return default
  | .mk none _ :: cs, clause, _ => genTests strict subject cs (clause + 1) (some clause)
  | .mk (some test) _ :: cs, clause, default => do
    caseTest subject (genExpr strict test) clause
    genTests strict subject cs (clause + 1) default

def genClauses (strict : Bool) : List SwitchClause → Label → Label → Gen Unit
  | [], _, _ => return ()
  | .mk test body :: cs, abrupt, clause => do
    let role : Role := if test.isNone then .default else .case
    caseBody clause abrupt
      (invoke role strict (statementList body (genStatements strict [] body)))
    genClauses strict cs abrupt (clause + 1)

def genStmt (strict : Bool) (pending : List String) : Stmt → Gen Unit
  | .block body => statementList body (genStatements strict pending body)
  | .declaration declarators => do
    genInitializers strict declarators
    emit .normal
  | .function _ => emit .normal
  | .expression e => do
    genExpr strict e
    emit .normalValue
  | .ifElse test consequent alternate =>
    let otherwise := match alternate with
      | none => emit .normal
      | some alternate => invoke .else strict (genStmt strict [] alternate)
    choice (genExpr strict test) (invoke .then strict (genStmt strict [] consequent)) otherwise
  | .whileLoop test body =>
    whileLoop ⟨pending⟩ (genExpr strict test) (invoke .body strict (genStmt strict [] body))
  | .doWhile body test =>
    doWhileLoop ⟨pending⟩ (invoke .body strict (genStmt strict [] body)) (genExpr strict test)
  | .forLoop init test update body =>
    let init := match init with
      | none => pure ()
      | some (.declaration declarators) => genInitializers strict declarators
      | some (.expression e) => do
        genExpr strict e
        emit .pop
    let test := match test with
      | none => none
      | some e => some (genExpr strict e)
    let update := match update with
      | none => pure ()
      | some e => do
        genExpr strict e
        emit .pop
    forLoop ⟨pending⟩ init test update (invoke .body strict (genStmt strict [] body))
  | .forIn (.expression target) right body =>
    forInLoop strict ⟨pending⟩ (pure ()) (genExpr strict right) (genTarget strict target)
      (invoke .body strict (genStmt strict [] body))
  | .forIn (.declaration declarators) right body =>
    forInLoop strict ⟨pending⟩ (declaredHead declarators (genInitializers strict declarators))
      (genExpr strict right) (declaredTarget declarators)
      (invoke .body strict (genStmt strict [] body))
  | .switch discriminant clauses =>
    switchClauses ⟨pending⟩ clauses.length (genExpr strict discriminant)
      (fun subject first => genTests strict subject clauses first none)
      (fun abrupt first => genClauses strict clauses abrupt first)
  | .tryCatch block handler finalizer => do
    if handler.isNone && finalizer.isNone then
      unsupported .bareTry
    invoke .body strict (statementList block (genStatements strict [] block))
    match handler with
    | none => pure ()
    | some (.mk param body) =>
      catchThrown param (invoke .catch strict (statementList body (genStatements strict [] body)))
    match finalizer with
    | none => pure ()
    | some body =>
      withFinalizer (invoke .finally strict (statementList body (genStatements strict [] body)))
  | .throw argument => do
    genExpr strict argument
    emit .throwValue
  | .return argument => do
    match argument with
    | none => loadConstant .undefined
    | some e => genExpr strict e
    emit .returnValue
  | .break label => emit (.breakTo label)
  | .continue label => emit (.continueTo label)
  | .labeled label body => do
    genStmt strict (if body.takesLabel then pending ++ [label] else []) body
    emit (.consumeBreak ⟨[label]⟩)
  | .print argument => do
    genExpr strict argument
    operate .print 1
    emit .pop
    emit .normal
  | .withObject _ _ => unsupported .withStatement
  | .empty => emit .normal

end

inductive Body where
  | declaring (body : List Stmt)
  | statements (body : List Stmt)
  | statement (s : Stmt)

def Body.gen (strict : Bool) : Body → Gen Unit
  | declaring body =>
    declaringBody body (genDeclarations strict body)
      (statementList body (genStatements strict [] body))
  | statements body => statementList body (genStatements strict [] body)
  | statement s => genStmt strict [] s

/-- Compiles one more unit.  A failure leaves a number without a unit behind. -/
def compileBody (registry : Registry) (role : Role) (body : Body) (strict : Bool) :
    Except CompileError UnitId × Registry :=
  (compileUnit role strict (body.gen strict)).run.run registry

/-- Compiles a program; `strict` makes all of its code strict, whatever it says itself. -/
def compile (program : Program) (strict : Bool) : Except CompileError Artifact :=
  let strict := strict || program.strict
  match compileBody {} .program (.declaring program.body) strict with
  | (.ok entry, registry) => registry.finish entry
  | (.error e, _) => .error e

end TreeScript.Lowering
