import TreeScript.Lowering.Shape

/-!
# The nodes of a program tree

`Program.nodes` lists every expression, every member of an object literal and every statement of a
program, wherever they stand: in functions inside functions, and where control never gets.  What
keeps a program from having code is said of single nodes.
-/

namespace TreeScript.Syntax

inductive Node where
  | expr (e : Expr)
  | member (m : Member)
  | stmt (s : Stmt)

namespace Expr

def isIdentifier : Expr → Bool
  | .identifier _ => true
  | _ => false

/-- What can be assigned to. -/
def isAssignable : Expr → Bool
  | .identifier _ | .member _ _ _ => true
  | _ => false

/-- What can be a key in an object literal. -/
def isLiteralKey : Expr → Bool
  | .identifier _ | .string _ | .number _ => true
  | _ => false

end Expr

namespace Node

/-- Whether there is code for a node.  There is none for `with`, for a `try` with neither handler
nor finalizer, for a `for`-`in` that declares none or several variables, for a function declaration
without a name, for an assignment to something other than a name or a member, for a name after a dot
that is no identifier, for a computed key and for an accessor. -/
def supported : Node → Bool
  | .stmt (.withObject _ _) => false
  | .stmt (.tryCatch _ none none) => false
  | .stmt (.forIn (.declaration declarators) _ _) => declarators.length == 1
  | .stmt (.forIn (.expression target) _ _) => target.isAssignable
  | .stmt (.function definition) => definition.name.isSome
  | .expr (.assignment _ target _) | .expr (.update _ target _) => target.isAssignable
  | .expr (.member _ property false) => property.isIdentifier
  | .member (.value key _) => key.isLiteralKey
  | .member (.accessor _ _ _ _) => false
  | _ => true

/-- Whether a node has no more parts than can be counted: arguments of a call, elements of an array
literal. -/
def sized : Node → Bool
  | .expr (.call _ arguments) | .expr (.construct _ arguments) =>
    arguments.length ≤ Lowering.maxArguments
  | .expr (.array elements) => elements.length < 0x100000000
  | _ => true

end Node

/-! ## Collecting nodes

A function declaration is compiled where the body around it begins.  `inside` tells whether the
functions that a statement declares are to be among its nodes. -/

mutual

def Expr.nodes : Expr → List Node
  | e@.this | e@.undefined | e@.null | e@(.boolean _) | e@(.number _) | e@(.string _)
  | e@(.regExp _ _) | e@(.identifier _) => [.expr e]
  | e@(.array elements) => .expr e :: elementsNodes elements
  | e@(.object members) => .expr e :: membersNodes members
  | e@(.function definition) => .expr e :: definition.nodes
  | e@(.member object property _) => .expr e :: (object.nodes ++ property.nodes)
  | e@(.call callee arguments) | e@(.construct callee arguments) =>
    .expr e :: (callee.nodes ++ exprsNodes arguments)
  | e@(.unary _ argument) | e@(.update _ argument _) => .expr e :: argument.nodes
  | e@(.binary _ left right) | e@(.logical _ left right) => .expr e :: (left.nodes ++ right.nodes)
  | e@(.conditional test consequent alternate) =>
    .expr e :: (test.nodes ++ (consequent.nodes ++ alternate.nodes))
  | e@(.assignment _ target value) => .expr e :: (target.nodes ++ value.nodes)
  | e@(.sequence expressions) => .expr e :: exprsNodes expressions

def exprsNodes : List Expr → List Node
  | [] => []
  | e :: es => e.nodes ++ exprsNodes es

def elementNodes : Option Expr → List Node
  | none => []
  | some e => e.nodes

def elementsNodes : List (Option Expr) → List Node
  | [] => []
  | e :: es => elementNodes e ++ elementsNodes es

def Member.nodes : Member → List Node
  | m@(.value key value) => .member m :: (key.nodes ++ value.nodes)
  | m@(.accessor _ key _ body) => .member m :: (key.nodes ++ stmtsNodes true body)

def membersNodes : List Member → List Node
  | [] => []
  | m :: ms => m.nodes ++ membersNodes ms

def FunctionDef.nodes : FunctionDef → List Node
  | .mk _ _ body _ => stmtsNodes true body

def declaratorsNodes : List Declarator → List Node
  | [] => []
  | .mk _ init :: ds => elementNodes init ++ declaratorsNodes ds

def ForHead.nodes : ForHead → List Node
  | .declaration declarators => declaratorsNodes declarators
  | .expression e => e.nodes

def headNodes : Option ForHead → List Node
  | none => []
  | some head => head.nodes

def testsNodes : List SwitchClause → List Node
  | [] => []
  | .mk test _ :: cs => elementNodes test ++ testsNodes cs

def clausesNodes (inside : Bool) : List SwitchClause → List Node
  | [] => []
  | .mk _ body :: cs => stmtsNodes inside body ++ clausesNodes inside cs

def handlerNodes (inside : Bool) : Option CatchClause → List Node
  | none => []
  | some (.mk _ body) => stmtsNodes inside body

def finalizerNodes (inside : Bool) : Option (List Stmt) → List Node
  | none => []
  | some body => stmtsNodes inside body

def alternateNodes (inside : Bool) : Option Stmt → List Node
  | none => []
  | some s => s.nodes inside

def stmtsNodes (inside : Bool) : List Stmt → List Node
  | [] => []
  | s :: ss => s.nodes inside ++ stmtsNodes inside ss

def Stmt.nodes (inside : Bool) : Stmt → List Node
  | s@(.block body) => .stmt s :: stmtsNodes inside body
  | s@(.declaration declarators) => .stmt s :: declaratorsNodes declarators
  | s@(.function definition) => if inside then .stmt s :: definition.nodes else []
  | s@(.expression e) | s@(.throw e) | s@(.print e) => .stmt s :: e.nodes
  | s@(.ifElse test consequent alternate) =>
    .stmt s :: (test.nodes ++ (consequent.nodes inside ++ alternateNodes inside alternate))
  | s@(.whileLoop test body) | s@(.doWhile body test) =>
    .stmt s :: (test.nodes ++ body.nodes inside)
  | s@(.forLoop init test update body) =>
    .stmt s ::
      (headNodes init ++ (elementNodes test ++ (elementNodes update ++ body.nodes inside)))
  | s@(.forIn left right body) => .stmt s :: (left.nodes ++ (right.nodes ++ body.nodes inside))
  | s@(.switch discriminant clauses) =>
    .stmt s :: (discriminant.nodes ++ (testsNodes clauses ++ clausesNodes inside clauses))
  | s@(.tryCatch block handler finalizer) =>
    .stmt s ::
      (stmtsNodes inside block ++ (handlerNodes inside handler ++ finalizerNodes inside finalizer))
  | s@(.return argument) => .stmt s :: elementNodes argument
  | s@(.labeled _ body) => .stmt s :: body.nodes inside
  | s@(.withObject object body) => .stmt s :: (object.nodes ++ body.nodes inside)
  | s@(.break _) | s@(.continue _) | s@.empty => [.stmt s]

end

/-- All nodes of a program, those of its functions included. -/
def Program.nodes (p : Program) : List Node := stmtsNodes true p.body

/-! ## Declared functions -/

mutual

/-- The nodes of the functions that a statement declares, with the declarations themselves. -/
def Stmt.declaredNodes : Stmt → List Node
  | .function definition => .stmt (.function definition) :: definition.nodes
  | .block body => stmtsDeclaredNodes body
  | .ifElse _ consequent alternate =>
    consequent.declaredNodes ++ alternateDeclaredNodes alternate
  | .whileLoop _ body | .doWhile body _ | .labeled _ body | .withObject _ body
  | .forLoop _ _ _ body | .forIn _ _ body => body.declaredNodes
  | .switch _ clauses => clausesDeclaredNodes clauses
  | .tryCatch block handler finalizer =>
    stmtsDeclaredNodes block ++ (handlerDeclaredNodes handler ++ finalizerDeclaredNodes finalizer)
  | .declaration _ | .expression _ | .throw _ | .return _ | .break _ | .continue _ | .print _
  | .empty => []

def alternateDeclaredNodes : Option Stmt → List Node
  | none => []
  | some s => s.declaredNodes

def handlerDeclaredNodes : Option CatchClause → List Node
  | none => []
  | some (.mk _ body) => stmtsDeclaredNodes body

def finalizerDeclaredNodes : Option (List Stmt) → List Node
  | none => []
  | some body => stmtsDeclaredNodes body

def stmtsDeclaredNodes : List Stmt → List Node
  | [] => []
  | s :: ss => s.declaredNodes ++ stmtsDeclaredNodes ss

def clausesDeclaredNodes : List SwitchClause → List Node
  | [] => []
  | .mk _ body :: cs => stmtsDeclaredNodes body ++ clausesDeclaredNodes cs

end

/-! ## Accepted nodes -/

def Accepted (nodes : List Node) : Prop :=
  ∀ n ∈ nodes, n.supported = true ∧ n.sized = true

@[simp]
theorem accepted_nil : Accepted [] := nofun

@[simp]
theorem accepted_cons (n : Node) (ns : List Node) :
    Accepted (n :: ns) ↔ (n.supported = true ∧ n.sized = true) ∧ Accepted ns :=
  List.forall_mem_cons

@[simp]
theorem accepted_append (ns ns' : List Node) :
    Accepted (ns ++ ns') ↔ Accepted ns ∧ Accepted ns' :=
  List.forall_mem_append

section

variable {n : Node} {ns ns' ns'' rest : List Node}

theorem accepted_leaf (h : n.supported = true ∧ n.sized = true) : True ↔ Accepted [n] := by
  simp [h]

theorem accepted_one (h : n.supported = true ∧ n.sized = true) :
    Accepted ns ↔ Accepted (n :: ns) := by
  simp [h]

theorem accepted_two (h : n.supported = true ∧ n.sized = true) :
    Accepted ns ∧ Accepted ns' ↔ Accepted (n :: (ns ++ ns')) := by
  simp [h]

theorem accepted_three (h : n.supported = true ∧ n.sized = true) :
    Accepted ns ∧ Accepted ns' ∧ Accepted ns'' ↔ Accepted (n :: (ns ++ (ns' ++ ns''))) := by
  simp [h]

theorem accepted_four (h : n.supported = true ∧ n.sized = true) :
    Accepted ns ∧ Accepted ns' ∧ Accepted ns'' ∧ Accepted rest ↔
      Accepted (n :: (ns ++ (ns' ++ (ns'' ++ rest)))) := by
  simp [h]

end

mutual

/-- A statement is accepted with its functions if it is without them and they are. -/
theorem Stmt.accepted_nodes :
    (s : Stmt) → (Accepted (s.nodes true) ↔ Accepted (s.nodes false) ∧ Accepted s.declaredNodes)
  | .block body => by
    have := accepted_stmtsNodes body
    simp only [Stmt.nodes, Stmt.declaredNodes, accepted_cons]
    grind
  | .ifElse test consequent alternate => by
    have := consequent.accepted_nodes
    have := accepted_alternateNodes alternate
    simp only [Stmt.nodes, Stmt.declaredNodes, accepted_cons, accepted_append]
    grind
  | .whileLoop test body | .doWhile body test | .labeled label body | .withObject object body
  | .forLoop init test update body | .forIn left right body => by
    have := body.accepted_nodes
    simp only [Stmt.nodes, Stmt.declaredNodes, accepted_cons, accepted_append]
    grind
  | .switch discriminant clauses => by
    have := accepted_clausesNodes clauses
    simp only [Stmt.nodes, Stmt.declaredNodes, accepted_cons, accepted_append]
    grind
  | .tryCatch block handler finalizer => by
    have := accepted_stmtsNodes block
    have := accepted_handlerNodes handler
    have := accepted_finalizerNodes finalizer
    simp only [Stmt.nodes, Stmt.declaredNodes, accepted_cons, accepted_append]
    grind
  | .function definition => by simp [Stmt.nodes, Stmt.declaredNodes]
  | .declaration _ | .expression _ | .throw _ | .return _ | .break _ | .continue _ | .print _
  | .empty => by simp [Stmt.nodes, Stmt.declaredNodes]

theorem accepted_alternateNodes :
    (s : Option Stmt) → (Accepted (alternateNodes true s) ↔
      Accepted (alternateNodes false s) ∧ Accepted (alternateDeclaredNodes s))
  | none => by simp [alternateNodes, alternateDeclaredNodes]
  | some s => s.accepted_nodes

theorem accepted_handlerNodes :
    (h : Option CatchClause) → (Accepted (handlerNodes true h) ↔
      Accepted (handlerNodes false h) ∧ Accepted (handlerDeclaredNodes h))
  | none => by simp [handlerNodes, handlerDeclaredNodes]
  | some (.mk _ body) => accepted_stmtsNodes body

theorem accepted_finalizerNodes :
    (f : Option (List Stmt)) → (Accepted (finalizerNodes true f) ↔
      Accepted (finalizerNodes false f) ∧ Accepted (finalizerDeclaredNodes f))
  | none => by simp [finalizerNodes, finalizerDeclaredNodes]
  | some body => accepted_stmtsNodes body

theorem accepted_stmtsNodes :
    (ss : List Stmt) → (Accepted (stmtsNodes true ss) ↔
      Accepted (stmtsNodes false ss) ∧ Accepted (stmtsDeclaredNodes ss))
  | [] => by simp [stmtsNodes, stmtsDeclaredNodes]
  | s :: ss => by
    have := s.accepted_nodes
    have := accepted_stmtsNodes ss
    simp only [stmtsNodes, stmtsDeclaredNodes, accepted_append]
    grind

theorem accepted_clausesNodes :
    (cs : List SwitchClause) → (Accepted (clausesNodes true cs) ↔
      Accepted (clausesNodes false cs) ∧ Accepted (clausesDeclaredNodes cs))
  | [] => by simp [clausesNodes, clausesDeclaredNodes]
  | .mk test body :: cs => by
    have := accepted_stmtsNodes body
    have := accepted_clausesNodes cs
    simp only [clausesNodes, clausesDeclaredNodes, accepted_append]
    grind

end

/-! ## Hoisting -/

namespace Hoisted

theorem bind_ok {ε α β : Type} {x : Except ε α} {f : α → Except ε β} (h : ∃ a, x = .ok a)
    (hf : ∀ a, ∃ b, f a = .ok b) : ∃ b, x >>= f = .ok b := by
  obtain ⟨a, rfl⟩ := h
  exact hf a

mutual

/-- The declarations of a statement can be collected if its functions are accepted, since they have
names then. -/
theorem addStmt_ok :
    (s : Stmt) → Accepted s.declaredNodes → (h : Hoisted) → ∃ h', h.addStmt s = .ok h'
  | .block body, hs, h => addStmts_ok body hs h
  | .function (.mk none params body strict), hs, _ => by
    cases (hs _ (List.mem_cons_self)).1
  | .function (.mk (some name) params body strict), _, _ => ⟨_, rfl⟩
  | .ifElse _ consequent none, hs, h =>
    bind_ok (addStmt_ok consequent ((accepted_append _ _).mp hs).1 h) fun h => ⟨h, rfl⟩
  | .ifElse _ consequent (some alternate), hs, h =>
    bind_ok (addStmt_ok consequent ((accepted_append _ _).mp hs).1 h) fun h =>
      addStmt_ok alternate ((accepted_append _ _).mp hs).2 h
  | .whileLoop _ body, hs, h | .doWhile body _, hs, h | .labeled _ body, hs, h
  | .withObject _ body, hs, h | .forLoop none _ _ body, hs, h => addStmt_ok body hs h
  | .forLoop (some init) _ _ body, hs, h => addStmt_ok body hs (h.addHead init)
  | .forIn left _ body, hs, h => addStmt_ok body hs (h.addHead left)
  | .switch _ clauses, hs, h => addClauses_ok clauses hs h
  | .tryCatch block none none, hs, h =>
    bind_ok (addStmts_ok block ((accepted_append _ _).mp hs).1 h) fun h => ⟨h, rfl⟩
  | .tryCatch block (some (.mk _ body)) none, hs, h =>
    bind_ok (addStmts_ok block ((accepted_append _ _).mp hs).1 h) fun h =>
      bind_ok (addStmts_ok body ((accepted_append _ _).mp ((accepted_append _ _).mp hs).2).1 h)
        fun h => ⟨h, rfl⟩
  | .tryCatch block none (some body), hs, h =>
    bind_ok (addStmts_ok block ((accepted_append _ _).mp hs).1 h) fun h =>
      addStmts_ok body ((accepted_append _ _).mp ((accepted_append _ _).mp hs).2).2 h
  | .tryCatch block (some (.mk _ handler)) (some body), hs, h =>
    bind_ok (addStmts_ok block ((accepted_append _ _).mp hs).1 h) fun h =>
      bind_ok (addStmts_ok handler ((accepted_append _ _).mp ((accepted_append _ _).mp hs).2).1 h)
        fun h => addStmts_ok body ((accepted_append _ _).mp ((accepted_append _ _).mp hs).2).2 h
  | .declaration _, _, _ | .expression _, _, _ | .throw _, _, _ | .return _, _, _ | .break _, _, _
  | .continue _, _, _ | .print _, _, _ | .empty, _, _ => ⟨_, rfl⟩

theorem addStmts_ok :
    (ss : List Stmt) → Accepted (stmtsDeclaredNodes ss) → (h : Hoisted) →
      ∃ h', h.addStmts ss = .ok h'
  | [], _, h => ⟨h, rfl⟩
  | s :: ss, hs, h =>
    bind_ok (addStmt_ok s ((accepted_append _ _).mp hs).1 h) fun h =>
      addStmts_ok ss ((accepted_append _ _).mp hs).2 h

theorem addClauses_ok :
    (cs : List SwitchClause) → Accepted (clausesDeclaredNodes cs) → (h : Hoisted) →
      ∃ h', h.addClauses cs = .ok h'
  | [], _, h => ⟨h, rfl⟩
  | .mk _ body :: cs, hs, h =>
    bind_ok (addStmts_ok body ((accepted_append _ _).mp hs).1 h) fun h =>
      addClauses_ok cs ((accepted_append _ _).mp hs).2 h

end

theorem collect_ok {body : List Stmt} (h : Accepted (stmtsDeclaredNodes body)) :
    ∃ h, collect body = .ok h :=
  addStmts_ok body h {}

end Hoisted

end TreeScript.Syntax
