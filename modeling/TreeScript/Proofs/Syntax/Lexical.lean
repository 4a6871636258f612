import TreeScript.Syntax.Tree

/-!
# Where code stands in a program

The parts of a program, and the functions around each of them.  Code is strict if the whole program
is, or if a function around it says so.
-/

namespace TreeScript.Syntax

/-- A part of a program that is code, or a function. -/
inductive Part where
  /-- A list of statements: a block, a clause, a handler, or the body of a program or a function. -/
  | body (statements : List Stmt)
  | stmt (s : Stmt)
  | expr (e : Expr)
  | member (m : Member)
  | function (f : FunctionDef)

namespace Part

def initializers (declarators : List Declarator) : List Part :=
  declarators.filterMap fun (.mk _ init) => init.map expr

def head : ForHead → List Part
  | .declaration declarators => initializers declarators
  | .expression e => [expr e]

def clause : SwitchClause → List Part
  | .mk test statements => (test.map expr).toList ++ [body statements]

def ofExpr : Expr → List Part
  | .this | .undefined | .null | .boolean _ | .number _ | .string _ | .regExp _ _
  | .identifier _ => []
  | .array elements => elements.filterMap (·.map expr)
  | .object members => members.map member
  | .function f => [function f]
  | .member object property _ => [expr object, expr property]
  | .call callee arguments | .construct callee arguments => expr callee :: arguments.map expr
  | .unary _ argument | .update _ argument _ => [expr argument]
  | .binary _ left right | .logical _ left right => [expr left, expr right]
  | .conditional test consequent alternate => [expr test, expr consequent, expr alternate]
  | .assignment _ target value => [expr target, expr value]
  | .sequence expressions => expressions.map expr

def ofStmt : Stmt → List Part
  | .block statements => [body statements]
  | .declaration declarators => initializers declarators
  | .function f => [function f]
  | .expression e | .throw e | .print e => [expr e]
  | .ifElse test consequent alternate =>
    expr test :: stmt consequent :: (alternate.map stmt).toList
  | .whileLoop test s | .doWhile s test => [expr test, stmt s]
  | .forLoop init test update s =>
    (init.map head).getD [] ++ (test.map expr).toList ++ (update.map expr).toList ++ [stmt s]
  | .forIn left right s => head left ++ [expr right, stmt s]
  | .switch discriminant clauses => expr discriminant :: clauses.flatMap clause
  | .tryCatch block handler finalizer =>
    body block :: (handler.map fun c => body c.body).toList ++ (finalizer.map body).toList
  | .return argument => (argument.map expr).toList
  | .labeled _ s => [stmt s]
  | .withObject object s => [expr object, stmt s]
  | .break _ | .continue _ | .empty => []

/-- The parts directly inside another one and in the same function.  What is inside an accessor
counts for nothing, since no accessor can be compiled. -/
def parts : Part → List Part
  | body statements => statements.map stmt
  | stmt s => ofStmt s
  | expr e => ofExpr e
  | member (.value key value) => [expr key, expr value]
  | member (.accessor _ _ _ _) => []
  | function _ => []

end Part

/-- A part stands somewhere in a program, inside these functions, the innermost first. -/
inductive Program.Stands (p : Program) : List FunctionDef → Part → Prop where
  | top : Stands p [] (.body p.body)
  | part {fs : List FunctionDef} {x y : Part} : Stands p fs x → y ∈ x.parts → Stands p fs y
  | inside {fs : List FunctionDef} {f : FunctionDef} :
    Stands p fs (.function f) → Stands p (f :: fs) (.body f.body)

/-- Whether code inside these functions is strict; `top` is for the whole program. -/
def strictIn (top : Bool) (fs : List FunctionDef) : Bool := top || fs.any FunctionDef.strict

theorem strictIn_nil (top : Bool) : strictIn top [] = top := Bool.or_false top

theorem strictIn_cons (top : Bool) (f : FunctionDef) (fs : List FunctionDef) :
    strictIn top (f :: fs) = (strictIn top fs || f.strict) := by
  unfold strictIn
  rw [List.any_cons, Bool.or_comm f.strict, Bool.or_assoc]

end TreeScript.Syntax
