import TreeScript.Syntax.Tree

/-!
# Where jumps may go

A `break` or `continue` needs a statement around it to go to, and that statement has to be in the
same function.  `JumpScope` is what stands around a statement, and the functions of this file check
that every jump of a tree has its place, those in the functions inside it included.
-/

namespace TreeScript.Syntax

/-- What a jump finds around it, up to the body of the function that it is in. -/
structure JumpScope where
  breakable : Bool := false
  loop : Bool := false
  labels : List String := []
  /-- The labels that stand directly in front of loops. -/
  loopLabels : List String := []
  deriving DecidableEq, Inhabited

namespace JumpScope

/-- Whether a `break` to `target` has a place to go. -/
def breaks (scope : JumpScope) : Option String → Bool
  | none => scope.breakable
  | some label => scope.labels.contains label

/-- Whether a `continue` to `target` has a place to go. -/
def continues (scope : JumpScope) : Option String → Bool
  | none => scope.loop
  | some label => scope.loopLabels.contains label

/-- The scope in the body of a loop with `labels` in front of it. -/
def inLoop (scope : JumpScope) (labels : List String) : JumpScope where
  breakable := true
  loop := true
  labels := scope.labels
  loopLabels := labels ++ scope.loopLabels

def inSwitch (scope : JumpScope) : JumpScope := { scope with breakable := true }

def labeled (scope : JumpScope) (label : String) : JumpScope :=
  { scope with labels := label :: scope.labels }

end JumpScope

mutual

def Expr.wellScoped : Expr → Bool
  | .this | .undefined | .null | .boolean _ | .number _ | .string _ | .regExp _ _
  | .identifier _ => true
  | .array elements => elementsWellScoped elements
  | .object members => membersWellScoped members
  | .function definition => definition.wellScoped
  | .member object property _ => object.wellScoped && property.wellScoped
  | .call callee arguments | .construct callee arguments =>
    callee.wellScoped && exprsWellScoped arguments
  | .unary _ argument | .update _ argument _ => argument.wellScoped
  | .binary _ left right | .logical _ left right => left.wellScoped && right.wellScoped
  | .conditional test consequent alternate =>
    test.wellScoped && consequent.wellScoped && alternate.wellScoped
  | .assignment _ target value => target.wellScoped && value.wellScoped
  | .sequence expressions => exprsWellScoped expressions

def exprsWellScoped : List Expr → Bool
  | [] => true
  | e :: es => e.wellScoped && exprsWellScoped es

def elementWellScoped : Option Expr → Bool
  | none => true
  | some e => e.wellScoped

def elementsWellScoped : List (Option Expr) → Bool
  | [] => true
  | e :: es => elementWellScoped e && elementsWellScoped es

def Member.wellScoped : Member → Bool
  | .value key value => key.wellScoped && value.wellScoped
  | .accessor _ key _ body => key.wellScoped && stmtsWellScoped {} body

def membersWellScoped : List Member → Bool
  | [] => true
  | m :: ms => m.wellScoped && membersWellScoped ms

def FunctionDef.wellScoped : FunctionDef → Bool
  | .mk _ _ body _ => stmtsWellScoped {} body

def declaratorsWellScoped : List Declarator → Bool
  | [] => true
  | .mk _ init :: ds => elementWellScoped init && declaratorsWellScoped ds

def ForHead.wellScoped : ForHead → Bool
  | .declaration declarators => declaratorsWellScoped declarators
  | .expression e => e.wellScoped

def headWellScoped : Option ForHead → Bool
  | none => true
  | some head => head.wellScoped

def clausesWellScoped (scope : JumpScope) : List SwitchClause → Bool
  | [] => true
  | .mk test body :: cs =>
    elementWellScoped test && stmtsWellScoped scope body && clausesWellScoped scope cs

def handlerWellScoped (scope : JumpScope) : Option CatchClause → Bool
  | none => true
  | some (.mk _ body) => stmtsWellScoped scope body

def finalizerWellScoped (scope : JumpScope) : Option (List Stmt) → Bool
  | none => true
  | some body => stmtsWellScoped scope body

def alternateWellScoped (scope : JumpScope) : Option Stmt → Bool
  | none => true
  | some s => s.wellScoped scope []

def stmtsWellScoped (scope : JumpScope) : List Stmt → Bool
  | [] => true
  | s :: ss => s.wellScoped scope [] && stmtsWellScoped scope ss

/-- The jumps of a statement have a place to go, inside it or in the scope around it; `attached` are
the labels directly in front of the statement. -/
def Stmt.wellScoped (scope : JumpScope) (attached : List String) : Stmt → Bool
  | .block body => stmtsWellScoped scope body
  | .declaration declarators => declaratorsWellScoped declarators
  | .function definition => definition.wellScoped
  | .expression e | .throw e | .print e => e.wellScoped
  | .ifElse test consequent alternate =>
    test.wellScoped && consequent.wellScoped scope [] && alternateWellScoped scope alternate
  | .whileLoop test body | .doWhile body test =>
    test.wellScoped && body.wellScoped (scope.inLoop attached) []
  | .forLoop init test update body =>
    headWellScoped init && elementWellScoped test && elementWellScoped update &&
      body.wellScoped (scope.inLoop attached) []
  | .forIn left right body =>
    left.wellScoped && right.wellScoped && body.wellScoped (scope.inLoop attached) []
  | .switch discriminant clauses =>
    discriminant.wellScoped && clausesWellScoped scope.inSwitch clauses
  | .tryCatch block handler finalizer =>
    stmtsWellScoped scope block && handlerWellScoped scope handler &&
      finalizerWellScoped scope finalizer
  | .return argument => elementWellScoped argument
  | .break target => scope.breaks target
  | .continue target => scope.continues target
  | .labeled label body => body.wellScoped (scope.labeled label) (attached ++ [label])
  | .withObject object body => object.wellScoped && body.wellScoped scope []
  | .empty => true

end

/-- All jumps of a program, at the top and in its functions, have a place to go. -/
def Program.wellScoped (p : Program) : Bool := stmtsWellScoped {} p.body

theorem Stmt.wellScoped_of_not_takesLabel {s : Stmt} (h : s.takesLabel = false)
    (scope : JumpScope) (attached attached' : List String) :
    s.wellScoped scope attached = s.wellScoped scope attached' := by
  cases s <;> first | rfl | cases h

end TreeScript.Syntax
