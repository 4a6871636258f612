import TreeScript.Syntax.Tree

/-!
# Hoisted declarations

The names that a body declares wherever they stand in it: `var` names once each in the order of
their first occurrence, and function declarations in source order.  Bodies of nested functions
declare for themselves.
-/

namespace TreeScript.Syntax

structure Hoisted where
  vars : List String := []
  functions : List (String × FunctionDef) := []

inductive HoistError where
  | namelessFunction
  deriving DecidableEq, Inhabited

namespace Hoisted

def addVar (h : Hoisted) (name : String) : Hoisted :=
  if h.vars.contains name then h else { h with vars := h.vars ++ [name] }

def addVars (h : Hoisted) (declarators : List Declarator) : Hoisted :=
  declarators.foldl (fun h (.mk name _) => h.addVar name) h

def addHead (h : Hoisted) : ForHead → Hoisted
  | .declaration declarators => h.addVars declarators
  | .expression _ => h

mutual

def addStmt (h : Hoisted) : Stmt → Except HoistError Hoisted
  | .block body => h.addStmts body
  | .declaration declarators => return h.addVars declarators
  | .function definition =>
    match definition.name with
    | none => throw .namelessFunction
    | some name => return { h with functions := h.functions ++ [(name, definition)] }
  | .ifElse _ consequent alternate => do
    let h ← h.addStmt consequent
    match alternate with
    | none => return h
    | some alternate => h.addStmt alternate
  | .whileLoop _ body | .doWhile body _ | .labeled _ body | .withObject _ body => h.addStmt body
  | .forLoop none _ _ body => h.addStmt body
  | .forLoop (some init) _ _ body => (h.addHead init).addStmt body
  | .forIn left _ body => (h.addHead left).addStmt body
  | .switch _ clauses => h.addClauses clauses
  | .tryCatch block handler finalizer => do
    let h ← h.addStmts block
    let h ← match handler with
      | none => pure h
      | some (.mk _ body) => h.addStmts body
    match finalizer with
    | none => return h
    | some body => h.addStmts body
  | .expression _ | .throw _ | .return _ | .break _ | .continue _ | .print _ | .empty => return h

def addStmts (h : Hoisted) : List Stmt → Except HoistError Hoisted
  | [] => return h
  | s :: ss => do (← h.addStmt s).addStmts ss

def addClauses (h : Hoisted) : List SwitchClause → Except HoistError Hoisted
  | [] => return h
  | .mk _ body :: cs => do (← h.addStmts body).addClauses cs

end

def collect (body : List Stmt) : Except HoistError Hoisted :=
  addStmts {} body

end Hoisted

end TreeScript.Syntax
