import Mathlib.Data.Finset.Card
import TreeScript.Lowering.Tree

/-!
# What the code of a program takes up

A unit has only so many operands and temporaries.  This file counts them by recursion on the tree,
without compiling it: `programUsage` lists what each unit of a program takes up.  Operands are
counted once each.  Temporaries are operands too and are told apart by their numbers, so what a part
takes up depends on how many temporaries come before it in its unit.
-/

namespace TreeScript.Lowering

open Code Syntax

/-- What the code of a unit takes up. -/
structure Usage where
  temps : Nat := 0
  operands : Finset OperandKey := ∅

/-- Whether a unit can have that much. -/
def Usage.Fits (u : Usage) : Prop :=
  u.operands.card ≤ Builder.maxOperands ∧ u.temps ≤ Builder.maxTemporaries

/-- What a piece of code takes up in its unit, and what each unit inside it takes up. -/
@[ext]
structure Demand extends Usage where
  inner : List Usage := []

namespace Demand

instance : Append Demand where
  append d d' :=
    { temps := d.temps + d'.temps
      operands := d.operands ∪ d'.operands
      inner := d.inner ++ d'.inner }

@[simp]
theorem temps_append (d d' : Demand) : (d ++ d').temps = d.temps + d'.temps := rfl

@[simp]
theorem operands_append (d d' : Demand) : (d ++ d').operands = d.operands ∪ d'.operands := rfl

@[simp]
theorem inner_append (d d' : Demand) : (d ++ d').inner = d.inner ++ d'.inner := rfl

@[simp]
theorem empty_append (d : Demand) : ({} : Demand) ++ d = d :=
  Demand.ext (Nat.zero_add _) (Finset.empty_union _) rfl

@[simp]
theorem append_empty (d : Demand) : d ++ ({} : Demand) = d :=
  Demand.ext rfl (Finset.union_empty _) (List.append_nil _)

theorem append_assoc (d d' d'' : Demand) : d ++ d' ++ d'' = d ++ (d' ++ d'') :=
  Demand.ext (Nat.add_assoc _ _ _) (Finset.union_assoc _ _ _) (List.append_assoc _ _ _)

/-- The same code as a unit of its own. -/
def nested (d : Demand) : Demand := { inner := d.toUsage :: d.inner }

end Demand

def Tally := Nat → Demand

namespace Tally

def nothing : Tally := fun _ => {}

instance : Append Tally where
  append x y := fun t => x t ++ y (t + (x t).temps)

theorem append_assoc (x y z : Tally) : x ++ y ++ z = x ++ (y ++ z) := by
  funext t
  show x t ++ y _ ++ z (t + ((x t).temps + _)) = x t ++ (y _ ++ z (t + (x t).temps + _))
  rw [Demand.append_assoc, Nat.add_assoc]

def operand (o : Operand) : Tally := fun _ => { operands := {o.key} }

def constant (c : Constant) : Tally := operand (.constant c)

def binding (name : String) : Tally := operand (.binding name)

def bindings : List String → Tally
  | [] => nothing
  | name :: names => binding name ++ bindings names

def allocate (count : Nat) (rest : Nat → Tally) : Tally := fun t =>
  { temps := count } ++ rest t (t + count)

def nested (x : Tally) : Tally := fun _ => (x 0).nested

end Tally

def tallyVariables (body : List Stmt) : Tally :=
  match Hoisted.collect body with
  | .ok h => .bindings h.vars
  | .error _ => .nothing

def tallyKey (computed : Bool) (property : Expr) (key : Tally) : Tally :=
  match computed, property with
  | true, _ => key
  | false, .identifier name => .constant (.string name)
  | false, _ => .nothing

def tallyLiteralKey : Expr → Tally
  | .identifier name => .constant (.string name)
  | .string value => .constant (.string value)
  | .number value => .constant (.string (Number.text value))
  | _ => .nothing

def tallyDeclared : List Declarator → Tally
  | [.mk name _] => .binding name
  | _ => .nothing

def tallyForIn (head right target body : Tally) : Tally :=
  .allocate 4 fun keys =>
    head ++ (right ++ (.constant (.number (Number.ofNat 0)) ++
      (target ++ (.operand (.temporary (keys + 3)) ++ body.nested))))

mutual

def tallyExpr : Expr → Tally
  | .this => .nothing
  | .undefined => .constant .undefined
  | .null => .constant .null
  | .boolean value => .constant (.boolean value)
  | .number value => .constant (.number value)
  | .string value => .constant (.string value)
  | .regExp pattern flags => .constant (.string pattern) ++ .constant (.string flags)
  | .identifier name => .binding name
  | .array elements => tallyElements elements
  | .object members => tallyMembers members
  | .function definition => tallyFunction definition
  | .member object property computed =>
    tallyExpr object ++ tallyKey computed property (tallyExpr property)
  | .call callee arguments =>
    match callee with
    | .member object property computed =>
      tallyExpr object ++ (tallyKey computed property (tallyExpr property) ++ tallyExprs arguments)
    | function => .constant .undefined ++ (tallyExpr function ++ tallyExprs arguments)
  | .construct callee arguments => tallyExpr callee ++ tallyExprs arguments
  | .unary .delete argument =>
    match argument with
    | .identifier name => .binding name
    | .member object property computed =>
      tallyExpr object ++ tallyKey computed property (tallyExpr property)
    | other => tallyExpr other ++ .constant (.boolean true)
  | .unary .void argument => tallyExpr argument ++ .constant .undefined
  | .unary _ argument => tallyExpr argument
  | .update _ argument true => tallyTarget argument ++ .constant (.number (Number.ofNat 1))
  | .update _ argument false =>
    tallyTarget argument ++ .allocate 1 fun old =>
      .operand (.temporary old) ++ .constant (.number (Number.ofNat 1))
  | .binary _ left right | .logical _ left right => tallyExpr left ++ tallyExpr right
  | .conditional test consequent alternate =>
    tallyExpr test ++ (tallyExpr consequent ++ tallyExpr alternate)
  | .assignment _ target value => tallyTarget target ++ tallyExpr value
  | .sequence expressions => tallySequence expressions

def tallyTarget : Expr → Tally
  | .identifier name => .binding name
  | .member object property computed =>
    tallyExpr object ++ tallyKey computed property (tallyExpr property)
  | _ => .nothing

def tallyExprs : List Expr → Tally
  | [] => .nothing
  | e :: es => tallyExpr e ++ tallyExprs es

def tallySequence : List Expr → Tally
  | [] => .constant .undefined
  | [e] => tallyExpr e
  | e :: es => tallyExpr e ++ tallySequence es

def tallyElement : Option Expr → Tally
  | none => .constant .undefined
  | some e => tallyExpr e

def tallyElements : List (Option Expr) → Tally
  | [] => .nothing
  | e :: es => tallyElement e ++ tallyElements es

def tallyMember : Member → Tally
  | .value key value => tallyLiteralKey key ++ tallyExpr value
  | .accessor _ _ _ _ => .nothing

def tallyMembers : List Member → Tally
  | [] => .nothing
  | m :: ms => tallyMember m ++ tallyMembers ms

def tallyFunction : FunctionDef → Tally
  | .mk _ _ body _ =>
    (tallyDeclarations body ++ (tallyVariables body ++ tallyStatements body)).nested

def tallyDeclaration : Stmt → Tally
  | .block body => tallyDeclarations body
  | .function definition =>
    match definition.name with
    | none => .nothing
    | some name => tallyFunction definition ++ .binding name
  | .ifElse _ consequent alternate =>
    tallyDeclaration consequent ++ tallyAlternateDeclaration alternate
  | .whileLoop _ body | .doWhile body _ | .labeled _ body | .withObject _ body
  | .forLoop _ _ _ body | .forIn _ _ body => tallyDeclaration body
  | .switch _ clauses => tallyClauseDeclarations clauses
  | .tryCatch block handler finalizer =>
    tallyDeclarations block ++
      (tallyHandlerDeclarations handler ++ tallyFinalizerDeclarations finalizer)
  | .declaration _ | .expression _ | .throw _ | .return _ | .break _ | .continue _ | .print _
  | .empty => .nothing

def tallyAlternateDeclaration : Option Stmt → Tally
  | none => .nothing
  | some s => tallyDeclaration s

def tallyHandlerDeclarations : Option CatchClause → Tally
  | none => .nothing
  | some (.mk _ body) => tallyDeclarations body

def tallyFinalizerDeclarations : Option (List Stmt) → Tally
  | none => .nothing
  | some body => tallyDeclarations body

def tallyDeclarations : List Stmt → Tally
  | [] => .nothing
  | s :: ss => tallyDeclaration s ++ tallyDeclarations ss

def tallyClauseDeclarations : List SwitchClause → Tally
  | [] => .nothing
  | .mk _ body :: cs => tallyDeclarations body ++ tallyClauseDeclarations cs

def tallyInitializers : List Declarator → Tally
  | [] => .nothing
  | .mk _ none :: ds => tallyInitializers ds
  | .mk name (some e) :: ds => tallyExpr e ++ (.binding name ++ tallyInitializers ds)

def tallyStatements : List Stmt → Tally
  | [] => .nothing
  | s :: ss => tallyStmt s ++ tallyStatements ss

def tallyTests (subject : Nat) : List SwitchClause → Tally
  | [] => .nothing
  | .mk none _ :: cs => tallyTests subject cs
  | .mk (some test) _ :: cs =>
    .operand (.temporary subject) ++ tallyExpr test ++ tallyTests subject cs

def tallyClauses : List SwitchClause → Tally
  | [] => .nothing
  | .mk _ body :: cs => (tallyStatements body).nested ++ tallyClauses cs

def tallyStmt : Stmt → Tally
  | .block body => tallyStatements body
  | .declaration declarators => tallyInitializers declarators
  | .expression e | .throw e | .print e => tallyExpr e
  | .ifElse test consequent alternate =>
    tallyExpr test ++ ((tallyStmt consequent).nested ++ tallyOtherwise alternate)
  | .whileLoop test body => tallyExpr test ++ (tallyStmt body).nested
  | .doWhile body test => (tallyStmt body).nested ++ tallyExpr test
  | .forLoop init test update body =>
    tallyForInit init ++ (tallyOptional test ++ ((tallyStmt body).nested ++ tallyOptional update))
  | .forIn (.expression target) right body =>
    tallyForIn .nothing (tallyExpr right) (tallyTarget target) (tallyStmt body)
  | .forIn (.declaration declarators) right body =>
    tallyForIn (tallyInitializers declarators ++ tallyDeclared declarators) (tallyExpr right)
      (tallyDeclared declarators) (tallyStmt body)
  | .switch discriminant clauses =>
    .allocate 1 fun subject =>
      tallyExpr discriminant ++ (tallyTests subject clauses ++ tallyClauses clauses)
  | .tryCatch block handler finalizer =>
    (tallyStatements block).nested ++ (tallyHandler handler ++ tallyFinalizer finalizer)
  | .return argument => tallyElement argument
  | .labeled _ body => tallyStmt body
  | .function _ | .break _ | .continue _ | .withObject _ _ | .empty => .nothing

def tallyOtherwise : Option Stmt → Tally
  | none => .nothing
  | some s => (tallyStmt s).nested

def tallyForInit : Option ForHead → Tally
  | none => .nothing
  | some (.declaration declarators) => tallyInitializers declarators
  | some (.expression e) => tallyExpr e

def tallyOptional : Option Expr → Tally
  | none => .nothing
  | some e => tallyExpr e

def tallyHandler : Option CatchClause → Tally
  | none => .nothing
  | some (.mk param body) => .binding param ++ (tallyStatements body).nested

def tallyFinalizer : Option (List Stmt) → Tally
  | none => .nothing
  | some body => (tallyStatements body).nested

end

def tallyDeclaring (body : List Stmt) : Tally :=
  tallyDeclarations body ++ (tallyVariables body ++ tallyStatements body)

/-- What each unit of a program takes up, the one of the program first. -/
def programUsage (p : Program) : List Usage := (tallyDeclaring p.body 0).nested.inner

end TreeScript.Lowering
