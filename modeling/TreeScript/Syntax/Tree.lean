import TreeScript.Syntax.Operator

/-!
# Program trees

Expressions, statements and the parts they are made of.  A tree may hold more than the compiler
accepts: `with`, accessors and odd assignment targets have a place here and are turned down later.
-/

namespace TreeScript.Syntax

mutual

inductive Expr where
  | this
  | undefined
  | null
  | boolean (value : Bool)
  | number (value : Float)
  | string (value : String)
  | regExp (pattern flags : String)
  | identifier (name : String)
  /-- An array literal; a missing element is a hole. -/
  | array (elements : List (Option Expr))
  | object (members : List Member)
  | function (definition : FunctionDef)
  /-- `object.property`, or `object[property]` when computed. -/
  | member (object property : Expr) (computed : Bool)
  | call (callee : Expr) (arguments : List Expr)
  | construct (callee : Expr) (arguments : List Expr)
  | unary (op : UnaryOp) (argument : Expr)
  | update (op : UpdateOp) (argument : Expr) (prefixed : Bool)
  | binary (op : BinaryOp) (left right : Expr)
  | logical (op : LogicalOp) (left right : Expr)
  | conditional (test consequent alternate : Expr)
  | assignment (op : AssignOp) (target value : Expr)
  | sequence (expressions : List Expr)

inductive Member where
  | value (key value : Expr)
  | accessor (kind : AccessorKind) (key : Expr) (params : List String) (body : List Stmt)

inductive FunctionDef where
  | mk (name : Option String) (params : List String) (body : List Stmt) (strict : Bool)

inductive Declarator where
  | mk (name : String) (init : Option Expr)

/-- What stands first in the head of a `for` or `for`-`in`. -/
inductive ForHead where
  | declaration (declarators : List Declarator)
  | expression (e : Expr)

/-- A clause of a `switch`; without a test it is the default. -/
inductive SwitchClause where
  | mk (test : Option Expr) (body : List Stmt)

inductive CatchClause where
  | mk (param : String) (body : List Stmt)

inductive Stmt where
  | block (body : List Stmt)
  | declaration (declarators : List Declarator)
  | function (definition : FunctionDef)
  | expression (e : Expr)
  | ifElse (test : Expr) (consequent : Stmt) (alternate : Option Stmt)
  | whileLoop (test : Expr) (body : Stmt)
  | doWhile (body : Stmt) (test : Expr)
  | forLoop (init : Option ForHead) (test update : Option Expr) (body : Stmt)
  | forIn (left : ForHead) (right : Expr) (body : Stmt)
  | switch (discriminant : Expr) (clauses : List SwitchClause)
  | tryCatch (block : List Stmt) (handler : Option CatchClause) (finalizer : Option (List Stmt))
  | throw (argument : Expr)
  | return (argument : Option Expr)
  | break (label : Option String)
  | continue (label : Option String)
  | labeled (label : String) (body : Stmt)
  | print (argument : Expr)
  | withObject (object : Expr) (body : Stmt)
  | empty

end

instance : Inhabited Expr := ⟨.undefined⟩

instance : Inhabited Stmt := ⟨.empty⟩

namespace FunctionDef

def name : FunctionDef → Option String
  | mk name _ _ _ => name

def params : FunctionDef → List String
  | mk _ params _ _ => params

def body : FunctionDef → List Stmt
  | mk _ _ body _ => body

def strict : FunctionDef → Bool
  | mk _ _ _ strict => strict

end FunctionDef

namespace SwitchClause

def body : SwitchClause → List Stmt
  | mk _ body => body

end SwitchClause

namespace CatchClause

def body : CatchClause → List Stmt
  | mk _ body => body

end CatchClause

namespace Stmt

/-- The statements that an unlabeled `break` can leave: loops and `switch`. -/
def isBreakable : Stmt → Bool
  | whileLoop .. | doWhile .. | forLoop .. | forIn .. | switch .. => true
  | _ => false

/-- A label in front of this statement belongs to it: it is breakable, or has labels of its own. -/
def takesLabel : Stmt → Bool
  | labeled .. => true
  | s => s.isBreakable

end Stmt

structure Program where
  body : List Stmt
  strict : Bool := false
  deriving Inhabited

end TreeScript.Syntax
