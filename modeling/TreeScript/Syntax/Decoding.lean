import TreeScript.Json.Outline
import TreeScript.Json.Record
import TreeScript.Syntax.Tree

/-!
# Reading program trees

The inverse of the encoding, and a little more generous: parts may come in any order, parts nobody
knows are passed over, and absent optional parts need not be written.  The head of a `for` has no
tag of its own for a declaration, so it is one whenever it can be read as one.

Each reader is given the number of levels it may go down; a tree is read with as many as it has.  It
is also told whether it reads inside a tagged node, where tags may be numbers.
-/

namespace TreeScript.Syntax

open Json (required optional defaulted record? tagged? list? nullable? bool? str? float?)

def decodeName? (j : Json) : Option String := do
  required (← record? ["name"] j) "name" str?

def decodeNames? : Json → Option (List String) := list? decodeName?

/-- A variant without parts inside a tagged node, read by its symbol. -/
def decodeSymbol? (ofSymbol? : String → Option α) (j : Json) : Option α :=
  Json.plainVariant? true j >>= ofSymbol?

/-- A node without parts: nothing may be left over in its array form. -/
def leaf? (e : α) (parts : Json) : Option α := do
  let _ ← record? [] parts
  return e

def exprTags : List String :=
  ["ThisExpression", "UndefinedLiteral", "NullLiteral", "BooleanLiteral", "NumericLiteral",
    "StringLiteral", "RegExpLiteral", "Identifier", "ArrayExpression", "ObjectExpression",
    "FunctionExpression", "MemberExpression", "CallExpression", "NewExpression", "UnaryExpression",
    "UpdateExpression", "BinaryExpression", "LogicalExpression", "ConditionalExpression",
    "AssignmentExpression", "SequenceExpression"]

def memberTags : List String := ["ObjectProperty", "ObjectMethod"]

def stmtTags : List String :=
  ["BlockStatement", "VariableDeclaration", "FunctionDeclaration", "ExpressionStatement",
    "IfStatement", "WhileStatement", "DoWhileStatement", "ForStatement", "ForInStatement",
    "SwitchStatement", "TryStatement", "ThrowStatement", "ReturnStatement", "BreakStatement",
    "ContinueStatement", "LabeledStatement", "PrintStatement", "WithStatement", "EmptyStatement"]

mutual

def decodeExpr? : Nat → Bool → Json → Option Expr
  | 0, _, _ => none
  | n + 1, inner, j => do
    let (tag, parts) ← tagged? exprTags inner j
    match tag with
    | "ThisExpression" => leaf? .this parts
    | "UndefinedLiteral" => leaf? .undefined parts
    | "NullLiteral" => leaf? .null parts
    | "BooleanLiteral" =>
      let r ← record? ["value"] parts
      return .boolean (← required r "value" bool?)
    | "NumericLiteral" =>
      let r ← record? ["value"] parts
      return .number (← required r "value" float?)
    | "StringLiteral" =>
      let r ← record? ["value"] parts
      return .string (← required r "value" str?)
    | "RegExpLiteral" =>
      let r ← record? ["pattern", "flags"] parts
      return .regExp (← required r "pattern" str?) (← defaulted r "flags" "" str?)
    | "Identifier" => return .identifier (← decodeName? parts)
    | "ArrayExpression" =>
      let r ← record? ["elements"] parts
      return .array (← required r "elements" (list? (nullable? (decodeExpr? n true))))
    | "ObjectExpression" =>
      let r ← record? ["properties"] parts
      return .object (← required r "properties" (list? (decodeMember? n true)))
    | "FunctionExpression" => return .function (← decodeFunction? n true parts)
    | "MemberExpression" =>
      let r ← record? ["object", "property", "computed"] parts
      return .member (← required r "object" (decodeExpr? n true))
        (← required r "property" (decodeExpr? n true)) (← defaulted r "computed" false bool?)
    | "CallExpression" =>
      let r ← record? ["callee", "arguments"] parts
      return .call (← required r "callee" (decodeExpr? n true))
        (← required r "arguments" (list? (decodeExpr? n true)))
    | "NewExpression" =>
      let r ← record? ["callee", "arguments"] parts
      return .construct (← required r "callee" (decodeExpr? n true))
        (← defaulted r "arguments" [] (list? (decodeExpr? n true)))
    | "UnaryExpression" =>
      let r ← record? ["operator", "argument"] parts
      return .unary (← required r "operator" (decodeSymbol? UnaryOp.ofSymbol?))
        (← required r "argument" (decodeExpr? n true))
    | "UpdateExpression" =>
      let r ← record? ["operator", "argument", "prefix"] parts
      return .update (← required r "operator" (decodeSymbol? UpdateOp.ofSymbol?))
        (← required r "argument" (decodeExpr? n true)) (← required r "prefix" bool?)
    | "BinaryExpression" =>
      let r ← record? ["operator", "left", "right"] parts
      return .binary (← required r "operator" (decodeSymbol? BinaryOp.ofSymbol?))
        (← required r "left" (decodeExpr? n true)) (← required r "right" (decodeExpr? n true))
    | "LogicalExpression" =>
      let r ← record? ["operator", "left", "right"] parts
      return .logical (← required r "operator" (decodeSymbol? LogicalOp.ofSymbol?))
        (← required r "left" (decodeExpr? n true)) (← required r "right" (decodeExpr? n true))
    | "ConditionalExpression" =>
      let r ← record? ["test", "consequent", "alternate"] parts
      return .conditional (← required r "test" (decodeExpr? n true))
        (← required r "consequent" (decodeExpr? n true))
        (← required r "alternate" (decodeExpr? n true))
    | "AssignmentExpression" =>
      let r ← record? ["operator", "left", "right"] parts
      return .assignment (← required r "operator" (decodeSymbol? AssignOp.ofSymbol?))
        (← required r "left" (decodeExpr? n true)) (← required r "right" (decodeExpr? n true))
    | "SequenceExpression" =>
      let r ← record? ["expressions"] parts
      return .sequence (← required r "expressions" (list? (decodeExpr? n true)))
    | _ => none

def decodeMember? : Nat → Bool → Json → Option Member
  | 0, _, _ => none
  | n + 1, inner, j => do
    let (tag, parts) ← tagged? memberTags inner j
    match tag with
    | "ObjectProperty" =>
      let r ← record? ["key", "value"] parts
      return .value (← required r "key" (decodeExpr? n true))
        (← required r "value" (decodeExpr? n true))
    | "ObjectMethod" =>
      let r ← record? ["kind", "key", "params", "body"] parts
      return .accessor (← required r "kind" (decodeSymbol? AccessorKind.ofSymbol?))
        (← required r "key" (decodeExpr? n true)) (← required r "params" decodeNames?)
        (← required r "body" (decodeBlock? n true))
    | _ => none

def decodeFunction? : Nat → Bool → Json → Option FunctionDef
  | 0, _, _ => none
  | n + 1, inner, j => do
    let r ← record? ["id", "params", "body", "strict"] j
    return .mk (← optional r "id" decodeName?) (← required r "params" decodeNames?)
      (← required r "body" (decodeBlock? n inner)) (← defaulted r "strict" false bool?)

def decodeDeclarator? : Nat → Bool → Json → Option Declarator
  | 0, _, _ => none
  | n + 1, inner, j => do
    let r ← record? ["id", "init"] j
    return .mk (← required r "id" decodeName?) (← optional r "init" (decodeExpr? n inner))

def decodeDeclarators? : Nat → Bool → Json → Option (List Declarator)
  | 0, _, _ => none
  | n + 1, inner, j => do
    let r ← record? ["declarations"] j
    required r "declarations" (list? (decodeDeclarator? n inner))

def decodeForHead? : Nat → Bool → Json → Option ForHead
  | 0, _, _ => none
  | n + 1, inner, j =>
    match decodeDeclarators? n inner j with
    | some declarators => some (.declaration declarators)
    | none => (decodeExpr? n inner j).map .expression

def decodeClause? : Nat → Bool → Json → Option SwitchClause
  | 0, _, _ => none
  | n + 1, inner, j => do
    let r ← record? ["test", "consequent"] j
    return .mk (← optional r "test" (decodeExpr? n inner))
      (← required r "consequent" (list? (decodeStmt? n inner)))

def decodeCatch? : Nat → Bool → Json → Option CatchClause
  | 0, _, _ => none
  | n + 1, inner, j => do
    let r ← record? ["param", "body"] j
    return .mk (← required r "param" decodeName?) (← required r "body" (decodeBlock? n inner))

def decodeBlock? : Nat → Bool → Json → Option (List Stmt)
  | 0, _, _ => none
  | n + 1, inner, j => do
    let r ← record? ["body"] j
    required r "body" (list? (decodeStmt? n inner))

def decodeStmt? : Nat → Bool → Json → Option Stmt
  | 0, _, _ => none
  | n + 1, inner, j => do
    let (tag, parts) ← tagged? stmtTags inner j
    match tag with
    | "BlockStatement" => return .block (← decodeBlock? n true parts)
    | "VariableDeclaration" => return .declaration (← decodeDeclarators? n true parts)
    | "FunctionDeclaration" => return .function (← decodeFunction? n true parts)
    | "ExpressionStatement" =>
      let r ← record? ["expression"] parts
      return .expression (← required r "expression" (decodeExpr? n true))
    | "IfStatement" =>
      let r ← record? ["test", "consequent", "alternate"] parts
      return .ifElse (← required r "test" (decodeExpr? n true))
        (← required r "consequent" (decodeStmt? n true))
        (← optional r "alternate" (decodeStmt? n true))
    | "WhileStatement" =>
      let r ← record? ["test", "body"] parts
      return .whileLoop (← required r "test" (decodeExpr? n true))
        (← required r "body" (decodeStmt? n true))
    | "DoWhileStatement" =>
      let r ← record? ["body", "test"] parts
      return .doWhile (← required r "body" (decodeStmt? n true))
        (← required r "test" (decodeExpr? n true))
    | "ForStatement" =>
      let r ← record? ["init", "test", "update", "body"] parts
      return .forLoop (← optional r "init" (decodeForHead? n true))
        (← optional r "test" (decodeExpr? n true)) (← optional r "update" (decodeExpr? n true))
        (← required r "body" (decodeStmt? n true))
    | "ForInStatement" =>
      let r ← record? ["left", "right", "body"] parts
      return .forIn (← required r "left" (decodeForHead? n true))
        (← required r "right" (decodeExpr? n true)) (← required r "body" (decodeStmt? n true))
    | "SwitchStatement" =>
      let r ← record? ["discriminant", "cases"] parts
      return .switch (← required r "discriminant" (decodeExpr? n true))
        (← required r "cases" (list? (decodeClause? n true)))
    | "TryStatement" =>
      let r ← record? ["block", "handler", "finalizer"] parts
      return .tryCatch (← required r "block" (decodeBlock? n true))
        (← optional r "handler" (decodeCatch? n true))
        (← optional r "finalizer" (decodeBlock? n true))
    | "ThrowStatement" =>
      let r ← record? ["argument"] parts
      return .throw (← required r "argument" (decodeExpr? n true))
    | "ReturnStatement" =>
      let r ← record? ["argument"] parts
      return .return (← optional r "argument" (decodeExpr? n true))
    | "BreakStatement" =>
      let r ← record? ["label"] parts
      return .break (← optional r "label" decodeName?)
    | "ContinueStatement" =>
      let r ← record? ["label"] parts
      return .continue (← optional r "label" decodeName?)
    | "LabeledStatement" =>
      let r ← record? ["label", "body"] parts
      return .labeled (← required r "label" decodeName?) (← required r "body" (decodeStmt? n true))
    | "PrintStatement" =>
      let r ← record? ["argument"] parts
      return .print (← required r "argument" (decodeExpr? n true))
    | "WithStatement" =>
      let r ← record? ["object", "body"] parts
      return .withObject (← required r "object" (decodeExpr? n true))
        (← required r "body" (decodeStmt? n true))
    | "EmptyStatement" => leaf? .empty parts
    | _ => none

end

/-- Levels enough to read any tree in `j`: a node goes through at most four readers for each level
of nesting. -/
def decodingFuel (j : Json) : Nat := 4 * j.depth + 4

namespace Stmt

def decode? (j : Json) : Option Stmt := decodeStmt? (decodingFuel j) false j

end Stmt

namespace Program

def parts : List String := ["body", "strict"]

def decode? (j : Json) : Option Program := do
  let r ← record? parts j
  return ⟨← required r "body" (list? (decodeStmt? (decodingFuel j) false)),
    ← defaulted r "strict" false bool?⟩

def maxNesting : Nat := 127

def ofText? (text : String) : Option Program :=
  Json.readRecord? parts maxNesting text >>= decode?

end Program

end TreeScript.Syntax
