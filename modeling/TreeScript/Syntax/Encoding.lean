import TreeScript.Json.Basic
import TreeScript.Syntax.Tree

/-!
# Program trees as JSON

Expressions, statements and object members are tagged nodes; names, bodies and clauses are plain
records.  Every part is written out, with `null` for one that is absent.
-/

namespace TreeScript.Syntax

open Json (str bool arr obj)

def encodeName (name : String) : Json := obj [("name", str name)]

def encodeNames (names : List String) : Json := arr (names.map encodeName)

def block (body : List Json) : Json := obj [("body", arr body)]

def node (tag : String) (parts : List (String × Json)) : Json :=
  obj (("type", str tag) :: parts)

mutual

def Expr.encode : Expr → Json
  | .this => node "ThisExpression" []
  | .undefined => node "UndefinedLiteral" []
  | .null => node "NullLiteral" []
  | .boolean value => node "BooleanLiteral" [("value", bool value)]
  | .number value => node "NumericLiteral" [("value", Json.number value)]
  | .string value => node "StringLiteral" [("value", str value)]
  | .regExp pattern flags =>
    node "RegExpLiteral" [("pattern", str pattern), ("flags", str flags)]
  | .identifier name => node "Identifier" [("name", str name)]
  | .array elements => node "ArrayExpression" [("elements", arr (encodeElements elements))]
  | .object members => node "ObjectExpression" [("properties", arr (encodeMembers members))]
  | .function definition => node "FunctionExpression" definition.parts
  | .member object property computed =>
    node "MemberExpression" [("object", object.encode), ("property", property.encode),
      ("computed", bool computed)]
  | .call callee arguments =>
    node "CallExpression" [("callee", callee.encode), ("arguments", arr (encodeExprs arguments))]
  | .construct callee arguments =>
    node "NewExpression" [("callee", callee.encode), ("arguments", arr (encodeExprs arguments))]
  | .unary op argument =>
    node "UnaryExpression" [("operator", str op.symbol), ("argument", argument.encode)]
  | .update op argument prefixed =>
    node "UpdateExpression" [("operator", str op.symbol), ("argument", argument.encode),
      ("prefix", bool prefixed)]
  | .binary op left right =>
    node "BinaryExpression" [("operator", str op.symbol), ("left", left.encode),
      ("right", right.encode)]
  | .logical op left right =>
    node "LogicalExpression" [("operator", str op.symbol), ("left", left.encode),
      ("right", right.encode)]
  | .conditional test consequent alternate =>
    node "ConditionalExpression" [("test", test.encode), ("consequent", consequent.encode),
      ("alternate", alternate.encode)]
  | .assignment op target value =>
    node "AssignmentExpression" [("operator", str op.symbol), ("left", target.encode),
      ("right", value.encode)]
  | .sequence expressions =>
    node "SequenceExpression" [("expressions", arr (encodeExprs expressions))]

def encodeExprs : List Expr → List Json
  | [] => []
  | e :: es => e.encode :: encodeExprs es

def encodeOptionalExpr : Option Expr → Json
  | none => .null
  | some e => e.encode

def encodeElements : List (Option Expr) → List Json
  | [] => []
  | e :: es => encodeOptionalExpr e :: encodeElements es

def Member.encode : Member → Json
  | .value key value => node "ObjectProperty" [("key", key.encode), ("value", value.encode)]
  | .accessor kind key params body =>
    node "ObjectMethod" [("kind", str kind.symbol), ("key", key.encode),
      ("params", encodeNames params), ("body", block (encodeStmts body))]

def encodeMembers : List Member → List Json
  | [] => []
  | m :: ms => m.encode :: encodeMembers ms

def FunctionDef.parts : FunctionDef → List (String × Json)
  | .mk name params body strict =>
    [("id", Json.option encodeName name), ("params", encodeNames params),
      ("body", block (encodeStmts body)), ("strict", bool strict)]

def Declarator.encode : Declarator → Json
  | .mk name init => obj [("id", encodeName name), ("init", encodeOptionalExpr init)]

def encodeDeclarators : List Declarator → List Json
  | [] => []
  | d :: ds => d.encode :: encodeDeclarators ds

def ForHead.encode : ForHead → Json
  | .declaration declarators => obj [("declarations", arr (encodeDeclarators declarators))]
  | .expression e => e.encode

def SwitchClause.encode : SwitchClause → Json
  | .mk test body =>
    obj [("test", encodeOptionalExpr test), ("consequent", arr (encodeStmts body))]

def encodeClauses : List SwitchClause → List Json
  | [] => []
  | c :: cs => c.encode :: encodeClauses cs

def CatchClause.encode : CatchClause → Json
  | .mk param body => obj [("param", encodeName param), ("body", block (encodeStmts body))]

def encodeStmts : List Stmt → List Json
  | [] => []
  | s :: ss => s.encode :: encodeStmts ss

def Stmt.encode : Stmt → Json
  | .block body => node "BlockStatement" [("body", arr (encodeStmts body))]
  | .declaration declarators =>
    node "VariableDeclaration" [("declarations", arr (encodeDeclarators declarators))]
  | .function definition => node "FunctionDeclaration" definition.parts
  | .expression e => node "ExpressionStatement" [("expression", e.encode)]
  | .ifElse test consequent alternate =>
    let alternate := match alternate with
      | none => Json.null
      | some s => s.encode
    node "IfStatement" [("test", test.encode), ("consequent", consequent.encode),
      ("alternate", alternate)]
  | .whileLoop test body => node "WhileStatement" [("test", test.encode), ("body", body.encode)]
  | .doWhile body test => node "DoWhileStatement" [("body", body.encode), ("test", test.encode)]
  | .forLoop init test update body =>
    let init := match init with
      | none => Json.null
      | some head => head.encode
    node "ForStatement" [("init", init), ("test", encodeOptionalExpr test),
      ("update", encodeOptionalExpr update), ("body", body.encode)]
  | .forIn left right body =>
    node "ForInStatement" [("left", left.encode), ("right", right.encode), ("body", body.encode)]
  | .switch discriminant clauses =>
    node "SwitchStatement" [("discriminant", discriminant.encode),
      ("cases", arr (encodeClauses clauses))]
  | .tryCatch body handler finalizer =>
    let handler := match handler with
      | none => Json.null
      | some clause => clause.encode
    let finalizer := match finalizer with
      | none => Json.null
      | some body => block (encodeStmts body)
    node "TryStatement" [("block", block (encodeStmts body)), ("handler", handler),
      ("finalizer", finalizer)]
  | .throw argument => node "ThrowStatement" [("argument", argument.encode)]
  | .return argument => node "ReturnStatement" [("argument", encodeOptionalExpr argument)]
  | .break label => node "BreakStatement" [("label", Json.option encodeName label)]
  | .continue label => node "ContinueStatement" [("label", Json.option encodeName label)]
  | .labeled label body =>
    node "LabeledStatement" [("label", encodeName label), ("body", body.encode)]
  | .print argument => node "PrintStatement" [("argument", argument.encode)]
  | .withObject object body =>
    node "WithStatement" [("object", object.encode), ("body", body.encode)]
  | .empty => node "EmptyStatement" []

end

def Program.encode (p : Program) : Json :=
  obj [("body", arr (encodeStmts p.body)), ("strict", bool p.strict)]

end TreeScript.Syntax
