import TreeScript.Proofs.Json.Reading
import TreeScript.Proofs.Syntax.Nodes
import TreeScript.Syntax.Decoding
import TreeScript.Syntax.Encoding

/-!
# Trees are read back as they were written

Two levels for each level of nesting are enough to read a tree, because no reader hands the data it
was given on to another one more than once before it goes into a part: a function is read from the
parts of its node, and the head of a `for` is given to the reader of declarators and then to the one
of expressions.

The head of a `for` is the one place without a tag.  An expression is never taken for a declaration
there, since no node of an expression has a part with the name `declarations`.
-/

namespace TreeScript.Syntax

open Json

/-! ## Names and symbols -/

theorem decodeNames?_encodeNames (names : List String) :
    decodeNames? (encodeNames names) = some names :=
  list?_map fun _ _ => rfl

theorem nullable?_name (name : Option String) :
    nullable? decodeName? (Json.option encodeName name) = some name := by
  cases name <;> rfl

theorem UnaryOp.ofSymbol?_symbol (op : UnaryOp) : ofSymbol? op.symbol = some op := by
  cases op <;> rfl

theorem UpdateOp.ofSymbol?_symbol (op : UpdateOp) : ofSymbol? op.symbol = some op := by
  cases op <;> rfl

theorem BinaryOp.ofSymbol?_symbol (op : BinaryOp) : ofSymbol? op.symbol = some op := by
  cases op <;> rfl

theorem LogicalOp.ofSymbol?_symbol (op : LogicalOp) : ofSymbol? op.symbol = some op := by
  cases op <;> rfl

theorem AssignOp.ofSymbol?_symbol (op : AssignOp) : ofSymbol? op.symbol = some op := by
  cases op <;> rfl

theorem AccessorKind.ofSymbol?_symbol (kind : AccessorKind) :
    ofSymbol? kind.symbol = some kind := by
  cases kind <;> rfl

/-! ## Finite literals -/

/-- All number literals among these nodes are finite. -/
def Finite (nodes : List Node) : Prop := ∀ x, .expr (.number x) ∈ nodes → x.isFinite = true

namespace Finite

variable {n : Node} {ns ns' : List Node}

theorem tail (h : Finite (n :: ns)) : Finite ns := fun x hx => h x (List.mem_cons_of_mem _ hx)

theorem left (h : Finite (ns ++ ns')) : Finite ns := fun x hx => h x (List.mem_append_left _ hx)

theorem right (h : Finite (ns ++ ns')) : Finite ns' := fun x hx => h x (List.mem_append_right _ hx)

end Finite

/-! ## The head of a `for` -/

/-- No expression is read as declarators, whatever its parts. -/
theorem decodeDeclarators?_encode (e : Expr) (n : Nat) (inner : Bool) :
    decodeDeclarators? n inner e.encode = none := by
  cases n with
  | zero => rfl
  | succ n =>
    cases e with
    | function definition =>
      cases definition
      rfl
    | _ => rfl

theorem decodeForHead?_declaration {n : Nat} {inner : Bool} {j : Json} {ds : List Declarator}
    (h : decodeDeclarators? n inner j = some ds) :
    decodeForHead? (n + 1) inner j = some (.declaration ds) := by
  rw [decodeForHead?, h]

theorem decodeForHead?_expression {n : Nat} {inner : Bool} {e : Expr}
    (h : decodeExpr? n inner e.encode = some e) :
    decodeForHead? (n + 1) inner e.encode = some (.expression e) := by
  rw [decodeForHead?, decodeDeclarators?_encode, h]
  rfl

/-! ## Statements with optional parts -/

theorem Stmt.encode_ifElse (test : Expr) (consequent : Stmt) (alternate : Option Stmt) :
    (Stmt.ifElse test consequent alternate).encode =
      node "IfStatement" [("test", test.encode), ("consequent", consequent.encode),
        ("alternate", Json.option Stmt.encode alternate)] := by
  cases alternate <;> rfl

theorem Stmt.encode_forLoop (init : Option ForHead) (test update : Option Expr) (body : Stmt) :
    (Stmt.forLoop init test update body).encode =
      node "ForStatement" [("init", Json.option ForHead.encode init),
        ("test", encodeOptionalExpr test), ("update", encodeOptionalExpr update),
        ("body", body.encode)] := by
  cases init <;> rfl

theorem Stmt.encode_tryCatch (body : List Stmt) (handler : Option CatchClause)
    (finalizer : Option (List Stmt)) :
    (Stmt.tryCatch body handler finalizer).encode =
      node "TryStatement" [("block", Syntax.block (encodeStmts body)),
        ("handler", Json.option CatchClause.encode handler),
        ("finalizer", Json.option (fun body => Syntax.block (encodeStmts body)) finalizer)] := by
  cases handler <;> cases finalizer <;> rfl

/-! ## Trees -/

theorem reads_block {body : List Stmt}
    (h : Reads (Reader.list decodeStmt?) (.arr (encodeStmts body)) body) :
    Reads decodeBlock? (block (encodeStmts body)) body :=
  reads_obj fun _ inner hn => h.part hn (by simp) 1 inner

mutual

theorem Expr.reads : (e : Expr) → Finite e.nodes → Reads decodeExpr? e.encode e
  | .this, _ | .undefined, _ | .null, _ | .boolean _, _ | .string _, _ | .regExp _ _, _
  | .identifier _, _ => reads_obj fun _ _ _ => rfl
  | .number x, h => reads_obj fun _ _ _ =>
    (read_one Expr.number (float?_number (h x List.mem_cons_self)) :)
  | .array elements, h => reads_obj fun _ _ hn =>
    (read_one Expr.array ((reads_elements elements h.tail).part hn (by simp) 1 true) :)
  | .object members, h => reads_obj fun _ _ hn =>
    (read_one Expr.object ((reads_members members h.tail).part hn (by simp) 1 true) :)
  | .function (.mk name params body strict), h => reads_obj fun _ _ hn =>
    (read_one Expr.function (read_four FunctionDef.mk (nullable?_name name)
      (decodeNames?_encodeNames params)
      ((reads_block (reads_stmts body h.tail)).part hn (by simp [FunctionDef.parts]) 0 true)
      (rfl : bool? (.bool strict) = some strict)) :)
  | .member object property computed, h => reads_obj fun _ _ hn =>
    (read_three Expr.member ((object.reads h.tail.left).part hn (by simp) 1 true)
      ((property.reads h.tail.right).part hn (by simp) 1 true)
      (rfl : bool? (.bool computed) = some computed) :)
  | .call callee arguments, h => reads_obj fun _ _ hn =>
    (read_two Expr.call ((callee.reads h.tail.left).part hn (by simp) 1 true)
      ((reads_exprs arguments h.tail.right).part hn (by simp) 1 true) :)
  | .construct callee arguments, h => reads_obj fun _ _ hn =>
    (read_two Expr.construct ((callee.reads h.tail.left).part hn (by simp) 1 true)
      ((reads_exprs arguments h.tail.right).part hn (by simp) 1 true) :)
  | .unary op argument, h => reads_obj fun _ _ hn =>
    (read_two Expr.unary op.ofSymbol?_symbol
      ((argument.reads h.tail).part hn (by simp) 1 true) :)
  | .update op argument prefixed, h => reads_obj fun _ _ hn =>
    (read_three Expr.update op.ofSymbol?_symbol
      ((argument.reads h.tail).part hn (by simp) 1 true)
      (rfl : bool? (.bool prefixed) = some prefixed) :)
  | .binary op left right, h => reads_obj fun _ _ hn =>
    (read_three Expr.binary op.ofSymbol?_symbol
      ((left.reads h.tail.left).part hn (by simp) 1 true)
      ((right.reads h.tail.right).part hn (by simp) 1 true) :)
  | .logical op left right, h => reads_obj fun _ _ hn =>
    (read_three Expr.logical op.ofSymbol?_symbol
      ((left.reads h.tail.left).part hn (by simp) 1 true)
      ((right.reads h.tail.right).part hn (by simp) 1 true) :)
  | .conditional test consequent alternate, h => reads_obj fun _ _ hn =>
    (read_three Expr.conditional ((test.reads h.tail.left).part hn (by simp) 1 true)
      ((consequent.reads h.tail.right.left).part hn (by simp) 1 true)
      ((alternate.reads h.tail.right.right).part hn (by simp) 1 true) :)
  | .assignment op target value, h => reads_obj fun _ _ hn =>
    (read_three Expr.assignment op.ofSymbol?_symbol
      ((target.reads h.tail.left).part hn (by simp) 1 true)
      ((value.reads h.tail.right).part hn (by simp) 1 true) :)
  | .sequence expressions, h => reads_obj fun _ _ hn =>
    (read_one Expr.sequence ((reads_exprs expressions h.tail).part hn (by simp) 1 true) :)

theorem reads_exprs :
    (es : List Expr) → Finite (exprsNodes es) →
      Reads (Reader.list decodeExpr?) (.arr (encodeExprs es)) es
  | [], _ => reads_nil _
  | e :: es, h => reads_cons (e.reads h.left) (reads_exprs es h.right)

theorem reads_optionalExpr :
    (e : Option Expr) → Finite (elementNodes e) →
      Reads (Reader.nullable decodeExpr?) (encodeOptionalExpr e) e
  | none, _ => reads_none _
  | some e, h => reads_some (e.reads h) rfl

theorem reads_elements :
    (es : List (Option Expr)) → Finite (elementsNodes es) →
      Reads (Reader.nullable decodeExpr?).list (.arr (encodeElements es)) es
  | [], _ => reads_nil _
  | e :: es, h => reads_cons (reads_optionalExpr e h.left) (reads_elements es h.right)

theorem Member.reads : (m : Member) → Finite m.nodes → Reads decodeMember? m.encode m
  | .value key value, h => reads_obj fun _ _ hn =>
    (read_two Member.value ((key.reads h.tail.left).part hn (by simp) 1 true)
      ((value.reads h.tail.right).part hn (by simp) 1 true) :)
  | .accessor kind key params body, h => reads_obj fun _ _ hn =>
    (read_four Member.accessor kind.ofSymbol?_symbol
      ((key.reads h.tail.left).part hn (by simp) 1 true) (decodeNames?_encodeNames params)
      ((reads_block (reads_stmts body h.tail.right)).part hn (by simp) 1 true) :)

theorem reads_members :
    (ms : List Member) → Finite (membersNodes ms) →
      Reads (Reader.list decodeMember?) (.arr (encodeMembers ms)) ms
  | [], _ => reads_nil _
  | m :: ms, h => reads_cons (m.reads h.left) (reads_members ms h.right)

theorem reads_declarators :
    (ds : List Declarator) → Finite (declaratorsNodes ds) →
      Reads (Reader.list decodeDeclarator?) (.arr (encodeDeclarators ds)) ds
  | [], _ => reads_nil _
  | .mk name init :: ds, h =>
    have head : Reads decodeDeclarator? (Declarator.mk name init).encode (.mk name init) :=
      reads_obj fun _ inner hn =>
        (read_two Declarator.mk (rfl : decodeName? (encodeName name) = some name)
          ((reads_optionalExpr init h.left).part hn (by simp) 1 inner) :)
    reads_cons head (reads_declarators ds h.right)

/-- The head of a `for` is read with one level more, since its reader gives it to another. -/
theorem ForHead.reads :
    (head : ForHead) → Finite head.nodes →
      Reads (fun n => decodeForHead? (n + 1)) head.encode head
  | .declaration ds, h => reads_obj fun _ inner hn =>
    decodeForHead?_declaration ((reads_declarators ds h).part hn (by simp) 1 inner)
  | .expression e, h => fun n inner hn => decodeForHead?_expression (e.reads h n inner hn)

theorem reads_head :
    (head : Option ForHead) → Finite (headNodes head) →
      Reads (Reader.nullable fun n => decodeForHead? (n + 1)) (Json.option ForHead.encode head) head
  | none, _ => reads_none _
  | some head, h => reads_some (head.reads h) rfl

theorem reads_clauses :
    (cs : List SwitchClause) → Finite (testsNodes cs) → Finite (clausesNodes true cs) →
      Reads (Reader.list decodeClause?) (.arr (encodeClauses cs)) cs
  | [], _, _ => reads_nil _
  | .mk test body :: cs, ht, hb =>
    have head : Reads decodeClause? (SwitchClause.mk test body).encode (.mk test body) :=
      reads_obj fun _ inner hn =>
        (read_two SwitchClause.mk ((reads_optionalExpr test ht.left).part hn (by simp) 1 inner)
          ((reads_stmts body hb.left).part hn (by simp) 1 inner) :)
    reads_cons head (reads_clauses cs ht.right hb.right)

theorem reads_handler :
    (handler : Option CatchClause) → Finite (handlerNodes true handler) →
      Reads (Reader.nullable decodeCatch?) (Json.option CatchClause.encode handler) handler
  | none, _ => reads_none _
  | some (.mk param body), h =>
    have clause : Reads decodeCatch? (CatchClause.mk param body).encode (.mk param body) :=
      reads_obj fun _ inner hn =>
        (read_two CatchClause.mk (rfl : decodeName? (encodeName param) = some param)
          ((reads_block (reads_stmts body h)).part hn (by simp) 1 inner) :)
    reads_some clause rfl

theorem reads_finalizer :
    (finalizer : Option (List Stmt)) → Finite (finalizerNodes true finalizer) →
      Reads (Reader.nullable decodeBlock?)
        (Json.option (fun body => block (encodeStmts body)) finalizer) finalizer
  | none, _ => reads_none _
  | some body, h => reads_some (reads_block (reads_stmts body h)) rfl

theorem reads_alternate :
    (alternate : Option Stmt) → Finite (alternateNodes true alternate) →
      Reads (Reader.nullable decodeStmt?) (Json.option Stmt.encode alternate) alternate
  | none, _ => reads_none _
  | some s, h => reads_some (s.reads h) rfl

theorem reads_stmts :
    (ss : List Stmt) → Finite (stmtsNodes true ss) →
      Reads (Reader.list decodeStmt?) (.arr (encodeStmts ss)) ss
  | [], _ => reads_nil _
  | s :: ss, h => reads_cons (s.reads h.left) (reads_stmts ss h.right)

theorem Stmt.reads : (s : Stmt) → Finite (s.nodes true) → Reads decodeStmt? s.encode s
  | .block body, h => reads_obj fun _ _ hn =>
    (read_one Stmt.block ((reads_stmts body h.tail).part hn (by simp) 0 true) :)
  | .declaration declarators, h => reads_obj fun _ _ hn =>
    (read_one Stmt.declaration ((reads_declarators declarators h.tail).part hn (by simp) 0 true) :)
  | .function (.mk name params body strict), h => reads_obj fun _ _ hn =>
    (read_one Stmt.function (read_four FunctionDef.mk (nullable?_name name)
      (decodeNames?_encodeNames params)
      ((reads_block (reads_stmts body h.tail)).part hn (by simp [FunctionDef.parts]) 0 true)
      (rfl : bool? (.bool strict) = some strict)) :)
  | .expression e, h => reads_obj fun _ _ hn =>
    (read_one Stmt.expression ((e.reads h.tail).part hn (by simp) 1 true) :)
  | .ifElse test consequent alternate, h => Stmt.encode_ifElse .. ▸ reads_obj fun _ _ hn =>
    (read_three Stmt.ifElse ((test.reads h.tail.left).part hn (by simp) 1 true)
      ((consequent.reads h.tail.right.left).part hn (by simp) 1 true)
      ((reads_alternate alternate h.tail.right.right).part hn (by simp) 1 true) :)
  | .whileLoop test body, h => reads_obj fun _ _ hn =>
    (read_two Stmt.whileLoop ((test.reads h.tail.left).part hn (by simp) 1 true)
      ((body.reads h.tail.right).part hn (by simp) 1 true) :)
  | .doWhile body test, h => reads_obj fun _ _ hn =>
    (read_two Stmt.doWhile ((body.reads h.tail.right).part hn (by simp) 1 true)
      ((test.reads h.tail.left).part hn (by simp) 1 true) :)
  | .forLoop init test update body, h => Stmt.encode_forLoop .. ▸ reads_obj fun _ _ hn =>
    (read_four Stmt.forLoop ((reads_head init h.tail.left).part hn (by simp) 0 true)
      ((reads_optionalExpr test h.tail.right.left).part hn (by simp) 1 true)
      ((reads_optionalExpr update h.tail.right.right.left).part hn (by simp) 1 true)
      ((body.reads h.tail.right.right.right).part hn (by simp) 1 true) :)
  | .forIn left right body, h => reads_obj fun _ _ hn =>
    (read_three Stmt.forIn ((left.reads h.tail.left).part hn (by simp) 0 true)
      ((right.reads h.tail.right.left).part hn (by simp) 1 true)
      ((body.reads h.tail.right.right).part hn (by simp) 1 true) :)
  | .switch discriminant clauses, h => reads_obj fun _ _ hn =>
    (read_two Stmt.switch ((discriminant.reads h.tail.left).part hn (by simp) 1 true)
      ((reads_clauses clauses h.tail.right.left h.tail.right.right).part hn (by simp) 1 true) :)
  | .tryCatch body handler finalizer, h => Stmt.encode_tryCatch .. ▸ reads_obj fun _ _ hn =>
    (read_three Stmt.tryCatch
      ((reads_block (reads_stmts body h.tail.left)).part hn (by simp) 1 true)
      ((reads_handler handler h.tail.right.left).part hn (by simp) 1 true)
      ((reads_finalizer finalizer h.tail.right.right).part hn (by simp) 1 true) :)
  | .throw argument, h => reads_obj fun _ _ hn =>
    (read_one Stmt.throw ((argument.reads h.tail).part hn (by simp) 1 true) :)
  | .return argument, h => reads_obj fun _ _ hn =>
    (read_one Stmt.return ((reads_optionalExpr argument h.tail).part hn (by simp) 1 true) :)
  | .break label, _ => reads_obj fun _ _ _ => (read_one Stmt.break (nullable?_name label) :)
  | .continue label, _ => reads_obj fun _ _ _ => (read_one Stmt.continue (nullable?_name label) :)
  | .labeled label body, h => reads_obj fun _ _ hn =>
    (read_two Stmt.labeled (rfl : decodeName? (encodeName label) = some label)
      ((body.reads h.tail).part hn (by simp) 1 true) :)
  | .print argument, h => reads_obj fun _ _ hn =>
    (read_one Stmt.print ((argument.reads h.tail).part hn (by simp) 1 true) :)
  | .withObject object body, h => reads_obj fun _ _ hn =>
    (read_two Stmt.withObject ((object.reads h.tail.left).part hn (by simp) 1 true)
      ((body.reads h.tail.right).part hn (by simp) 1 true) :)
  | .empty, _ => reads_obj fun _ _ _ => rfl

end

/-! ## Programs -/

theorem Program.decode?_encode {p : Program} (h : Finite p.nodes) :
    Program.decode? p.encode = some p := by
  have hbody : list? (decodeStmt? (decodingFuel p.encode) false) (.arr (encodeStmts p.body)) =
      some p.body := by
    refine reads_stmts p.body h _ _ ?_
    have : (Json.arr (encodeStmts p.body)).depth ≤ p.encode.depth := by
      show _ ≤ max _ _ + 1
      omega
    rw [decodingFuel]
    omega
  exact (read_two Program.mk hbody (rfl : bool? (.bool p.strict) = some p.strict) :)

end TreeScript.Syntax
