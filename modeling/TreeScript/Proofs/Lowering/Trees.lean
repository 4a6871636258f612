import TreeScript.Proofs.Lowering.Regular
import TreeScript.Proofs.Syntax.Parts

/-!
# The code of trees is regular

Every expression and statement has code that is regular, takes up what its tally says, and can be
generated if its nodes are accepted.  Functions that a statement declares are not generated with it
but at the beginning of the body around it.
-/

namespace TreeScript.Lowering

open Code Syntax

variable {c : Setting} {x y : Tally} {ok ok' : Prop}

variable {g : Bool → Gen Unit}

theorem Regulates.iff (h : Regulates c g x ok) (hok : ok ↔ ok') :
    Regulates c g x ok' :=
  fun _ _ _ _ => (h _ _ _ _).iff hok

theorem RegulatesTarget.iff {g : Bool → Gen Target} (h : RegulatesTarget c g x ok)
    (hok : ok ↔ ok') : RegulatesTarget c g x ok' :=
  fun _ _ _ _ => (h _ _ _ _).iff hok

theorem regulates_nothing : Regulates c (fun _ => pure ()) .nothing True :=
  fun _ _ _ _ => .pure trivial nofun rfl

theorem regulates_seq {g' : Bool → Gen Unit} (h : Regulates c g x ok) (h' : Regulates c g' y ok') :
    Regulates c (fun b => do g b; g' b) (x ++ y) (ok ∧ ok') :=
  fun _ _ _ _ => .part (h _ _ _ _) (h' _ _ _ _)

theorem regulates_operate {op : Operation} {supplied : Nat} (h : Regulates c g x ok)
    (ha : op.arity = supplied) (hf : op.strict? = none) :
    Regulates c (fun b => do g b; operate op supplied) x ok :=
  fun _ _ _ _ => .last (h _ _ _ _) (.operate ha hf)

theorem regulates_emit {i : Instruction} (h : Regulates c g x ok)
    (hi : ∀ {w known pending}, Fits c w known pending i) :
    Regulates c (fun b => do g b; emit i) x ok :=
  fun _ _ _ _ => .last (h _ _ _ _) (.emit i hi)

/-! ## Members and calls -/

theorem accepted_member (object property : Expr) (computed : Bool) :
    (Accepted object.nodes ∧ if computed then Accepted property.nodes else property.isIdentifier) ↔
      Accepted (Expr.member object property computed).nodes := by
  show _ ↔ Accepted (_ :: (_ ++ _))
  cases computed with
  | true => exact accepted_two ⟨rfl, rfl⟩
  | false =>
    cases property with
    | identifier name =>
      simp [Expr.isIdentifier, Expr.nodes, Node.supported, Node.sized]
    | _ => simp [Expr.isIdentifier, Node.supported]

theorem regulates_arguments {arguments : List Expr} {op : Nat → Operation} {supplied : Nat → Nat}
    (h : Regulates c g x ok) (ha : ∀ n, (op n).arity = supplied n)
    (hf : ∀ n, (op n).strict? = none) :
    Regulates c (fun b => do
      let argc ← argumentCount arguments
      g b
      operate (op argc) (supplied argc)) x (arguments.length ≤ maxArguments ∧ ok) := by
  intro w known pending t
  have h : Regular c w known pending t (fun b => do
      let argc ← argumentCount arguments
      g b
      operate (op argc) (supplied argc)) ({} ++ x t) (arguments.length ≤ maxArguments ∧ ok)
      (.leaves pending) :=
    .bind (regular_argumentCount arguments)
      (fun n => .last (h _ _ _ _) (.operate (ha n) (hf n))) fun _ _ => ⟨rfl, rfl⟩
  rwa [Demand.empty_append] at h

theorem accepted_arguments {n : Node} {ns ns' : List Node} {count : Nat}
    (hsupported : n.supported = true) (hsized : n.sized = decide (count ≤ maxArguments)) :
    Accepted ns ∧ count ≤ maxArguments ∧ Accepted ns' ↔ Accepted (n :: (ns ++ ns')) := by
  simp only [accepted_cons, accepted_append, hsupported, hsized, decide_eq_true_eq, true_and]
  exact and_left_comm

theorem accepted_value (key value : Expr) :
    key.isLiteralKey ∧ Accepted value.nodes ↔ Accepted (Member.value key value).nodes := by
  show _ ↔ Accepted (.member (.value key value) :: (key.nodes ++ value.nodes))
  cases key with
  | identifier name | string name | number name =>
    simp [Expr.isLiteralKey, Expr.nodes, Node.supported, Node.sized]
  | _ => simp [Expr.isLiteralKey, Node.supported]

/-! ## Functions -/

theorem closure_eq (strict selfBinding : Bool) (f : FunctionDef) :
    (do emit (.makeClosure (← genFunction strict selfBinding f))) =
      closure (strict || f.strict) f.name f.params selfBinding (.declaring f.body) := by
  obtain ⟨name, params, body, ownStrict⟩ := f
  rw [genFunction_eq]
  simp only [bind_assoc]
  rfl

theorem regulates_statements {pending : List String} {ss : List Stmt}
    (h : RegulatesList c (genStatements · pending ss) (tallyStatements ss)
      (Accepted (stmtsNodes false ss))) :
    Regulates c (fun b => statementList ss (genStatements b pending ss)) (tallyStatements ss)
      (Accepted (stmtsNodes false ss)) := by
  cases ss with
  | nil => exact (regulates_statementList_nil _).iff (by simp [stmtsNodes])
  | cons s ss => exact regulates_statementList_cons s ss h

theorem regulates_gen_declaring {body : List Stmt}
    (hd : Regulates c (genDeclarations · body) (tallyDeclarations body)
      (Accepted (stmtsDeclaredNodes body)))
    (hs : RegulatesList c (genStatements · [] body) (tallyStatements body)
      (Accepted (stmtsNodes false body))) :
    Regulates c (fun b => (Body.declaring body).gen b) (tallyDeclaring body)
      (Accepted (stmtsNodes true body)) :=
  (regulates_declaringBody Hoisted.collect_ok hd (regulates_statements hs)).iff
    (by rw [accepted_stmtsNodes, and_comm])

/-! ## Parts -/

namespace Setting.Stands

variable {p q r s : Part} {rest : List Part}

theorem part (h : c.Stands p) (hq : q ∈ p.parts) : c.Stands q := c.terrain.part h hq

theorem first (h : c.Stands p) (hp : p.parts = q :: rest) : c.Stands q :=
  h.part (hp ▸ .head _)

theorem second (h : c.Stands p) (hp : p.parts = q :: r :: rest) : c.Stands r :=
  h.part (hp ▸ .tail _ (.head _))

theorem third (h : c.Stands p) (hp : p.parts = q :: r :: s :: rest) : c.Stands s :=
  h.part (hp ▸ .tail _ (.tail _ (.head _)))

theorem stmts {body : List Stmt} (h : c.Stands (.body body)) : ∀ s ∈ body, c.Stands (.stmt s) :=
  fun _ hs => h.part (List.mem_map_of_mem hs)

theorem initializers {declarators : List Declarator}
    (h : ∀ p ∈ Part.initializers declarators, c.Stands p) :
    ∀ name e, .mk name (some e) ∈ declarators → c.Stands (.expr e) :=
  fun name e he => h _ (List.mem_filterMap.mpr ⟨.mk name (some e), he, rfl⟩)

end Setting.Stands

mutual

theorem regulates_genExpr (c : Setting) :
    (e : Expr) → c.Stands (.expr e) → Regulates c (genExpr · e) (tallyExpr e) (Accepted e.nodes)
  | .this, _ => fun _ _ _ _ => .iff (.emit _ trivial) (accepted_leaf ⟨rfl, rfl⟩)
  | .undefined, _ | .null, _ | .boolean _, _ | .number _, _ | .string _, _ =>
    (regulates_loadConstant _).iff (accepted_leaf ⟨rfl, rfl⟩)
  | .identifier name, _ => fun _ _ _ _ => .iff (regular_load _ nofun) (accepted_leaf ⟨rfl, rfl⟩)
  | .regExp pattern flags, _ =>
    (regulates_seq (regulates_loadConstant _)
      (regulates_operate (regulates_loadConstant _) rfl rfl)).iff
      ((and_iff_left trivial).trans (accepted_leaf ⟨rfl, rfl⟩))
  | .array elements, h => by
    refine Regulates.iff (fun _ _ _ _ => .orTooMany _ <|
      .last (regulates_genElements c elements
        (fun e he => h.part (List.mem_filterMap.mpr ⟨some e, he, rfl⟩)) _ _ _ _)
        (.operate rfl rfl)) ?_
    show _ ↔ Accepted (.expr (.array elements) :: elementsNodes elements)
    simp [Node.supported, Node.sized]
  | .object members, h =>
    Regulates.iff (fun _ _ _ _ => .operates rfl rfl (regulates_genMembers c members
      (fun m hm => h.part (List.mem_map_of_mem hm)) _ _ _ _)) (accepted_one ⟨rfl, rfl⟩)
  | .function definition, h =>
    (regulates_genFunction c definition.name.isSome definition (h.first rfl)).iff
      (accepted_one ⟨rfl, rfl⟩)
  | .member object property computed, h =>
    Regulates.iff (fun _ _ _ _ => .part (regulates_genExpr c object (h.first rfl) _ _ _ _) <|
      .last (regulates_memberKey computed property
        (regulates_genExpr c property (h.second rfl)) _ _ _ _) (.operate rfl rfl))
      (accepted_member object property computed)
  | .call callee arguments, h => by
    have hcallee : c.Stands (.expr callee) := h.first rfl
    have hcall := regulates_genExpr c callee hcallee
    have harguments : Regulates c (callWith · arguments) (tallyExprs arguments) _ :=
      regulates_arguments (regulates_genExprs c arguments fun e he =>
        h.part (.tail _ (List.mem_map_of_mem he))) (fun _ => rfl) fun _ => rfl
    cases callee with
    | member object property computed =>
      refine Regulates.iff (fun _ _ _ _ =>
        .part (regulates_genExpr c object (hcallee.first rfl) _ _ _ _) <| .emits trivial <|
        .part (regulates_memberKey computed property
          (regulates_genExpr c property (hcallee.second rfl)) _ _ _ _) <|
        .operates rfl rfl (harguments _ _ _ _)) ?_
      rw [← and_assoc, accepted_member]
      exact accepted_arguments rfl rfl
    | _ =>
      refine Regulates.iff (fun _ _ _ _ => .part (regulates_loadConstant _ _ _ _ _) <|
        .part (hcall _ _ _ _) (harguments _ _ _ _)) ?_
      rw [true_and]
      exact accepted_arguments rfl rfl
  | .construct callee arguments, h =>
    Regulates.iff (fun _ _ _ _ => .part (regulates_genExpr c callee (h.first rfl) _ _ _ _) <|
      regulates_arguments (regulates_genExprs c arguments fun e he =>
        h.part (.tail _ (List.mem_map_of_mem he))) (fun _ => rfl) (fun _ => rfl) _ _ _ _)
      (accepted_arguments rfl rfl)
  | .unary .delete argument, h => by
    have hargument : c.Stands (.expr argument) := h.first rfl
    have hdelete := regulates_genExpr c argument hargument
    cases argument with
    | identifier name =>
      exact (regulates_onBinding name .deleteVariable fun _ hi => hi).iff
        ((accepted_leaf ⟨rfl, rfl⟩).trans (accepted_one ⟨rfl, rfl⟩))
    | member object property computed =>
      exact Regulates.iff (fun _ _ _ _ =>
        .part (regulates_genExpr c object (hargument.first rfl) _ _ _ _) <|
        .last (regulates_memberKey computed property
          (regulates_genExpr c property (hargument.second rfl)) _ _ _ _) .delete)
        ((accepted_member object property computed).trans (accepted_one ⟨rfl, rfl⟩))
    | _ =>
      exact Regulates.iff (fun _ _ _ _ => .part (hdelete _ _ _ _) <|
        .emits trivial (regulates_loadConstant _ _ _ _ _))
        ((and_iff_left trivial).trans (accepted_one ⟨rfl, rfl⟩))
  | .unary .void argument, h =>
    Regulates.iff (fun _ _ _ _ => .part (regulates_genExpr c argument (h.first rfl) _ _ _ _) <|
      .emits trivial (regulates_loadConstant _ _ _ _ _))
      ((and_iff_left trivial).trans (accepted_one ⟨rfl, rfl⟩))
  | .unary .typeOf argument, h => by
    have hargument := regulates_genExpr c argument (h.first rfl)
    cases argument with
    | identifier name =>
      exact (regulates_onBinding name .typeOfVariable fun _ hi => hi).iff
        ((accepted_leaf ⟨rfl, rfl⟩).trans (accepted_one ⟨rfl, rfl⟩))
    | _ => exact (regulates_operate hargument rfl rfl).iff (accepted_one ⟨rfl, rfl⟩)
  | .unary .minus argument, h | .unary .plus argument, h | .unary .not argument, h
  | .unary .bitNot argument, h =>
    (regulates_operate (regulates_genExpr c argument (h.first rfl)) rfl rfl).iff
      (accepted_one ⟨rfl, rfl⟩)
  | .update op argument true, h => by
    refine (regulates_updateTarget_prefixed op
      (regulates_genTarget c argument (h.first rfl))).iff ?_
    show _ ↔ Accepted (.expr (.update op argument true) :: argument.nodes)
    simp [Node.supported, Node.sized]
  | .update op argument false, h => by
    refine (regulates_updateTarget_postfixed op
      (regulates_genTarget c argument (h.first rfl))).iff ?_
    show _ ↔ Accepted (.expr (.update op argument false) :: argument.nodes)
    simp [Node.supported, Node.sized]
  | .binary op left right, h =>
    (regulates_seq (regulates_genExpr c left (h.first rfl))
      (regulates_operate (regulates_genExpr c right (h.second rfl)) (by cases op <;> rfl)
        (by cases op <;> rfl))).iff (accepted_two ⟨rfl, rfl⟩)
  | .logical op left right, h =>
    (regulates_shortCircuit op (regulates_genExpr c left (h.first rfl))
      (regulates_genExpr c right (h.second rfl))).iff (accepted_two ⟨rfl, rfl⟩)
  | .conditional test consequent alternate, h =>
    (regulates_choice (regulates_genExpr c test (h.first rfl))
      (regulates_genExpr c consequent (h.second rfl))
      (regulates_genExpr c alternate (h.third rfl))).iff (accepted_three ⟨rfl, rfl⟩)
  | .assignment op target value, h => by
    refine (regulates_assignTarget op.binary? (regulates_genTarget c target (h.first rfl))
      (regulates_genExpr c value (h.second rfl))).iff ?_
    show _ ↔ Accepted (.expr (.assignment op target value) :: (target.nodes ++ value.nodes))
    simp [Node.supported, Node.sized, and_assoc]
  | .sequence expressions, h =>
    (regulates_genSequence c expressions fun e he => h.part (List.mem_map_of_mem he)).iff
      (accepted_one ⟨rfl, rfl⟩)

theorem regulates_genTarget (c : Setting) :
    (e : Expr) → c.Stands (.expr e) →
      RegulatesTarget c (genTarget · e) (tallyTarget e) (e.isAssignable ∧ Accepted e.nodes)
  | .identifier name, _ => by
    intro w known pending t
    have h : Regular c w known pending t (fun _ => do return Target.binding (← binding name))
        (Tally.binding name t ++ {}) True ⟨fun _ => True, Target.references, fun _ => pending⟩ :=
      .bound name fun i => .pure trivial (by simp) rfl
    exact h.iff ((accepted_leaf ⟨rfl, rfl⟩).trans (and_iff_right rfl).symm)
  | .member object property computed, h =>
    RegulatesTarget.iff (fun _ _ _ _ => .part (regulates_genExpr c object (h.first rfl) _ _ _ _) <|
      .last (regulates_memberKey computed property
        (regulates_genExpr c property (h.second rfl)) _ _ _ _) (.pure trivial nofun rfl))
      ((accepted_member object property computed).trans (and_iff_right rfl).symm)
  | .this, _ | .undefined, _ | .null, _ | .boolean _, _ | .number _, _ | .string _, _
  | .regExp _ _, _ | .array _, _ | .object _, _ | .function _, _ | .call _ _, _
  | .construct _ _, _ | .unary _ _, _ | .update _ _ _, _ | .binary _ _ _, _ | .logical _ _ _, _
  | .conditional _ _ _, _ | .assignment _ _ _, _ | .sequence _, _ =>
    fun _ _ _ _ => .iff (.unsupported _) (by simp [Expr.isAssignable])

theorem regulates_genExprs (c : Setting) :
    (es : List Expr) → (∀ e ∈ es, c.Stands (.expr e)) →
      Regulates c (genExprs · es) (tallyExprs es) (Accepted (exprsNodes es))
  | [], _ => regulates_nothing.iff (iff_of_true trivial accepted_nil)
  | e :: es, h =>
    (regulates_seq (regulates_genExpr c e (h e (.head _)))
      (regulates_genExprs c es fun e he => h e (.tail _ he))).iff (accepted_append _ _).symm

theorem regulates_genSequence (c : Setting) :
    (es : List Expr) → (∀ e ∈ es, c.Stands (.expr e)) →
      Regulates c (genSequence · es) (tallySequence es) (Accepted (exprsNodes es))
  | [], _ => (regulates_loadConstant _).iff (iff_of_true trivial accepted_nil)
  | [e], h => (regulates_genExpr c e (h e (.head _))).iff (by simp [exprsNodes])
  | e :: e' :: es, h =>
    Regulates.iff (fun _ _ _ _ => .part (regulates_genExpr c e (h e (.head _)) _ _ _ _) <|
      .emits trivial (regulates_genSequence c (e' :: es) (fun e he => h e (.tail _ he)) _ _ _ _))
      (accepted_append _ _).symm

theorem regulates_genElement (c : Setting) :
    (e : Option Expr) → (∀ x, e = some x → c.Stands (.expr x)) →
      Regulates c (genElement · e) (tallyElement e) (Accepted (elementNodes e))
  | none, _ => (regulates_loadConstant _).iff (iff_of_true trivial accepted_nil)
  | some e, h => regulates_genExpr c e (h e rfl)

theorem regulates_genElements (c : Setting) :
    (es : List (Option Expr)) → (∀ e, some e ∈ es → c.Stands (.expr e)) →
      Regulates c (genElements · es) (tallyElements es) (Accepted (elementsNodes es))
  | [], _ => regulates_nothing.iff (iff_of_true trivial accepted_nil)
  | e :: es, h =>
    (regulates_seq (regulates_genElement c e fun x hx => h x (hx ▸ .head _))
      (regulates_genElements c es fun x hx => h x (.tail _ hx))).iff (accepted_append _ _).symm

theorem regulates_genMember (c : Setting) :
    (m : Member) → c.Stands (.member m) →
      Regulates c (genMember · m) (tallyMember m) (Accepted m.nodes)
  | .value key value, h => by
    have hg b : genMember b (.value key value) =
        ((do loadConstant (.string (← literalKey key))) >>= fun _ => do
          genExpr b value
          operate .defineProperty 3) :=
      (bind_assoc ..).symm
    simp only [hg]
    exact Regulates.iff (fun _ _ _ _ => .part (regulates_literalKey key _ _ _ _) <|
      .last (regulates_genExpr c value (h.second rfl) _ _ _ _) (.operate rfl rfl))
      (accepted_value key value)
  | .accessor .get _ _ _, _ | .accessor .set _ _ _, _ =>
    fun _ _ _ _ => .iff (.unsupported _) (by simp [Member.nodes, Node.supported])

theorem regulates_genMembers (c : Setting) :
    (ms : List Member) → (∀ m ∈ ms, c.Stands (.member m)) →
      Regulates c (genMembers · ms) (tallyMembers ms) (Accepted (membersNodes ms))
  | [], _ => regulates_nothing.iff (iff_of_true trivial accepted_nil)
  | m :: ms, h =>
    (regulates_seq (regulates_genMember c m (h m (.head _)))
      (regulates_genMembers c ms fun m hm => h m (.tail _ hm))).iff (accepted_append _ _).symm

theorem regulates_genFunction (c : Setting) (selfBinding : Bool) :
    (f : FunctionDef) → c.Stands (.function f) →
      Regulates c (fun b => do emit (.makeClosure (← genFunction b selfBinding f)))
        (tallyFunction f) (Accepted f.nodes)
  | .mk name params body ownStrict, h => by
    have hbody : (c.inFunction (.mk name params body ownStrict)).Stands (.body body) :=
      c.terrain.inside h
    simp only [closure_eq]
    exact fun _ _ _ _ => .closure h (regulates_gen_declaring
      (regulates_genDeclarations _ body hbody.stmts)
      (regulates_genStatements _ trivial [] body hbody.stmts) _ _ _ _)

theorem regulates_genDeclaration (c : Setting) :
    (s : Stmt) → c.Stands (.stmt s) →
      Regulates c (genDeclaration · s) (tallyDeclaration s) (Accepted s.declaredNodes)
  | .block body, h =>
    regulates_genDeclarations c body (Setting.Stands.stmts (h.first rfl))
  | .function (.mk none params body ownStrict), _ =>
    fun _ _ _ _ => .iff (.unsupported _)
      (by simp [Stmt.declaredNodes, Node.supported, FunctionDef.name])
  | .function (.mk (some name) params body ownStrict), h => by
    have hf := regulates_genFunction c false (.mk (some name) params body ownStrict) (h.first rfl)
    have hg b : genDeclaration b (.function (.mk (some name) params body ownStrict)) =
        ((do emit (.makeClosure (← genFunction b false (.mk (some name) params body ownStrict))))
          >>= fun _ => do emit (.initializeBinding (← binding name))) := by
      rw [bind_assoc]
      rfl
    simp only [hg]
    exact Regulates.iff (fun _ _ _ _ => .part (hf _ _ _ _) <|
      regulates_onBinding name .initializeBinding (fun _ hi => hi) _ _ _ _)
      ((and_iff_left trivial).trans (accepted_one ⟨rfl, rfl⟩))
  | .ifElse test consequent none, h =>
    (regulates_seq (regulates_genDeclaration c consequent (h.second rfl)) regulates_nothing).iff
      (by simp [Stmt.declaredNodes, alternateDeclaredNodes])
  | .ifElse test consequent (some alternate), h =>
    (regulates_seq (regulates_genDeclaration c consequent (h.second rfl))
      (regulates_genDeclaration c alternate (h.third rfl))).iff (accepted_append _ _).symm
  | .whileLoop test body, h | .doWhile body test, h | .forLoop init test update body, h
  | .forIn left right body, h | .labeled label body, h | .withObject object body, h =>
    regulates_genDeclaration c body (h.part (by simp [Part.parts, Part.ofStmt]))
  | .switch discriminant clauses, h =>
    regulates_genClauseDeclarations c clauses fun test body hc => h.part (.tail _
      (List.mem_flatMap.mpr ⟨.mk test body, hc, by simp [Part.clause]⟩))
  | .tryCatch block handler finalizer, h => by
    have hblock : c.Stands (.body block) := h.part (by simp [Part.parts, Part.ofStmt])
    simp only [genDeclaration_tryCatch]
    refine (regulates_seq (regulates_genDeclarations c block hblock.stmts)
      (regulates_seq (regulates_handlerDeclarations c handler fun _ _ hb =>
        h.part (by simp [Part.parts, Part.ofStmt, hb, CatchClause.body]))
        (regulates_finalizerDeclarations c finalizer fun _ hb =>
        h.part (by simp [Part.parts, Part.ofStmt, hb])))).iff ?_
    rw [← accepted_append, ← accepted_append]
    exact Iff.rfl
  | .declaration _, _ | .expression _, _ | .throw _, _ | .return _, _ | .break _, _
  | .continue _, _ | .print _, _ | .empty, _ =>
    regulates_nothing.iff (iff_of_true trivial accepted_nil)

theorem regulates_handlerDeclarations (c : Setting) :
    (h : Option CatchClause) → (∀ param body, h = some (.mk param body) → c.Stands (.body body)) →
      Regulates c (handlerDeclarations · h) (tallyHandlerDeclarations h)
        (Accepted (handlerDeclaredNodes h))
  | none, _ => regulates_nothing.iff (iff_of_true trivial accepted_nil)
  | some (.mk param body), h => regulates_genDeclarations c body (h param body rfl).stmts

theorem regulates_finalizerDeclarations (c : Setting) :
    (f : Option (List Stmt)) → (∀ body, f = some body → c.Stands (.body body)) →
      Regulates c (finalizerDeclarations · f) (tallyFinalizerDeclarations f)
        (Accepted (finalizerDeclaredNodes f))
  | none, _ => regulates_nothing.iff (iff_of_true trivial accepted_nil)
  | some body, h => regulates_genDeclarations c body (h body rfl).stmts

theorem regulates_genDeclarations (c : Setting) :
    (ss : List Stmt) → (∀ s ∈ ss, c.Stands (.stmt s)) →
      Regulates c (genDeclarations · ss) (tallyDeclarations ss) (Accepted (stmtsDeclaredNodes ss))
  | [], _ => regulates_nothing.iff (iff_of_true trivial accepted_nil)
  | s :: ss, h =>
    (regulates_seq (regulates_genDeclaration c s (h s (.head _)))
      (regulates_genDeclarations c ss fun s hs => h s (.tail _ hs))).iff (accepted_append _ _).symm

theorem regulates_genClauseDeclarations (c : Setting) :
    (cs : List SwitchClause) → (∀ test body, .mk test body ∈ cs → c.Stands (.body body)) →
      Regulates c (genClauseDeclarations · cs) (tallyClauseDeclarations cs)
        (Accepted (clausesDeclaredNodes cs))
  | [], _ => regulates_nothing.iff (iff_of_true trivial accepted_nil)
  | .mk test body :: cs, h =>
    (regulates_seq (regulates_genDeclarations c body (h test body (.head _)).stmts)
      (regulates_genClauseDeclarations c cs fun test body hc => h test body (.tail _ hc))).iff
      (accepted_append _ _).symm

theorem regulates_genInitializers (c : Setting) :
    (ds : List Declarator) → (∀ name e, .mk name (some e) ∈ ds → c.Stands (.expr e)) →
      Regulates c (genInitializers · ds) (tallyInitializers ds) (Accepted (declaratorsNodes ds))
  | [], _ => regulates_nothing.iff (iff_of_true trivial accepted_nil)
  | .mk _ none :: ds, h =>
    regulates_genInitializers c ds fun name e he => h name e (.tail _ he)
  | .mk name (some e) :: ds, h => by
    exact Regulates.iff (fun _ _ _ _ =>
      .part (regulates_genExpr c e (h name e (.head _)) _ _ _ _) <| .bound name fun i =>
      .quiet (.store (by simp)) <| .emits trivial <|
      regulates_genInitializers c ds (fun name e he => h name e (.tail _ he)) _ _ _ _)
      (accepted_append _ _).symm

theorem regulates_genStatements (c : Setting) (hc : c.loud) (pending : List String) :
    (ss : List Stmt) → (∀ s ∈ ss, c.Stands (.stmt s)) →
      RegulatesList c (genStatements · pending ss) (tallyStatements ss)
        (Accepted (stmtsNodes false ss))
  | [], _ => fun _ _ _ _ _ _ =>
    (regulates_nothing _ _ _ _).iff (iff_of_true trivial accepted_nil)
  | s :: ss, h => fun _ _ _ _ abrupt habrupt =>
    .iff (.part (regular_inList habrupt (regulates_genStmt c hc pending s (h s (.head _))))
      (regulates_genStatements c hc _ ss (fun s hs => h s (.tail _ hs)) _ _ _ _ abrupt habrupt))
      (accepted_append _ _).symm

theorem regular_genTests (c : Setting) :
    (cs : List SwitchClause) →
      (∀ test body, .mk (some test) body ∈ cs → c.Stands (.expr test)) →
      ∀ {w known pending t subject clause} {default : Option Label}, .temporary subject ∈ known →
      (∀ l ∈ List.range' clause cs.length, .label l ∈ known ∧ l ∈ pending) →
      (∀ l ∈ default, .label l ∈ known ∧ l ∈ pending) →
      Regular c w known pending t (fun b => genTests b subject cs clause default)
        (tallyTests subject cs t) (Accepted (testsNodes cs))
        ⟨fun default => ∀ l ∈ default, l ∈ pending, fun default => default.toList.map .label,
          fun _ => pending⟩
  | [], _, _, _, _, _, _, _, default, _, _, hdefault => by
    refine .iff (.pure (fun l hl => (hdefault l hl).2) (fun r hr => ?_) rfl)
      (iff_of_true trivial accepted_nil)
    obtain ⟨l, hl, rfl⟩ := List.mem_map.mp hr
    exact (hdefault l (Option.mem_toList.mp hl)).1
  | .mk none _ :: cs, h, _, _, _, _, _, clause, _, hsubject, hclauses, _ => by
    have hrest := List.forall_mem_cons.mp hclauses
    exact regular_genTests c cs (fun test body hc => h test body (.tail _ hc)) hsubject hrest.2
      (by simpa using hrest.1)
  | .mk (some test) body :: cs, h, _, _, _, _, _, clause, default, hsubject, hclauses,
      hdefault => by
    have hrest := List.forall_mem_cons.mp hclauses
    exact .iff (.part (regular_caseTest hsubject ⟨hrest.1.1, .inr (.inr (.inr hrest.1.2))⟩
      (regulates_genExpr c test (h test body (.head _))))
      (regular_genTests c cs (fun test body hc => h test body (.tail _ hc)) hsubject hrest.2
        hdefault)) (accepted_append _ _).symm

theorem regular_genClauses (c : Setting) (hc : c.loud) :
    (cs : List SwitchClause) → (∀ test body, .mk test body ∈ cs → c.Stands (.body body)) →
      ∀ {w known pending t abrupt clause}, MayJump c w known pending abrupt →
      Regular c w known (List.range' clause cs.length ++ pending) t
        (fun b => genClauses b cs abrupt clause) (tallyClauses cs t)
        (Accepted (clausesNodes false cs)) (.leaves pending)
  | [], _, _, _, _, _, _, _, _ =>
    (regulates_nothing _ _ _ _).iff (iff_of_true trivial accepted_nil)
  | .mk test body :: cs, h, w, known, pending, _, abrupt, clause, habrupt => by
    have hbody := h test body (.head _)
    have hahead : MayJump c w known (List.range' (clause + 1) cs.length ++ pending) abrupt :=
      ⟨habrupt.1, by grind [MayJump]⟩
    exact .iff (.part (regular_caseBody hahead (regulates_invoke (.statements body) hc
      (by cases test <;> rfl) hbody
      (regulates_statements (regulates_genStatements c.inUnit trivial [] body hbody.stmts))))
      (regular_genClauses c hc cs (fun test body hc => h test body (.tail _ hc)) habrupt))
      (accepted_append _ _).symm

theorem regulates_genStmt (c : Setting) (hc : c.loud) (labels : List String) :
    (s : Stmt) → c.Stands (.stmt s) →
      Regulates c (genStmt · labels s) (tallyStmt s) (Accepted (s.nodes false))
  | .block body, h =>
    (regulates_statements (regulates_genStatements c hc labels body
      (Setting.Stands.stmts (h.first rfl)))).iff (accepted_one ⟨rfl, rfl⟩)
  | .declaration declarators, h =>
    Regulates.iff (regulates_emit (regulates_genInitializers c declarators
      (.initializers fun _ hp => h.part hp)) trivial) (accepted_one ⟨rfl, rfl⟩)
  | .function _, _ => fun _ _ _ _ => .iff (.emit _ trivial) (iff_of_true trivial accepted_nil)
  | .empty, _ | .break _, _ | .continue _, _ =>
    fun _ _ _ _ => .iff (.emit _ trivial) (accepted_leaf ⟨rfl, rfl⟩)
  | .expression e, h | .throw e, h =>
    Regulates.iff (regulates_emit (regulates_genExpr c e (h.first rfl)) trivial)
      (accepted_one ⟨rfl, rfl⟩)
  | .ifElse test consequent alternate, h => by
    have hconsequent : c.Stands (.stmt consequent) := h.second rfl
    simp only [genStmt_ifElse]
    exact (regulates_choice (regulates_genExpr c test (h.first rfl))
      (regulates_invoke (.statement consequent) hc rfl hconsequent
        (regulates_genStmt c.inUnit trivial [] consequent hconsequent))
      (regulates_otherwise c hc alternate fun s hs =>
        h.part (by simp [Part.parts, Part.ofStmt, hs]))).iff (accepted_three ⟨rfl, rfl⟩)
  | .whileLoop test body, h => by
    have hbody : c.Stands (.stmt body) := h.second rfl
    exact (regulates_whileLoop hc (c.terrain.loop h rfl) (regulates_genExpr c test (h.first rfl))
      (regulates_invoke (.statement body) hc rfl hbody
        (regulates_genStmt c.inUnit trivial [] body hbody))).iff (accepted_two ⟨rfl, rfl⟩)
  | .doWhile body test, h => by
    have hbody : c.Stands (.stmt body) := h.second rfl
    exact (regulates_doWhileLoop hc (c.terrain.loop h rfl)
      (regulates_invoke (.statement body) hc rfl hbody
        (regulates_genStmt c.inUnit trivial [] body hbody))
      (regulates_genExpr c test (h.first rfl))).iff (and_comm.trans (accepted_two ⟨rfl, rfl⟩))
  | .forLoop init test update body, h => by
    have hbody : c.Stands (.stmt body) := h.part (by simp [Part.parts, Part.ofStmt])
    simp only [genStmt_forLoop]
    refine (regulates_forLoop hc (c.terrain.loop h rfl)
      (regulates_forInit c init fun _ hhead _ hp =>
        h.part (by simp [Part.parts, Part.ofStmt, hhead, hp]))
      (regulates_forTest c test fun _ he => h.part (by simp [Part.parts, Part.ofStmt, he]))
      (regulates_invoke (.statement body) hc rfl hbody
        (regulates_genStmt c.inUnit trivial [] body hbody))
      (regulates_forUpdate c update fun _ he =>
        h.part (by simp [Part.parts, Part.ofStmt, he]))).iff ?_
    rw [and_comm (a := Accepted (body.nodes false))]
    exact accepted_four ⟨rfl, rfl⟩
  | .forIn (.expression target) right body, h => by
    have hbody : c.Stands (.stmt body) := h.third rfl
    refine (regulates_forInLoop hc regulates_nothing (regulates_genExpr c right (h.second rfl))
      (regulates_genTarget c target (h.first rfl))
      (regulates_invoke (.statement body) hc rfl hbody
        (regulates_genStmt c.inUnit trivial [] body hbody))).iff ?_
    show _ ↔ Accepted (.stmt (.forIn (.expression target) right body) ::
      (target.nodes ++ (right.nodes ++ body.nodes false)))
    simp only [accepted_cons, accepted_append, Node.supported, Node.sized]
    grind
  | .forIn (.declaration declarators) right body, h => by
    have hbody : c.Stands (.stmt body) := h.part (by simp [Part.parts, Part.ofStmt])
    refine (regulates_forInLoop hc
      (regulates_declaredHead (regulates_genInitializers c declarators
        (.initializers fun _ hp => h.part (List.mem_append_left _ hp))))
      (regulates_genExpr c right (h.part (by simp [Part.parts, Part.ofStmt])))
      (regulates_declaredTarget declarators)
      (regulates_invoke (.statement body) hc rfl hbody
        (regulates_genStmt c.inUnit trivial [] body hbody))).iff ?_
    show _ ↔ Accepted (.stmt (.forIn (.declaration declarators) right body) ::
      (declaratorsNodes declarators ++ (right.nodes ++ body.nodes false)))
    simp only [accepted_cons, accepted_append, Node.supported, Node.sized, beq_iff_eq]
    grind
  | .switch discriminant clauses, h => by
    have hclause {clause : SwitchClause} {p : Part} (hc : clause ∈ clauses)
        (hp : p ∈ Part.clause clause) : c.Stands p :=
      h.part (.tail _ (List.mem_flatMap.mpr ⟨clause, hc, hp⟩))
    exact Regulates.iff (regulates_switchClauses hc (regulates_genExpr c discriminant (h.first rfl))
      (fun hsubject hclauses => regular_genTests c clauses
        (fun _ _ hc => hclause hc (by simp [Part.clause])) hsubject hclauses (by simp))
      (regular_genClauses c hc clauses
        fun _ _ hc => hclause hc (by simp [Part.clause]))) (accepted_three ⟨rfl, rfl⟩)
  | .tryCatch block handler finalizer, h => by
    have hblock : c.Stands (.body block) := h.part (by simp [Part.parts, Part.ofStmt])
    simp only [genStmt_tryCatch]
    refine Regulates.iff (fun _ _ _ _ => .orUnsupported _ <| .part
      (regulates_invoke (.statements block) hc rfl hblock (regulates_statements
        (regulates_genStatements c.inUnit trivial [] block hblock.stmts)) _ _ _ _) <|
      .part (regulates_tryHandler c hc handler (fun _ _ hb =>
        h.part (by simp [Part.parts, Part.ofStmt, hb, CatchClause.body])) _ _ _ _)
      (regulates_tryFinalizer c hc finalizer (fun _ hb =>
        h.part (by simp [Part.parts, Part.ofStmt, hb])) _ _ _ _)) ?_
    show _ ↔ Accepted (.stmt (.tryCatch block handler finalizer) ::
      (stmtsNodes false block ++ (handlerNodes false handler ++ finalizerNodes false finalizer)))
    cases handler <;> cases finalizer <;> simp [Node.supported, Node.sized]
  | .return argument, h => by
    simp only [genStmt_return]
    exact Regulates.iff (regulates_emit (regulates_genElement c argument fun _ he =>
      h.part (by simp [Part.parts, Part.ofStmt, he])) trivial) (accepted_one ⟨rfl, rfl⟩)
  | .labeled label body, h =>
    Regulates.iff (regulates_emit (regulates_genStmt c hc _ body (h.first rfl)) trivial)
      (accepted_one ⟨rfl, rfl⟩)
  | .print argument, h =>
    Regulates.iff (fun _ _ _ _ => .last (regulates_genExpr c argument (h.first rfl) _ _ _ _) <|
      .operates rfl rfl <| .emits trivial (.emit _ trivial)) (accepted_one ⟨rfl, rfl⟩)
  | .withObject object body, _ =>
    fun _ _ _ _ => .iff (.unsupported _) (by simp [Stmt.nodes, Node.supported])

theorem regulates_otherwise (c : Setting) (hc : c.loud) :
    (s : Option Stmt) → (∀ x, s = some x → c.Stands (.stmt x)) →
      Regulates c (otherwise · s) (tallyOtherwise s) (Accepted (alternateNodes false s))
  | none, _ => fun _ _ _ _ => .iff (.emit _ trivial) (iff_of_true trivial accepted_nil)
  | some s, h =>
    regulates_invoke (.statement s) hc rfl (h s rfl)
      (regulates_genStmt c.inUnit trivial [] s (h s rfl))

theorem regulates_forInit (c : Setting) :
    (init : Option ForHead) →
      (∀ head, init = some head → ∀ p ∈ Part.head head, c.Stands p) →
      Regulates c (forInit · init) (tallyForInit init) (Accepted (headNodes init))
  | none, _ => regulates_nothing.iff (iff_of_true trivial accepted_nil)
  | some (.declaration declarators), h =>
    regulates_genInitializers c declarators (.initializers (h _ rfl))
  | some (.expression e), h =>
    regulates_emit (regulates_genExpr c e (h _ rfl _ (.head _))) trivial

theorem regulates_forTest (c : Setting) :
    (test : Option Expr) → (∀ e, test = some e → c.Stands (.expr e)) →
      RegulatesList c (fun b l => forTest l (test.map (genExpr b))) (tallyOptional test)
        (Accepted (elementNodes test))
  | none, _ => fun _ _ _ _ _ _ =>
    (regulates_nothing _ _ _ _).iff (iff_of_true trivial accepted_nil)
  | some test, h => fun _ _ _ _ _ hdone =>
    regular_forTest hdone (regulates_genExpr c test (h test rfl))

theorem regulates_forUpdate (c : Setting) :
    (update : Option Expr) → (∀ e, update = some e → c.Stands (.expr e)) →
      Regulates c (forUpdate · update) (tallyOptional update) (Accepted (elementNodes update))
  | none, _ => regulates_nothing.iff (iff_of_true trivial accepted_nil)
  | some e, h => regulates_emit (regulates_genExpr c e (h e rfl)) trivial

theorem regulates_tryHandler (c : Setting) (hc : c.loud) :
    (h : Option CatchClause) → (∀ param body, h = some (.mk param body) → c.Stands (.body body)) →
      Regulates c (tryHandler · h) (tallyHandler h) (Accepted (handlerNodes false h))
  | none, _ => regulates_nothing.iff (iff_of_true trivial accepted_nil)
  | some (.mk param body), h =>
    regulates_catchThrown param (regulates_invoke (.statements body) hc rfl (h param body rfl)
      (regulates_statements
        (regulates_genStatements c.inUnit trivial [] body (h param body rfl).stmts)))

theorem regulates_tryFinalizer (c : Setting) (hc : c.loud) :
    (f : Option (List Stmt)) → (∀ body, f = some body → c.Stands (.body body)) →
      Regulates c (tryFinalizer · f) (tallyFinalizer f) (Accepted (finalizerNodes false f))
  | none, _ => regulates_nothing.iff (iff_of_true trivial accepted_nil)
  | some body, h =>
    regulates_withFinalizer (regulates_invoke (.statements body) hc rfl (h body rfl)
      (regulates_statements (regulates_genStatements c.inUnit trivial [] body (h body rfl).stmts)))

end

/-! ## All programs -/

def Setting.all (strict : Bool) : Setting where
  terrain :=
    { stands := fun _ _ => True, part := fun _ _ => trivial, inside := fun _ => trivial,
      top := strict, loops := True, loop := fun _ _ => trivial }

theorem Setting.strict_all (strict : Bool) : (Setting.all strict).strict = strict :=
  strictIn_nil strict

section

variable {strict : Bool}

theorem regulates_declaring (c : Setting) (hc : c.loud) (body : List Stmt)
    (h : c.Stands (.body body)) :
    Regulates c (fun b => (Body.declaring body).gen b) (tallyDeclaring body)
      (Accepted (stmtsNodes true body)) :=
  regulates_gen_declaring (regulates_genDeclarations c body h.stmts)
    (regulates_genStatements c hc [] body h.stmts)

theorem formed_declaring (strict : Bool) (body : List Stmt) :
    Formed [] [] 0 ((Body.declaring body).gen strict) (tallyDeclaring body 0)
      (Accepted (stmtsNodes true body)) (.leaves []) := by
  have h := (regulates_declaring (.all strict) trivial body trivial {} [] [] 0).formed
  rwa [Setting.strict_all] at h

theorem Regular.composed_all {w : Site} {known : List Reference} {pending : List Label} {t : Nat}
    {α : Type} {g : Bool → Gen α} {d : Demand} {Q : Result α}
    (h : Regular (.all strict) w known pending t g d ok Q) : Composed (g strict) :=
  Setting.strict_all strict ▸ h.composed

theorem Regulates.composed (h : Regulates (.all strict) g x ok) :
    Composed (g strict) :=
  (h {} [] [] 0).composed_all

instance (e : Expr) : Composed (genExpr strict e) :=
  (regulates_genExpr (.all strict) e trivial).composed

instance (e : Expr) : Composed (genTarget strict e) :=
  (regulates_genTarget (.all strict) e trivial {} [] [] 0).composed_all

instance (es : List Expr) : Composed (genExprs strict es) :=
  (regulates_genExprs (.all strict) es fun _ _ => trivial).composed

instance (es : List Expr) : Composed (genSequence strict es) :=
  (regulates_genSequence (.all strict) es fun _ _ => trivial).composed

instance (e : Option Expr) : Composed (genElement strict e) :=
  (regulates_genElement (.all strict) e fun _ _ => trivial).composed

instance (es : List (Option Expr)) : Composed (genElements strict es) :=
  (regulates_genElements (.all strict) es fun _ _ => trivial).composed

instance (m : Member) : Composed (genMember strict m) :=
  (regulates_genMember (.all strict) m trivial).composed

instance (ms : List Member) : Composed (genMembers strict ms) :=
  (regulates_genMembers (.all strict) ms fun _ _ => trivial).composed

instance (s : Stmt) : Composed (genDeclaration strict s) :=
  (regulates_genDeclaration (.all strict) s trivial).composed

instance (ss : List Stmt) : Composed (genDeclarations strict ss) :=
  (regulates_genDeclarations (.all strict) ss fun _ _ => trivial).composed

instance (cs : List SwitchClause) : Composed (genClauseDeclarations strict cs) :=
  (regulates_genClauseDeclarations (.all strict) cs fun _ _ _ => trivial).composed

instance (handler : Option CatchClause) : Composed (handlerDeclarations strict handler) :=
  (regulates_handlerDeclarations (.all strict) handler fun _ _ _ => trivial).composed

instance (finalizer : Option (List Stmt)) : Composed (finalizerDeclarations strict finalizer) :=
  (regulates_finalizerDeclarations (.all strict) finalizer fun _ _ => trivial).composed

instance (ds : List Declarator) : Composed (genInitializers strict ds) :=
  (regulates_genInitializers (.all strict) ds fun _ _ _ => trivial).composed

instance (pending : List String) (ss : List Stmt) (abrupt : Label) :
    Composed (genStatements strict pending ss abrupt) :=
  (regulates_genStatements (.all strict) trivial pending ss (fun _ _ => trivial) {} [.label abrupt]
    [abrupt] 0 abrupt (by simp)).composed_all

instance (subject : Nat) (cs : List SwitchClause) (clause : Label) (default : Option Label) :
    Composed (genTests strict subject cs clause default) := by
  induction cs generalizing clause default with
  | nil => exact .pure default
  | cons c cs ih =>
    obtain ⟨_ | test, body⟩ := c
    · exact ih _ _
    · rw [genTests_some]
      infer_instance

instance (cs : List SwitchClause) (abrupt clause : Label) :
    Composed (genClauses strict cs abrupt clause) := by
  have habrupt : MayJump (.all strict) {} [.label abrupt] [abrupt] abrupt := by simp
  exact (regular_genClauses (.all strict) trivial cs (fun _ _ _ => trivial) (t := 0)
    habrupt).composed_all

instance (labels : List String) (s : Stmt) : Composed (genStmt strict labels s) :=
  (regulates_genStmt (.all strict) trivial labels s trivial).composed

instance (body : Body) : Composed (body.gen strict) := by
  cases body with
  | declaring body => exact inferInstanceAs (Composed (declaringBody body _ (statementList body _)))
  | statements body => exact inferInstanceAs (Composed (statementList body _))
  | statement s => exact inferInstanceAs (Composed (genStmt strict [] s))

instance (selfBinding : Bool) (f : FunctionDef) : Composed (genFunction strict selfBinding f) := by
  obtain ⟨name, params, body, ownStrict⟩ := f
  rw [genFunction_eq]
  infer_instance

instance (arguments : List Expr) : Composed (callWith strict arguments) := by
  unfold callWith
  infer_instance

instance (body : Stmt) : Composed (loopBody strict body) :=
  inferInstanceAs (Composed (invoke .body strict _))

instance (alternate : Option Stmt) : Composed (otherwise strict alternate) :=
  (regulates_otherwise (.all strict) trivial alternate fun _ _ => trivial).composed

instance (init : Option ForHead) : Composed (forInit strict init) :=
  (regulates_forInit (.all strict) init fun _ _ _ _ => trivial).composed

instance (update : Option Expr) : Composed (forUpdate strict update) :=
  (regulates_forUpdate (.all strict) update fun _ _ => trivial).composed

instance (done : Label) (test : Option Expr) :
    Composed (forTest done (test.map (genExpr strict))) := by
  cases test <;> unfold forTest <;> dsimp only [Option.map] <;> infer_instance

instance (handler : Option CatchClause) : Composed (tryHandler strict handler) :=
  (regulates_tryHandler (.all strict) trivial handler fun _ _ _ => trivial).composed

instance (finalizer : Option (List Stmt)) : Composed (tryFinalizer strict finalizer) :=
  (regulates_tryFinalizer (.all strict) trivial finalizer fun _ _ => trivial).composed

end

end TreeScript.Lowering
