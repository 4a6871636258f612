import TreeScript.Proofs.Lowering.Trees
import TreeScript.Proofs.Lowering.Pushes

/-!
# Compiled code is safe

The code of every tree keeps to the discipline of the stack.  If the jumps of the tree are well
scoped, the completions that leave it are, too.  Both are proved by one induction: `W` says whether
the jumps count.
-/

namespace TreeScript.Lowering

open Code Syntax

/-! ## Jumps that may leave a statement -/

def Allows (scope : JumpScope) (c : Completion) : Prop :=
  (c.kind = .break → scope.breaks c.target = true) ∧
    (c.kind = .continue → scope.continues c.target = true)

/-- How a statement may complete. -/
def Allowed (W : Prop) (scope : JumpScope) (c : Completion) : Prop :=
  c.WellFormed ∧ (W → Allows scope c)

variable {target : Option String} {strict : Bool}

section

variable {W : Prop} {scope : JumpScope} {c : Completion}

theorem allowed_of_noJump (h : c.WellFormed) (hb : c.kind ≠ .break) (hc : c.kind ≠ .continue) :
    Allowed W scope c :=
  ⟨h, fun _ => ⟨fun hk => absurd hk hb, fun hk => absurd hk hc⟩⟩

theorem allowed_of_isNormal (c : Completion) (h : IsNormal c) : Allowed W scope c := by
  obtain ⟨hk, ht⟩ := h
  refine allowed_of_noJump ?_ (by rw [hk]; nofun) (by rw [hk]; nofun)
  unfold Completion.WellFormed
  rw [hk]
  exact ht

theorem allowed_returning (v : Value) : Allowed W scope (.returning v) :=
  allowed_of_noJump ⟨rfl, rfl⟩ nofun nofun

theorem allowed_throwing (v : Value) : Allowed W scope (.throwing v) :=
  allowed_of_noJump ⟨rfl, rfl⟩ nofun nofun

theorem fair_allowed : Fair (Allowed W scope) := ⟨fun h => h.1, allowed_throwing⟩

theorem allowed_breakTo (h : W → scope.breaks target = true) :
    Allowed W scope (.breakTo target) :=
  ⟨rfl, fun w => ⟨fun _ => h w, nofun⟩⟩

theorem allowed_continueTo (h : W → scope.continues target = true) :
    Allowed W scope (.continueTo target) :=
  ⟨rfl, fun w => ⟨nofun, fun _ => h w⟩⟩

theorem target_of_not_handles {labels : LabelSet} (h : labels.handles target = false) :
    ∃ label, target = some label ∧ labels.contains label = false := by
  cases target with
  | none => cases h
  | some label => exact ⟨label, rfl, h⟩

theorem allowed_of_inLoop {labels : List String} (c : Completion)
    (h : Allowed W (scope.inLoop labels) c) (hb : c.breaksAt ⟨labels⟩ = false)
    (hc : c.continuesAt ⟨labels⟩ = false) : Allowed W scope c := by
  obtain ⟨hw, hs⟩ := h
  refine ⟨hw, fun w => ⟨fun hk => ?_, fun hk => ?_⟩⟩
  · have hin := (hs w).1 hk
    unfold Completion.breaksAt at hb
    rw [hk] at hb
    obtain ⟨label, ht, -⟩ := target_of_not_handles hb
    rw [ht] at hin ⊢
    exact hin
  · have hin := (hs w).2 hk
    unfold Completion.continuesAt at hc
    rw [hk] at hc
    obtain ⟨label, ht, hnot⟩ := target_of_not_handles hc
    rw [ht] at hin ⊢
    have hnot : labels.contains label = false := hnot
    have hin : (labels ++ scope.loopLabels).contains label = true := hin
    rw [List.contains_append, hnot, Bool.false_or] at hin
    exact hin

theorem allowed_of_inSwitch {labels : LabelSet} (c : Completion)
    (h : Allowed W scope.inSwitch c) (hb : c.breaksAt labels = false) : Allowed W scope c := by
  obtain ⟨hw, hs⟩ := h
  refine ⟨hw, fun w => ⟨fun hk => ?_, fun hk => ?_⟩⟩
  · have hin := (hs w).1 hk
    unfold Completion.breaksAt at hb
    rw [hk] at hb
    obtain ⟨label, ht, -⟩ := target_of_not_handles hb
    rw [ht] at hin ⊢
    exact hin
  · exact (hs w).2 hk

theorem allowed_consumeBreak {label : String} (h : Allowed W (scope.labeled label) c) :
    Allowed W scope (c.consumeBreak ⟨[label]⟩) := by
  obtain ⟨hw, hs⟩ := h
  unfold Completion.consumeBreak
  split
  · exact allowed_of_isNormal _ ⟨rfl, rfl⟩
  · next hnot =>
    refine ⟨hw, fun w => ⟨fun hk => ?_, fun hk => ?_⟩⟩
    · have hin := (hs w).1 hk
      cases ht : c.target with
      | none =>
        rw [ht] at hin
        exact hin
      | some l =>
        rw [ht] at hin
        rw [hk, ht] at hnot
        have hne : (l == label) = false := by
          simpa [LabelSet.contains] using hnot
        have hin : (label :: scope.labels).contains l = true := hin
        rw [List.contains_cons, hne, Bool.false_or] at hin
        exact hin
    · exact (hs w).2 hk

end

/-! ## Trees -/

/-- What compiled code relies on.  It defines properties only on the objects that it makes for
literals, so these can be anything that is made. -/
def compiledRules (W : Prop) (plain : Value → Prop) : Rules where
  ends := Allowed W {}
  plain := plain

section

variable {W : Prop} {rules : Rules} {a : Artifact}

theorem completes_loopBody {scope : JumpScope} {body : Stmt}
    (h : Completes a rules (Allowed W scope) (genStmt strict [] body)) :
    Completes a rules (Allowed W scope) (loopBody strict body) :=
  completes_invoke fair_allowed rfl h

theorem safe_callWith {arguments : List Expr} {u : CodeUnit} {s s' : Stage} {K : Rest a rules u}
    {stack : List Slot} {receiver callee : Value}
    (hargs : EvaluatesAll a rules arguments.length (genExprs strict arguments))
    (h : Laid a u (callWith strict arguments) s () s')
    (hk : ∀ v, K.At s'.offset (.value v :: stack)) :
    K.At s.offset (.value callee :: .value receiver :: stack) := by
  simp only [callWith, laid_bind] at h
  obtain ⟨argc, s1, h1, _, s2, h2, h3⟩ := h
  obtain ⟨rfl, rfl, hmax⟩ := laid_argumentCount h1
  refine hargs h2 fun vs => ?_
  have hbrief : arguments.length + 2 ≤ 0xFFFFFFFF :=
      Nat.le_trans (Nat.add_le_add_right hmax 2) (by decide)
  have hcall :=
    safe_operateMany ([receiver, callee] ++ vs.1) h3 (by simp [vs.2]) hbrief (by simp) hk
  rw [Machine.slots_append, List.append_assoc] at hcall
  exact hcall

theorem evaluates_plainCall {callee : Expr} {arguments : List Expr}
    (hcallee : Evaluates a rules (genExpr strict callee))
    (hargs : EvaluatesAll a rules arguments.length (genExprs strict arguments)) :
    Evaluates a rules (do
      loadConstant .undefined
      genExpr strict callee
      callWith strict arguments) := by
  intro u s s' h K stack hk
  simp only [laid_bind] at h
  obtain ⟨_, s1, h1, _, s2, h2, h3⟩ := h
  exact safe_load h1 fun _ => hcallee h2 fun _ => safe_callWith hargs h3 hk

theorem evaluates_named {name : String} {i : OperandIndex → Instruction}
    (hi : ∀ {u runs Q v k}, u.Names k → (∀ x, Q (v.push (.value x))) →
      Needs a u rules runs Q v (i k)) :
    Evaluates a rules (do emit (i (← binding name))) := by
  intro u s s' h K stack hk
  obtain ⟨k, s1, h1, h2⟩ := laid_bind.mp h
  obtain ⟨hname, k1⟩ := laid_binding h1
  exact safe_keeps k1 (safe_emit (laid_emit h2) (hi ⟨name, hname⟩ hk))

variable (hends : rules.ends = Allowed W {})
include hends

set_option linter.unusedSectionVars false

mutual

theorem evaluates_genExpr (strict : Bool) :
    (e : Expr) → (W → e.wellScoped = true) → Evaluates a rules (genExpr strict e)
  | .this, _ => fun _ _ _ h _ _ hk => safe_emit (laid_emit h) hk
  | .undefined, _ | .null, _ | .boolean _, _ | .number _, _ | .string _, _ =>
    evaluates_loadConstant _
  | .identifier name, _ => evaluates_load _
  | .regExp pattern flags, _ =>
    evaluates_binary (evaluates_loadConstant _) (evaluates_loadConstant _) _
  | .array elements, h => by
    have helements := evaluatesAll_genElements strict elements h
    rw [genExpr_array]
    intro u s s' hl K stack hk
    split at hl
    · next hlt =>
      obtain ⟨_, s1, h1, h2⟩ := laid_bind.mp hl
      exact helements h1 fun vs =>
        safe_operateMany vs.1 h2 vs.2 (Nat.le_of_lt_succ hlt) (by simp) hk
    · obtain ⟨_, s1, h1, -⟩ := laid_bind.mp hl
      exact absurd h1 not_laid_tooMany
  | .object members, h => by
    have hmembers := fills_genMembers strict members h
    intro u s s' hl K stack hk
    obtain ⟨_, s1, h1, h2⟩ := laid_bind.mp hl
    exact safe_newObject h1 (hmembers h2 fun v _ => hk v)
  | .function definition, h =>
    evaluates_makeClosure (lists_genFunction strict _ definition h)
  | .member object property computed, h =>
    evaluates_binary (evaluates_genExpr strict object (of_and h).1)
      (evaluates_memberKey (evaluates_genExpr strict property (of_and h).2)) _
  | .call callee arguments, h => by
    have hcallee := evaluates_genExpr strict callee (of_and h).1
    have hargs := evaluatesAll_genExprs strict arguments (of_and h).2
    cases callee with
    | member object property computed =>
      have hobject := evaluates_genExpr strict object (of_and (of_and h).1).1
      have hproperty := evaluates_genExpr strict property (of_and (of_and h).1).2
      intro u s s' hl K stack hk
      obtain ⟨_, s1, h1, hl⟩ := laid_bind.mp hl
      obtain ⟨_, s2, h2, hl⟩ := laid_bind.mp hl
      obtain ⟨_, s3, h3, hl⟩ := laid_bind.mp hl
      obtain ⟨_, s4, h4, h5⟩ := laid_bind.mp hl
      refine hobject h1 fun receiver => safe_emit (laid_emit h2) ⟨_, _, rfl, ?_⟩
      refine evaluates_memberKey hproperty h3 fun key => ?_
      exact safe_operate ([receiver, key]) h4 rfl (by decide) fun _ => safe_callWith hargs h5 hk
    | _ => exact evaluates_plainCall hcallee hargs
  | .construct callee arguments, h => by
    have hcallee := evaluates_genExpr strict callee (of_and h).1
    have hargs := evaluatesAll_genExprs strict arguments (of_and h).2
    intro u s s' hl K stack hk
    obtain ⟨_, s1, h1, hl⟩ := laid_bind.mp hl
    simp only [laid_bind] at hl
    obtain ⟨argc, s2, h2, _, s3, h3, h4⟩ := hl
    obtain ⟨rfl, rfl, hmax⟩ := laid_argumentCount h2
    refine hcallee h1 fun v => hargs h3 fun vs => ?_
    have hbrief : arguments.length + 1 ≤ 0xFFFFFFFF :=
      Nat.le_trans (Nat.add_le_add_right hmax 1) (by decide)
    have hnew := safe_operateMany ([v] ++ vs.1) h4 (by simp [vs.2]) hbrief (by simp) hk
    rw [Machine.slots_append, List.append_assoc] at hnew
    exact hnew
  | .unary .delete argument, h => by
    have hargument := evaluates_genExpr strict argument h
    cases argument with
    | identifier name => exact evaluates_named fun hname hk => ⟨hname, hk⟩
    | member object property computed =>
      exact evaluates_binary (evaluates_genExpr strict object (of_and h).1)
        (evaluates_memberKey (evaluates_genExpr strict property (of_and h).2)) _
    | _ => exact evaluates_then hargument (evaluates_loadConstant _)
  | .unary .void argument, h =>
    evaluates_then (evaluates_genExpr strict argument h) (evaluates_loadConstant _)
  | .unary .typeOf argument, h => by
    have hargument := evaluates_genExpr strict argument h
    cases argument with
    | identifier name => exact evaluates_named fun hname hk => ⟨hname, hk⟩
    | _ => exact evaluates_unary hargument _
  | .unary .minus argument, h | .unary .plus argument, h | .unary .not argument, h
  | .unary .bitNot argument, h => evaluates_unary (evaluates_genExpr strict argument h) _
  | .update op argument prefixed, h =>
    evaluates_updateTarget (aims_genTarget strict argument h)
  | .binary op left right, h =>
    evaluates_binary (evaluates_genExpr strict left (of_and h).1)
      (evaluates_genExpr strict right (of_and h).2) _
  | .logical op left right, h =>
    evaluates_shortCircuit op (evaluates_genExpr strict left (of_and h).1)
      (evaluates_genExpr strict right (of_and h).2)
  | .conditional test consequent alternate, h =>
    pushes_choice (evaluates_genExpr strict test (of_and (of_and h).1).1)
      (evaluates_genExpr strict consequent (of_and (of_and h).1).2)
      (evaluates_genExpr strict alternate (of_and h).2)
  | .assignment op target value, h =>
    evaluates_assignTarget (aims_genTarget strict target (of_and h).1)
      (evaluates_genExpr strict value (of_and h).2)
  | .sequence expressions, h => evaluates_genSequence strict expressions h

theorem aims_genTarget (strict : Bool) :
    (e : Expr) → (W → e.wellScoped = true) → Aims a rules (genTarget strict e)
  | .identifier name, _ =>
    aims_binding name
  | .member object property _, h =>
    aims_member (evaluates_genExpr strict object (of_and h).1)
      (evaluates_memberKey (evaluates_genExpr strict property (of_and h).2))
  | .this, _ | .undefined, _ | .null, _ | .boolean _, _ | .number _, _ | .string _, _
  | .regExp _ _, _ | .array _, _ | .object _, _ | .function _, _ | .call _ _, _
  | .construct _ _, _ | .unary _ _, _ | .update _ _ _, _ | .binary _ _ _, _ | .logical _ _ _, _
  | .conditional _ _ _, _ | .assignment _ _ _, _ | .sequence _, _ =>
    fun _ _ _ _ h => absurd h not_laid_unsupported

theorem evaluatesAll_genExprs (strict : Bool) :
    (es : List Expr) → (W → exprsWellScoped es = true) →
      EvaluatesAll a rules es.length (genExprs strict es)
  | [], _ => evaluatesAll_nil
  | e :: es, h =>
    evaluatesAll_cons (evaluates_genExpr strict e (of_and h).1)
      (evaluatesAll_genExprs strict es (of_and h).2)

theorem evaluates_genSequence (strict : Bool) :
    (es : List Expr) → (W → exprsWellScoped es = true) →
      Evaluates a rules (genSequence strict es)
  | [], _ => evaluates_loadConstant _
  | [e], h => evaluates_genExpr strict e (of_and h).1
  | e :: e' :: es, h =>
    evaluates_then (evaluates_genExpr strict e (of_and h).1)
      (evaluates_genSequence strict (e' :: es) (of_and h).2)

theorem evaluates_genElement (strict : Bool) :
    (e : Option Expr) → (W → elementWellScoped e = true) →
      Evaluates a rules (genElement strict e)
  | none, _ => evaluates_loadConstant _
  | some e, h => evaluates_genExpr strict e h

theorem evaluatesAll_genElements (strict : Bool) :
    (es : List (Option Expr)) → (W → elementsWellScoped es = true) →
      EvaluatesAll a rules es.length (genElements strict es)
  | [], _ => evaluatesAll_nil
  | e :: es, h =>
    evaluatesAll_cons (evaluates_genElement strict e (of_and h).1)
      (evaluatesAll_genElements strict es (of_and h).2)

theorem fills_genMember (strict : Bool) :
    (m : Member) → (W → m.wellScoped = true) → Fills a rules (genMember strict m)
  | .value _ value, h =>
    fills_member (evaluates_genExpr strict value (of_and h).2)
  | .accessor .get _ _ _, _ | .accessor .set _ _ _, _ =>
    fun _ _ _ h => absurd h not_laid_unsupported

theorem fills_genMembers (strict : Bool) :
    (ms : List Member) → (W → membersWellScoped ms = true) →
      Fills a rules (genMembers strict ms)
  | [], _ => replaces_pure
  | m :: ms, h =>
    replaces_bind (fills_genMember strict m (of_and h).1)
      (fills_genMembers strict ms (of_and h).2)

theorem lists_genFunction (strict selfBinding : Bool) :
    (f : FunctionDef) → (W → f.wellScoped = true) →
      Lists a rules (genFunction strict selfBinding f)
  | .mk name params body ownStrict, h => by
    have hdeclarations := passes_genDeclarations (strict || ownStrict) {} body h
    have hstatements := accumulates_genStatements (strict || ownStrict) {} body h
    refine lists_function (fun _ => rfl) ?_
    rw [hends]
    exact completes_declaringBody hdeclarations
      (completes_statementList allowed_of_isNormal hstatements)

theorem passes_genDeclaration (strict : Bool) (scope : JumpScope) (attached : List String) :
    (s : Stmt) → (W → s.wellScoped scope attached = true) →
      Passes a rules (genDeclaration strict s)
  | .block body, h => passes_genDeclarations strict scope body h
  | .function (.mk none params body ownStrict), _ => fun _ _ _ h => absurd h not_laid_unsupported
  | .function (.mk (some name) params body ownStrict), h =>
    passes_bindFunction (lists_genFunction strict false (.mk (some name) params body ownStrict) h)
  | .ifElse test consequent none, h =>
    passes_bind (passes_genDeclaration strict scope [] consequent (of_and (of_and h).1).2)
      passes_pure
  | .ifElse test consequent (some alternate), h =>
    passes_bind (passes_genDeclaration strict scope [] consequent (of_and (of_and h).1).2)
      (passes_genDeclaration strict scope [] alternate (of_and h).2)
  | .whileLoop test body, h | .doWhile body test, h
  | .forLoop init test update body, h | .forIn left right body, h =>
    passes_genDeclaration strict (scope.inLoop attached) [] body (of_and h).2
  | .labeled label body, h =>
    passes_genDeclaration strict (scope.labeled label) (attached ++ [label]) body h
  | .withObject object body, h => passes_genDeclaration strict scope [] body (of_and h).2
  | .switch discriminant clauses, h =>
    passes_genClauseDeclarations strict scope.inSwitch clauses (of_and h).2
  | .tryCatch block handler finalizer, h => by
    rw [genDeclaration_tryCatch]
    exact passes_bind (passes_genDeclarations strict scope block (of_and (of_and h).1).1)
      (passes_bind (passes_handlerDeclarations strict scope handler (of_and (of_and h).1).2)
        (passes_finalizerDeclarations strict scope finalizer (of_and h).2))
  | .declaration _, _ | .expression _, _ | .throw _, _ | .return _, _ | .break _, _
  | .continue _, _ | .print _, _ | .empty, _ => passes_pure

theorem passes_handlerDeclarations (strict : Bool) (scope : JumpScope) :
    (handler : Option CatchClause) → (W → handlerWellScoped scope handler = true) →
      Passes a rules (handlerDeclarations strict handler)
  | none, _ => passes_pure
  | some (.mk _ body), h => passes_genDeclarations strict scope body h

theorem passes_finalizerDeclarations (strict : Bool) (scope : JumpScope) :
    (finalizer : Option (List Stmt)) → (W → finalizerWellScoped scope finalizer = true) →
      Passes a rules (finalizerDeclarations strict finalizer)
  | none, _ => passes_pure
  | some body, h => passes_genDeclarations strict scope body h

theorem passes_genDeclarations (strict : Bool) (scope : JumpScope) :
    (ss : List Stmt) → (W → stmtsWellScoped scope ss = true) →
      Passes a rules (genDeclarations strict ss)
  | [], _ => passes_pure
  | s :: ss, h =>
    passes_bind (passes_genDeclaration strict scope [] s (of_and h).1)
      (passes_genDeclarations strict scope ss (of_and h).2)

theorem passes_genClauseDeclarations (strict : Bool) (scope : JumpScope) :
    (cs : List SwitchClause) → (W → clausesWellScoped scope cs = true) →
      Passes a rules (genClauseDeclarations strict cs)
  | [], _ => passes_pure
  | .mk _ body :: cs, h =>
    passes_bind (passes_genDeclarations strict scope body (of_and (of_and h).1).2)
      (passes_genClauseDeclarations strict scope cs (of_and h).2)

theorem passes_genInitializers (strict : Bool) :
    (ds : List Declarator) → (W → declaratorsWellScoped ds = true) →
      Passes a rules (genInitializers strict ds)
  | [], _ => passes_pure
  | .mk name none :: ds, h => passes_genInitializers strict ds (of_and h).2
  | .mk name (some e) :: ds, h => by
    have he := evaluates_genExpr strict e (of_and h).1
    have hds := passes_genInitializers strict ds (of_and h).2
    rw [genInitializers_some]
    intro u s s' hl K stack hk
    simp only [laid_bind] at hl
    obtain ⟨_, s1, h1, i, s2, h2, _, s3, h3, _, s4, h4, h5⟩ := hl
    obtain ⟨hname, k2⟩ := laid_binding h2
    refine he h1 fun v => safe_keeps k2 (safe_emit (laid_emit h3) ⟨⟨name, hname⟩, ⟨v, _, rfl⟩, ?_⟩)
    exact safe_emit (laid_emit h4) ⟨_, _, rfl, hds h5 hk⟩

theorem accumulates_genStatements (strict : Bool) (scope : JumpScope) :
    (ss : List Stmt) → (W → stmtsWellScoped scope ss = true) →
      Accumulates a rules (Allowed W scope) (genStatements strict [] ss)
  | [], _ => accumulates_pure
  | s :: ss, h => by
    have hs := completes_genStmt strict scope [] s (fun _ => rfl) (of_and h).1
    have hss := accumulates_genStatements strict scope ss (of_and h).2
    have hcons := accumulates_bind (accumulates_inList hs) hss
    simp only [← genStatements_cons] at hcons
    exact hcons

theorem selects_genTests (strict : Bool) (scope : JumpScope) (subject : Nat) :
    (cs : List SwitchClause) → (W → clausesWellScoped scope cs = true) →
      (first : Label) → (default : Option Label) → ∀ ⦃u s s' chosen⦄,
      Laid a u (genTests strict subject cs first default) s chosen s' →
      (chosen = default ∨ ∃ i, i < cs.length ∧ chosen = some (first + i)) ∧
      ∀ ⦃K : Rest a rules u⦄ ⦃stack⦄, K.Clauses stack first cs.length → K.Goes s'.offset stack →
        K.Goes s.offset stack
  | [], _, first, default, u, s, s', chosen, hl => by
    obtain ⟨rfl, rfl⟩ := laid_pure hl
    exact ⟨.inl rfl, fun _ _ _ hk => hk⟩
  | .mk none _ :: cs, h, first, default, u, s, s', chosen, hl => by
    obtain ⟨hchosen, hsafe⟩ :=
      selects_genTests strict scope subject cs (of_and h).2 (first + 1) (some first) hl
    refine ⟨.inr ?_, fun _ _ hclauses => hsafe hclauses.tail⟩
    rcases hchosen with rfl | ⟨i, hi, rfl⟩
    · exact ⟨0, Nat.succ_pos _, rfl⟩
    · exact ⟨i + 1, Nat.succ_lt_succ hi, congrArg some (Nat.add_right_comm first 1 i)⟩
  | .mk (some test) _ :: cs, h, first, default, u, s, s', chosen, hl => by
    have htest := evaluates_genExpr strict test (of_and (of_and h).1).1
    obtain ⟨_, s1, h1, h2⟩ := laid_bind.mp hl
    obtain ⟨hchosen, hsafe⟩ :=
      selects_genTests strict scope subject cs (of_and h).2 (first + 1) default h2
    refine ⟨?_, fun K stack hclauses hk acc hacc => ?_⟩
    · rcases hchosen with rfl | ⟨i, hi, rfl⟩
      · exact .inl rfl
      · exact .inr ⟨i + 1, Nat.succ_lt_succ hi, congrArg some (Nat.add_right_comm first 1 i)⟩
    · obtain ⟨offset, hfirst, hclause⟩ := hclauses 0 (Nat.succ_pos _)
      exact safe_caseTest htest h1 hfirst (hclause acc hacc) (hsafe hclauses.tail hk acc hacc)

theorem falls_genClauses (strict : Bool) (scope : JumpScope) :
    (cs : List SwitchClause) → (W → clausesWellScoped scope cs = true) →
      Falls a rules (Allowed W scope) cs.length (genClauses strict cs)
  | [], _ => falls_nil
  | .mk test body :: cs, h => by
    have hbody := accumulates_genStatements strict scope body (of_and (of_and h).1).2
    have hcs := falls_genClauses strict scope cs (of_and h).2
    refine falls_cons (completes_invoke fair_allowed ?_
      (completes_statementList allowed_of_isNormal hbody)) hcs
    cases test <;> rfl

theorem completes_genStmt (strict : Bool) (scope : JumpScope) (labels : List String) :
    (s : Stmt) → (s.takesLabel = false → labels = []) → (W → s.wellScoped scope labels = true) →
      Completes a rules (Allowed W scope) (genStmt strict labels s)
  | .block body, hp, h => by
    rw [hp rfl]
    exact completes_statementList allowed_of_isNormal
      (accumulates_genStatements strict scope body h)
  | .declaration declarators, _, h =>
    passes_bind (passes_genInitializers strict declarators h)
      (completes_emit_normal allowed_of_isNormal)
  | .function _, _, _ | .empty, _, _ => completes_emit_normal allowed_of_isNormal
  | .expression e, _, h =>
    completes_value (evaluates_genExpr strict e h) id fun _ => allowed_of_isNormal _ ⟨rfl, rfl⟩
  | .ifElse test consequent alternate, _, h => by
    rw [genStmt_ifElse]
    exact pushes_choice (evaluates_genExpr strict test (of_and (of_and h).1).1)
      (completes_invoke fair_allowed rfl
        (completes_genStmt strict scope [] consequent (fun _ => rfl) (of_and (of_and h).1).2))
      (completes_otherwise strict scope alternate (of_and h).2)
  | .whileLoop test body, _, h =>
    completes_whileLoop
      (completes_loopBody
        (completes_genStmt strict (scope.inLoop labels) [] body (fun _ => rfl) (of_and h).2))
      allowed_of_isNormal allowed_of_inLoop (evaluates_genExpr strict test (of_and h).1)
  | .doWhile body test, _, h =>
    completes_doWhileLoop
      (completes_loopBody
        (completes_genStmt strict (scope.inLoop labels) [] body (fun _ => rfl) (of_and h).2))
      allowed_of_isNormal allowed_of_inLoop (evaluates_genExpr strict test (of_and h).1)
  | .forLoop init test update body, _, h => by
    have hinit := passes_forInit strict init (of_and (of_and (of_and h).1).1).1
    have htest := evaluates_genElement strict test (of_and (of_and (of_and h).1).1).2
    have hupdate := passes_forUpdate strict update (of_and (of_and h).1).2
    have hbody := completes_genStmt strict (scope.inLoop labels) [] body (fun _ => rfl) (of_and h).2
    rw [genStmt_forLoop]
    refine completes_forLoop (completes_loopBody hbody) allowed_of_isNormal allowed_of_inLoop hinit
      (fun t ht => ?_) hupdate
    cases test with
    | none => cases ht
    | some e =>
      cases ht
      exact ⟨inferInstance, htest⟩
  | .forIn (.expression target) right body, _, h =>
    completes_forInLoop
      (completes_loopBody
        (completes_genStmt strict (scope.inLoop labels) [] body (fun _ => rfl) (of_and h).2))
      allowed_of_isNormal allowed_of_inLoop passes_pure
      (evaluates_genExpr strict right (of_and (of_and h).1).2)
      (aims_genTarget strict target (of_and (of_and h).1).1)
  | .forIn (.declaration declarators) right body, _, h =>
    completes_forInLoop
      (completes_loopBody
        (completes_genStmt strict (scope.inLoop labels) [] body (fun _ => rfl) (of_and h).2))
      allowed_of_isNormal allowed_of_inLoop
      (passes_declaredHead (passes_genInitializers strict declarators (of_and (of_and h).1).1))
      (evaluates_genExpr strict right (of_and (of_and h).1).2) (aims_declaredTarget declarators)
  | .switch discriminant clauses, _, h => by
    have htests := fun subject =>
      selects_genTests strict scope.inSwitch subject clauses (of_and h).2
    refine completes_switchClauses (evaluates_genExpr strict discriminant (of_and h).1) ?_
      (falls_genClauses strict scope.inSwitch clauses (of_and h).2) allowed_of_isNormal
      allowed_of_inSwitch
    intro subject first u s s' default hl
    obtain ⟨hchosen, hsafe⟩ := htests subject first none hl
    refine ⟨fun l hdefault => ?_, hsafe⟩
    rcases hchosen with rfl | ⟨i, hi, rfl⟩
    · cases hdefault
    · cases hdefault
      exact ⟨i, hi, rfl⟩
  | .tryCatch block handler finalizer, _, h => by
    have hblock := accumulates_genStatements strict scope block (of_and (of_and h).1).1
    have hhandler := replaces_tryHandler strict scope handler (of_and (of_and h).1).2
    have hfinalizer := replaces_tryFinalizer strict scope finalizer (of_and h).2
    have hbody : Completes a rules (Allowed W scope)
        (invoke .body strict ((Body.statements block).gen strict)) :=
      completes_invoke fair_allowed rfl (completes_statementList allowed_of_isNormal hblock)
    rw [genStmt_tryCatch]
    intro u s s' hl
    split at hl
    · obtain ⟨_, s1, h1, -⟩ := laid_bind.mp hl
      exact absurd h1 not_laid_unsupported
    · exact completes_replaced hbody (replaces_bind hhandler hfinalizer) hl
  | .throw argument, _, h =>
    completes_value (evaluates_genExpr strict argument h) id allowed_throwing
  | .return argument, _, h => by
    rw [genStmt_return]
    exact completes_value (evaluates_genElement strict argument h) id allowed_returning
  | .break target, _, h => fun _ _ _ hl _ _ hk =>
    safe_emit (laid_emit hl) (hk ⟨.breakTo target, allowed_breakTo h⟩)
  | .continue target, _, h => fun _ _ _ hl _ _ hk =>
    safe_emit (laid_emit hl) (hk ⟨.continueTo target, allowed_continueTo h⟩)
  | .labeled label body, _, h => by
    have hbody : Completes a rules (Allowed W (scope.labeled label))
        (genStmt strict (if body.takesLabel then labels ++ [label] else []) body) := by
      refine completes_genStmt strict (scope.labeled label) _ body
        (fun ht => if_neg (Bool.eq_false_iff.mp ht)) fun w => ?_
      cases ht : body.takesLabel with
      | true => exact h w
      | false =>
        rw [Stmt.wellScoped_of_not_takesLabel ht _ _ (labels ++ [label])]
        exact h w
    intro u s s' hl K stack hk
    obtain ⟨_, s1, h1, h2⟩ := laid_bind.mp hl
    refine hbody h1 fun c => safe_emit (laid_emit h2) ⟨c.1, stack, rfl, ?_⟩
    exact hk ⟨_, allowed_consumeBreak c.2⟩
  | .print argument, _, h => by
    have he := evaluates_genExpr strict argument h
    intro u s s' hl K stack hk
    obtain ⟨_, s1, h1, hl⟩ := laid_bind.mp hl
    simp only [laid_bind] at hl
    obtain ⟨_, s2, h2, _, s3, h3, h4⟩ := hl
    refine he h1 fun v => safe_operate ([v]) h2 rfl (by decide) fun v' => ?_
    exact safe_emit (laid_emit h3) ⟨_, _, rfl, completes_emit_normal allowed_of_isNormal h4 hk⟩
  | .withObject _ _, _, _ => fun _ _ _ hl => absurd hl not_laid_unsupported

theorem passes_forInit (strict : Bool) :
    (init : Option ForHead) → (W → headWellScoped init = true) →
      Passes a rules (forInit strict init)
  | none, _ => passes_pure
  | some (.declaration declarators), h => passes_genInitializers strict declarators h
  | some (.expression e), h => passes_pop (evaluates_genExpr strict e h)

theorem passes_forUpdate (strict : Bool) :
    (update : Option Expr) → (W → elementWellScoped update = true) →
      Passes a rules (forUpdate strict update)
  | none, _ => passes_pure
  | some e, h => passes_pop (evaluates_genExpr strict e h)

theorem replaces_tryHandler (strict : Bool) (scope : JumpScope) :
    (handler : Option CatchClause) → (W → handlerWellScoped scope handler = true) →
      Replaces a rules .completion (Allowed W scope) (tryHandler strict handler)
  | none, _ => replaces_pure
  | some (.mk _ body), h =>
    replaces_catchThrown (completes_invoke fair_allowed rfl (completes_statementList
      allowed_of_isNormal (accumulates_genStatements strict scope body h)))

theorem replaces_tryFinalizer (strict : Bool) (scope : JumpScope) :
    (finalizer : Option (List Stmt)) → (W → finalizerWellScoped scope finalizer = true) →
      Replaces a rules .completion (Allowed W scope) (tryFinalizer strict finalizer)
  | none, _ => replaces_pure
  | some body, h =>
    replaces_withFinalizer (completes_invoke fair_allowed rfl (completes_statementList
      allowed_of_isNormal (accumulates_genStatements strict scope body h)))

theorem completes_otherwise (strict : Bool) (scope : JumpScope) :
    (alternate : Option Stmt) → (W → alternateWellScoped scope alternate = true) →
      Completes a rules (Allowed W scope) (otherwise strict alternate)
  | none, _ => completes_emit_normal allowed_of_isNormal
  | some alternate, h =>
    completes_invoke fair_allowed rfl (completes_genStmt strict scope [] alternate (fun _ => rfl) h)

end

end

end TreeScript.Lowering
