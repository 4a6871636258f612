import TreeScript.Proofs.Evaluation.Constructs
import TreeScript.Proofs.Lowering.Sources

/-!
# Code means what it says

The code of an expression does what evaluating the expression does, at any place of any unit and
over any stack.  The proof goes by recursion on the expression; each case puts the meaning of a
construct together from the meanings of its parts.
-/

namespace TreeScript.Lowering

open Code Syntax Machine

variable {a : Artifact} {P : Links → Prop}

theorem Means.whole {α : Type} {R : α → Prop} {top : α → List Slot} {f : Scene → Links → Eval α}
    {g : Gen Unit} (h : Means a R top P f g) :
    Means a R top (fun links => P (links.part 0))
      (fun scene links => f scene (links.part 0)) g := by
  intro u s s' hl
  obtain ⟨l, hp, hc⟩ := h hl
  exact ⟨.join [l], hp, hc⟩

theorem means_newArray {length : Nat} {evs : Scene → Links → Eval (List Value)} {g : Gen Unit}
    [Composed g] (hg : MeansValues a length P evs g) :
    MeansValue a P
      (fun scene links => do
        let values ← evs scene links
        Eval.realm (TreeScript.allocate (·.newArray values)))
      (do g; operate (.newArray length) length) := by
  intro u s s' h
  obtain ⟨_, s1, h1, h2⟩ := laid_bind.mp h
  obtain ⟨l, hl, hc⟩ := hg h1
  exact ⟨l, hl, hc.bind (laid_temps h1) fun vs hvs =>
    turns_operate vs h2 (Eval.realm_eq_operation rfl fun _ => rfl) hvs rfl⟩

theorem means_newObject {f : Scene → Value → Links → Eval Value} {g : Gen Unit} [Composed g]
    (hg : MeansFilled a P f g) :
    MeansValue a (fun links => P (links.part 0))
      (fun scene links => do
        let object ← Eval.realm (TreeScript.allocate (·.newObject))
        f scene object (links.part 0))
      (do operate .newObject 0; g) := by
  intro u s s' h
  obtain ⟨_, s1, h1, h2⟩ := laid_bind.mp h
  obtain ⟨l, hl, hc⟩ := hg h2
  exact ⟨.join [l], hl,
    (turns_operate [] h1 (Eval.realm_eq_operation rfl fun _ => rfl) rfl rfl).bind (laid_temps h1)
      fun object _ => hc object⟩

theorem means_regExp (pattern flags : String) :
    MeansValue a (fun _ => True)
      (fun _ _ => Eval.realm (apply .newRegExp [.string pattern, .string flags]))
      (do loadConstant (.string pattern); loadConstant (.string flags); operate .newRegExp 2) := by
  intro u s s' h
  obtain ⟨_, s1, h1, h⟩ := laid_bind.mp h
  obtain ⟨_, s2, h2, h3⟩ := laid_bind.mp h
  exact ⟨default, trivial, ((turns_operate [.string pattern, .string flags] h3
    (Eval.realm_eq_operation rfl fun _ => rfl) rfl rfl).constant h2).constant h1⟩

theorem means_key {strict : Bool} (computed : Bool) {property : Expr}
    (h : MeansValue a (property.Linked (Implements a strict))
      (fun scene links => eval scene strict property links) (genExpr strict property)) :
    MeansValue a (property.Linked (Implements a strict))
      (fun scene links => propertyKey computed property (eval scene strict property links))
      (memberKey computed property (genExpr strict property)) := by
  refine means_memberKey h ?_
  rintro name rfl
  trivial

mutual

theorem means_genExpr (strict : Bool) :
    (e : Expr) → MeansValue a (e.Linked (Implements a strict))
      (fun scene links => eval scene strict e links) (genExpr strict e)
  | .this => means_this
  | .undefined | .null | .boolean _ | .number _ | .string _ => means_loadConstant _
  | .identifier name => means_name name
  | .regExp pattern flags =>
    means_regExp pattern flags
  | .array elements => by
    have helements := means_newArray (means_genElements strict elements)
    rw [genExpr_array]
    intro u s s' h
    split at h
    · exact helements.whole h
    · obtain ⟨_, s1, h1, -⟩ := laid_bind.mp h
      exact absurd h1 not_laid_tooMany
  | .object members =>
    means_newObject (means_genMembers strict members)
  | .function definition =>
    means_function
  | .member object property computed =>
    means_binary (means_genExpr strict object)
      (means_key computed (means_genExpr strict property)) Eval.property_eq rfl
  | .call callee arguments => by
    have hcallee := means_genExpr strict callee
    have hargs := means_genExprs strict arguments
    cases callee with
    | member object property computed =>
      have hobject := means_genExpr strict object
      have hproperty := means_genExpr strict property
      have hmeans := means_methodCall hobject (means_key computed hproperty) hargs
      exact hmeans
    | _ => exact means_call hcallee hargs
  | .construct callee arguments =>
    means_construct (means_genExpr strict callee) (means_genExprs strict arguments)
  | .unary .delete argument => by
    have hargument := means_genExpr strict argument
    cases argument with
    | identifier name => exact means_deleteName name
    | member object property computed =>
      have hobject := means_genExpr strict object
      have hproperty := means_genExpr strict property
      exact (means_binary hobject (means_key computed hproperty) (Eval.delete_eq strict) rfl).whole
    | _ =>
      exact (means_then hargument (means_loadConstant (.boolean true))).imp fun _ h => h.1
  | .unary .void argument =>
    (means_then (means_genExpr strict argument) (means_loadConstant .undefined)).imp
      fun _ h => h.1
  | .unary .typeOf argument => by
    have hargument := means_genExpr strict argument
    cases argument with
    | identifier name => exact means_typeOfName name
    | _ => exact means_unary hargument (Eval.unary_eq rfl) rfl
  | .unary .minus argument | .unary .plus argument | .unary .not argument
  | .unary .bitNot argument => means_unary (means_genExpr strict argument) (Eval.unary_eq rfl) rfl
  | .update op argument prefixed =>
    means_updateTarget (means_genTarget strict argument)
  | .binary op left right =>
    means_binary (means_genExpr strict left) (means_genExpr strict right) (Eval.binary_eq op)
      (runsCode_ofBinary op)
  | .logical op left right =>
    means_shortCircuit op (means_genExpr strict left) (means_genExpr strict right)
  | .conditional test consequent alternate =>
    means_choice (means_genExpr strict test) (means_genExpr strict consequent)
      (means_genExpr strict alternate)
  | .assignment op target value =>
    means_assignTarget (means_genTarget strict target) (means_genExpr strict value)
  | .sequence expressions => (means_genSequence strict expressions).whole

theorem means_genTarget (strict : Bool) :
    (e : Expr) → MeansPlace a (e.Linked (Implements a strict))
      (fun scene links => evalPlace scene strict e links) (genTarget strict e)
  | .identifier name =>
    means_binding name
  | .member object property computed => by
    have hmeans := means_property (means_genExpr strict object)
      (means_key computed (means_genExpr strict property))
    exact hmeans
  | .this | .undefined | .null | .boolean _ | .number _ | .string _ | .regExp _ _ | .array _
  | .object _ | .function _ | .call _ _ | .construct _ _ | .unary _ _ | .update _ _ _
  | .binary _ _ _ | .logical _ _ _ | .conditional _ _ _ | .assignment _ _ _ | .sequence _ =>
    fun _ _ _ _ h => absurd h not_laid_unsupported

theorem means_genExprs (strict : Bool) :
    (es : List Expr) → MeansValues a es.length (exprsLinked (Implements a strict) es)
      (fun scene links => evalAll scene strict es links) (genExprs strict es)
  | [] => means_nil
  | e :: es =>
    means_cons (means_genExpr strict e) (means_genExprs strict es)

theorem means_genSequence (strict : Bool) :
    (es : List Expr) → MeansValue a (exprsLinked (Implements a strict) es)
      (fun scene links => evalSequence scene strict es links) (genSequence strict es)
  | [] => means_loadConstant _
  | [e] => (means_genExpr strict e).whole.imp fun _ h => ⟨h, trivial⟩
  | e :: e' :: es =>
    means_then (means_genExpr strict e) (means_genSequence strict (e' :: es))

theorem means_genElement (strict : Bool) :
    (e : Option Expr) → MeansValue a (elementLinked (Implements a strict) e)
      (fun scene links => evalElement scene strict e links) (genElement strict e)
  | none => means_loadConstant _
  | some e => means_genExpr strict e

theorem means_genElements (strict : Bool) :
    (es : List (Option Expr)) → MeansValues a es.length (elementsLinked (Implements a strict) es)
      (fun scene links => evalElements scene strict es links) (genElements strict es)
  | [] => means_nil
  | e :: es =>
    means_cons (means_genElement strict e) (means_genElements strict es)

theorem means_genMember (strict : Bool) :
    (m : Member) → MeansFilled a (memberLinked (Implements a strict) m)
      (fun scene object links => evalMember scene strict object m links) (genMember strict m)
  | .value _ value =>
    means_member (means_genExpr strict value)
  | .accessor .get _ _ _ | .accessor .set _ _ _ => fun _ _ _ h => absurd h not_laid_unsupported

theorem means_genMembers (strict : Bool) :
    (ms : List Member) → MeansFilled a (membersLinked (Implements a strict) ms)
      (fun scene object links => evalMembers scene strict object ms links) (genMembers strict ms)
  | [] => means_filled_nil
  | m :: ms =>
    means_filled_cons (means_genMember strict m) (means_genMembers strict ms)

end

/-- Running the code of an expression, wherever it stands in a unit and whatever is on the stack,
comes to the end of the code with one more value on the stack, or ends the frame with a throw.  The
value, the fault and the realm are those of evaluating the expression.  If a function that is called
on the way has no result, neither has the evaluation, and the run does not come back from the
call. -/
theorem genExpr_runs {u : CodeUnit} {strict : Bool} {e : Expr} {s s' : Stage}
    (h : Laid a u (genExpr strict e) s () s') :
    ∃ links, e.Linked (Implements a strict) links ∧
      ∀ m : Machine, m.Hosts a u → m.frame.next = s.offset →
        match eval m.scene strict e links m.realm with
        | some (.ok v, r) => ∃ temps, Kept s.temps m.frame.temps temps ∧
            m.Reaches (m.placed s'.offset (.value v :: m.frame.stack) temps r)
        | some (.error fault, r) => ∃ m', m.Reaches m' ∧ m.Throws fault r m'
        | none => ∃ m', m.Reaches m' ∧ m.Lost m' := by
  obtain ⟨links, hlinks, hcomputes⟩ := means_genExpr strict e h
  refine ⟨links, hlinks, fun m hm hnext => ?_⟩
  have hruns : m.Runs
      (fun v r m' => ∃ temps, Kept s.temps m.frame.temps temps ∧
        m' = m.placed s'.offset (.value v :: m.frame.stack) temps r)
      (m.placed s.offset m.frame.stack m.frame.temps m.realm)
      ((eval m.scene strict e links >>= pure) m.realm) :=
    hcomputes hm hm.temps fun v temps r _ hkept => ⟨_, .refl _, temps, hkept, rfl⟩
  have hstart : m.placed s.offset m.frame.stack m.frame.temps m.realm = m := by
    rw [← hnext]
    rfl
  rw [hstart, bind_pure] at hruns
  cases hev : eval m.scene strict e links m.realm with
  | none =>
    rw [hev] at hruns
    exact hruns
  | some out =>
    rw [hev] at hruns
    obtain ⟨fault | v, r⟩ := out
    · exact hruns
    · obtain ⟨_, hreaches, temps, hkept, rfl⟩ := hruns
      exact ⟨temps, hkept, hreaches⟩

theorem laid_statement {strict : Bool} {stmt : Stmt}
    (h : compile { body := [stmt] } strict = .ok a) :
    ∃ u s s', a.entryUnit? = some u ∧ Laid a u (genStmt strict [] stmt) s () s' := by
  obtain ⟨u, hu, -, -, s, s', hlaid, -⟩ := compile_entry h
  simp only [Bool.or_false, Body.gen, declaringBody, statementList_cons, genStatements_cons, inList,
    laid_bind] at hlaid
  obtain ⟨_, _, -, _, _, -, _, _, -, _, _, -, _, _, -, _, _, -, _, _,
    ⟨_, _, ⟨_, _, hstmt, -⟩, -⟩, -⟩ := hlaid
  exact ⟨u, _, _, hu, hstmt⟩

theorem laid_expression {strict : Bool} {e : Expr}
    (h : compile { body := [.expression e] } strict = .ok a) :
    ∃ u s s', a.entryUnit? = some u ∧ Laid a u (genExpr strict e) s () s' := by
  obtain ⟨u, s, s', hu, hlaid⟩ := laid_statement h
  obtain ⟨_, s1, he, -⟩ := laid_bind.mp hlaid
  exact ⟨u, s, s1, hu, he⟩

/-- `t = 7, t-- * 2 - -t + (t < 7 ? "," + ~t : !t) + (t % 4 << 3 ^ 1) + (t >= 6 && typeof t)` -/
def countingDown : Expr :=
  .sequence [.assignment .assign (.identifier "t") (.number 7),
    .binary .add (.binary .add (.binary .add
      (.binary .subtract
        (.binary .multiply (.update .decrement (.identifier "t") false) (.number 2))
        (.unary .minus (.identifier "t")))
      (.conditional (.binary .less (.identifier "t") (.number 7))
        (.binary .add (.string ",") (.unary .bitNot (.identifier "t")))
        (.unary .not (.identifier "t"))))
      (.binary .bitXor
        (.binary .shiftLeft (.binary .modulo (.identifier "t") (.number 4)) (.number 3))
        (.number 1)))
      (.logical .and (.binary .greaterEqual (.identifier "t") (.number 6))
        (.unary .typeOf (.identifier "t")))]

def atOffset (a : Artifact) (u : CodeUnit) (offset : Nat) : Machine where
  realm := .create 16 false
  context := .global false
  frame := { artifact := a, unit := u, temps := Array.replicate u.tempCount .undefined
             next := offset, callerEnv := Realm.globalEnv, resume := .unit }

def text? : Option (Except Fault Value × Realm) → Option String
  | some (.ok (.string t), _) => some t
  | _ => none

theorem eval_countingDown :
    text? (eval ⟨default, .global false, fun _ _ _ => none⟩ false countingDown default
      (.create 16 false)) = some "20,-717number" := by
  decide +kernel

theorem eval_countingDown_scene (u : CodeUnit) (offset : Nat) (links : Links) :
    eval (atOffset a u offset).scene false countingDown links =
      eval ⟨default, .global false, fun _ _ _ => none⟩ false countingDown default :=
  rfl

theorem compile_countingDown :
    (compile { body := [.expression countingDown] } false).isOk = true := by
  decide +kernel

/-- The product has the old number, and what stands behind it the new one. -/
theorem genExpr_runs_countingDown :
    ∃ a u s s', compile { body := [.expression countingDown] } false = .ok a ∧
      a.entryUnit? = some u ∧ Laid a u (genExpr false countingDown) s () s' ∧
      ∃ temps r, (atOffset a u s.offset).Reaches
        ((atOffset a u s.offset).placed s'.offset [.value (.string "20,-717number")] temps r) := by
  cases hc : compile { body := [.expression countingDown] } false with
  | error e =>
    have hok := compile_countingDown
    rw [hc] at hok
    cases hok
  | ok a =>
    obtain ⟨u, s, s', hu, hlaid⟩ := laid_expression hc
    refine ⟨a, u, s, s', rfl, hu, hlaid, ?_⟩
    obtain ⟨links, -, hruns⟩ := genExpr_runs hlaid
    have hrun := hruns (atOffset a u s.offset) ⟨rfl, rfl, Array.size_replicate, rfl⟩ rfl
    have hrealm : (atOffset a u s.offset).realm = .create 16 false := rfl
    rw [eval_countingDown_scene, hrealm] at hrun
    have htext := eval_countingDown
    unfold text? at htext
    split at htext
    · next t r heval =>
      cases htext
      rw [heval] at hrun
      obtain ⟨temps, -, hreaches⟩ := hrun
      exact ⟨temps, r, hreaches⟩
    · cases htext

/-! ## Texts without an end -/

/-- What holds of a machine and of all the next state comes to holds of all that it comes to. -/
theorem always_of_next {m m1 : Machine} {P : Machine → Prop} (hm : P m) (hs : m.step = .next m1)
    (h : ∀ n, ∃ m', run n m1 = .exhausted m' ∧ P m') (n : Nat) :
    ∃ m', run n m = .exhausted m' ∧ P m' := by
  cases n with
  | zero => exact ⟨m, rfl, hm⟩
  | succ n =>
    rw [run_succ_next hs]
    exact h n

/-- `"" + e` -/
def writingError : Expr := .binary .add (.string "") (.identifier "e")

theorem stays_inside_writingError {u : CodeUnit} {strict : Bool} {s s' : Stage} {m : Machine}
    {v : Value} (h : Laid a u (genExpr strict writingError) s () s') (hm : m.Hosts a u)
    (hnext : m.frame.next = s.offset) (hv : m.realm.valueOf m.context.env "e" = .ok v)
    (hendless : m.realm.endless [.string "", v] = true) (n : Nat) :
    ∃ m', run n m = .exhausted m' ∧ m'.frame.next < s'.offset ∧ m'.callers = m.callers ∧
      ∀ c, m'.status ≠ .finishing c := by
  obtain ⟨_, s1, h1, h⟩ := laid_bind.mp h
  obtain ⟨_, s2, h2, h3⟩ := laid_bind.mp h
  obtain ⟨i, hi, hadd1⟩ := laid_loadConstant h1
  obtain ⟨j, hj, hadd2⟩ := laid_load h2
  obtain ⟨-, hadd3⟩ := laid_operate h3
  have hlt2 : s2.offset < s'.offset := Nat.lt_of_lt_of_eq (Nat.lt_succ_self _) hadd3.offset.symm
  have hlt1 : s1.offset < s'.offset := by
    have := hadd2.offset
    omega
  have hlt : s.offset < s'.offset := by
    have := hadd1.offset
    omega
  have hstart : m = m.placed s.offset m.frame.stack m.frame.temps m.realm := by
    rw [← hnext]
    rfl
  have hrunning {k : Nat} {stack : List Slot} :
      (m.placed k stack m.frame.temps m.realm).status = .running := hm.running
  have he1 : exec (.load i) (m.placed s1.offset m.frame.stack m.frame.temps m.realm) = .ok ()
      (m.placed s1.offset (slots [.string ""] ++ m.frame.stack) m.frame.temps m.realm) :=
    exec_load (operand_placed hm hi)
  have hread : (liftExcept (m.realm.valueOf m.context.env "e") : RealmM Value) m.realm =
      .ok v m.realm := by
    rw [hv]
    rfl
  have he2 : exec (.load j) (m.placed s2.offset (slots [.string ""] ++ m.frame.stack) m.frame.temps
      m.realm) = .ok () (m.placed s2.offset (slots [.string "", v] ++ m.frame.stack) m.frame.temps
      m.realm) :=
    (exec_load (operand_placed hm hj)).trans (congrArg (settle · _ _) hread)
  rw [← advance_placed hadd1] at he1
  rw [← advance_placed hadd2] at he2
  have hhangs : (m.placed s2.offset (slots [.string "", v] ++ m.frame.stack) m.frame.temps
      m.realm).hangs (.operate .add) = true :=
    (hangs_operate [.string "", v] rfl rfl).trans hendless
  have hinside {k : Nat} (hk : k < s'.offset) :
      k < s'.offset ∧ m.callers = m.callers ∧ ∀ c, m.status ≠ .finishing c :=
    ⟨hk, rfl, fun c hc => by cases hm.running.symm.trans hc⟩
  rw [hstart]
  refine always_of_next (hinside hlt) (step_exec hrunning (next_placed hadd1 hm) rfl he1) ?_ n
  refine always_of_next (hinside hlt1) (step_exec hrunning (next_placed hadd2 hm) rfl he2) ?_
  refine always_of_next (hinside hlt2) (step_hang hrunning (next_placed hadd3 hm) hhangs) ?_
  exact fun n => ⟨_, run_hanging rfl n, hlt2, rfl, nofun⟩

/-- A realm with an error that is its own message, under the name `e`. -/
def selfBlaming : Realm :=
  let (ref, r) := (Realm.create 16 false).addObject { kind := .error }
  let r := r.modifyObject ref (·.define "message" (.data (.object ref)))
  match Realm.assign Realm.globalEnv "e" (.object ref) false r with
  | .ok _ r | .error _ r => r

theorem selfBlaming_endless :
    (match selfBlaming.valueOf Realm.globalEnv "e" with
      | .ok v => selfBlaming.endless [.string "", v]
      | .error _ => false) = true := by
  decide +kernel

theorem compile_writingError :
    (compile { body := [.expression writingError] } false).isOk = true := by
  decide +kernel

/-- The code of an expression may never come to its end, and never throw either: it hangs where it
needs the text of an error that is its own message. -/
theorem genExpr_hangs_writingError :
    ∃ a u s s', compile { body := [.expression writingError] } false = .ok a ∧
      a.entryUnit? = some u ∧ Laid a u (genExpr false writingError) s () s' ∧
      ∀ n, ∃ m, run n { atOffset a u s.offset with realm := selfBlaming } = .exhausted m ∧
        m.frame.next < s'.offset ∧ m.callers = [] ∧ ∀ c, m.status ≠ .finishing c := by
  cases hc : compile { body := [.expression writingError] } false with
  | error e =>
    have hok := compile_writingError
    rw [hc] at hok
    cases hok
  | ok a =>
    obtain ⟨u, s, s', hu, hlaid⟩ := laid_expression hc
    refine ⟨a, u, s, s', rfl, hu, hlaid, ?_⟩
    have h := selfBlaming_endless
    cases hv : selfBlaming.valueOf Realm.globalEnv "e" with
    | error fault =>
      rw [hv] at h
      cases h
    | ok v =>
      rw [hv] at h
      exact fun n => stays_inside_writingError
        (m := { atOffset a u s.offset with realm := selfBlaming }) hlaid
        ⟨rfl, rfl, Array.size_replicate, rfl⟩ rfl hv h n

end TreeScript.Lowering
