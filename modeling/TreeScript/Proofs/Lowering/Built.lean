import TreeScript.Proofs.Lowering.Equations
import TreeScript.Proofs.Lowering.Stage
import TreeScript.Proofs.Syntax.Scoping

/-!
# What code generation is made of

All code is generated by a handful of steps: an instruction, a label, an operand, a temporary, a
unit, a function.  `Built` says so, and an induction on it proves what holds of all generated code.
-/

namespace TreeScript.Lowering

open Code Syntax

/-- Code generation that is put together from the basic steps.  For each unit that it compiles `B`
holds of the role, the strictness and the body. -/
class inductive Built (B : Role → Bool → Gen Unit → Prop) : {α : Type} → Gen α → Prop where
  | pure {α : Type} (x : α) : Built B (pure x : Gen α)
  | bind {α β : Type} {g : Gen β} {f : β → Gen α} :
    Built B g → (∀ x, Built B (f x)) → Built B (g >>= f)
  | emit (i : Instruction) : Built B (emit i)
  | newLabels (count : Nat) : Built B (newLabels count)
  | place (l : Label) : Built B (place l)
  | intern (o : Operand) : Built B (intern o)
  | allocate (count : Nat) : Built B (allocate count)
  | operate (op : Operation) (supplied : Nat) : Built B (operate op supplied)
  | inUnit {role : Role} {strict : Bool} {body : Gen Unit} :
    B role strict body → Built B body → Built B (inUnit role strict body)
  | addFunction (info : FunctionInfo) : Built B (addFunction info)
  | unsupported {α : Type} (construct : Unsupported) : Built B (unsupported construct : Gen α)
  | tooMany {α : Type} (what : Numbered) : Built B (tooMany what : Gen α)

attribute [instance] Built.pure Built.emit Built.newLabels Built.place Built.intern Built.allocate
  Built.operate Built.addFunction Built.unsupported Built.tooMany

section

variable {B : Role → Bool → Gen Unit → Prop} {α β : Type}

theorem Built.mono {B' : Role → Bool → Gen Unit → Prop} {g : Gen α} (h : Built B g)
    (hB : ∀ role strict body, B role strict body → B' role strict body) : Built B' g := by
  induction h with
  | pure x => exact .pure x
  | bind _ _ ihg ihf => exact .bind ihg ihf
  | emit i => exact .emit i
  | newLabels count => exact .newLabels count
  | place l => exact .place l
  | intern o => exact .intern o
  | allocate count => exact .allocate count
  | operate op supplied => exact .operate op supplied
  | inUnit hb _ ih => exact .inUnit (hB _ _ _ hb) ih
  | addFunction info => exact .addFunction info
  | unsupported construct => exact .unsupported construct
  | tooMany what => exact .tooMany what

instance : Built B newLabel := newLabel_eq ▸ .newLabels 1

instance {g : Gen β} {f : β → Gen α} [hg : Built B g] [hf : ∀ x, Built B (f x)] :
    Built B (g >>= f) :=
  .bind hg hf

/-- The case of a result that is not used; long sequences need it to stay within the limits of
instance search. -/
instance (priority := high) {g : Gen β} {h : Gen α} [hg : Built B g] [hh : Built B h] :
    Built B (g >>= fun _ => h) :=
  .bind hg fun _ => hh

instance {p : Prop} [Decidable p] {g g' : Gen α} [hg : Built B g] [hg' : Built B g'] :
    Built B (if p then g else g') := by
  split <;> assumption

instance {g : Gen α} [hg : Built B g] {f : α → β} : Built B (f <$> g) := by
  exact .bind hg fun _ => .pure _

instance {g : Gen α} [Built B g] : Built B (discard g) :=
  inferInstanceAs (Built B ((fun _ => PUnit.unit) <$> g))

/-! ## Shapes -/

instance (o : Operand) : Built B (load o) := by
  rw [load_eq]
  infer_instance

instance (c : Constant) : Built B (loadConstant c) := inferInstanceAs (Built B (load _))

instance (name : String) : Built B (binding name) := .intern _

instance {test : Gen Unit} [Built B test] : Built B (condition test) := by
  unfold condition
  infer_instance

instance : Built B dropBelow := by
  unfold dropBelow
  infer_instance

instance (target : Target) : Built B target.read := by
  cases target <;> unfold Target.read <;> infer_instance

instance (strict : Bool) (target : Target) : Built B (target.write strict) := by
  cases target <;> unfold Target.write <;> infer_instance

instance (e : Expr) : Built B (loadPropertyName e) := by
  cases e <;> unfold loadPropertyName <;> infer_instance

instance {computed : Bool} {property : Expr} {key : Gen Unit} [Built B key] :
    Built B (memberKey computed property key) := by
  unfold memberKey
  infer_instance

instance (e : Expr) : Built B (literalKey e) := by
  cases e <;> unfold literalKey <;> infer_instance

instance (arguments : List Expr) : Built B (argumentCount arguments) := by
  unfold argumentCount
  infer_instance

instance {body : List Stmt} {each : Label → Gen Unit} [∀ l, Built B (each l)] :
    Built B (statementList body each) := by
  unfold statementList
  infer_instance

instance {abrupt : Label} {statement : Gen Unit} [Built B statement] :
    Built B (inList abrupt statement) := by
  unfold inList
  infer_instance

instance {name : String} {function : Gen FunctionId} [Built B function] :
    Built B (bindFunction name function) := by
  unfold bindFunction
  infer_instance

theorem built_forM {f : α → Gen Unit} (h : ∀ x, Built B (f x)) (xs : List α) :
    Built B (xs.forM f) := by
  induction xs with
  | nil => exact .pure ()
  | cons x xs ih =>
    exact .bind (h x) fun _ => ih

instance (names : List String) : Built B (declareVariables names) :=
  built_forM (fun _ => inferInstance) names

instance (body : List Stmt) : Built B (hoisted body) := by
  unfold hoisted
  split <;> infer_instance

instance {body : List Stmt} {functions statements : Gen Unit} [Built B functions]
    [Built B statements] : Built B (declaringBody body functions statements) := by
  unfold declaringBody
  infer_instance

instance {labels : LabelSet} {body : Gen Unit} {next done : Label} [Built B body] :
    Built B (iteration labels body next done) := by
  unfold iteration
  infer_instance

instance (declarators : List Declarator) : Built B (declaredName declarators) := by
  unfold declaredName
  split <;> infer_instance

instance {declarators : List Declarator} {initializers : Gen Unit} [Built B initializers] :
    Built B (declaredHead declarators initializers) := by
  unfold declaredHead
  infer_instance

instance (declarators : List Declarator) : Built B (declaredTarget declarators) := by
  unfold declaredTarget
  infer_instance

set_option synthInstance.maxSize 512 in
instance {subject : Nat} {test : Gen Unit} {clause : Label} [Built B test] :
    Built B (caseTest subject test clause) := by
  unfold caseTest
  infer_instance

instance {clause abrupt : Label} {body : Gen Unit} [Built B body] :
    Built B (caseBody clause abrupt body) := by
  unfold caseBody
  infer_instance

theorem built_invoke {role : Role} {strict : Bool} {body : Gen Unit} (hb : B role strict body)
    (h : Built B body) : Built B (invoke role strict body) :=
  .bind (.inUnit hb h) fun _ => .emit _

end

/-! ## Units -/

/-- Whether a unit is the body of a program or a function. -/
def isDeclaring : Role → Bool
  | .program | .function => true
  | _ => false

theorem of_and {W : Prop} {a b : Bool} (h : W → (a && b) = true) :
    (W → a = true) ∧ (W → b = true) :=
  ⟨fun w => (Bool.and_eq_true_iff.mp (h w)).1, fun w => (Bool.and_eq_true_iff.mp (h w)).2⟩

/-- Code generation that is put together from the basic steps, whatever its units are. -/
abbrev Composed {α : Type} (g : Gen α) : Prop := Built (fun _ _ _ => True) g

theorem Built.composed {B : Role → Bool → Gen Unit → Prop} {α : Type} {g : Gen α}
    (h : Built B g) : Composed g :=
  h.mono fun _ _ _ _ => trivial

section

variable {strict : Bool}

instance (role : Role) (body : Gen Unit) [h : Composed body] :
    Composed (inUnit role strict body) :=
  .inUnit trivial h

instance (role : Role) (body : Gen Unit) [h : Composed body] :
    Composed (invoke role strict body) :=
  built_invoke trivial h

end

end TreeScript.Lowering
