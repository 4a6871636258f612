import TreeScript.Proofs.Lowering.Formed
import TreeScript.Proofs.Syntax.Lexical

/-!
# Regular code

`Regular` is what all generated code has in common, so that the trees are gone through once and the
rest is shown by induction on it: code refers only to what it has made, it places each label once,
it demands what can be told from the tree, it can be generated if the tree is accepted, its jumps go
forward but for loops, and its strictness is in the flags alone.
-/

namespace TreeScript

namespace Syntax

def Stmt.isLoop : Stmt → Bool
  | .whileLoop _ _ | .doWhile _ _ | .forLoop _ _ _ _ => true
  | _ => false

end Syntax

namespace Code

def Operation.strict? : Operation → Option Bool
  | putProperty strict | deleteProperty strict => some strict
  | _ => none

end Code

namespace Lowering

open Code Syntax

/-- The part of a program that a unit is compiled from. -/
def Body.part : Body → Part
  | declaring body | statements body => .body body
  | statement s => .stmt s

/-- What code is generated from: parts that stand inside functions. -/
structure Terrain where
  stands : List FunctionDef → Part → Prop
  part : ∀ {fs x y}, stands fs x → y ∈ x.parts → stands fs y
  inside : ∀ {fs f}, stands fs (.function f) → stands (f :: fs) (.body f.body)
  top : Bool
  loops : Prop
  loop : ∀ {fs s}, stands fs (.stmt s) → s.isLoop = true → loops

/-- Where code stands. -/
structure Setting where
  terrain : Terrain
  /-- The functions around it, the innermost first. -/
  fs : List FunctionDef := []
  /-- Whether it may take jumps and start units. -/
  loud : Prop := True

namespace Setting

def Stands (c : Setting) (x : Part) : Prop := c.terrain.stands c.fs x

def strict (c : Setting) : Bool := strictIn c.terrain.top c.fs

def inUnit (c : Setting) : Setting := { c with loud := True }

def inFunction (c : Setting) (f : FunctionDef) : Setting := ⟨c.terrain, f :: c.fs, True⟩

end Setting

/-- Where code is in its unit. -/
structure Site where
  /-- The heads of the enumerations around it, which it may jump back to. -/
  heads : List Label := []
  /-- The temporaries that it may write to. -/
  mine : List Nat := []
  /-- Whether its jumps may lead anywhere, since it is never generated. -/
  free : Prop := False

@[simp]
def Site.owning (w : Site) (temps : List Nat) : Site := { w with mine := temps ++ w.mine }

/-- What runs for each key of an enumeration. -/
@[simp]
def Site.each (w : Site) (next : Label) (key : Nat) : Site := ⟨next :: w.heads, [key], w.free⟩

/-- What is generated only if `p`. -/
@[simp]
def Site.given (w : Site) (p : Prop) : Site := { w with free := w.free ∨ ¬ p }

theorem Site.given_of {p : Prop} (w : Site) (h : p) : w.given p = w := by
  simp [Site.given, h]

@[simp]
def MayJump (c : Setting) (w : Site) (known : List Reference) (pending : List Label) (l : Label) :
    Prop :=
  .label l ∈ known ∧ (c.terrain.loops ∨ w.free ∨ l ∈ w.heads ∨ l ∈ pending)

/-- The instruction may stand where it does. -/
@[simp]
def Fits (c : Setting) (w : Site) (known : List Reference) (pending : List Label) :
    Instruction → Prop
  | .load i => .operand i ∈ known
  | .typeOfVariable i | .deleteVariable i | .declareVariable i | .initializeBinding i
  | .enterCatch i => .binding i ∈ known
  | .storeTemp t => .temporary t ∈ known ∧ t ∈ w.mine
  | .jump l | .jumpIfFalse l | .jumpIfTrue l | .jumpIfAbrupt l | .jumpIfKind _ l
  | .jumpUnlessKind _ l => MayJump c w known pending l
  | .jumpIfBreaksHere _ l | .jumpIfContinuesHere _ l => c.loud ∧ MayJump c w known pending l
  | .store _ _ | .operate _ | .forInStep _ _ | .invoke _ | .makeClosure _ => False
  | _ => True

/-- `Regular c w known pending t g d ok Q`: in the setting `c`, at the site `w`, with `t`
temporaries in use, the code of `g`, which is told whether it is strict, refers to nothing but what
it makes and what is `known`, finds the labels `pending` unplaced, demands `d` and is generated if
`ok`, and then `Q` is the case. -/
inductive Regular : Setting → Site → List Reference → List Label →
    Nat → {α : Type} → (Bool → Gen α) → Demand → Prop → Result α → Prop where
  | pure {c w known pending t} {α : Type} {x : α} {Q : Result α} (his : Q.is x)
    (hknown : ∀ r ∈ Q.known x, r ∈ known) (hpending : Q.pending x = pending) :
    Regular c w known pending t (fun _ => pure x) {} True Q
  | bind {c w known pending t} {α β : Type} {g : Bool → Gen β} {f : Bool → β → Gen α}
    {d d'' : Demand} {d' : β → Demand} {ok ok'' : Prop} {ok' : β → Prop} {Q : Result β}
    {Q' : Result α} :
    Regular c w known pending t g d ok Q →
    (∀ x, Regular c (w.given (Q.is x)) (Q.known x ++ known) (Q.pending x) (t + d.temps)
      (fun b => f b x) (d' x) (ok' x) Q') →
    (∀ x, Q.is x → d' x = d'' ∧ ok' x = ok'') →
    Regular c w known pending t (fun b => g b >>= f b) (d ++ d'') (ok ∧ ok'') Q'
  | emit {c w known pending t} (i : Instruction) (hi : Fits c w known pending i) :
    Regular c w known pending t (fun _ => emit i) {} True (.leaves pending)
  | store {c w known pending t} {i : OperandIndex} (hi : .binding i ∈ known) :
    Regular c w known pending t (fun b => Lowering.emit (.store i b)) {} True
      (.leaves pending)
  | newLabels {c w known pending t} (count : Nat) :
    Regular c w known pending t (fun _ => newLabels count) {} True
      ⟨fun _ => True, fun l => (List.range' l count).map .label,
        fun l => List.range' l count ++ pending⟩
  | place {c w known t} (l : Label) (before after : List Label) :
    Regular c w known (before ++ l :: after) t (fun _ => place l) {} True
      (.leaves (before ++ after))
  | intern {c w known pending t} (o : Operand)
    (ho : ∀ {index}, o = .temporary index → .temporary index ∈ known) :
    Regular c w known pending t (fun _ => intern o) { operands := {o.key} } True
      ⟨fun _ => True, fun i => o.references i, fun _ => pending⟩
  | temporaries {c w known pending t} {α : Type} {f : Bool → Nat → Gen α} {d : Nat → Demand}
    {ok : Prop} {Q : Result α} (count : Nat) :
    (∀ first, Regular c (w.owning (List.range' first count))
      ((List.range' first count).map .temporary ++ known) pending (t + count) (fun b => f b first)
      (d first) ok Q) →
    Regular c w known pending t (fun b => allocate count >>= f b)
      ({ temps := count } ++ d t) ok Q
  /-- What runs for each key may jump back to `next`, and writes to no temporary of the enumeration
  but the one for the key. -/
  | enumeration {c w known pending t} {next done : Label} {setup each : Bool → Nat → Gen Unit}
    {d d' : Nat → Demand} {ok ok' : Prop} (hdone : .label done ∈ known) :
    (∀ keys, Regular c (w.owning (List.range' keys 4))
      ((List.range' keys 4).map .temporary ++ known) (done :: next :: pending) (t + 4)
      (fun b => setup b keys) (d keys) ok (.leaves (done :: next :: pending))) →
    (∀ keys, Regular c (w.each next (keys + 3))
      ((List.range' keys 4).map .temporary ++ known) (done :: pending) (t + 4 + (d keys).temps)
      (fun b => each b keys) (d' keys) ok' (.leaves (done :: pending))) →
    Regular c w known (done :: next :: pending) t (fun b => do
      let keys ← allocate 4
      setup b keys
      Lowering.place next
      Lowering.emit (.forInStep keys done)
      each b keys
      Lowering.place done) ({ temps := 4 } ++ (d t ++ d' t)) (ok ∧ ok') (.leaves pending)
  | operate {c w known pending t} {op : Operation} {supplied : Nat}
    (harity : op.arity = supplied) (hflag : op.strict? = none) :
    Regular c w known pending t (fun _ => operate op supplied) {} True (.leaves pending)
  | put {c w known pending t} :
    Regular c w known pending t (fun b => Lowering.operate (.putProperty b) 3) {} True
      (.leaves pending)
  | delete {c w known pending t} :
    Regular c w known pending t (fun b => Lowering.operate (.deleteProperty b) 2) {} True
      (.leaves pending)
  | invoke {c w known pending t} {role : Role} {source : Body} {d : Demand} {ok : Prop}
    (hloud : c.loud) (hrole : isDeclaring role = false) (hsource : c.Stands source.part) :
    Regular c.inUnit {} [] [] 0 (fun b => source.gen b) d ok (.leaves []) →
    Regular c w known pending t (fun b => invoke role b (source.gen b)) d.nested ok
      (.leaves pending)
  | closure {c w known pending t} {f : FunctionDef} {selfBinding : Bool} {d : Demand}
    {ok : Prop} (hf : c.Stands (.function f)) :
    Regular (c.inFunction f) {} [] [] 0 (fun b => (Body.declaring f.body).gen b) d ok
      (.leaves []) →
    Regular c w known pending t
      (fun b => closure (b || f.strict) f.name f.params selfBinding (.declaring f.body)) d.nested ok
      (.leaves pending)
  | unsupported {c w known pending t} {α : Type} {d : Demand} {Q : Result α}
    (construct : Unsupported) :
    Regular c w known pending t (fun _ => (unsupported construct : Gen α)) d False Q
  | tooMany {c w known pending t} {α : Type} {d : Demand} {Q : Result α} (what : Numbered) :
    Regular c w known pending t (fun _ => (tooMany what : Gen α)) d False Q

namespace Regular

variable {c : Setting} {w : Site} {known : List Reference}
  {pending pending' : List Label} {t : Nat} {α β : Type} {g : Bool → Gen α} {d d' : Demand}
  {ok ok' : Prop} {Q : Result α}

theorem iff (h : Regular c w known pending t g d ok Q) (hok : ok ↔ ok') :
    Regular c w known pending t g d ok' Q :=
  propext hok ▸ h

/-! ## Sequences -/

theorem seq {g : Bool → Gen β} {f : Bool → β → Gen α} {Q : Result β} {Q' : Result α}
    (h : Regular c w known pending t g d ok Q) (hQ : ∀ x, Q.is x)
    (h' : ∀ x, Regular c w (Q.known x ++ known) (Q.pending x) (t + d.temps)
      (fun b => f b x) d' ok' Q') :
    Regular c w known pending t (fun b => g b >>= f b) (d ++ d') (ok ∧ ok') Q' :=
  .bind h (fun x => (w.given_of (hQ x)).symm ▸ h' x) fun _ _ => ⟨rfl, rfl⟩

theorem part {g : Bool → Gen Unit} {g' : Bool → Gen α}
    (h : Regular c w known pending t g d ok (.leaves pending'))
    (h' : Regular c w known pending' (t + d.temps) g' d' ok' Q) :
    Regular c w known pending t (fun b => g b >>= fun _ => g' b) (d ++ d') (ok ∧ ok') Q :=
  .seq h (fun _ => trivial) fun _ => h'

theorem quiet {g : Bool → Gen Unit} {g' : Bool → Gen α}
    (h : Regular c w known pending t g {} True (.leaves pending'))
    (h' : Regular c w known pending' t g' d ok Q) :
    Regular c w known pending t (fun b => g b >>= fun _ => g' b) d ok Q := by
  have h := h.part h'
  rwa [Demand.empty_append, true_and] at h

theorem last {g : Bool → Gen Unit} {g' : Bool → Gen α}
    (h : Regular c w known pending t g d ok (.leaves pending'))
    (h' : Regular c w known pending' (t + d.temps) g' {} True Q) :
    Regular c w known pending t (fun b => g b >>= fun _ => g' b) d ok Q := by
  have h := h.part h'
  rwa [Demand.append_empty, and_true] at h

theorem emits {i : Instruction} (hi : Fits c w known pending i)
    (h : Regular c w known pending t g d ok Q) :
    Regular c w known pending t (fun b => Lowering.emit i >>= fun _ => g b) d ok Q :=
  .quiet (.emit i hi) h

theorem operates {op : Operation} {supplied : Nat} (harity : op.arity = supplied)
    (hflag : op.strict? = none) (h : Regular c w known pending t g d ok Q) :
    Regular c w known pending t (fun b => Lowering.operate op supplied >>= fun _ => g b) d
      ok Q :=
  .quiet (.operate harity hflag) h

theorem places (l : Label) (before after : List Label)
    (h : Regular c w known (before ++ after) t g d ok Q) :
    Regular c w known (before ++ l :: after) t (fun b => Lowering.place l >>= fun _ => g b) d
      ok Q :=
  .quiet (.place l before after) h

theorem labels (count : Nat) {f : Bool → Label → Gen α}
    (h : ∀ l, Regular c w ((List.range' l count).map .label ++ known)
      (List.range' l count ++ pending) t (fun b => f b l) d ok Q) :
    Regular c w known pending t (fun b => Lowering.newLabels count >>= f b) d ok Q := by
  have h := Regular.seq (.newLabels count) (fun _ => trivial) fun l => h l
  rwa [Demand.empty_append, true_and] at h

theorem label {f : Bool → Label → Gen α}
    (h : ∀ l, Regular c w (.label l :: known) (l :: pending) t (fun b => f b l) d ok Q) :
    Regular c w known pending t (fun b => Lowering.newLabel >>= f b) d ok Q :=
  labels 1 h

theorem bound (name : String) {f : Bool → OperandIndex → Gen α}
    (h : ∀ i, Regular c w (.operand i :: .binding i :: known) pending t (fun b => f b i) d ok
      Q) :
    Regular c w known pending t (fun b => Lowering.binding name >>= f b)
      (Tally.binding name t ++ d) ok Q := by
  have h := Regular.seq (.intern (.binding name) nofun) (fun _ => trivial) fun i => h i
  rwa [true_and] at h

theorem allocates (count : Nat) {f : Bool → Nat → Gen α} {x : Nat → Tally}
    (h : ∀ first, Regular c (w.owning (List.range' first count))
      ((List.range' first count).map .temporary ++ known) pending (t + count) (fun b => f b first)
      (x first (t + count)) ok Q) :
    Regular c w known pending t (fun b => Lowering.allocate count >>= f b)
      (Tally.allocate count x t) ok Q :=
  .temporaries count h

/-! ## Checks -/

theorem orTooMany {p : Prop} [Decidable p] (what : Numbered)
    (h : Regular c w known pending t g d ok Q) :
    Regular c w known pending t
      (fun b => if p then g b else Lowering.tooMany what >>= fun _ : Unit => g b) d (p ∧ ok) Q := by
  by_cases hp : p
  · simp only [if_pos hp]
    exact h.iff (and_iff_right hp).symm
  · simp only [if_neg hp]
    have h : Regular c w known pending t
        (fun b => Lowering.tooMany what >>= fun _ : Unit => g b) ({} ++ d) _ Q :=
      .part (.tooMany what) h
    rw [Demand.empty_append] at h
    exact h.iff (by simp [hp])

theorem orUnsupported {p : Prop} [Decidable p] (construct : Unsupported)
    (h : Regular c w known pending t g d ok Q) :
    Regular c w known pending t
      (fun b => if p then Lowering.unsupported construct >>= fun _ : Unit => g b else g b) d
      (¬ p ∧ ok) Q := by
  by_cases hp : p
  · simp only [if_pos hp]
    have h : Regular c w known pending t
        (fun b => Lowering.unsupported construct >>= fun _ : Unit => g b) ({} ++ d) _ Q :=
      .part (.unsupported construct) h
    rw [Demand.empty_append] at h
    exact h.iff (by simp [hp])
  · simp only [if_neg hp]
    exact h.iff (and_iff_right hp).symm

end Regular

/-! ## Shapes -/

/-- Code that stands on its own: it refers to nothing outside and leaves no label unplaced. -/
def Regulates (c : Setting) (g : Bool → Gen Unit) (x : Tally)
    (ok : Prop) : Prop :=
  ∀ w known pending t, Regular c w known pending t g (x t) ok (.leaves pending)

/-- The code of an assignment target, which tells where the assignment goes. -/
def RegulatesTarget (c : Setting) (g : Bool → Gen Target)
    (x : Tally) (ok : Prop) : Prop :=
  ∀ w known pending t, Regular c w known pending t g (x t) ok
    ⟨fun _ => True, Target.references, fun _ => pending⟩

/-- The code of a list of statements, each with a way out to a label. -/
def RegulatesList (c : Setting) (each : Bool → Label → Gen Unit)
    (x : Tally) (ok : Prop) : Prop :=
  ∀ w known pending t abrupt, MayJump c w known pending abrupt →
    Regular c w known pending t (fun b => each b abrupt) (x t) ok (.leaves pending)

section

variable {c : Setting} {w : Site} {known : List Reference}
  {pending : List Label} {t : Nat} {x y z : Tally} {ok ok' ok'' : Prop}

theorem regular_load (o : Operand)
    (ho : ∀ {index}, o = .temporary index → .temporary index ∈ known) :
    Regular c w known pending t (fun _ => load o) (Tally.operand o t) True
      (.leaves pending) := by
  simp only [load_eq]
  have h : Regular c w known pending t (fun _ => intern o >>= fun i => emit (.load i))
      (Tally.operand o t ++ {}) (True ∧ True) (.leaves pending) := by
    refine .seq (.intern o ho) (fun _ => trivial) fun i => .emit _ ?_
    cases o <;> simp
  rwa [Demand.append_empty, and_true] at h

theorem regulates_loadConstant (value : Constant) :
    Regulates c (fun _ => loadConstant value) (.constant value) True :=
  fun _ _ _ _ => regular_load _ nofun

variable {test body : Bool → Gen Unit} {labels : LabelSet}

theorem regulates_condition (h : Regulates c test x ok) :
    Regulates c (fun b => condition (test b)) x ok :=
  fun _ _ _ _ => (h _ _ _ _).last (.operate rfl rfl)

theorem regular_dropBelow :
    Regular c w known pending t (fun _ => dropBelow) {} True (.leaves pending) :=
  .emits trivial (.emit _ trivial)

theorem regular_read (target : Target) (h : ∀ r ∈ target.references, r ∈ known) :
    Regular c w known pending t (fun _ => target.read) {} True (.leaves pending) := by
  cases target with
  | binding i =>
    exact .emit _ (h _ (.head _))
  | property => exact .emits trivial (.operate rfl rfl)

theorem regular_write (target : Target) (h : ∀ r ∈ target.references, r ∈ known) :
    Regular c w known pending t (fun b => target.write b) {} True (.leaves pending) := by
  cases target with
  | binding i => exact .store (h _ (.tail _ (.head _)))
  | property => exact .put

/-! ### Names and keys -/

theorem regulates_onBinding (name : String) (f : OperandIndex → Instruction)
    (hf : ∀ {w known pending} i, .binding i ∈ known → Fits c w known pending (f i)) :
    Regulates c (fun _ => do emit (f (← binding name))) (.binding name) True := by
  intro w known pending t
  have h : Regular c w known pending t (fun _ => do emit (f (← binding name)))
      (Tally.binding name t ++ {}) True (.leaves pending) :=
    .bound name fun i => .emit (f i) (hf i (by simp))
  rwa [Demand.append_empty] at h

theorem regulates_memberKey {key : Bool → Gen Unit} (computed : Bool) (property : Expr)
    (h : Regulates c key x ok) :
    Regulates c (fun b => memberKey computed property (key b)) (tallyKey computed property x)
      (if computed then ok else property.isIdentifier) := by
  cases computed with
  | true => exact h
  | false =>
    intro w known pending t
    cases property with
    | identifier name =>
      exact (regulates_loadConstant _ _ _ _ _).iff (by simp [Expr.isIdentifier])
    | _ => exact (Regular.unsupported _).iff (by simp [Expr.isIdentifier])

theorem regulates_literalKey (key : Expr) :
    Regulates c (fun _ => do loadConstant (.string (← literalKey key))) (tallyLiteralKey key)
      key.isLiteralKey := by
  intro w known pending t
  cases key with
  | identifier name | string value | number value =>
    exact (regulates_loadConstant _ _ _ _ _).iff (by simp [Expr.isLiteralKey])
  | _ => exact (Regular.unsupported _).iff (by simp [Expr.isLiteralKey])

theorem regular_argumentCount (arguments : List Expr) :
    Regular c w known pending t (fun _ => argumentCount arguments) {}
      (arguments.length ≤ maxArguments)
      ⟨(· = arguments.length), fun _ => [], fun _ => pending⟩ := by
  unfold argumentCount
  split
  · next h =>
    rw [eq_true h]
    exact .pure rfl nofun rfl
  · next h =>
    rw [eq_false h]
    exact .tooMany _

/-! ### Expressions -/

theorem regulates_choice {consequent alternate : Bool → Gen Unit} (ht : Regulates c test x ok)
    (hc : Regulates c consequent y ok') (ha : Regulates c alternate z ok'') :
    Regulates c (fun b => choice (test b) (consequent b) (alternate b)) (x ++ (y ++ z))
      (ok ∧ ok' ∧ ok'') :=
  fun _ _ pending _ => .label fun otherwise => .label fun done =>
    .part (regulates_condition ht _ _ _ _) <| .emits (by simp) <|
    .part (hc _ _ _ _) <| .emits (by simp) <| .places otherwise [done] pending <|
    .last (ha _ _ _ _) <| .place done [] pending

theorem regulates_shortCircuit {left right : Bool → Gen Unit} (op : LogicalOp)
    (hl : Regulates c left x ok) (hr : Regulates c right y ok') :
    Regulates c (fun b => shortCircuit op (left b) (right b)) (x ++ y) (ok ∧ ok') := by
  intro w known pending t
  simp only [shortCircuit_eq]
  refine .label fun done => .part (hl _ _ _ _) <| .emits trivial <| .operates rfl rfl <|
    .emits ?_ <| .emits trivial <| .last (hr _ _ _ _) <| .place done [] pending
  cases op <;> simp [decidingJump]

theorem operand_again (o o' : Operand) :
    Tally.operand o ++ (.operand o' ++ .operand o) = Tally.operand o ++ .operand o' := by
  funext t
  refine Demand.ext rfl ?_ rfl
  show {o.key} ∪ ({o'.key} ∪ {o.key}) = ({o.key} ∪ {o'.key} : Finset OperandKey)
  rw [Finset.union_left_comm, Finset.union_self, Finset.union_comm]

theorem regulates_updateTarget_prefixed {target : Bool → Gen Target} (op : UpdateOp)
    (h : RegulatesTarget c target x ok) :
    Regulates c (fun b => updateTarget b op true (target b))
      (x ++ .constant (.number (Number.ofNat 1))) ok := by
  intro w known pending t
  refine (Regular.seq (h _ _ _ _) (fun _ => trivial) fun target => ?_).iff (and_iff_left trivial)
  refine .quiet (regular_read target ?_) <| .operates rfl rfl <|
    .last (regulates_loadConstant _ _ _ _ _) <|
    .operates (by cases op <;> rfl) (by cases op <;> rfl) <| regular_write target ?_
  all_goals exact fun r hr => List.mem_append_left _ hr

theorem regulates_updateTarget_postfixed {target : Bool → Gen Target} (op : UpdateOp)
    (h : RegulatesTarget c target x ok) :
    Regulates c (fun b => updateTarget b op false (target b))
      (x ++ .allocate 1 fun old =>
        .operand (.temporary old) ++ .constant (.number (Number.ofNat 1))) ok := by
  intro w known pending t
  refine (Regular.seq (h _ _ _ _) (fun _ => trivial) fun target => ?_).iff (and_iff_left trivial)
  refine .quiet (regular_read target fun r hr => List.mem_append_left _ hr) <|
    .operates rfl rfl <| .allocates 1 fun old => ?_
  have hold {index : Nat} (h : Operand.temporary old = .temporary index) :
      .temporary index ∈
        (List.range' old 1).map .temporary ++ (target.references ++ known) := by
    cases h
    simp
  have htarget : ∀ r ∈ target.references, r ∈
      (List.range' old 1).map .temporary ++ (target.references ++ known) :=
    fun r hr => List.mem_append_right _ (List.mem_append_left _ hr)
  show Regular _ _ _ _ _ _ ((Tally.operand _ ++ Tally.operand _) _) _ _
  rw [← operand_again]
  refine .iff (.emits (by simp) <| .part (regular_load _ hold) <|
    .part (regulates_loadConstant _ _ _ _ _) <|
    .operates (by cases op <;> rfl) (by cases op <;> rfl) <|
    .quiet (regular_write target htarget) <| .emits trivial <| regular_load _ hold) ?_
  simp only [and_self]

theorem regulates_assignTarget {target : Bool → Gen Target} {value : Bool → Gen Unit}
    (op : Option BinaryOp) (ht : RegulatesTarget c target x ok)
    (hv : Regulates c value y ok') :
    Regulates c (fun b => assignTarget b op (target b) (value b)) (x ++ y) (ok ∧ ok') := by
  intro w known pending t
  cases op with
  | none =>
    refine .seq (ht _ _ _ _) (fun _ => trivial) fun target =>
      .last (hv _ _ _ _) <| regular_write target ?_
    exact fun r hr => List.mem_append_left _ hr
  | some op =>
    refine .seq (ht _ _ _ _) (fun _ => trivial) fun target => .quiet (regular_read target ?_) <|
      .last (hv _ _ _ _) <| .operates (by cases op <;> rfl) (by cases op <;> rfl) <|
      regular_write target ?_
    all_goals exact fun r hr => List.mem_append_left _ hr

/-! ### Bodies -/

theorem regulates_statementList_nil (each : Bool → Label → Gen Unit) :
    Regulates c (fun b => statementList [] (each b)) .nothing True :=
  fun _ _ _ _ => .emits trivial (.pure trivial nofun rfl)

theorem regulates_statementList_cons {each : Bool → Label → Gen Unit} (s : Stmt) (ss : List Stmt)
    (h : RegulatesList c each x ok) :
    Regulates c (fun b => statementList (s :: ss) (each b)) x ok := by
  intro w known pending t
  exact .emits trivial <| .label fun abrupt => .label fun done =>
    .last (h _ _ _ _ _ (by simp)) <| .emits (by simp) <| .places abrupt [done] pending <|
    .quiet regular_dropBelow <| .place done [] pending

theorem regular_inList {statement : Bool → Gen Unit} {abrupt : Label}
    (habrupt : MayJump c w known pending abrupt) (h : Regulates c statement x ok) :
    Regular c w known pending t (fun b => inList abrupt (statement b)) (x t) ok
      (.leaves pending) :=
  .last (h _ _ _ _) <| .emits habrupt <| .emit _ trivial

theorem regulates_declareVariables (names : List String) :
    Regulates c (fun _ => declareVariables names) (.bindings names) True := by
  induction names with
  | nil => exact fun _ _ _ _ => .pure trivial nofun rfl
  | cons name names ih =>
    intro w known pending t
    exact .iff (.part (regulates_onBinding name .declareVariable (fun _ hi => hi) _ _ _ _)
      (ih _ _ _ _)) and_self_iff

theorem regular_hoisted (body : List Stmt) :
    Regular c w known pending t (fun _ => hoisted body) {}
      (∃ h, Hoisted.collect body = .ok h)
      ⟨(Hoisted.collect body = .ok ·), fun _ => [], fun _ => pending⟩ := by
  cases hcollect : Hoisted.collect body with
  | ok h =>
    have hpure : hoisted body = pure h := by
      unfold hoisted
      rw [hcollect]
    rw [hpure]
    exact .iff (.pure rfl nofun rfl) (iff_of_true trivial ⟨h, rfl⟩)
  | error e =>
    have hrefused : hoisted body = unsupported .namelessFunction := by
      unfold hoisted
      rw [hcollect]
    rw [hrefused]
    exact .iff (.unsupported _) (iff_of_false id nofun)

theorem regulates_declaringBody {body : List Stmt} {functions statements : Bool → Gen Unit}
    (hnames : ok → ∃ h, Hoisted.collect body = .ok h) (hf : Regulates c functions x ok)
    (hs : Regulates c statements y ok') :
    Regulates c (fun b => declaringBody body (functions b) (statements b))
      (x ++ (tallyVariables body ++ y)) (ok ∧ ok') := by
  intro w known pending t
  have h : Regular c w known pending t
      (fun b => declaringBody body (functions b) (statements b))
      ({} ++ (x ++ (tallyVariables body ++ y)) t)
      ((∃ h, Hoisted.collect body = .ok h) ∧ ok ∧ True ∧ ok') (.leaves pending) := by
    refine .bind (regular_hoisted body) (fun h => .part (hf _ _ _ _) <|
      .part (regulates_declareVariables h.vars _ _ _ _) (hs _ _ _ _)) fun h hh => ⟨?_, rfl⟩
    have hvars : tallyVariables body = .bindings h.vars := by
      unfold tallyVariables
      rw [hh]
    rw [hvars]
    rfl
  rw [Demand.empty_append] at h
  exact h.iff ⟨fun ⟨_, h, _, h'⟩ => ⟨h, h'⟩, fun ⟨h, h'⟩ => ⟨hnames h, h, trivial, h'⟩⟩

/-! ### Loops -/

theorem regular_iteration {next done : Label} (hloud : c.loud)
    (hnext : MayJump c w known pending next) (hdone : MayJump c w known pending done)
    (h : Regulates c body x ok) :
    Regular c w known pending t (fun b => iteration labels (body b) next done) (x t) ok
      (.leaves pending) :=
  .last (h _ _ _ _) <| .label fun broken => .label fun continued => .label fun abrupt =>
    .emits (by simp [hloud]) <| .emits (by simp [hloud]) <| .emits (by simp) <|
    .places continued [abrupt] (broken :: pending) <| .emits trivial <|
    .emits (by grind [Fits, MayJump]) <|
    .places broken [abrupt] pending <| .emits trivial <|
    .emits (by grind [Fits, MayJump]) <|
    .places abrupt [] pending <| .quiet regular_dropBelow <|
    .emit _ (by grind [Fits, MayJump])

theorem regulates_whileLoop (hloud : c.loud) (hloops : c.terrain.loops) (ht : Regulates c test x ok)
    (hb : Regulates c body y ok') :
    Regulates c (fun b => whileLoop labels (test b) (body b)) (x ++ y) (ok ∧ ok') :=
  fun _ _ pending _ => .label fun again => .label fun done =>
    .emits trivial <| .places again [done] pending <|
    .part (regulates_condition ht _ _ _ _) <| .emits (by simp) <|
    .last (regular_iteration hloud (by simp [hloops]) (by simp) hb) <| .place done [] pending

theorem regulates_doWhileLoop (hloud : c.loud) (hloops : c.terrain.loops)
    (hb : Regulates c body x ok) (ht : Regulates c test y ok') :
    Regulates c (fun b => doWhileLoop labels (body b) (test b)) (x ++ y) (ok ∧ ok') :=
  fun _ _ pending _ => .label fun top => .label fun again => .label fun done =>
    .emits trivial <| .places top [done, again] pending <|
    .part (regular_iteration hloud (by simp) (by simp) hb) <| .places again [done] pending <|
    .last (regulates_condition ht _ _ _ _) <| .emits (by simp [hloops]) <| .place done [] pending

theorem regular_forTest {done : Label} (hdone : MayJump c w known pending done)
    (h : Regulates c test x ok) :
    Regular c w known pending t (fun b => forTest done (some (test b))) (x t) ok
      (.leaves pending) :=
  .last (regulates_condition h _ _ _ _) <| .emit _ hdone

theorem regulates_forLoop {init update : Bool → Gen Unit} {test : Bool → Option (Gen Unit)}
    {v : Tally} {okUpdate : Prop} (hloud : c.loud) (hloops : c.terrain.loops)
    (hi : Regulates c init x ok) (ht : RegulatesList c (fun b l => forTest l (test b)) y ok')
    (hb : Regulates c body z ok'') (hu : Regulates c update v okUpdate) :
    Regulates c (fun b => forLoop labels (init b) (test b) (update b) (body b))
      (x ++ (y ++ (z ++ v))) (ok ∧ ok' ∧ ok'' ∧ okUpdate) := by
  intro w known pending t
  simp only [forLoop_eq]
  exact .label fun again => .label fun next => .label fun done =>
    .part (hi _ _ _ _) <| .emits trivial <| .places again [done, next] pending <|
    .part (ht _ _ _ _ _ (by simp)) <| .part (regular_iteration hloud (by simp) (by simp) hb) <|
    .places next [done] pending <| .last (hu _ _ _ _) <| .emits (by simp [hloops]) <|
    .place done [] pending

theorem regular_declaredName (declarators : List Declarator) :
    Regular c w known pending t (fun _ => declaredName declarators) {}
      (declarators.length = 1)
      ⟨fun name => ∃ init, declarators = [.mk name init], fun _ => [], fun _ => pending⟩ := by
  rcases declarators with _ | ⟨⟨name, init⟩, _ | ⟨d, ds⟩⟩
  · exact .iff (.unsupported _) (by simp)
  · exact .iff (.pure ⟨init, rfl⟩ nofun rfl) (by simp)
  · exact .iff (.unsupported _) (by simp)

theorem regulates_declaredHead {declarators : List Declarator} {initializers : Bool → Gen Unit}
    (h : Regulates c initializers x ok) :
    Regulates c (fun b => declaredHead declarators (initializers b))
      (x ++ tallyDeclared declarators) (declarators.length = 1 ∧ ok) := by
  intro w known pending t
  have h : Regular c w known pending t
      (fun b => declaredHead declarators (initializers b))
      ({} ++ (x ++ tallyDeclared declarators) t) (declarators.length = 1 ∧ ok ∧ True)
      (.leaves pending) := by
    have hbound (name : String) : Regulates c (fun _ => discard (binding name))
        (.binding name) True := fun w known pending t => by
      have h : Regular c w known pending t (fun _ => binding name >>= fun _ => pure ())
          (Tally.binding name t ++ {}) True (.leaves pending) :=
        .bound name fun _ => .pure trivial nofun rfl
      rwa [Demand.append_empty] at h
    refine .bind (regular_declaredName declarators)
      (fun name => .part (h _ _ _ _) (hbound name _ _ _ _)) ?_
    rintro name ⟨init, rfl⟩
    exact ⟨rfl, rfl⟩
  rwa [Demand.empty_append, and_true] at h

theorem regulates_declaredTarget (declarators : List Declarator) :
    RegulatesTarget c (fun _ => declaredTarget declarators) (tallyDeclared declarators)
      (declarators.length = 1) := by
  intro w known pending t
  have h : Regular c w known pending t (fun _ => declaredTarget declarators)
      ({} ++ tallyDeclared declarators t) (declarators.length = 1 ∧ True)
      ⟨fun _ => True, Target.references, fun _ => pending⟩ := by
    refine .bind (regular_declaredName declarators)
      (fun name => .bound name fun i => .pure trivial (by simp) rfl) ?_
    rintro name ⟨init, rfl⟩
    exact ⟨by rfl, rfl⟩
  rwa [Demand.empty_append, and_true] at h

theorem regulates_forInLoop {head right : Bool → Gen Unit} {target : Bool → Gen Target}
    {okBody : Prop} {v : Tally} (hloud : c.loud) (hh : Regulates c head x ok)
    (hr : Regulates c right y ok') (ht : RegulatesTarget c target z ok'')
    (hb : Regulates c body v.nested okBody) :
    Regulates c
      (fun b => forInLoop b labels (head b) (right b) (target b) (body b))
      (tallyForIn x y z v) (ok ∧ ok' ∧ ok'' ∧ okBody) := by
  intro w known pending t
  have hloop (b : Bool) : forInLoop b labels (head b) (right b) (target b) (body b) = (do
      let next ← newLabel
      let done ← newLabel
      let keys ← allocate 4
      (do
        head b
        emit .normal
        listKeys (right b) keys)
      place next
      emit (.forInStep keys done)
      (do
        emit (.storeTemp (keys + 3))
        let target ← target b
        load (.temporary (keys + 3))
        target.write b
        emit .pop
        iteration labels (body b) next done)
      place done) := by
    simp only [forInLoop, listKeys, bind_assoc]
  simp only [hloop]
  let before : Tally := x ++ (y ++ .constant (.number (Number.ofNat 0)))
  let after (keys : Nat) : Tally := z ++ (.operand (.temporary (keys + 3)) ++ v.nested)
  have hdemand : tallyForIn x y z v t =
      { temps := 4 } ++ (before (t + 4) ++ after t (t + 4 + (before (t + 4)).temps)) := by
    show { temps := 4 } ++ (x ++ (y ++ (_ ++ after t)) : Tally) (t + 4) = _
    rw [← Tally.append_assoc y, ← Tally.append_assoc x]
    rfl
  rw [hdemand]
  refine .label fun next => .label fun done => .iff
    (@Regular.enumeration _ _ _ _ _ next done _ _ (fun _ => before (t + 4))
      (fun keys => after keys _) (ok ∧ ok') (ok'' ∧ okBody) (by simp)
      (fun keys => ?_) fun keys => ?_) and_assoc
  · exact .part (hh _ _ _ _) <| .emits trivial <| .iff (.part (hr _ _ _ _) <| .emits trivial <|
      .emits (by simp) <| .operates rfl rfl <| .emits (by simp) <|
      .last (regulates_loadConstant _ _ _ _ _) <| .emit _ (by simp)) (and_iff_left trivial)
  · refine .emits (by simp) <| .seq (ht _ _ _ _) (fun _ => trivial) fun target =>
      .iff (.part (regular_load _ ?_) <|
      .quiet (regular_write target ?_) <| .emits trivial <| regular_iteration hloud ?_ ?_ hb)
      (and_iff_right trivial)
    · simp
    · exact fun r hr => List.mem_append_left _ hr
    · simp
    · simp

/-! ### `switch` and `try` -/

theorem regular_endSwitch {abrupt broken done : Label} (hloud : c.loud)
    (hbroken : .label broken ∈ known) (hdone : .label done ∈ known) :
    Regular c w known (done :: broken :: abrupt :: pending) t
      (fun _ => endSwitch labels abrupt broken done) {} True (.leaves pending) :=
  .places abrupt [done, broken] pending <|
    .emits (by simp [hloud, hbroken]) <| .quiet regular_dropBelow <|
    .emits (by simp [hdone]) <|
    .places broken [done] pending <| .emits trivial <| .place done [] pending

theorem regulates_switchClauses {count : Nat} {discriminant : Bool → Gen Unit}
    {tests : Bool → Nat → Label → Gen (Option Label)} {bodies : Bool → Label → Label → Gen Unit}
    {y : Nat → Tally} (hloud : c.loud) (hd : Regulates c discriminant x ok)
    (ht : ∀ {w known pending t subject first}, .temporary subject ∈ known →
      (∀ l ∈ List.range' first count, .label l ∈ known ∧ l ∈ pending) →
      Regular c w known pending t (fun b => tests b subject first) (y subject t) ok'
        ⟨fun default => ∀ l ∈ default, l ∈ pending, fun default => default.toList.map .label,
          fun _ => pending⟩)
    (hb : ∀ {w known pending t abrupt first}, MayJump c w known pending abrupt →
      Regular c w known (List.range' first count ++ pending) t
        (fun b => bodies b abrupt first) (z t) ok'' (.leaves pending)) :
    Regulates c
      (fun b => switchClauses labels count (discriminant b) (tests b) (bodies b))
      (.allocate 1 fun subject => x ++ (y subject ++ z)) (ok ∧ ok' ∧ ok'') := by
  intro w known pending t
  refine .label fun abrupt => .label fun broken => .label fun done => .labels count fun first =>
    .allocates 1 fun subject => .part (hd _ _ _ _) <| .emits (by simp) <| .emits trivial ?_
  refine .bind (ht ?_ fun l hl => ?_) (fun default => ?_) fun _ _ => ⟨rfl, rfl⟩
  · simp
  · simp only [List.mem_append, List.mem_map, Reference.label.injEq, exists_eq_right]
    exact ⟨.inr (.inl hl), .inl hl⟩
  · refine .emits ?_ <| .last (hb ?_) <| .emits (by simp) <| regular_endSwitch hloud ?_ ?_
    · cases default with
      | none => simp
      | some l =>
        exact ⟨by simp, .inr ((Classical.em _).elim (fun h => .inr (.inr (h l rfl))) fun h =>
          .inl (.inr h))⟩
    all_goals simp

theorem regular_caseTest {subject : Nat} {clause : Label} (hsubject : .temporary subject ∈ known)
    (hclause : MayJump c w known pending clause) (h : Regulates c test x ok) :
    Regular c w known pending t (fun b => caseTest subject (test b) clause)
      ((.operand (.temporary subject) ++ x : Tally) t) ok (.leaves pending) := by
  refine .iff (.part (regular_load _ ?_) <| .last (h _ _ _ _) <| .operates rfl rfl <|
    .emit _ hclause) (and_iff_right trivial)
  rintro _ ⟨⟩
  exact hsubject

theorem regular_caseBody {clause abrupt : Label} (habrupt : MayJump c w known pending abrupt)
    (h : Regulates c body x ok) :
    Regular c w known (clause :: pending) t (fun b => caseBody clause abrupt (body b)) (x t)
      ok (.leaves pending) :=
  .places clause [] pending <| .last (h _ _ _ _) <| .emits habrupt <| .emit _ trivial

theorem regulates_catchThrown {handler : Bool → Gen Unit} (param : String)
    (h : Regulates c handler x ok) :
    Regulates c (fun b => catchThrown param (handler b)) (.binding param ++ x) ok :=
  fun _ _ pending _ => .label fun after => .emits (by simp) <| .emits trivial <|
    .bound param fun _ => .emits (by simp) <| .last (h _ _ _ _) <| .emits trivial <|
    .place after [] pending

theorem regulates_withFinalizer {finalizer : Bool → Gen Unit} (h : Regulates c finalizer x ok) :
    Regulates c (fun b => withFinalizer (finalizer b)) x ok :=
  fun _ _ pending _ => .label fun override => .label fun done => .last (h _ _ _ _) <|
    .emits (by simp) <| .emits trivial <| .emits (by simp) <|
    .places override [done] pending <| .quiet regular_dropBelow <| .place done [] pending

theorem regulates_invoke {role : Role} (source : Body) (hloud : c.loud)
    (hrole : isDeclaring role = false) (hsource : c.Stands source.part)
    (h : Regulates c.inUnit (fun b => source.gen b) x ok) :
    Regulates c (fun b => invoke role b (source.gen b)) x.nested ok :=
  fun _ _ _ _ => .invoke hloud hrole hsource (h {} [] [] 0)

end

/-! ## What follows -/

theorem Fits.nests {c : Setting} {w : Site} {known : List Reference} {pending : List Label}
    {i : Instruction} (h : Fits c w known pending i) : i.nests = false := by
  cases i <;> first | rfl | cases h

theorem Fits.references {c : Setting} {w : Site} {known : List Reference} {pending : List Label}
    {i : Instruction} (h : Fits c w known pending i) : ∀ r ∈ i.references, r ∈ known := by
  cases i <;> simp_all

/-- What a unit is compiled from: a part that stands in the terrain, the whole program or a function
if the unit has declarations of its own. -/
def Terrain.Sources (T : Terrain) (main : List Stmt) (role : Role) (strict : Bool) (g : Gen Unit) :
    Prop :=
  ∃ fs, ∃ source : Body, ∃ d ok, T.stands fs source.part ∧
    Regular ⟨T, fs, True⟩ {} [] [] 0 (fun b => source.gen b) d ok (.leaves []) ∧
    strict = strictIn T.top fs ∧ g = source.gen strict ∧
    (isDeclaring role = true → fs = [] ∧ source = .declaring main ∨
      ∃ f fs', T.stands fs' (.function f) ∧ fs = f :: fs' ∧ source = .declaring f.body)

theorem Setting.strict_inFunction (c : Setting) (f : FunctionDef) :
    (c.inFunction f).strict = (c.strict || f.strict) :=
  strictIn_cons c.terrain.top f c.fs

namespace Regular

variable {c : Setting} {w : Site} {known : List Reference} {pending : List Label} {t : Nat}
  {α : Type} {g : Bool → Gen α} {d : Demand} {ok : Prop} {Q : Result α}

theorem is (h : Regular c w known pending t g d ok Q) {s s' : Stage} {x : α}
    (hy : Yields (g c.strict) s x s') : Q.is x := by
  induction h generalizing s s' with
  | pure his =>
    obtain ⟨rfl, -⟩ := yields_pure.mp hy
    exact his
  | bind _ _ _ _ ihf =>
    obtain ⟨y, s1, -, hf⟩ := yields_bind.mp hy
    exact ihf y hf
  | temporaries count _ ih =>
    obtain ⟨first, s1, -, hf⟩ := yields_bind.mp hy
    exact ih first hf
  | unsupported construct => exact absurd hy not_yields_unsupported
  | tooMany what => exact absurd hy not_yields_tooMany
  | _ => trivial

theorem formed (h : Regular c w known pending t g d ok Q) :
    Formed known pending t (g c.strict) d ok Q := by
  induction h with
  | pure his hknown hpending => exact .pure his hknown hpending
  | bind _ _ heq ihg ihf =>
    refine .bind ihg fun x hx => ?_
    rw [← (heq x hx).1, ← (heq x hx).2]
    exact ihf x
  | emit i hi => exact .emit i hi.nests hi.references
  | store hi => exact .emit _ rfl (by simpa using hi)
  | newLabels count => exact .newLabels count
  | place l before after => exact .place l before after
  | intern o ho => exact .intern o ho
  | @temporaries c _ known pending t _ f d ok Q count _ ih =>
    have h : Formed known pending t (allocate count >>= f c.strict) ({ temps := count } ++ d t)
        (True ∧ ok) Q :=
      .bind (.allocate count) fun first hfirst => hfirst ▸ ih first
    rwa [true_and] at h
  | @enumeration c _ known pending t next done setup each d d' ok ok' hdone _ _ ihs ihe =>
    have hstep : ∀ r ∈ (Instruction.forInStep t done).references,
        r ∈ (List.range' t 4).map .temporary ++ known := by
      simp [List.range', hdone]
    have h : Formed known (done :: next :: pending) t _
        ({ temps := 4 } ++ (d t ++ ({} ++ ({} ++ (d' t ++ {})))))
        (True ∧ ok ∧ True ∧ True ∧ ok' ∧ True) (.leaves pending) :=
      .bind (f := fun keys => do
        setup c.strict keys
        Lowering.place next
        Lowering.emit (.forInStep keys done)
        each c.strict keys
        Lowering.place done) (.allocate 4) <| by
      rintro _ rfl
      exact .bind (ihs _) fun _ _ => .bind (.place next [done] pending) fun _ _ =>
        .bind (.emit _ rfl hstep) fun _ _ => .bind (ihe _) fun _ _ => .place done [] pending
    simpa only [Demand.append_empty, Demand.empty_append, and_true, true_and] using h
  | operate harity _ => exact .operate harity
  | put | delete => exact .operate rfl
  | invoke _ _ _ _ ih => exact .invoke ih
  | @closure c _ _ _ _ f _ _ _ _ _ ih =>
    rw [c.strict_inFunction f] at ih
    exact .closure ih
  | unsupported construct => exact .unsupported construct
  | tooMany what => exact .tooMany what

theorem built (h : Regular c w known pending t g d ok Q) (main : List Stmt) :
    Built (c.terrain.Sources main) (g c.strict) := by
  induction h with
  | pure => exact .pure _
  | bind _ _ _ ihg ihf => exact .bind ihg ihf
  | emit | store => exact .emit _
  | newLabels count => exact .newLabels count
  | place l => exact .place l
  | intern o => exact .intern o
  | temporaries count _ ih => exact .bind (.allocate count) ih
  | enumeration _ _ _ ihs ihe =>
    exact .bind (.allocate 4) fun keys => .bind (ihs keys) fun _ => .bind (.place _) fun _ =>
      .bind (.emit _) fun _ => .bind (ihe keys) fun _ => .place _
  | operate | put | delete => exact .operate _ _
  | invoke _ hrole hsource hbody ih =>
    exact built_invoke
      ⟨_, _, _, _, hsource, hbody, rfl, rfl, fun h => absurd h (by simp [hrole])⟩ ih
  | @closure c _ _ _ _ f _ _ _ hf hbody ih =>
    rw [c.strict_inFunction f] at ih
    refine .bind (.inUnit ?_ ih) fun _ => .bind (.addFunction _) fun _ => .emit _
    exact ⟨_, _, _, _, c.terrain.inside hf, hbody, (c.strict_inFunction f).symm, rfl,
      fun _ => .inr ⟨f, _, hf, rfl, rfl⟩⟩
  | unsupported construct => exact .unsupported construct
  | tooMany what => exact .tooMany what

theorem composed (h : Regular c w known pending t g d ok Q) : Composed (g c.strict) :=
  (h.built []).composed

end Regular

end Lowering

end TreeScript
