import TreeScript.Proofs.Lowering.Built
import TreeScript.Proofs.Lowering.Demand
import TreeScript.Proofs.Syntax.Nodes

/-!
# Code that refers only to what is there

`Formed` is a judgement on code generation, with a rule for each of the steps that it is made of.  A
label has to be made before code can jump to it and is placed once; an operand is used through the
index it was given, a temporary after it was taken; a unit is invoked where it is compiled, and a
function is made into a closure where it is listed.  The judgement also says what the code takes up
and whether it can be generated at all.  What holds of all compiled code follows from it by
induction.
-/

namespace TreeScript

namespace Code

/-- What an instruction can refer to in its unit. -/
inductive Reference where
  | label (l : Label)
  | operand (i : OperandIndex)
  | binding (i : OperandIndex)
  | temporary (index : Nat)

namespace Instruction

@[simp]
def references : Instruction → List Reference
  | load i => [.operand i]
  | store i _ | typeOfVariable i | deleteVariable i | declareVariable i | initializeBinding i
  | enterCatch i => [.binding i]
  | storeTemp index => [.temporary index]
  | forInStep keys l =>
    [.temporary keys, .temporary (keys + 1), .temporary (keys + 2), .temporary (keys + 3), .label l]
  | jump l | jumpIfFalse l | jumpIfTrue l | jumpIfAbrupt l | jumpIfKind _ l | jumpUnlessKind _ l
  | jumpIfBreaksHere _ l | jumpIfContinuesHere _ l => [.label l]
  | _ => []

def nests : Instruction → Bool
  | invoke _ | makeClosure _ => true
  | _ => false

end Instruction

@[simp]
def Operand.references (i : OperandIndex) : Operand → List Reference
  | binding _ => [.operand i, .binding i]
  | _ => [.operand i]

end Code

namespace Lowering

open Code Syntax

def closure (strict : Bool) (name : Option String) (params : List String) (selfBinding : Bool)
    (source : Body) : Gen Unit := do
  let unit ← inUnit .function strict (source.gen strict)
  let id ← addFunction { unit, name, params, strict, selfBinding }
  emit (.makeClosure id)

/-- What is the case when code generation is done, given its result. -/
structure Result (α : Type) where
  is : α → Prop
  known : α → List Reference
  pending : α → List Label

/-- Code generation with nothing to tell but which labels are still to be placed. -/
def Result.leaves {α : Type} (pending : List Label) : Result α :=
  ⟨fun _ => True, fun _ => [], fun _ => pending⟩

/-- `Formed known pending t g d ok Q`: when `known` is there to refer to, the labels `pending` are
still to be placed and `t` temporaries are taken, then the code of `g` is well put together.  It
takes up `d`, can be generated only if `ok`, and `Q` holds when it is. -/
inductive Formed : List Reference → List Label → Nat → {α : Type} → Gen α → Demand → Prop →
    Result α → Prop where
  | pure {known pending t} {α : Type} {x : α} {Q : Result α} (his : Q.is x)
    (hknown : ∀ r ∈ Q.known x, r ∈ known) (hpending : Q.pending x = pending) :
    Formed known pending t (pure x) {} True Q
  | bind {known pending t} {α β : Type} {g : Gen β} {f : β → Gen α} {d d' : Demand} {ok ok' : Prop}
    {Q : Result β} {Q' : Result α} :
    Formed known pending t g d ok Q →
    (∀ x, Q.is x → Formed (Q.known x ++ known) (Q.pending x) (t + d.temps) (f x) d' ok' Q') →
    Formed known pending t (g >>= f) (d ++ d') (ok ∧ ok') Q'
  | emit {known pending t} (i : Instruction) (hnests : i.nests = false)
    (hrefs : ∀ r ∈ i.references, r ∈ known) :
    Formed known pending t (emit i) {} True (.leaves pending)
  | newLabels {known pending t} (count : Nat) :
    Formed known pending t (newLabels count) {} True
      ⟨fun _ => True, fun l => (List.range' l count).map .label,
        fun l => List.range' l count ++ pending⟩
  | place {known t} (l : Label) (before after : List Label) :
    Formed known (before ++ l :: after) t (place l) {} True (.leaves (before ++ after))
  | intern {known pending t} (o : Operand)
    (ho : ∀ {index}, o = .temporary index → .temporary index ∈ known) :
    Formed known pending t (intern o) { operands := {o.key} } True
      ⟨fun _ => True, fun i => o.references i, fun _ => pending⟩
  | allocate {known pending t} (count : Nat) :
    Formed known pending t (allocate count) { temps := count } True
      ⟨(· = t), fun first => (List.range' first count).map .temporary, fun _ => pending⟩
  | operate {known pending t} {op : Operation} {supplied : Nat} (harity : op.arity = supplied) :
    Formed known pending t (operate op supplied) {} True (.leaves pending)
  | invoke {known pending t} {role : Role} {strict : Bool} {source : Body} {d : Demand}
    {ok : Prop} :
    Formed [] [] 0 (source.gen strict) d ok (.leaves []) →
    Formed known pending t (invoke role strict (source.gen strict)) d.nested ok (.leaves pending)
  | closure {known pending t} {strict : Bool} {name : Option String} {params : List String}
    {selfBinding : Bool} {source : Body} {d : Demand} {ok : Prop} :
    Formed [] [] 0 (source.gen strict) d ok (.leaves []) →
    Formed known pending t (closure strict name params selfBinding source) d.nested ok
      (.leaves pending)
  | unsupported {known pending t} {α : Type} {d : Demand} {Q : Result α} (construct : Unsupported) :
    Formed known pending t (unsupported construct : Gen α) d False Q
  | tooMany {known pending t} {α : Type} {d : Demand} {Q : Result α} (what : Numbered) :
    Formed known pending t (tooMany what : Gen α) d False Q

@[simp]
def Target.references : Target → List Reference
  | binding i => [.operand i, .binding i]
  | property => []

end Lowering

end TreeScript
