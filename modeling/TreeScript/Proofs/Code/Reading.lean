import TreeScript.Code.Decoding
import TreeScript.Proofs.Lowering.Acceptance
import TreeScript.Proofs.Syntax.Reading

/-!
# Artifacts are read back as they were written

The numbers in an artifact stand for machine words.  `inWords` says that they fit: operands,
temporaries and arguments are counted in 16 bits, labels, units, functions and elements in 32, and
offsets in 64.
-/

namespace TreeScript.Code

open Json

/-! ## Numbers that fit their words -/

def inWord16 (n : Nat) : Bool := n < 0x10000

def inWord32 (n : Nat) : Bool := n < 0x100000000

def inWord64 (n : Nat) : Bool := n < 0x10000000000000000

def Operand.inWords : Operand → Bool
  | temporary index => inWord16 index
  | _ => true

def Operation.inWords : Operation → Bool
  | newArray length => inWord32 length
  | call argc | construct argc => inWord16 argc
  | _ => true

def Instruction.inWords : Instruction → Bool
  | load n | store n _ | storeTemp n | typeOfVariable n | deleteVariable n | declareVariable n
  | initializeBinding n | enterCatch n => inWord16 n
  | makeClosure n | jump n | jumpIfFalse n | jumpIfTrue n | invoke n | jumpIfAbrupt n
  | jumpIfKind _ n | jumpUnlessKind _ n | jumpIfBreaksHere _ n | jumpIfContinuesHere _ n =>
    inWord32 n
  | forInStep keys exhausted => inWord16 keys && inWord32 exhausted
  | operate op => op.inWords
  | _ => true

def CodeUnit.inWords (u : CodeUnit) : Bool :=
  u.instructions.toList.all Instruction.inWords && u.operands.toList.all Operand.inWords &&
    u.labels.toList.all inWord64 && inWord16 u.tempCount

def Artifact.inWords (a : Artifact) : Bool :=
  inWord32 a.entry && a.units.toList.all CodeUnit.inWords &&
    a.functions.toList.all fun f => inWord32 f.unit

def CodeUnit.Finite (u : CodeUnit) : Prop :=
  ∀ x, .constant (.number x) ∈ u.operands → x.isFinite = true

theorem index16?_nat {n : Nat} (h : inWord16 n = true) : index16? (nat n) = some n :=
  natBelow?_nat (of_decide_eq_true h)

theorem index32?_nat {n : Nat} (h : inWord32 n = true) : index32? (nat n) = some n :=
  natBelow?_nat (of_decide_eq_true h)

theorem index64?_nat {n : Nat} (h : inWord64 n = true) : index64? (nat n) = some n :=
  natBelow?_nat (of_decide_eq_true h)

/-! ## Operands and instructions -/

theorem Operand.decode?_encode {o : Operand} (hw : o.inWords = true)
    (hf : ∀ x, o = .constant (.number x) → x.isFinite = true) : decode? o.encode = some o := by
  cases o with
  | constant c =>
    cases c with
    | number x =>
      exact (read_map Operand.constant (read_map Constant.number (float?_number (hf x rfl))) :)
    | _ => rfl
  | binding name => rfl
  | temporary index => exact (read_map Operand.temporary (index16?_nat hw) :)

theorem Operation.decode?_encode {op : Operation} (h : op.inWords = true) :
    decode? op.encode = some op := by
  cases op with
  | newArray length => exact (read_map Operation.newArray (index32?_nat h) :)
  | call argc => exact (read_map Operation.call (index16?_nat h) :)
  | construct argc => exact (read_map Operation.construct (index16?_nat h) :)
  | _ => rfl

theorem CompletionKind.decode?_tag (kind : CompletionKind) :
    decode? (.str kind.tag) = some kind := by
  cases kind <;> rfl

theorem LabelSet.decode?_encode (labels : LabelSet) : decode? labels.encode = some labels :=
  (read_one LabelSet.mk (list?_strings labels.names) :)

theorem nullable?_str (s : Option String) :
    nullable? str? (Json.option Json.str s) = some s := by
  cases s <;> rfl

theorem Instruction.decode?_encode {i : Instruction} (h : i.inWords = true) :
    decode? i.encode = some i := by
  cases i with
  | load n => exact (read_map load (index16?_nat h) :)
  | store n strict =>
    exact (read_two store (index16?_nat h) (rfl : bool? (.bool strict) = some strict) :)
  | storeTemp n => exact (read_map storeTemp (index16?_nat h) :)
  | typeOfVariable n => exact (read_map typeOfVariable (index16?_nat h) :)
  | deleteVariable n => exact (read_map deleteVariable (index16?_nat h) :)
  | declareVariable n => exact (read_map declareVariable (index16?_nat h) :)
  | initializeBinding n => exact (read_map initializeBinding (index16?_nat h) :)
  | enterCatch n => exact (read_map enterCatch (index16?_nat h) :)
  | makeClosure n => exact (read_map makeClosure (index32?_nat h) :)
  | jump n => exact (read_map jump (index32?_nat h) :)
  | jumpIfFalse n => exact (read_map jumpIfFalse (index32?_nat h) :)
  | jumpIfTrue n => exact (read_map jumpIfTrue (index32?_nat h) :)
  | invoke n => exact (read_map invoke (index32?_nat h) :)
  | jumpIfAbrupt n => exact (read_map jumpIfAbrupt (index32?_nat h) :)
  | jumpIfKind kind n => exact (read_two jumpIfKind kind.decode?_tag (index32?_nat h) :)
  | jumpUnlessKind kind n => exact (read_two jumpUnlessKind kind.decode?_tag (index32?_nat h) :)
  | jumpIfBreaksHere labels n =>
    exact (read_two jumpIfBreaksHere labels.decode?_encode (index32?_nat h) :)
  | jumpIfContinuesHere labels n =>
    exact (read_two jumpIfContinuesHere labels.decode?_encode (index32?_nat h) :)
  | forInStep keys n =>
    obtain ⟨hkeys, hn⟩ := (Bool.and_eq_true_iff ..).mp h
    exact (read_two forInStep (index16?_nat hkeys) (index32?_nat hn) :)
  | operate op => exact (read_map operate (Operation.decode?_encode h) :)
  | breakTo target => exact (read_map breakTo (nullable?_str target) :)
  | continueTo target => exact (read_map continueTo (nullable?_str target) :)
  | consumeBreak labels => exact (read_map consumeBreak labels.decode?_encode :)
  | _ => rfl

/-! ## Units, functions, artifacts -/

theorem Role.decode?_tag (role : Role) : decode? (.str role.tag) = some role :=
  role.ofTag?_tag

theorem CodeUnit.decode?_encode {u : CodeUnit} (hw : u.inWords = true) (hf : u.Finite) :
    decode? u.encode = some u := by
  simp only [inWords, Bool.and_eq_true, List.all_eq_true] at hw
  obtain ⟨⟨⟨hi, ho⟩, hl⟩, ht⟩ := hw
  have hinstructions := list?_map fun i hmem => Instruction.decode?_encode (hi i hmem)
  have hoperands := list?_map fun o hmem => Operand.decode?_encode (ho o hmem) fun x hx =>
    hf x (Array.mem_def.mpr (hx ▸ hmem))
  have hlabels := list?_map fun n hmem => index64?_nat (hl n hmem)
  have htemps := index16?_nat ht
  have hrole := u.role.decode?_tag
  show (do
    return CodeUnit.mk u.name (← Role.decode? (.str u.role.tag)) u.strict
      (← list? Instruction.decode? (.arr (u.instructions.toList.map Instruction.encode))).toArray
      (← list? Operand.decode? (.arr (u.operands.toList.map Operand.encode))).toArray
      (← list? index64? (.arr (u.labels.toList.map nat))).toArray
      (← index16? (nat u.tempCount))) = _
  rw [hrole, hinstructions, hoperands, hlabels, htemps]
  rfl

theorem FunctionInfo.decode?_encode {f : FunctionInfo} (h : inWord32 f.unit = true) :
    decode? f.encode = some f := by
  have hunit := index32?_nat h
  have hname := nullable?_str f.name
  have hparams := list?_strings f.params
  show (do
    return FunctionInfo.mk (← index32? (nat f.unit))
      (← nullable? str? (Json.option Json.str f.name)) (← list? str? (strings f.params)) f.strict
      f.selfBinding) = _
  rw [hunit, hname, hparams]
  rfl

theorem Artifact.decode?_encode {a : Artifact} (hw : a.inWords = true)
    (hf : ∀ u ∈ a.units, u.Finite) : decode? a.encode = some a := by
  simp only [inWords, Bool.and_eq_true, List.all_eq_true] at hw
  obtain ⟨⟨he, hu⟩, hfs⟩ := hw
  have hunits := list?_map fun u hmem => CodeUnit.decode?_encode (hu u hmem)
    (hf u (Array.mem_def.mpr hmem))
  have hfunctions := list?_map fun f hmem => FunctionInfo.decode?_encode (hfs f hmem)
  have hentry := index32?_nat he
  show (do
    return Artifact.mk (← index32? (nat a.entry))
      (← list? CodeUnit.decode? (.arr (a.units.toList.map CodeUnit.encode))).toArray
      (← list? FunctionInfo.decode?
        (.arr (a.functions.toList.map FunctionInfo.encode))).toArray) = _
  rw [hentry, hunits, hfunctions]
  rfl

end TreeScript.Code

namespace TreeScript

open Code Syntax

/-- A program with finite literals and an artifact with finite constants are what is read from their
encodings: numbers are the same to the bit, and holes, absent parts and absent labels stay so.  What
an expression at the head of a `for` is written as is not read as a declaration there, by a reader
of any depth. -/
theorem decode?_encode_eq_self :
    (∀ p : Program, (∀ x, .expr (.number x) ∈ p.nodes → x.isFinite = true) →
      Program.decode? p.encode = some p) ∧
    (∀ a : Artifact, a.inWords = true →
      (∀ u ∈ a.units, ∀ x, .constant (.number x) ∈ u.operands → x.isFinite = true) →
      Artifact.decode? a.encode = some a) ∧
    ∀ (e : Expr) (n : Nat) (inner : Bool) (declarators : List Declarator),
      decodeForHead? n inner e.encode ≠ some (.declaration declarators) := by
  refine ⟨fun p => Program.decode?_encode, fun a => Artifact.decode?_encode, ?_⟩
  intro e n inner declarators h
  cases n with
  | zero => cases h
  | succ n =>
    rw [decodeForHead?, decodeDeclarators?_encode] at h
    cases hread : decodeExpr? n inner e.encode <;> rw [hread] at h <;> cases h

def sampleProgram : Program where
  body := [
    .labeled "again" (.forLoop (some (.expression (.identifier "i"))) none none
      (.block [.continue none, .break (some "again")])),
    .expression (.array [none, some (.number (Float.ofBits 0x8000000000000000)), none]),
    .return none]
  strict := true

def sampleArtifact : Artifact where
  entry := 0
  units := #[{
    name := "Program_0", role := .program, strict := false
    instructions := #[.load 0, .breakTo none]
    operands := #[.constant (.number (Float.ofBits 0x8000000000000000))]
    labels := #[], tempCount := 0 }]
  functions := #[⟨0, none, ["x"], false, true⟩]

theorem decode?_encode_samples :
    Program.decode? sampleProgram.encode = some sampleProgram ∧
      Artifact.decode? sampleArtifact.encode = some sampleArtifact := by
  have hzero : (Float.ofBits 0x8000000000000000).isFinite = true := by decide
  constructor
  · refine decode?_encode_eq_self.1 _ fun x hx => ?_
    simp [sampleProgram, Program.nodes, stmtsNodes, Stmt.nodes, headNodes, ForHead.nodes,
      elementNodes, elementsNodes, Expr.nodes] at hx
    rw [hx, hzero]
  · refine decode?_encode_eq_self.2.1 _ (by decide) fun u hu x hx => ?_
    simp [sampleArtifact] at hu
    simp [hu] at hx
    rw [hx, hzero]

end TreeScript
