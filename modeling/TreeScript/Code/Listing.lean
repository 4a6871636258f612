import TreeScript.Code.Artifact

/-!
# Listings

The code of an artifact as text, one instruction a line.  Operands, labels and units are shown by
what they stand for, and a line to which a label leads is marked.
-/

namespace TreeScript.Code

def labelText (label : Label) : String := s!"L{label}"

def offsetText (n : Nat) : String :=
  let digits := Nat.toDigits 10 n
  String.ofList (List.replicate (4 - digits.length) '0' ++ digits)

namespace CodeUnit

def operandText (u : CodeUnit) (index : OperandIndex) : String :=
  match u.operands[index]? with
  | some operand => operand.text
  | none => s!"#{index}?"

def targetText (u : CodeUnit) (label : Label) : String :=
  match u.offset? label with
  | some offset => s!"{labelText label} -> {offsetText offset}"
  | none => s!"{labelText label} -> ?"

def labelsAt (u : CodeUnit) (offset : Nat) : List Label :=
  (List.range u.labels.size).filter fun label => u.labels[label]? = some offset

end CodeUnit

def strictText (strict : Bool) : String := if strict then " strict" else ""

def Artifact.unitText (a : Artifact) (id : UnitId) : String :=
  match a.unit? id with
  | some unit => unit.name
  | none => "?"

def Instruction.text (a : Artifact) (u : CodeUnit) : Instruction → String
  | load i => "LOAD          " ++ u.operandText i
  | store i strict => "STORE         " ++ u.operandText i ++ strictText strict
  | storeTemp t => "STORE_TEMP    " ++ temporaryText t
  | loadThis => "LOAD_THIS"
  | typeOfVariable i => "TYPEOF_VAR    " ++ u.operandText i
  | deleteVariable i => "DELETE_VAR    " ++ u.operandText i
  | declareVariable i => "DECLARE       " ++ u.operandText i
  | initializeBinding i => "INIT_BINDING  " ++ u.operandText i
  | makeClosure f =>
    let unit := match a.function? f with
      | some info => a.unitText info.unit
      | none => "?"
    s!"MAKE_CLOSURE  #{f} ({unit})"
  | pop => "POP"
  | dup => "DUP"
  | dupPair => "DUP2"
  | swap => "SWAP"
  | nop => "NOP"
  | jump l => "JUMP          " ++ u.targetText l
  | jumpIfFalse l => "JUMP_IF_FALSE " ++ u.targetText l
  | jumpIfTrue l => "JUMP_IF_TRUE  " ++ u.targetText l
  | invoke id => "INVOKE        " ++ a.unitText id
  | operate op => "HELPER        " ++ op.text
  | enterCatch i => "ENTER_CATCH   " ++ u.operandText i
  | exitScope => "EXIT_SCOPE"
  | forInStep keys l => s!"FOR_IN_STEP   {temporaryText keys} {u.targetText l}"
  | normal => "NORMAL"
  | normalValue => "NORMAL_VALUE"
  | breakTo target => "BREAK         " ++ target.getD "-"
  | continueTo target => "CONTINUE      " ++ target.getD "-"
  | returnValue => "RETURN"
  | throwValue => "THROW"
  | jumpIfAbrupt l => "JUMP_ABRUPT   " ++ u.targetText l
  | jumpIfKind kind l => s!"JUMP_IF_KIND  {kind.name} {u.targetText l}"
  | jumpUnlessKind kind l => s!"JUMP_UNLESS   {kind.name} {u.targetText l}"
  | jumpIfBreaksHere labels l => s!"JUMP_BREAK    {labels.text} {u.targetText l}"
  | jumpIfContinuesHere labels l => s!"JUMP_CONTINUE {labels.text} {u.targetText l}"
  | merge => "MERGE"
  | consumeBreak labels => "CONSUME_BREAK " ++ labels.text
  | unwrap => "UNWRAP"

namespace Listing

def rule : String := String.ofList (List.replicate 40 '═')

/-- The lines of an instruction: before one that labels lead to stands a line with the labels. -/
def instructionLines (a : Artifact) (u : CodeUnit) (offset : Nat) (i : Instruction) :
    List String :=
  match u.labelsAt offset with
  | [] => [s!"{offsetText offset}   {i.text a u}"]
  | labels =>
    ["      ┌── " ++ " ".intercalate (labels.map labelText),
      s!"{offsetText offset} ► {i.text a u}"]

def heading (u : CodeUnit) : List String :=
  [rule,
    " " ++ u.name ++ (if u.strict then " (strict)" else ""),
    s!" {u.instructions.size} instructions, {u.operands.size} operands, {u.tempCount} temporaries",
    rule]

def unitLines (a : Artifact) (u : CodeUnit) : List String :=
  heading u
    ++ (u.instructions.toList.zipIdx.flatMap fun (i, offset) => instructionLines a u offset i)
    ++ [""]

def unitOrder (a : Artifact) : List CodeUnit :=
  a.entryUnit?.toList
    ++ a.units.toList.zipIdx.filterMap fun (u, id) => if id = a.entry then none else some u

def lines (a : Artifact) : List String :=
  ["=== ARTIFACT ===", ""] ++ (unitOrder a).flatMap (unitLines a)

def ofLines (lines : List String) : String :=
  String.join (lines.map (· ++ "\n"))

end Listing

def Artifact.listing (a : Artifact) : String := Listing.ofLines (Listing.lines a)

def Artifact.unitListing (a : Artifact) (u : CodeUnit) : String :=
  Listing.ofLines (Listing.unitLines a u)

end TreeScript.Code
