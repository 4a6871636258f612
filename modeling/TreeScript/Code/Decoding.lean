import TreeScript.Code.Encoding
import TreeScript.Json.Record

/-!
# Reading artifacts

The inverse of the encoding.  Numbers have to fit the words that hold them: operands and temporaries
are numbered by 16 bits, units, functions and labels by 32, and offsets by 64.
-/

namespace TreeScript.Code

open Json (required optional record? list? nullable? bool? str? float? natBelow? variant?
  variantParts? plainVariant?)

def index16? : Json → Option Nat := natBelow? 0x10000

def index32? : Json → Option Nat := natBelow? 0x100000000

def index64? : Json → Option Nat := natBelow? 0x10000000000000000

/-- Reads a variant: `plain` knows the ones without parts and `withParts` the others. -/
def decodeVariant? (plain : String → Option α) (withParts : String → Json → Option α)
    (j : Json) : Option α := do
  match ← variant? j with
  | (name, none) => plain name
  | (name, some payload) =>
    match plain name, payload with
    | some a, .null => some a
    | some _, _ => none
    | none, payload => withParts name payload

namespace Constant

def decode? : Json → Option Constant :=
  decodeVariant?
    (fun
      | "Undefined" => some undefined
      | "Null" => some null
      | _ => none)
    (fun
      | "Boolean", j => boolean <$> bool? j
      | "Number", j => number <$> float? j
      | "String", j => string <$> str? j
      | _, _ => none)

end Constant

def decodeTemporary? (j : Json) : Option Nat := do
  required (← record? ["index"] j) "index" index16?

namespace Operand

def decode? : Json → Option Operand :=
  decodeVariant? (fun _ => none)
    (fun
      | "Constant", j => constant <$> Constant.decode? j
      | "Variable", j => do binding <$> required (← record? ["name"] j) "name" str?
      | "Temporary", j => temporary <$> decodeTemporary? j
      | _, _ => none)

end Operand

namespace Operation

def decodePart? (part : String) (read : Json → Option α) (j : Json) : Option α := do
  required (← variantParts? [part] j) part read

def decode? : Json → Option Operation :=
  decodeVariant? (fun name => plain.find? (·.name == name))
    (fun
      | "PutProperty", j => putProperty <$> decodePart? "strict" bool? j
      | "DeleteProperty", j => deleteProperty <$> decodePart? "strict" bool? j
      | "NewArray", j => newArray <$> decodePart? "len" index32? j
      | "Call", j => call <$> decodePart? "argc" index16? j
      | "Construct", j => construct <$> decodePart? "argc" index16? j
      | _, _ => none)

end Operation

def CompletionKind.decode? (j : Json) : Option CompletionKind := plainVariant? false j >>= ofTag?

def Role.decode? (j : Json) : Option Role := plainVariant? false j >>= ofTag?

def LabelSet.decode? (j : Json) : Option LabelSet := do
  return ⟨← required (← record? ["names"] j) "names" (list? str?)⟩

namespace Instruction

def plain? : String → Option Instruction
  | "LoadThis" => some loadThis
  | "Pop" => some pop
  | "Dup" => some dup
  | "Dup2" => some dupPair
  | "Swap" => some swap
  | "Nop" => some nop
  | "ExitScope" => some exitScope
  | "NormalCompletion" => some normal
  | "ValueCompletion" => some normalValue
  | "ReturnCompletion" => some returnValue
  | "ThrowCompletion" => some throwValue
  | "MergeCompletion" => some merge
  | "UnwrapCompletion" => some unwrap
  | _ => none

def decodeKindJump? (make : CompletionKind → Label → Instruction) : Json → Option Instruction
  | .arr [kind, label] => do return make (← CompletionKind.decode? kind) (← index32? label)
  | _ => none

def decodeLabelJump? (make : LabelSet → Label → Instruction) (j : Json) : Option Instruction := do
  let r ← variantParts? ["labels", "target"] j
  return make (← required r "labels" LabelSet.decode?) (← required r "target" index32?)

def withParts? (name : String) (j : Json) : Option Instruction :=
  match name with
  | "Load" => load <$> index16? j
  | "Store" => do
    let r ← variantParts? ["variable", "strict"] j
    return store (← required r "variable" index16?) (← required r "strict" bool?)
  | "StoreTemp" => storeTemp <$> decodeTemporary? j
  | "TypeOfVariable" => typeOfVariable <$> index16? j
  | "DeleteVariable" => deleteVariable <$> index16? j
  | "DeclareVariable" => declareVariable <$> index16? j
  | "InitializeBinding" => initializeBinding <$> index16? j
  | "MakeClosure" => makeClosure <$> index32? j
  | "Jump" => jump <$> index32? j
  | "JumpIfFalse" => jumpIfFalse <$> index32? j
  | "JumpIfTrue" => jumpIfTrue <$> index32? j
  | "InvokeUnit" => invoke <$> index32? j
  | "CallHelper" => operate <$> Operation.decode? j
  | "EnterCatchScope" => enterCatch <$> index16? j
  | "ForInStep" => do
    let r ← variantParts? ["keys", "exhausted"] j
    return forInStep (← required r "keys" decodeTemporary?) (← required r "exhausted" index32?)
  | "BreakCompletion" => breakTo <$> nullable? str? j
  | "ContinueCompletion" => continueTo <$> nullable? str? j
  | "JumpIfAbrupt" => jumpIfAbrupt <$> index32? j
  | "JumpIfKind" => decodeKindJump? jumpIfKind j
  | "JumpIfNotKind" => decodeKindJump? jumpUnlessKind j
  | "JumpIfBreaksHere" => decodeLabelJump? jumpIfBreaksHere j
  | "JumpIfContinuesHere" => decodeLabelJump? jumpIfContinuesHere j
  | "ConsumeBreak" => consumeBreak <$> LabelSet.decode? j
  | _ => none

def decode? : Json → Option Instruction := decodeVariant? plain? withParts?

end Instruction

def CodeUnit.decode? (j : Json) : Option CodeUnit := do
  let r ← record? ["name", "role", "strict", "instructions", "operands", "labels", "temp_count"] j
  return {
    name := ← required r "name" str?
    role := ← required r "role" Role.decode?
    strict := ← required r "strict" bool?
    instructions := (← required r "instructions" (list? Instruction.decode?)).toArray
    operands := (← required r "operands" (list? Operand.decode?)).toArray
    labels := (← required r "labels" (list? index64?)).toArray
    tempCount := ← required r "temp_count" index16? }

def FunctionInfo.decode? (j : Json) : Option FunctionInfo := do
  let r ← record? ["unit", "name", "params", "strict", "self_binding"] j
  return {
    unit := ← required r "unit" index32?
    name := ← optional r "name" str?
    params := ← required r "params" (list? str?)
    strict := ← required r "strict" bool?
    selfBinding := ← required r "self_binding" bool? }

def Artifact.decode? (j : Json) : Option Artifact := do
  let r ← record? ["entry", "units", "functions"] j
  return {
    entry := ← required r "entry" index32?
    units := (← required r "units" (list? CodeUnit.decode?)).toArray
    functions := (← required r "functions" (list? FunctionInfo.decode?)).toArray }

end TreeScript.Code
