import TreeScript.Code.Artifact
import TreeScript.Json.Basic

/-!
# Artifacts as JSON

A variant without parts is its name, one with parts an object with its name as the only field.
-/

namespace TreeScript.Code

open Json (str bool arr obj nat)

def variant (name : String) (payload : Json) : Json := obj [(name, payload)]

namespace Constant

def encode : Constant → Json
  | undefined => str "Undefined"
  | null => str "Null"
  | boolean b => variant "Boolean" (bool b)
  | number x => variant "Number" (Json.number x)
  | string s => variant "String" (str s)

end Constant

def encodeTemporary (index : Nat) : Json := obj [("index", nat index)]

namespace Operand

def encode : Operand → Json
  | constant c => variant "Constant" c.encode
  | binding name => variant "Variable" (obj [("name", str name)])
  | temporary index => variant "Temporary" (encodeTemporary index)

end Operand

namespace Operation

def encode (op : Operation) : Json :=
  match op with
  | putProperty strict | deleteProperty strict => variant op.name (obj [("strict", bool strict)])
  | newArray length => variant op.name (obj [("len", nat length)])
  | call argc | construct argc => variant op.name (obj [("argc", nat argc)])
  | _ => str op.name

end Operation

namespace CompletionKind

def tag : CompletionKind → String
  | normal => "Normal"
  | .break => "Break"
  | .continue => "Continue"
  | .return => "Return"
  | throw => "Throw"

def ofTag? (tag : String) : Option CompletionKind := all.find? (·.tag == tag)

end CompletionKind

def LabelSet.encode (labels : LabelSet) : Json := obj [("names", Json.strings labels.names)]

namespace Instruction

def encode : Instruction → Json
  | load i => variant "Load" (nat i)
  | store i strict => variant "Store" (obj [("variable", nat i), ("strict", bool strict)])
  | storeTemp t => variant "StoreTemp" (encodeTemporary t)
  | loadThis => str "LoadThis"
  | typeOfVariable i => variant "TypeOfVariable" (nat i)
  | deleteVariable i => variant "DeleteVariable" (nat i)
  | declareVariable i => variant "DeclareVariable" (nat i)
  | initializeBinding i => variant "InitializeBinding" (nat i)
  | makeClosure f => variant "MakeClosure" (nat f)
  | pop => str "Pop"
  | dup => str "Dup"
  | dupPair => str "Dup2"
  | swap => str "Swap"
  | nop => str "Nop"
  | jump l => variant "Jump" (nat l)
  | jumpIfFalse l => variant "JumpIfFalse" (nat l)
  | jumpIfTrue l => variant "JumpIfTrue" (nat l)
  | invoke id => variant "InvokeUnit" (nat id)
  | operate op => variant "CallHelper" op.encode
  | enterCatch i => variant "EnterCatchScope" (nat i)
  | exitScope => str "ExitScope"
  | forInStep keys l =>
    variant "ForInStep" (obj [("keys", encodeTemporary keys), ("exhausted", nat l)])
  | normal => str "NormalCompletion"
  | normalValue => str "ValueCompletion"
  | breakTo target => variant "BreakCompletion" (Json.option str target)
  | continueTo target => variant "ContinueCompletion" (Json.option str target)
  | returnValue => str "ReturnCompletion"
  | throwValue => str "ThrowCompletion"
  | jumpIfAbrupt l => variant "JumpIfAbrupt" (nat l)
  | jumpIfKind kind l => variant "JumpIfKind" (arr [str kind.tag, nat l])
  | jumpUnlessKind kind l => variant "JumpIfNotKind" (arr [str kind.tag, nat l])
  | jumpIfBreaksHere labels l =>
    variant "JumpIfBreaksHere" (obj [("labels", labels.encode), ("target", nat l)])
  | jumpIfContinuesHere labels l =>
    variant "JumpIfContinuesHere" (obj [("labels", labels.encode), ("target", nat l)])
  | merge => str "MergeCompletion"
  | consumeBreak labels => variant "ConsumeBreak" labels.encode
  | unwrap => str "UnwrapCompletion"

end Instruction

def CodeUnit.encode (u : CodeUnit) : Json :=
  obj [("name", str u.name), ("role", str u.role.tag), ("strict", bool u.strict),
    ("instructions", arr (u.instructions.toList.map Instruction.encode)),
    ("operands", arr (u.operands.toList.map Operand.encode)),
    ("labels", arr (u.labels.toList.map nat)), ("temp_count", nat u.tempCount)]

def FunctionInfo.encode (f : FunctionInfo) : Json :=
  obj [("unit", nat f.unit), ("name", Json.option str f.name), ("params", Json.strings f.params),
    ("strict", bool f.strict), ("self_binding", bool f.selfBinding)]

def Artifact.encode (a : Artifact) : Json :=
  obj [("entry", nat a.entry), ("units", arr (a.units.toList.map CodeUnit.encode)),
    ("functions", arr (a.functions.toList.map FunctionInfo.encode))]

end TreeScript.Code
