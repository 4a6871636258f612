import TreeScript.Machine.Run
import TreeScript.Syntax.Tree

/-!
# Evaluating expressions

What an expression means, by recursion on it and without code.  Operands are evaluated from left to
right, each at most once, and each operator says for itself what it makes of their values.  An
evaluation works on a realm and ends with a value or a fault.  What a function does when it is
called is not said here but given, and a call may come to nothing: then so does the evaluation.  So
does one that needs a text which has no end.
-/

namespace TreeScript

open Code Syntax

/-! ## Computations -/

/-- A computation in a realm that ends with a result or a fault, or not at all. -/
abbrev Eval := ExceptT Fault (StateT Realm Option)

namespace Eval

def realm (x : RealmM α) : Eval α := fun r =>
  match x r with
  | .ok a r => some (.ok a, r)
  | .error fault r => some (.error fault, r)

def nothing : Eval α := fun _ => none

/-! ## Conversions -/

/-- What is found in the realm, if the values that are objects have texts. -/
def converting (vs : List Value) (f : Realm → α) : Eval α := fun r =>
  if r.endless vs then none else some (.ok (f r), r)

def text (v : Value) : Eval String := converting [v] (·.toText v)

def number (v : Value) : Eval Float := converting [v] (·.toNumber v)

/-! ## Operators -/

def arithmetic (f : Float → Float → Float) (a b : Value) : Eval Value :=
  converting [a, b] fun r => .number (f (r.toNumber a) (r.toNumber b))

def bitwise (f : BitVec 32 → BitVec 32 → BitVec 32) (a b : Value) : Eval Value :=
  converting [a, b] fun r => Realm.signed (f (r.toWord a) (r.toWord b))

def equality (f : Bool → Bool) (a b : Value) : Eval Value :=
  converting (if alreadyComparable a b then [] else [a, b]) fun r =>
    .boolean (f (r.looseEquals a b))

def binary : BinaryOp → Value → Value → Eval Value
  | .add, a, b => converting [a, b] (·.add a b)
  | .subtract, a, b => arithmetic (· - ·) a b
  | .multiply, a, b => arithmetic (· * ·) a b
  | .divide, a, b => arithmetic (· / ·) a b
  | .modulo, a, b => arithmetic Number.remainder a b
  | .equal, a, b => equality id a b
  | .notEqual, a, b => equality (!·) a b
  | .strictEqual, a, b => return .boolean (a.strictEquals b)
  | .strictNotEqual, a, b => return .boolean !a.strictEquals b
  -- What is no number is neither less than another nor not less.
  | .less, a, b => converting [a, b] fun r => .boolean (r.less? a b == some true)
  | .lessEqual, a, b => converting [a, b] fun r => .boolean (r.less? b a == some false)
  | .greater, a, b => converting [a, b] fun r => .boolean (r.less? b a == some true)
  | .greaterEqual, a, b => converting [a, b] fun r => .boolean (r.less? a b == some false)
  | .bitAnd, a, b => bitwise (· &&& ·) a b
  | .bitOr, a, b => bitwise (· ||| ·) a b
  | .bitXor, a, b => bitwise (· ^^^ ·) a b
  | .shiftLeft, a, b => bitwise (fun x y => x <<< (y.toNat % 32)) a b
  | .shiftRight, a, b => bitwise (fun x y => x.sshiftRight (y.toNat % 32)) a b
  | .shiftRightUnsigned, a, b => converting [a, b] fun r =>
    .number (Number.ofNat (r.toWord a >>> ((r.toWord b).toNat % 32)).toNat)
  | .in, key, object => do
    let name ← text key
    let r ← get
    match object.object? with
    | none => throw (.inPrimitive name (r.toText object))
    | some ref => return .boolean (r.hasProperty ref name)
  | .instanceOf, a, b => do return .boolean (← realm (liftExcept ((← get).instanceOf a b)))

def unary : UnaryOp → Value → Eval Value
  | .minus, v => converting [v] fun r => .number (-r.toNumber v)
  | .plus, v => converting [v] fun r => .number (r.toNumber v)
  | .not, v => return .boolean !v.truthy
  | .bitNot, v => converting [v] fun r => Realm.signed (~~~ r.toWord v)
  | .typeOf, v => return .string ((← get).typeName v)
  | .void, _ => return .undefined
  | .delete, _ => return .boolean true

def updated : UpdateOp → Float → Eval Value
  | .increment, n => return .number (n + Number.ofNat 1)
  | .decrement, n => return .number (n - Number.ofNat 1)

/-! ## Properties -/

def property (base key : Value) : Eval Value := do
  let name ← text key
  realm (liftExcept ((← get).read base name))

def delete (strict : Bool) (base key : Value) : Eval Value := do
  let name ← text key
  return .boolean (← realm (Realm.delete base name strict))

def put (strict : Bool) (base key v : Value) : Eval Unit := do
  let name ← converting (if (← get).setsLength base key then [key, v] else [key]) (·.toText key)
  realm (Realm.put base name v strict)

end Eval

/-- Where an expression is evaluated, and how the frame of a function that it calls ends. -/
structure Scene where
  artifact : Artifact
  context : Context
  calls : Frame → Context → Realm → Option (Completion × Realm)

namespace Scene

variable (scene : Scene)

def valueOf (name : String) : Eval Value := do
  Eval.realm (liftExcept ((← get).valueOf scene.context.env name))

def typeOfName (name : String) : Eval Value := do
  let r ← get
  return .string (((r.lookup scene.context.env name).map r.typeName).getD "undefined")

def frameResult (frame : Frame) (context : Context) : Eval Completion := fun r =>
  (scene.calls frame context r).map fun result => (.ok result.1, result.2)

/-- What a call gives when the frame of the function has ended with `c`. -/
def returned (constructed : Option Value) (c : Completion) : Eval Value := do
  modify (·.exitCall)
  match CallResult.ofCompletion c constructed with
  | .value v => return v
  | .thrown v => throw (.value v)
  | .escaped _ => Eval.nothing

def call (callee receiver : Value) (args : List Value) (constructed : Option Value) :
    Eval Value := do
  let r ← get
  match callee.object? >>= fun ref => (r.object ref).closure? with
  | none =>
    let name ← Eval.text callee
    throw (.notAFunction name)
  | some closure =>
    match Frame.start closure.artifact closure.info.unit scene.context.env
        (.call scene.context.this scene.context.strict constructed) with
    | .error _ => Eval.nothing
    | .ok frame =>
      match r.enterCall? with
      | none => throw .callDepth
      | some r =>
        set r
        let env ← Eval.realm (Machine.newCallEnv closure args)
        modify (·.countRun frame.unit.name)
        let strict := closure.info.strict
        let c ← scene.frameResult frame ⟨env, Machine.thisFor strict receiver, strict⟩
        returned constructed c

/-- Calls a function on a new object that inherits from the function's `prototype`. -/
def construct (callee : Value) (args : List Value) : Eval Value := do
  let r ← get
  if r.isCallable callee then
    let prototype ← Eval.realm (liftExcept (r.read callee "prototype"))
    let object ← Eval.realm (allocate (·.derive prototype))
    scene.call callee object args object
  else
    let name ← Eval.text callee
    throw (.notAConstructor name)

/-! ## Places -/

inductive Place where
  | binding (name : String)
  | property (object key : Value)

def read : Place → Eval Value
  | .binding name => scene.valueOf name
  | .property object key => Eval.property object key

def write (strict : Bool) (v : Value) : Place → Eval Unit
  | .binding name => Eval.realm (Realm.assign scene.context.env name v strict)
  | .property object key => Eval.put strict object key v

/-- Adds one to a place or takes one away.  The value is the new number in front, the old one
behind. -/
def update (strict : Bool) (op : UpdateOp) (prefixed : Bool) (place : Place) : Eval Value := do
  let old ← scene.read place
  let number ← Eval.number old
  let new ← Eval.updated op number
  scene.write strict new place
  return if prefixed then new else .number number

/-- Assigns the value of `value`, after joining it with what is there if there is an operator. -/
def assign (strict : Bool) (op : Option BinaryOp) (place : Place) (value : Eval Value) :
    Eval Value := do
  let new ← match op with
    | none => value
    | some op =>
      let old ← scene.read place
      let v ← value
      Eval.binary op old v
  scene.write strict new place
  return new

end Scene

/-! ## Functions in an expression -/

/-- The records of the function literals in an expression.  Each one is found by the way to the
literal from the top of the expression. -/
abbrev Links := List Nat → FunctionInfo

/-- The records of the function literals in a part of an expression. -/
def Links.part (links : Links) (i : Nat) : Links := fun way => links (i :: way)

def Links.join (parts : List Links) : Links
  | [] => default
  | i :: way => parts.getD i (fun _ => default) way

mutual

/-- `P` holds of each function literal in an expression and its record. -/
def Syntax.Expr.Linked (P : FunctionDef → FunctionInfo → Prop) : Expr → Links → Prop
  | .function definition, links => P definition (links [])
  | .array elements, links => elementsLinked P elements (links.part 0)
  | .object members, links => membersLinked P members (links.part 0)
  | .member object property _, links =>
    object.Linked P (links.part 0) ∧ property.Linked P (links.part 1)
  | .call callee arguments, links | .construct callee arguments, links =>
    callee.Linked P (links.part 0) ∧ exprsLinked P arguments (links.part 1)
  | .unary _ argument, links | .update _ argument _, links => argument.Linked P (links.part 0)
  | .binary _ left right, links | .logical _ left right, links | .assignment _ left right, links =>
    left.Linked P (links.part 0) ∧ right.Linked P (links.part 1)
  | .conditional test consequent alternate, links =>
    test.Linked P (links.part 0) ∧ consequent.Linked P (links.part 1) ∧
      alternate.Linked P (links.part 2)
  | .sequence expressions, links => exprsLinked P expressions (links.part 0)
  | .this, _ | .undefined, _ | .null, _ | .boolean _, _ | .number _, _ | .string _, _
  | .regExp .., _ | .identifier _, _ => True

def exprsLinked (P : FunctionDef → FunctionInfo → Prop) : List Expr → Links → Prop
  | [], _ => True
  | e :: es, links => e.Linked P (links.part 0) ∧ exprsLinked P es (links.part 1)

def elementLinked (P : FunctionDef → FunctionInfo → Prop) : Option Expr → Links → Prop
  | none, _ => True
  | some e, links => e.Linked P links

def elementsLinked (P : FunctionDef → FunctionInfo → Prop) : List (Option Expr) → Links → Prop
  | [], _ => True
  | e :: es, links => elementLinked P e (links.part 0) ∧ elementsLinked P es (links.part 1)

def memberLinked (P : FunctionDef → FunctionInfo → Prop) : Member → Links → Prop
  | .value _ value, links => value.Linked P links
  | .accessor .., _ => True

def membersLinked (P : FunctionDef → FunctionInfo → Prop) : List Member → Links → Prop
  | [], _ => True
  | m :: ms, links => memberLinked P m (links.part 0) ∧ membersLinked P ms (links.part 1)

end

/-! ## Expressions -/

/-- The name that the key of a member in an object literal stands for. -/
def keyName : Expr → Eval String
  | .identifier name => return name
  | .string value => return value
  | .number value => return Number.text value
  | _ => Eval.nothing

/-- The key of a member expression; `key` evaluates its property as an expression. -/
def propertyKey (computed : Bool) (property : Expr) (key : Eval Value) : Eval Value :=
  if computed then key
  else
    match property with
    | .identifier name => return .string name
    | _ => Eval.nothing

/-- Evaluates the right operand of a logical operator only if the left one does not decide. -/
def decideBy (op : LogicalOp) (left right : Eval Value) : Eval Value := do
  let v ← left
  match op with
  | .and => if v.truthy then right else return v
  | .or => if v.truthy then return v else right

mutual

def eval (scene : Scene) (strict : Bool) : Expr → Links → Eval Value
  | .this, _ => return scene.context.this
  | .undefined, _ => return .undefined
  | .null, _ => return .null
  | .boolean value, _ => return .boolean value
  | .number value, _ => return .number value
  | .string value, _ => return .string value
  | .regExp pattern flags, _ => Eval.realm (apply .newRegExp [.string pattern, .string flags])
  | .identifier name, _ => scene.valueOf name
  | .array elements, links => do
    let values ← evalElements scene strict elements (links.part 0)
    Eval.realm (allocate (·.newArray values))
  | .object members, links => do
    let object ← Eval.realm (allocate (·.newObject))
    evalMembers scene strict object members (links.part 0)
  | .function _, links =>
    Eval.realm (Machine.newClosure scene.artifact (links []) scene.context.env)
  | .member object property computed, links => do
    let base ← eval scene strict object (links.part 0)
    let key ← propertyKey computed property (eval scene strict property (links.part 1))
    Eval.property base key
  | .call callee arguments, links =>
    match callee with
    | .member object property computed => do
      let receiver ← eval scene strict object ((links.part 0).part 0)
      let key ← propertyKey computed property (eval scene strict property ((links.part 0).part 1))
      let function ← Eval.property receiver key
      let args ← evalAll scene strict arguments (links.part 1)
      scene.call function receiver args none
    | callee => do
      let function ← eval scene strict callee (links.part 0)
      let args ← evalAll scene strict arguments (links.part 1)
      scene.call function .undefined args none
  | .construct callee arguments, links => do
    let function ← eval scene strict callee (links.part 0)
    let args ← evalAll scene strict arguments (links.part 1)
    scene.construct function args
  | .unary .delete argument, links =>
    match argument with
    | .identifier name => do
      return .boolean (← Eval.realm (Realm.deleteBinding scene.context.env name))
    | .member object property computed => do
      let base ← eval scene strict object ((links.part 0).part 0)
      let key ← propertyKey computed property (eval scene strict property ((links.part 0).part 1))
      Eval.delete strict base key
    | argument => do
      let v ← eval scene strict argument (links.part 0)
      Eval.unary .delete v
  | .unary .typeOf argument, links =>
    match argument with
    | .identifier name => scene.typeOfName name
    | argument => do
      let v ← eval scene strict argument (links.part 0)
      Eval.unary .typeOf v
  | .unary op argument, links => do
    let v ← eval scene strict argument (links.part 0)
    Eval.unary op v
  | .update op target prefixed, links => do
    let place ← evalPlace scene strict target (links.part 0)
    scene.update strict op prefixed place
  | .binary op left right, links => do
    let l ← eval scene strict left (links.part 0)
    let r ← eval scene strict right (links.part 1)
    Eval.binary op l r
  | .logical op left right, links =>
    decideBy op (eval scene strict left (links.part 0)) (eval scene strict right (links.part 1))
  | .conditional test consequent alternate, links => do
    let v ← eval scene strict test (links.part 0)
    if v.truthy then eval scene strict consequent (links.part 1)
    else eval scene strict alternate (links.part 2)
  | .assignment op target value, links => do
    let place ← evalPlace scene strict target (links.part 0)
    scene.assign strict op.binary? place (eval scene strict value (links.part 1))
  | .sequence expressions, links => evalSequence scene strict expressions (links.part 0)

def evalPlace (scene : Scene) (strict : Bool) : Expr → Links → Eval Scene.Place
  | .identifier name, _ => return .binding name
  | .member object property computed, links => do
    let base ← eval scene strict object (links.part 0)
    let key ← propertyKey computed property (eval scene strict property (links.part 1))
    return .property base key
  | _, _ => Eval.nothing

def evalAll (scene : Scene) (strict : Bool) : List Expr → Links → Eval (List Value)
  | [], _ => return []
  | e :: es, links => do
    let v ← eval scene strict e (links.part 0)
    let vs ← evalAll scene strict es (links.part 1)
    return v :: vs

def evalSequence (scene : Scene) (strict : Bool) : List Expr → Links → Eval Value
  | [], _ => return .undefined
  | [e], links => eval scene strict e (links.part 0)
  | e :: es, links => do
    let _ ← eval scene strict e (links.part 0)
    evalSequence scene strict es (links.part 1)

def evalElement (scene : Scene) (strict : Bool) : Option Expr → Links → Eval Value
  | none, _ => return .undefined
  | some e, links => eval scene strict e links

def evalElements (scene : Scene) (strict : Bool) : List (Option Expr) → Links → Eval (List Value)
  | [], _ => return []
  | e :: es, links => do
    let v ← evalElement scene strict e (links.part 0)
    let vs ← evalElements scene strict es (links.part 1)
    return v :: vs

def evalMember (scene : Scene) (strict : Bool) (object : Value) : Member → Links → Eval Value
  | .value key value, links => do
    let name ← keyName key
    let v ← eval scene strict value links
    Eval.realm (apply .defineProperty [object, .string name, v])
  | .accessor .., _ => Eval.nothing

def evalMembers (scene : Scene) (strict : Bool) (object : Value) : List Member → Links → Eval Value
  | [], _ => return object
  | m :: ms, links => do
    let object ← evalMember scene strict object m (links.part 0)
    evalMembers scene strict object ms (links.part 1)

end

end TreeScript
