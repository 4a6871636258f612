import Mathlib.Algebra.Group.Nat.Defs
import TreeScript.Proofs.Machine.Mirrors
import TreeScript.Proofs.Realm.Searches

/-!
# Guarded realms

A realm makes do: what is not there reads as an empty object or environment, and a change to it is
lost.  The functions here do what those of a realm do, one by one, but they stop with a trap at a
handle that leads nowhere, and at a chain of links that does not end.  In a founded realm none of
them is ever stopped, and each gives what the realm's own function gives.
-/

namespace TreeScript

open Code (Operation)
open Upkeep

/-- What stops a guarded computation. -/
inductive Trap where
  | index
  | overflow
  deriving DecidableEq

/-- Why a guarded computation did not go through. -/
inductive Stop (ε : Type) where
  | trap (t : Trap)
  | raised (e : ε)

/-- A computation that looks where it steps. -/
abbrev Guarded (ε σ : Type) := EStateM (Stop ε) σ

variable {start : Option ObjectRef} {w : Nat}

namespace Guarded

/-! ## Looking -/

section

variable (r : Realm)

/-- An object and the prototypes above it, which have to come to an end within `n` steps. -/
def follow : Nat → Option ObjectRef → Option (List ObjectRef)
  | _, none => some []
  | 0, some _ => none
  | n + 1, some ref => do
    let o ← r.object? ref
    return ref :: (← follow n o.prototype)

def ancestors (start : Option ObjectRef) : Option (List ObjectRef) := follow r r.objects.size start

def lineage (ref : ObjectRef) : Option (List Object) := do (← ancestors r (some ref)).mapM r.object?

def getFrom (ref : ObjectRef) (key : String) : Option Value := do
  return (((← lineage r ref).findSome? (·.own? key)).map Property.value).getD .undefined

def hasProperty (ref : ObjectRef) (key : String) : Option Bool := do
  return (← lineage r ref).any (·.hasOwn key)

def enumerateKeys : Value → Option (List String)
  | .object ref => do return Realm.enumerateKeys.go [] (← lineage r ref)
  | _ => some []

/-- The text of a value, if `n` levels of objects are enough for it. -/
def writeText : Nat → List ObjectRef → Value → Option (Option String)
  | 0, _, .object _ => some none
  | n + 1, visiting, .object ref => do
    let o ← r.object? ref
    match o.kind with
    | .ordinary => return "[object Object]"
    | .function closure => return Realm.functionText (closure.info.name.getD "")
    | .regExp pattern flags => return s!"/{pattern}/{flags}"
    | .error =>
      let name ← writeText n visiting (← getFrom r ref "name")
      let message ← writeText n visiting (← getFrom r ref "message")
      return do return Realm.errorText (← name) (← message)
    | .array =>
      if visiting.contains ref then return ""
      else
        let parts ← (List.range o.arrayLength).mapM fun i => do
          match ← getFrom r ref (toString i) with
          | .undefined | .null => return some ""
          | element => writeText n (ref :: visiting) element
        return (parts.mapM id).map (",".intercalate ·)
  | _, _, v => some v.text?

def toText (v : Value) : Option String := do return (← writeText r r.textLevels [] v).getD ""

def toPrimitive : Value → Option Value
  | .object ref => do return .string (← toText r (.object ref))
  | v => some v

def toNumber (v : Value) : Option Float := do return (← toPrimitive r v).ownNumber

def toWord (v : Value) : Option (BitVec 32) := do return Number.word (← toNumber r v)

def isCallable : Value → Option Bool
  | .object ref => do return (← r.object? ref).closure?.isSome
  | _ => some false

def typeName (v : Value) : Option String :=
  match v with
  | .object _ => do return if ← isCallable r v then "function" else "object"
  | v => some (r.typeName v)

def read (base : Value) (key : String) : Option (Except Fault Value) :=
  match base with
  | .object ref => do return .ok (← getFrom r ref key)
  | base => some (r.read base key)

def instanceOf (value constructor : Value) : Option (Except Fault Bool) := do
  if ← isCallable r constructor then
    match ← read r constructor "prototype" with
    | .error fault => return .error fault
    | .ok prototype =>
      match prototype.object? with
      | none => return .error .instanceOfPrimitive
      | some target =>
        match value.object? with
        | none => return .ok false
        | some ref => return .ok ((← ancestors r (← r.object? ref).prototype).contains target)
  else return .error .instanceOfUncallable

/-! Primitive values are compared and added without a look at the realm. -/

def looseEquals (a b : Value) : Option Bool :=
  match a, b with
  | .object _, .object _ | .object _, .undefined | .object _, .null | .undefined, .object _
  | .null, .object _ => some (r.looseEquals a b)
  | a, b => do return r.looseEquals (← toPrimitive r a) (← toPrimitive r b)

def compares (a b : Value) (expected : Bool) : Option Value := do
  return r.compares (← toPrimitive r a) (← toPrimitive r b) expected

def add (a b : Value) : Option Value := do
  return r.add (← toPrimitive r a) (← toPrimitive r b)

def evaluate (op : Operation) (a b : Value) : Option (Option Value) :=
  match op with
  | .toBoolean => some (some (.boolean a.truthy))
  | .toNumber => do return some (.number (← toNumber r a))
  | .add => do return some (← add r a b)
  | .subtract => do return some (.number ((← toNumber r a) - (← toNumber r b)))
  | .multiply => do return some (.number ((← toNumber r a) * (← toNumber r b)))
  | .divide => do return some (.number ((← toNumber r a) / (← toNumber r b)))
  | .modulo => do return some (.number (Number.remainder (← toNumber r a) (← toNumber r b)))
  | .negate => do return some (.number (-(← toNumber r a)))
  | .shiftLeft => do
    return some (Realm.signed ((← toWord r a) <<< Realm.shiftCount (← toWord r b)))
  | .shiftRight => do
    return some (Realm.signed ((← toWord r a).sshiftRight (Realm.shiftCount (← toWord r b))))
  | .shiftRightUnsigned => do
    return some (.number (Number.ofNat ((← toWord r a) >>> Realm.shiftCount (← toWord r b)).toNat))
  | .bitAnd => do return some (Realm.signed ((← toWord r a) &&& (← toWord r b)))
  | .bitOr => do return some (Realm.signed ((← toWord r a) ||| (← toWord r b)))
  | .bitXor => do return some (Realm.signed ((← toWord r a) ^^^ (← toWord r b)))
  | .bitNot => do return some (Realm.signed (~~~ (← toWord r a)))
  | .not => some (some (.boolean !a.truthy))
  | .typeOf => do return some (.string (← typeName r a))
  | .less => do return some (← compares r a b true)
  | .greater => do return some (← compares r b a true)
  | .lessEqual => do return some (← compares r b a false)
  | .greaterEqual => do return some (← compares r a b false)
  | .equal => do return some (.boolean (← looseEquals r a b))
  | .notEqual => do return some (.boolean !(← looseEquals r a b))
  | .strictEqual => some (some (.boolean (a.strictEquals b)))
  | .strictNotEqual => some (some (.boolean !a.strictEquals b))
  | _ => some none

/-- An environment and those around it, which have to come to an end within `n` steps. -/
def scopesFrom : Nat → Option EnvRef → Option (List EnvRef)
  | _, none => some []
  | 0, some _ => none
  | n + 1, some ref => do
    let e ← r.env? ref
    return ref :: (← scopesFrom n e.outer)

def resolveIn (name : String) : List EnvRef → Option (Option EnvRef)
  | [] => some none
  | ref :: refs => do if (← r.env? ref).has name then return some ref else resolveIn name refs

def resolve (env : EnvRef) (name : String) : Option (Option EnvRef) := do
  resolveIn r name (← scopesFrom r r.environments.size (some env))

def lookup (env : EnvRef) (name : String) : Option (Option Value) := do
  match ← resolve r env name with
  | none => return none
  | some ref => return (← r.env? ref).get? name

def valueOf (env : EnvRef) (name : String) : Option (Except Fault Value) := do
  match ← lookup r env name with
  | some v => return .ok v
  | none => return .error (.notDefined name)

end

/-! ## Looking in a founded realm -/

variable {env : EnvRef}

section

variable {r : Realm} {ref : ObjectRef} {v a b : Value} {key : String}

theorem follow_of_walk {n : Nat} {refs : List ObjectRef}
    (h : Walk r.object? Object.prototype start refs) (hn : refs.length ≤ n) :
    follow r n start = some refs := by
  induction h generalizing n with
  | done => cases n <;> rfl
  | step he _ ih =>
    cases n with
    | zero => cases hn
    | succ n =>
      unfold follow
      rw [he]
      show (follow r n _ >>= _) = _
      rw [ih (Nat.le_of_succ_le_succ hn)]
      rfl

theorem length_follow_le (next : ObjectRef → Option ObjectRef) (n : Nat)
    (start : Option ObjectRef) : (Realm.follow next n start).length ≤ n := by
  induction n generalizing start with
  | zero => exact Nat.le_refl 0
  | succ n ih =>
    cases start with
    | none => exact Nat.zero_le _
    | some ref => exact Nat.succ_le_succ (ih (next ref))

theorem ancestors_eq (h : r.Founded) (hs : ∀ ref, start = some ref → r.Inside (.object ref)) :
    ancestors r start = some (r.ancestors start) :=
  follow_of_walk (h.walk_ancestors start hs) (length_follow_le _ _ _)

theorem objects_of_walk {refs : List ObjectRef} (h : Walk r.object? Object.prototype start refs) :
    refs.mapM r.object? = some (refs.map r.object) := by
  induction h with
  | done => rfl
  | step he _ ih =>
    rw [List.mapM_cons, he, ih, List.map_cons, Realm.object_of_object? he]
    rfl

theorem lineage_eq (h : r.Founded) (hr : r.Inside (.object ref)) :
    lineage r ref = some (r.lineage ref) := by
  have hs : ∀ ref', some ref = some ref' → r.Inside (.object ref') := by
    rintro ref' ⟨⟩
    exact hr
  unfold lineage
  rw [ancestors_eq h hs]
  exact objects_of_walk (h.walk_ancestors _ hs)

theorem getFrom_eq (h : r.Founded) (hr : r.Inside (.object ref)) (key : String) :
    getFrom r ref key = some (r.getFrom ref key) := by
  unfold getFrom Realm.getFrom
  rw [lineage_eq h hr]
  dsimp only [bind, Option.bind]
  cases (r.lineage ref).findSome? (·.own? key) <;> rfl

theorem hasProperty_eq (h : r.Founded) (hr : r.Inside (.object ref)) (key : String) :
    hasProperty r ref key = some (r.hasProperty ref key) := by
  unfold hasProperty
  rw [lineage_eq h hr]
  rfl

theorem enumerateKeys_eq (h : r.Founded) (hv : r.Inside v) :
    enumerateKeys r v = some (r.enumerateKeys v) := by
  cases v with
  | object ref =>
    show (lineage r ref >>= _) = _
    rw [lineage_eq h hv]
    rfl
  | _ => rfl

theorem mapM_parts {f : α → Option β} {g : α → Option (Option β)} (h : ∀ a, g a = some (f a))
    (l : List α) (k : List β → γ) :
    (l.mapM g >>= fun parts => some ((parts.mapM id).map k)) =
      some (l.mapM f >>= fun parts => some (k parts)) := by
  have hg : l.mapM g = some (l.map f) := by
    rw [funext h]
    exact List.mapM_pure
  rw [hg]
  show some (((l.map f).mapM id).map k) = _
  rw [List.mapM_map]
  exact congrArg some (Option.map_eq_bind ..)

/-- The parts of an array are written one by one, and each of them is inside. -/
theorem writeText_eq (h : r.Founded) (hv : r.Inside v) (n : Nat) (visiting : List ObjectRef) :
    writeText r n visiting v = some (r.writeText? n visiting v) := by
  induction n generalizing visiting v with
  | zero => cases v <;> rfl
  | succ n ih =>
    cases v with
    | object ref =>
      have hread (key : String) := getFrom_eq h hv key
      have hinside (key : String) : r.Inside (r.getFrom ref key) := h.inside_getFrom ref key
      unfold writeText Realm.writeText?
      rw [Realm.object?_of_inside hv]
      dsimp only [bind, Option.bind]
      cases (r.object ref).kind with
      | ordinary => rfl
      | function closure => rfl
      | regExp pattern flags => rfl
      | error =>
        rw [hread, hread]
        dsimp only
        rw [ih (hinside _), ih (hinside _)]
        rfl
      | array =>
        dsimp only
        split
        · rfl
        · refine mapM_parts (fun i => ?_) _ _
          have helement := hinside (toString i)
          rw [hread]
          generalize r.getFrom ref (toString i) = element at helement ⊢
          cases element with
          | undefined | null => rfl
          | _ => exact ih helement _
    | _ => rfl

theorem toText_eq (h : r.Founded) (hv : r.Inside v) : toText r v = some (r.toText v) := by
  unfold toText
  rw [writeText_eq h hv]
  rfl

theorem toPrimitive_eq (h : r.Founded) (hv : r.Inside v) :
    toPrimitive r v = some (r.toPrimitive v) := by
  cases v with
  | object ref =>
    show (toText r (.object ref) >>= _) = _
    rw [toText_eq h hv]
    rfl
  | _ => rfl

theorem toNumber_eq (h : r.Founded) (hv : r.Inside v) : toNumber r v = some (r.toNumber v) := by
  unfold toNumber
  rw [toPrimitive_eq h hv]
  rfl

theorem toWord_eq (h : r.Founded) (hv : r.Inside v) : toWord r v = some (r.toWord v) := by
  unfold toWord
  rw [toNumber_eq h hv]
  rfl

theorem isCallable_eq (hv : r.Inside v) : isCallable r v = some (r.isCallable v) := by
  cases v with
  | object ref =>
    show (r.object? ref >>= _) = _
    rw [Realm.object?_of_inside hv]
    rfl
  | _ => rfl

theorem typeName_eq (hv : r.Inside v) : typeName r v = some (r.typeName v) := by
  cases v with
  | object ref =>
    show (isCallable r (.object ref) >>= _) = _
    rw [isCallable_eq hv]
    rfl
  | _ => rfl

theorem read_eq (h : r.Founded) (hv : r.Inside v) (key : String) :
    read r v key = some (r.read v key) := by
  cases v with
  | object ref =>
    show (getFrom r ref key >>= _) = _
    rw [getFrom_eq h hv]
    rfl
  | _ => rfl

theorem instanceOf_eq (h : r.Founded) (ha : r.Inside a) (hb : r.Inside b) :
    instanceOf r a b = some (r.instanceOf a b) := by
  unfold instanceOf Realm.instanceOf
  rw [isCallable_eq hb]
  dsimp only [bind, Option.bind]
  split
  · rw [read_eq h hb]
    cases r.read b "prototype" with
    | error fault => rfl
    | ok prototype =>
      dsimp only [Except.bind]
      cases prototype.object? with
      | none => rfl
      | some target =>
        cases a with
        | object ref =>
          have hs (p : ObjectRef) (hp : (r.object ref).prototype = some p) :
              r.Inside (.object p) :=
            Nat.lt_trans ((h.objects (Realm.object?_of_inside ha)).prototype p hp) ha
          show (r.object? ref).bind _ = _
          rw [Realm.object?_of_inside ha]
          show (ancestors r (r.object ref).prototype).bind _ = _
          rw [ancestors_eq h hs]
          rfl
        | _ => rfl
  · rfl

theorem toPrimitive_toPrimitive (r : Realm) (v : Value) :
    r.toPrimitive (r.toPrimitive v) = r.toPrimitive v := by
  cases v <;> rfl

theorem looseEquals_eq (h : r.Founded) (ha : r.Inside a) (hb : r.Inside b) :
    looseEquals r a b = some (r.looseEquals a b) := by
  have hboth :
      (toPrimitive r a >>= fun a => toPrimitive r b >>= fun b => some (r.looseEquals a b)) =
        some (r.looseEquals (r.toPrimitive a) (r.toPrimitive b)) := by
    rw [toPrimitive_eq h ha, toPrimitive_eq h hb]
    rfl
  -- An object equals no other, and neither `undefined` nor `null`, whatever its text.
  cases a with
  | object ref =>
    cases b with
    | object ref' | undefined | null => rfl
    | boolean b' | number x | string s => exact hboth
  | undefined | null =>
    cases b with
    | object ref => rfl
    | _ => exact hboth
  | boolean b' | number x | string s => cases b <;> exact hboth

theorem compares_eq (h : r.Founded) (ha : r.Inside a) (hb : r.Inside b) (expected : Bool) :
    compares r a b expected = some (r.compares a b expected) := by
  unfold compares Realm.compares Realm.less?
  rw [toPrimitive_eq h ha, toPrimitive_eq h hb]
  dsimp only [bind, Option.bind]
  rw [toPrimitive_toPrimitive, toPrimitive_toPrimitive]
  rfl

theorem add_eq (h : r.Founded) (ha : r.Inside a) (hb : r.Inside b) :
    add r a b = some (r.add a b) := by
  unfold add Realm.add
  rw [toPrimitive_eq h ha, toPrimitive_eq h hb]
  dsimp only [bind, Option.bind]
  rw [toPrimitive_toPrimitive, toPrimitive_toPrimitive]
  rfl

theorem evaluate_eq (h : r.Founded) (ha : r.Inside a) (hb : r.Inside b) (op : Operation) :
    evaluate r op a b = some (TreeScript.evaluate r op a b) := by
  cases op <;> simp [evaluate, TreeScript.evaluate, toNumber_eq h, toWord_eq h, add_eq h,
    typeName_eq, compares_eq h, looseEquals_eq h, ha, hb]

/-! ## Names in a founded realm -/

theorem scopesFrom_of_walk {n : Nat} {start : Option EnvRef} {refs : List EnvRef}
    (h : Walk r.env? Environment.outer start refs) (hn : refs.length ≤ n) :
    scopesFrom r n start = some refs := by
  induction h generalizing n with
  | done => cases n <;> rfl
  | step he _ ih =>
    cases n with
    | zero => cases hn
    | succ n =>
      unfold scopesFrom
      rw [he]
      show (scopesFrom r n _ >>= _) = _
      rw [ih (Nat.le_of_succ_le_succ hn)]
      rfl

theorem length_scopesFrom_le (r : Realm) (n : Nat) (start : Option EnvRef) :
    (r.scopesFrom n start).length ≤ n := by
  induction n generalizing start with
  | zero => exact Nat.le_refl 0
  | succ n ih =>
    cases start with
    | none => exact Nat.zero_le _
    | some ref => exact Nat.succ_le_succ (ih (r.env ref).outer)

theorem resolveIn_of_walk {start : Option EnvRef} {refs : List EnvRef}
    (h : Walk r.env? Environment.outer start refs) (name : String) :
    resolveIn r name refs = some (refs.find? fun ref => (r.env ref).has name) := by
  induction h with
  | done => rfl
  | @step ref e refs he _ ih =>
    unfold resolveIn
    rw [he, List.find?_cons, Realm.env_of_env? he]
    show (if e.has name then _ else _) = _
    cases e.has name with
    | true => rfl
    | false => exact ih

theorem resolve_eq (h : r.Founded) (he : r.HasEnv env) (name : String) :
    resolve r env name = some (r.resolve env name) := by
  have hwalk := h.walk_scopes he
  unfold resolve
  rw [scopesFrom_of_walk hwalk (length_scopesFrom_le _ _ _)]
  exact resolveIn_of_walk hwalk name

theorem lookup_eq (h : r.Founded) (he : r.HasEnv env) (name : String) :
    lookup r env name = some (r.lookup env name) := by
  unfold lookup Realm.lookup
  rw [resolve_eq h he]
  cases hfound : r.resolve env name with
  | none => rfl
  | some ref =>
    have hthere := Realm.env?_of_hasEnv (Realm.hasEnv_of_resolves (hfound ▸ h.resolves he name))
    show (r.env? ref >>= _) = _
    rw [hthere]
    rfl

theorem valueOf_eq (h : r.Founded) (he : r.HasEnv env) (name : String) :
    valueOf r env name = some (r.valueOf env name) := by
  unfold valueOf Realm.valueOf
  rw [lookup_eq h he]
  cases r.lookup env name <;> rfl

end

/-! ## Changing -/

def found : Option α → Guarded ε σ α
  | some a => pure a
  | none => throw (.trap .index)

def raise (e : ε) : Guarded ε σ α := throw (.raised e)

def lift (x : EStateM ε σ α) : Guarded ε σ α := fun s => translate id .raised (x s)

def sum (w a b : Nat) : Guarded ε σ Nat :=
  if a + b < 2 ^ w then pure (a + b) else throw (.trap .overflow)

def modifyObject (ref : ObjectRef) (f : Object → Object) : Guarded Fault Realm Unit := do
  if ref.index < (← get).objects.size then modify (·.modifyObject ref f)
  else throw (.trap .index)

def modifyEnv (ref : EnvRef) (f : Environment → Environment) : Guarded Fault Realm Unit := do
  if ref.index < (← get).environments.size then modify (·.modifyEnv ref f)
  else throw (.trap .index)

def assign (env : EnvRef) (name : String) (value : Value) (strict : Bool) :
    Guarded Fault Realm Unit := do
  match ← found (resolve (← get) env name) with
  | some ref => modifyEnv ref (·.bind name value)
  | none =>
    if strict then raise (.notDefined name)
    modifyEnv Realm.globalEnv fun e => (e.declare name true).bind name value

def deleteBinding (env : EnvRef) (name : String) : Guarded Fault Realm Bool := do
  let r ← get
  match ← found (resolve r env name) with
  | none => return true
  | some ref =>
    if (← found (r.env? ref)).canDelete name then
      modifyEnv ref (·.erase name)
      return true
    else
      return false

def setLength (ref : ObjectRef) (value : Value) : Guarded Fault Realm Unit := do
  let requested ← found (toNumber (← get) value)
  let length := Number.saturated32 requested
  if Number.ofNat length == requested then
    modifyObject ref fun o =>
      (o.truncate length).define "length" (.hidden (.number (Number.ofNat length)))
  else raise .invalidLength

def putOwn (ref : ObjectRef) (key : String) (value : Value) (strict : Bool) :
    Guarded Fault Realm Unit := do
  if (← found ((← get).object? ref)).canWrite key then
    modifyObject ref (·.write key value)
  else if strict then
    raise (.readOnly key)

def put (base : Value) (key : String) (value : Value) (strict : Bool) :
    Guarded Fault Realm Unit := do
  match base with
  | .object ref =>
    if (← found ((← get).object? ref)).isArray then
      if key = "length" then setLength ref value
      else
        match Number.indexOf? key with
        | none => pure ()
        | some index => modifyObject ref (Realm.growTo · index)
        putOwn ref key value strict
    else putOwn ref key value strict
  | base => lift (Realm.put base key value strict)

def delete (base : Value) (key : String) (strict : Bool) : Guarded Fault Realm Bool := do
  match base with
  | .object ref =>
    if (← found ((← get).object? ref)).canDelete key then
      modifyObject ref (·.erase key)
      return true
    else if strict then
      raise (.cannotDelete key)
    else
      return false
  | base => lift (Realm.delete base key strict)

def apply (op : Operation) (args : List Value) : Guarded Fault Realm Value := do
  let a := args.getD 0 .undefined
  let b := args.getD 1 .undefined
  let c := args.getD 2 .undefined
  let r ← get
  match op with
  | .newArray _ | .newObject | .call _ | .construct _ => lift (TreeScript.apply op args)
  | .newRegExp =>
    let pattern ← found (toText r a)
    let flags ← found (toText r b)
    match flags.toList.find? (!Realm.validFlag ·) with
    | some flag => raise (.regExpFlag flag)
    | none => lift (allocate (·.newRegExp pattern flags))
  | .in =>
    match b.object? with
    | none => raise (.inPrimitive (← found (toText r a)) (← found (toText r b)))
    | some ref => return .boolean (← found (hasProperty r ref (← found (toText r a))))
  | .instanceOf => return .boolean (← lift (liftExcept (← found (instanceOf r a b))))
  | .getProperty => lift (liftExcept (← found (read r a (← found (toText r b)))))
  | .putProperty strict =>
    put a (← found (toText r b)) c strict
    return c
  | .deleteProperty strict => return .boolean (← delete a (← found (toText r b)) strict)
  | .defineProperty =>
    match a.object? with
    | none => raise .definePrimitive
    | some ref =>
      let key ← found (toText r b)
      modifyObject ref (·.define key (.data c))
      return a
  | .enumerateKeys =>
    let keys := (← found (enumerateKeys r a)).map Value.string
    lift (allocate (·.newArray keys))
  | .print =>
    let line ← found (toText r a)
    modify (·.print line)
    return .undefined
  | _ => return (← found (evaluate r op a b)).getD .undefined

theorem found_some (a : α) : (found (some a) : Guarded ε σ α) = pure a := rfl

theorem sum_eq {a b : Nat} (h : a + b < 2 ^ w) : (sum w a b : Guarded ε σ Nat) = pure (a + b) :=
  if_pos h

section

variable {ε σ α β : Type} {U : Upkeep ε σ} {s : σ} {x : EStateM ε σ α} {A : σ → α → Prop}

theorem mirrors_lift (h : U.Sustains s x A) : U.Mirrors id .raised s x (lift x) A := ⟨h, rfl⟩

theorem mirrors_get {f : σ → EStateM ε σ α} {g : σ → Guarded ε σ α}
    (h : U.Mirrors id .raised s (f s) (g s) A) :
    U.Mirrors id .raised s (get >>= f) (get >>= g) A :=
  Upkeep.mirrors_get h

theorem mirrors_sum {a b : Nat} {g : Nat → Guarded ε σ α} (hsum : a + b < 2 ^ w)
    (h : U.Mirrors id .raised s x (g (a + b)) A) :
    U.Mirrors id .raised s x (sum w a b >>= g) A := by
  rw [sum_eq hsum]
  exact ⟨h.sustains, h.eq⟩

theorem mirrors_found {o : Option β} {b : β} {g : β → Guarded ε σ α} (ho : o = some b)
    (h : U.Mirrors id .raised s x (g b) A) : U.Mirrors id .raised s x (found o >>= g) A := by
  rw [ho]
  exact ⟨h.sustains, h.eq⟩

end

end Guarded

/-! ## Changing a founded realm -/

namespace Realm

/-- From `r` to `r'` objects and environments are only added, and the counters of runs and the limit
of calls stay. -/
structure Quiet (r r' : Realm) : Prop extends Grows r r' where
  limit : r'.maxCallDepth = r.maxCallDepth
  runs : r'.invocations = r.invocations
  traces : r'.traceUnits = r.traceUnits

theorem Quiet.refl (r : Realm) : Quiet r r := ⟨.refl r, rfl, rfl, rfl⟩

theorem Quiet.trans {r s t : Realm} (h : Quiet r s) (h' : Quiet s t) : Quiet r t :=
  ⟨h.toGrows.trans h'.toGrows, h'.limit.trans h.limit, h'.runs.trans h.runs,
    h'.traces.trans h.traces⟩

theorem Quiet.runsOf {r r' : Realm} (h : Quiet r r') (unit : String) :
    r'.runsOf unit = r.runsOf unit := by
  unfold Realm.runsOf
  rw [h.runs]

/-- Realms stay founded, and nothing is counted. -/
def guarding : Upkeep Fault Realm where
  along := Quiet
  refl := Quiet.refl
  trans := Quiet.trans
  holds := Founded
  fails := Throws

/-- From `r` a computation keeps the realm founded, and its guarded version does the same. -/
abbrev Concurs (r : Realm) (x : RealmM α) (y : Guarded Fault Realm α)
    (A : Realm → α → Prop) : Prop :=
  guarding.Mirrors id .raised r x y A

variable {r : Realm} {v : Value} {ref : ObjectRef} {env : EnvRef}

theorem concurs_modifyObject (h : r.Founded) (hr : r.Inside (.object ref)) {f : Object → Object}
    (hk : ∀ o, (f o).kind = o.kind) (hf : ∀ {i o}, r.HasObject i o → r.HasObject i (f o)) :
    r.Concurs (modify (·.modifyObject ref f)) (Guarded.modifyObject ref f) fun _ _ => True := by
  refine ⟨sustains_modify (U := guarding) ⟨grows_modifyObject r ref hk, rfl, rfl, rfl⟩
    (h.modifyObject ref hf) trivial, ?_⟩
  have hlt : ref.index < r.objects.size := hr
  show (if ref.index < r.objects.size then _ else _ : Guarded Fault Realm Unit) r = _
  rw [if_pos hlt]
  rfl

theorem concurs_modifyEnv (h : r.Founded) (he : r.HasEnv env) {f : Environment → Environment}
    (hf : ∀ {i e}, r.HasScope i e → r.HasScope i (f e)) :
    r.Concurs (modify (·.modifyEnv env f)) (Guarded.modifyEnv env f) fun _ _ => True := by
  refine ⟨sustains_modify (U := guarding) ⟨grows_modifyEnv r env f, rfl, rfl, rfl⟩
    (h.modifyEnv env hf) trivial, ?_⟩
  have hlt : env.index < r.environments.size := he
  show (if env.index < r.environments.size then _ else _ : Guarded Fault Realm Unit) r = _
  rw [if_pos hlt]
  rfl

theorem concurs_addEnv (h : r.Founded) (he : r.HasEnv env) :
    r.Concurs (modifyGet (·.addEnv (some env))) (modifyGet (·.addEnv (some env))) HasEnv := by
  obtain ⟨hf, hnew⟩ := h.addEnv he
  exact mirrors_modifyGet (U := guarding)
    ⟨(steady_addEnv (K := fun _ => True) r _).toGrows, rfl, rfl, rfl⟩ hf hnew rfl

theorem concurs_allocate {f : Realm → ObjectRef × Realm} (hq : Quiet r (f r).2)
    (hf : (f r).2.Founded) (hi : (f r).2.Inside (.object (f r).1)) :
    r.Concurs (allocate f) (Guarded.lift (allocate f)) Inside :=
  Guarded.mirrors_lift ⟨hq, hf, hi⟩

theorem concurs_addObject {f : Realm → Object} (hf : (r.addObject (f r)).2.Founded) :
    r.Concurs (allocate fun r => r.addObject (f r))
      (Guarded.lift (allocate fun r => r.addObject (f r))) Inside :=
  concurs_allocate ⟨grows_addObject r _, rfl, rfl, rfl⟩ hf (inside_addObject r _)

theorem concurs_newArray (h : r.Founded) {elements : List Value} (he : ∀ v ∈ elements, r.Inside v) :
    r.Concurs (allocate (·.newArray elements)) (Guarded.lift (allocate (·.newArray elements)))
      Inside :=
  concurs_addObject (h.newArray he)

theorem concurs_assign (h : r.Founded) (he : r.HasEnv env) (name : String) (hv : r.Inside v)
    (strict : Bool) :
    r.Concurs (assign env name v strict) (Guarded.assign env name v strict) fun _ _ => True := by
  refine Guarded.mirrors_get (Guarded.mirrors_found (Guarded.resolve_eq h he name) ?_)
  cases hfound : r.resolve env name with
  | some ref =>
    exact concurs_modifyEnv h (hasEnv_of_resolves (hfound ▸ h.resolves he name))
      fun he => he.bind name hv
  | none =>
    cases strict with
    | true =>
      exact (mirrors_throw (A := fun _ _ => False) h trivial rfl).bind fun _ _ _ _ hf => hf.elim
    | false =>
      exact concurs_modifyEnv h h.global fun he => (he.declare name true).bind name hv

theorem concurs_deleteBinding (h : r.Founded) (he : r.HasEnv env) (name : String) :
    r.Concurs (deleteBinding env name) (Guarded.deleteBinding env name) fun _ _ => True := by
  refine Guarded.mirrors_get (Guarded.mirrors_found (Guarded.resolve_eq h he name) ?_)
  cases hfound : r.resolve env name with
  | none => exact mirrors_pure h trivial
  | some ref =>
    have href : r.HasEnv ref := hasEnv_of_resolves (hfound ▸ h.resolves he name)
    refine Guarded.mirrors_found (env?_of_hasEnv href) ?_
    dsimp only
    split
    · exact (concurs_modifyEnv h href fun he => he.erase name).bind fun _ _ _ hr _ =>
        mirrors_pure hr trivial
    · exact mirrors_pure h trivial

theorem concurs_setLength (h : r.Founded) (hr : r.Inside (.object ref)) (hv : r.Inside v) :
    r.Concurs (setLength ref v) (Guarded.setLength ref v) fun _ _ => True := by
  refine Guarded.mirrors_get (Guarded.mirrors_found (Guarded.toNumber_eq h hv) ?_)
  dsimp only
  split
  · exact concurs_modifyObject h hr (fun _ => rfl) fun ho => (ho.truncate _).define "length" trivial
  · exact mirrors_throw h trivial rfl

theorem concurs_putOwn (h : r.Founded) (hr : r.Inside (.object ref)) (key : String)
    (hv : r.Inside v) (strict : Bool) :
    r.Concurs (putOwn ref key v strict) (Guarded.putOwn ref key v strict) fun _ _ => True := by
  refine Guarded.mirrors_get (Guarded.mirrors_found (object?_of_inside hr) ?_)
  split
  · exact concurs_modifyObject h hr (fun o => kind_write o key v) fun ho => ho.write key hv
  · split
    · exact mirrors_throw h trivial rfl
    · exact mirrors_pure h trivial

theorem concurs_put (h : r.Founded) {base : Value} (hb : r.Inside base) (key : String)
    (hv : r.Inside v) (strict : Bool) :
    r.Concurs (put base key v strict) (Guarded.put base key v strict) fun _ _ => True := by
  cases base with
  | object ref =>
    refine Guarded.mirrors_get (Guarded.mirrors_found (object?_of_inside hb) ?_)
    split
    · split
      · exact concurs_setLength h hb hv
      · cases Number.indexOf? key with
        | none => exact concurs_putOwn h hb key hv strict
        | some index =>
          refine (concurs_modifyObject h hb (kind_growTo · index) fun ho => ho.growTo index).bind ?_
          exact fun _ r' hq h' _ =>
            concurs_putOwn h' (hb.mono hq.objects) key (hv.mono hq.objects) strict
    · exact concurs_putOwn h hb key hv strict
  | undefined | null => exact Guarded.mirrors_lift (sustains_throw h trivial)
  | boolean b | number x | string s =>
    cases strict with
    | false => exact Guarded.mirrors_lift (sustains_pure h trivial)
    | true => exact Guarded.mirrors_lift (sustains_throw h trivial)

theorem concurs_delete (h : r.Founded) {base : Value} (hb : r.Inside base) (key : String)
    (strict : Bool) :
    r.Concurs (delete base key strict) (Guarded.delete base key strict) fun _ _ => True := by
  cases base with
  | object ref =>
    refine Guarded.mirrors_get (Guarded.mirrors_found (object?_of_inside hb) ?_)
    split
    · refine (concurs_modifyObject h hb (f := (·.erase key)) (fun _ => rfl) fun ho =>
        ho.erase key).bind fun _ _ _ hr _ => mirrors_pure hr trivial
    · split
      · exact mirrors_throw h trivial rfl
      · exact mirrors_pure h trivial
  | undefined | null => exact Guarded.mirrors_lift (sustains_throw h trivial)
  | boolean b | number x | string s => exact Guarded.mirrors_lift (sustains_pure h trivial)

theorem inside_object? (hv : r.Inside v) (h : v.object? = some ref) : r.Inside (.object ref) := by
  cases v with
  | object ref' =>
    cases h
    exact hv
  | _ => cases h

theorem concurs_apply (h : r.Founded) (op : Operation) {args : List Value}
    (hargs : ∀ v ∈ args, r.Inside v) :
    r.Concurs (apply op args) (Guarded.apply op args) Inside := by
  have harg := inside_getD hargs
  have htext (k : Nat) := Guarded.toText_eq h (harg k)
  refine Guarded.mirrors_get ?_
  cases op with
  | newArray n => exact concurs_newArray h hargs
  | newObject => exact concurs_addObject h.newObject
  | newRegExp =>
    refine Guarded.mirrors_found (htext 0) (Guarded.mirrors_found (htext 1) ?_)
    dsimp only
    cases (r.toText (args.getD 1 .undefined)).toList.find? (!validFlag ·) with
    | some flag => exact mirrors_throw h trivial rfl
    | none => exact concurs_addObject (h.newRegExp _ _)
  | «in» =>
    cases hb : (args.getD 1 .undefined).object? with
    | none =>
      exact Guarded.mirrors_found (htext 0) (Guarded.mirrors_found (htext 1)
        (mirrors_throw h trivial rfl))
    | some ref =>
      refine Guarded.mirrors_found (htext 0) ?_
      exact Guarded.mirrors_found (Guarded.hasProperty_eq h (inside_object? (harg 1) hb) _)
        (mirrors_pure h trivial)
  | instanceOf =>
    refine Guarded.mirrors_found (Guarded.instanceOf_eq h (harg 0) (harg 1)) ?_
    refine (Guarded.mirrors_lift (sustains_liftExcept (A := fun _ _ => True) h
      (fun _ _ => trivial) fun _ he => instanceOf_throws he)).bind
      fun _ _ _ hr _ => mirrors_pure hr trivial
  | getProperty =>
    refine Guarded.mirrors_found (htext 1) (Guarded.mirrors_found (Guarded.read_eq h (harg 0) _) ?_)
    exact Guarded.mirrors_lift (sustains_liftExcept h (fun _ hv => h.inside_read hv)
      fun _ he => throws_read he)
  | putProperty strict =>
    refine Guarded.mirrors_found (htext 1) ?_
    exact (concurs_put h (harg 0) _ (harg 2) strict).bind fun _ _ hq hr _ =>
      mirrors_pure hr ((harg 2).mono hq.objects)
  | deleteProperty strict =>
    refine Guarded.mirrors_found (htext 1) ?_
    exact (concurs_delete h (harg 0) _ strict).bind fun _ _ _ hr _ => mirrors_pure hr trivial
  | defineProperty =>
    cases ha : (args.getD 0 .undefined).object? with
    | none => exact mirrors_throw h trivial rfl
    | some ref =>
      refine Guarded.mirrors_found (htext 1) ?_
      refine (concurs_modifyObject h (inside_object? (harg 0) ha)
        (f := (·.define (r.toText (args.getD 1 .undefined)) (.data (args.getD 2 .undefined))))
        (fun _ => rfl) fun ho => ho.define _ (harg 2)).bind ?_
      exact fun _ _ hq hr _ => mirrors_pure hr ((harg 0).mono hq.objects)
  | enumerateKeys =>
    refine Guarded.mirrors_found (Guarded.enumerateKeys_eq h (harg 0)) ?_
    refine concurs_newArray h fun v hv => ?_
    obtain ⟨key, -, rfl⟩ := List.mem_map.mp hv
    trivial
  | print =>
    refine Guarded.mirrors_found (htext 0) ?_
    have hprint (line : String) :
        r.Concurs (modify (·.print line)) (modify (·.print line)) fun _ _ => True :=
      mirrors_modify (U := guarding) ⟨grows_of_objects rfl (Nat.le_refl _), rfl, rfl, rfl⟩
        (h.of_same rfl rfl) trivial rfl
    exact (hprint _).bind fun _ _ _ hr _ => mirrors_pure hr trivial
  | call argc | construct argc => exact mirrors_throw h trivial rfl
  | _ =>
    exact Guarded.mirrors_found (Guarded.evaluate_eq h (harg 0) (harg 1) _)
      (mirrors_pure h (inside_evaluate r _ _ _))

end Realm

end TreeScript
