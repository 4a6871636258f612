import TreeScript.Realm.Basic

/-!
# Names

A name means the nearest binding of it, from an environment outward.
-/

namespace TreeScript.Realm

/-- An environment and those around it, as far as `n` steps go. -/
def scopesFrom (r : Realm) : Nat → Option EnvRef → List EnvRef
  | 0, _ | _, none => []
  | n + 1, some ref => ref :: scopesFrom r n (r.env ref).outer

def scopes (r : Realm) (env : EnvRef) : List EnvRef :=
  r.scopesFrom r.environments.size (some env)

def resolve (r : Realm) (env : EnvRef) (name : String) : Option EnvRef :=
  (r.scopes env).find? fun ref => (r.env ref).has name

def lookup (r : Realm) (env : EnvRef) (name : String) : Option Value := do
  (r.env (← r.resolve env name)).get? name

/-- The value of a name, which has to have one. -/
def valueOf (r : Realm) (env : EnvRef) (name : String) : Except Fault Value :=
  match r.lookup env name with
  | some v => .ok v
  | none => .error (.notDefined name)

/-- Assigns to a name.  One that is bound nowhere becomes global, or a fault in strict code. -/
def assign (env : EnvRef) (name : String) (value : Value) (strict : Bool) : RealmM Unit := do
  match (← get).resolve env name with
  | some ref => modify (·.modifyEnv ref (·.bind name value))
  | none =>
    if strict then throw (.notDefined name)
    modify (·.modifyEnv globalEnv fun e => (e.declare name true).bind name value)

/-- Deletes the nearest binding of a name, and tells whether there is none left to stay. -/
def deleteBinding (env : EnvRef) (name : String) : RealmM Bool := do
  let r ← get
  match r.resolve env name with
  | none => return true
  | some ref =>
    if (r.env ref).canDelete name then
      modify (·.modifyEnv ref (·.erase name))
      return true
    else
      return false

end TreeScript.Realm
