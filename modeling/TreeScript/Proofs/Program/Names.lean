import TreeScript.Proofs.Program.Properties
import TreeScript.Proofs.Realm.Bindings

/-!
# Assigning to names and deleting them

Environments form a tree: from each of them the way leads outward to the global one, and it is never
as long as the limit that `scopes` puts on it.  An assignment changes one binding, or makes one in
the global environment.  Whether another environment sees the change depends on what the name was
bound to from there: those that saw what is written see the new value, those that saw nothing see
the new global binding, and nobody else sees anything.
-/

namespace TreeScript

open Code Syntax Lowering

namespace Realm

variable {r r' : Realm} {ref env env' : EnvRef} {name : String}

/-- From `r` to `r'` nothing has changed but one name in one environment, whose binding is `b`
now. -/
structure Rebound (r : Realm) (ref : EnvRef) (name : String) (b : Option Binding) (r' : Realm) :
    Prop where
  rest : r' = { r with environments := r'.environments }
  size : r'.environments.size = r.environments.size
  outer : ∀ ref', (r'.env ref').outer = (r.env ref').outer
  bindings : ∀ ref' name', (r'.env ref').bindings.find? name' =
    if ref' = ref ∧ name' = name then b else (r.env ref').bindings.find? name'

theorem rebound_modifyEnv (hin : r.HasEnv ref) {f : Environment → Environment}
    {b : Option Binding} (houter : (f (r.env ref)).outer = (r.env ref).outer)
    (hbindings : ∀ name', (f (r.env ref)).bindings.find? name' =
      if name' = name then b else (r.env ref).bindings.find? name') :
    r.Rebound ref name b (r.modifyEnv ref f) := by
  refine ⟨rfl, size_modifyEnv r ref f, fun ref' => ?_, fun ref' name' => ?_⟩
  · by_cases h : ref' = ref
    · rw [h, env_modifyEnv_self hin, houter]
    · rw [env_modifyEnv_of_ne r h]
  · by_cases h : ref' = ref
    · rw [h, env_modifyEnv_self hin, hbindings]
      simp
    · rw [env_modifyEnv_of_ne r h, if_neg fun hand => h hand.1]

/-! ## Searches before and after -/

theorem has_eq_isSome (r : Realm) (ref : EnvRef) (name : String) :
    (r.env ref).has name = ((r.env ref).bindings.find? name).isSome :=
  KeyTable.contains_eq_isSome_find? _ _

theorem has_of_resolve (h : r.resolve env name = some ref) : (r.env ref).has name = true :=
  List.find?_some (p := fun ref => (r.env ref).has name) h

theorem find?_of_resolve (h : r.resolve env name = some ref) :
    ∃ b, (r.env ref).bindings.find? name = some b := by
  have hhas := has_of_resolve h
  rw [has_eq_isSome] at hhas
  exact Option.isSome_iff_exists.mp hhas

theorem Rebound.scopes {b : Option Binding} (h : r.Rebound ref name b r') (env : EnvRef) :
    r'.scopes env = r.scopes env := by
  have hfrom (n : Nat) (start : Option EnvRef) : r'.scopesFrom n start = r.scopesFrom n start := by
    induction n generalizing start with
    | zero => cases start <;> rfl
    | succ n ih =>
      cases start with
      | none => rfl
      | some ref' =>
        show ref' :: r'.scopesFrom n (r'.env ref').outer = ref' :: r.scopesFrom n (r.env ref').outer
        rw [h.outer, ih]
  unfold Realm.scopes
  rw [h.size, hfrom]

theorem Rebound.resolve {b : Binding} (h : r.Rebound ref name (some b) r')
    (hhas : (r.env ref).has name = true) (env' : EnvRef) (name' : String) :
    r'.resolve env' name' = r.resolve env' name' := by
  unfold Realm.resolve
  rw [h.scopes]
  refine congrArg (fun p => (r.scopes env').find? p) (funext fun ref' => ?_)
  rw [has_eq_isSome, has_eq_isSome, h.bindings]
  split
  · next heq =>
    rw [heq.1, heq.2, ← has_eq_isSome, hhas]
    rfl
  · rfl

theorem Rebound.lookup {b : Binding} (h : r.Rebound ref name (some b) r')
    (hhas : (r.env ref).has name = true) (env' : EnvRef) (name' : String) :
    r'.lookup env' name' =
      if name' = name ∧ r.resolve env' name = some ref then some b.value
      else r.lookup env' name' := by
  unfold Realm.lookup
  rw [h.resolve hhas]
  by_cases hname : name' = name
  · subst hname
    cases hfound : r.resolve env' name' with
    | none => simp
    | some ref' =>
      by_cases href : ref' = ref
      · subst href
        simp [Environment.get?, h.bindings]
      · simp [Environment.get?, h.bindings, href]
  · cases r.resolve env' name' with
    | none => simp [hname]
    | some ref' => simp [Environment.get?, h.bindings, hname]

theorem Founded.scopes_eq (h : r.Founded) (he : r.HasEnv env) :
    ∃ inner, r.scopes env = inner ++ [globalEnv] ∧ globalEnv ∉ inner := by
  have hends {start : Option EnvRef} {refs : List EnvRef}
      (hw : Walk r.env? Environment.outer start refs) (hs : start.isSome) :
      ∃ inner, refs = inner ++ [globalEnv] ∧ globalEnv ∉ inner := by
    induction hw with
    | done => cases hs
    | @step ref e refs hfound hrest ih =>
      have hscope := h.environments hfound
      cases houter : e.outer with
      | none =>
        rw [houter] at hrest
        cases hrest
        have href : ref = globalEnv := congrArg EnvRef.mk (hscope.global houter)
        exact ⟨[], by rw [href]; rfl, List.not_mem_nil⟩
      | some o =>
        obtain ⟨inner, rfl, hinner⟩ := ih (by rw [houter]; rfl)
        refine ⟨ref :: inner, rfl, fun hmem => ?_⟩
        rcases List.mem_cons.mp hmem with heq | hmem
        · have hlt := hscope.outer o houter
          rw [← heq] at hlt
          exact absurd hlt (Nat.not_lt_zero _)
        · exact hinner hmem
  exact hends (h.walk_scopes he) rfl

/-- A new global binding is found from where nothing was found, and from nowhere else. -/
theorem Rebound.resolve_global {b : Binding} (h : r.Rebound globalEnv name (some b) r')
    (hr : r.Founded) (hnew : (r.env globalEnv).has name = false) (he : r.HasEnv env') :
    r'.resolve env' name = (r.resolve env' name).or (some globalEnv) := by
  obtain ⟨inner, hscopes, hinner⟩ := hr.scopes_eq he
  have hsame : inner.find? (fun ref => (r'.env ref).has name) =
      inner.find? fun ref => (r.env ref).has name := by
    rw [← List.head?_filter, ← List.head?_filter]
    refine congrArg _ (List.filter_congr fun ref href => ?_)
    rw [has_eq_isSome, has_eq_isSome, h.bindings, if_neg]
    rintro ⟨rfl, -⟩
    exact hinner href
  have hglobal : (r'.env globalEnv).has name = true := by
    rw [has_eq_isSome, h.bindings, if_pos ⟨rfl, rfl⟩]
    rfl
  unfold Realm.resolve
  rw [h.scopes, hscopes, List.find?_append, List.find?_append, hsame]
  simp [hglobal, hnew]

theorem Rebound.lookup_global {b : Binding} (h : r.Rebound globalEnv name (some b) r')
    (hr : r.Founded) (hnew : (r.env globalEnv).has name = false) (he : r.HasEnv env')
    (name' : String) :
    r'.lookup env' name' =
      if name' = name ∧ r.resolve env' name = none then some b.value else r.lookup env' name' := by
  unfold Realm.lookup
  by_cases hname : name' = name
  · subst hname
    rw [h.resolve_global hr hnew he]
    cases hfound : r.resolve env' name' with
    | none => simp [Environment.get?, h.bindings]
    | some ref =>
      have href : ref ≠ globalEnv := by
        rintro rfl
        cases hnew.symm.trans (has_of_resolve hfound)
      simp [Environment.get?, h.bindings, href]
  · have hsame : r'.resolve env' name' = r.resolve env' name' := by
      unfold Realm.resolve
      rw [h.scopes]
      refine congrArg (fun p => (r.scopes env').find? p) (funext fun ref => ?_)
      rw [has_eq_isSome, has_eq_isSome, h.bindings, if_neg fun hand => hname hand.2]
    rw [hsame]
    cases r.resolve env' name' with
    | none => simp [hname]
    | some ref => simp [Environment.get?, h.bindings, hname]

/-! ## Assigning and deleting -/

theorem find?_bind (e : Environment) {b : Binding} (hb : e.bindings.find? name = some b) (v : Value)
    (name' : String) : (e.bind name v).bindings.find? name' =
      if name' = name then some { b with value := v } else e.bindings.find? name' := by
  unfold Environment.bind
  rw [KeyTable.find?_insert, hb]
  rfl

theorem find?_declare_bind (e : Environment) (hnew : e.bindings.find? name = none) (v : Value)
    (name' : String) : ((e.declare name true).bind name v).bindings.find? name' =
      if name' = name then some ⟨v, true⟩ else e.bindings.find? name' := by
  have hdeclare : e.declare name true =
      { e with bindings := e.bindings.insert name ⟨.undefined, true⟩ } := by
    unfold Environment.declare Environment.has
    rw [KeyTable.contains_eq_isSome_find?, hnew]
    rfl
  rw [hdeclare, find?_bind _ (b := ⟨.undefined, true⟩)]
  · split
    · rfl
    · next hne => rw [KeyTable.find?_insert, if_neg hne]
  · rw [KeyTable.find?_insert, if_pos rfl]

theorem Founded.find?_global (h : r.Founded) (he : r.HasEnv env)
    (hnone : r.resolve env name = none) : (r.env globalEnv).bindings.find? name = none := by
  obtain ⟨inner, hscopes, -⟩ := h.scopes_eq he
  have hglobal := List.find?_eq_none.mp hnone globalEnv
    (by rw [hscopes]; exact List.mem_append_right _ List.mem_cons_self)
  rw [has_eq_isSome] at hglobal
  simpa using hglobal

end Realm

/-- The law of names, in every realm that compiled programs come to.  An assignment fails in strict
code if the name is bound nowhere, and leaves the realm as it was.  Otherwise it gives the nearest
binding of the name the value, or makes a global one that can be deleted.  Then the name has the
value, and has it from those environments, too, from which it was found in the same place or, like
here, nowhere; all other names and environments look up what they did.  Deleting a name takes its
nearest binding away if that can be deleted, and else changes nothing. -/
theorem met_bindings {r : Realm} (hr : r.Met) {env : EnvRef} (he : r.HasEnv env) (name : String) :
    r.Resolves env name (r.resolve env name) ∧
    (∀ v strict, strict = true ∧ r.resolve env name = none →
      Realm.assign env name v strict r = .error (.notDefined name) r) ∧
    (∀ v strict, ¬ (strict = true ∧ r.resolve env name = none) →
      ∃ r', Realm.assign env name v strict r = .ok () r' ∧
        (∀ ref, r.resolve env name = some ref →
          ∃ b, (r.env ref).bindings.find? name = some b ∧
            r.Rebound ref name (some { b with value := v }) r') ∧
        (r.resolve env name = none → (r.env Realm.globalEnv).bindings.find? name = none ∧
          r.Rebound Realm.globalEnv name (some ⟨v, true⟩) r') ∧
        r'.lookup env name = some v ∧
        ∀ env' name', r.HasEnv env' → r'.lookup env' name' =
          if name' = name ∧ r.resolve env' name = r.resolve env name then some v
          else r.lookup env' name') ∧
    (∀ ref, r.resolve env name = some ref → ∃ b, (r.env ref).bindings.find? name = some b ∧
      if b.deletable then
        ∃ r', Realm.deleteBinding env name r = .ok true r' ∧ r.Rebound ref name none r'
      else Realm.deleteBinding env name r = .ok false r) ∧
    (r.resolve env name = none → Realm.deleteBinding env name r = .ok true r) := by
  have hf := hr.founded
  have hresolves := hf.resolves he name
  refine ⟨hresolves, fun v strict hfail => ?_, fun v strict hok => ?_, fun ref href => ?_,
    fun hnone => ?_⟩
  · rw [Realm.assign_eq, hfail.2, hfail.1]
    rfl
  · cases hfound : r.resolve env name with
    | some ref =>
      obtain ⟨b, hb⟩ := Realm.find?_of_resolve hfound
      have hin := Realm.hasEnv_of_resolves (hfound ▸ hresolves)
      have hbound : r.Rebound ref name (some { b with value := v })
          (r.modifyEnv ref (·.bind name v)) :=
        Realm.rebound_modifyEnv hin rfl (Realm.find?_bind _ hb v)
      have hlookup := hbound.lookup (Realm.has_of_resolve hfound)
      rw [Realm.assign_eq, hfound]
      refine ⟨_, rfl, fun ref' href' => ?_, fun h => absurd h (Option.some_ne_none _), ?_,
        fun env' name' _ => hlookup env' name'⟩
      · cases href'
        exact ⟨b, hb, hbound⟩
      · rw [hlookup, if_pos ⟨rfl, hfound⟩]
    | none =>
      have hsloppy : ¬ strict = true := fun hstrict => hok ⟨hstrict, hfound⟩
      have hnew := hf.find?_global he hfound
      have hbound : r.Rebound Realm.globalEnv name (some ⟨v, true⟩) (r.modifyEnv Realm.globalEnv
          fun e => (e.declare name true).bind name v) := by
        refine Realm.rebound_modifyEnv hf.global ?_ (Realm.find?_declare_bind _ hnew v)
        unfold Environment.declare
        split <;> rfl
      have hhas : (r.env Realm.globalEnv).has name = false := by
        rw [Realm.has_eq_isSome, hnew]
        rfl
      rw [Realm.assign_eq, hfound]
      refine ⟨_, if_neg hsloppy, fun _ h => absurd h.symm (Option.some_ne_none _),
        fun _ => ⟨hnew, hbound⟩, ?_, fun env' name' he' => hbound.lookup_global hf hhas he' name'⟩
      rw [hbound.lookup_global hf hhas he, if_pos ⟨rfl, hfound⟩]
  · obtain ⟨b, hb⟩ := Realm.find?_of_resolve href
    have hin := Realm.hasEnv_of_resolves (href ▸ hresolves)
    have hcan : (r.env ref).canDelete name = b.deletable := by
      unfold Environment.canDelete
      rw [hb]
    refine ⟨b, hb, ?_⟩
    rw [Realm.deleteBinding_eq, href]
    dsimp only
    rw [hcan]
    split
    · refine ⟨_, rfl, Realm.rebound_modifyEnv hin rfl fun name' => ?_⟩
      exact KeyTable.find?_erase _ _ _
    · rfl
  · rw [Realm.deleteBinding_eq, hnone]

/-- Makes a function that knows itself by a name, in an environment of its own. -/
def namingItself : Program where
  body := [.expression (.function (.mk (some "f") [] [] false))]

theorem namingItself_ends :
    ((compile namingItself false).toOption.bind fun a =>
      (runProgram 100 a (.create 16 false) false).realm?.filter fun r =>
        r.environments.size == 2 && (r.resolve ⟨1⟩ "x").isNone &&
          (r.resolve Realm.globalEnv "x").isNone).isSome = true := by
  decide +kernel

/-- A name that is assigned to from the inner environment and looked up from the global one. -/
theorem met_bindings_namingItself : ∃ r r', Realm.Met r ∧ r.HasEnv ⟨1⟩ ∧
    Realm.assign ⟨1⟩ "x" (.boolean true) false r = .ok () r' ∧
    r.lookup Realm.globalEnv "x" = none ∧
    r'.lookup Realm.globalEnv "x" = some (.boolean true) := by
  obtain ⟨r, hends⟩ := Option.isSome_iff_exists.mp namingItself_ends
  obtain ⟨a, ha, hends⟩ := Option.bind_eq_some_iff.mp hends
  obtain ⟨hrealm, hends⟩ := Option.filter_eq_some_iff.mp hends
  simp only [Bool.and_eq_true, beq_iff_eq, Option.isNone_iff_eq_none] at hends
  obtain ⟨⟨hsize, hinner⟩, hglobal⟩ := hends
  obtain ⟨c, context, hrun⟩ := Outcome.of_realm? hrealm
  have hr : Realm.Met r :=
    .between (.run (.first ⟨16, false, rfl⟩) trivial (ok_of_toOption ha) hrun)
  have hin : r.HasEnv ⟨1⟩ := by
    show 1 < r.environments.size
    omega
  obtain ⟨-, -, hassign, -⟩ := met_bindings hr hin "x"
  obtain ⟨r', hok, -, -, -, hlookup⟩ := hassign (.boolean true) false fun h =>
    Bool.false_ne_true h.1
  refine ⟨r, r', hr, hin, hok, ?_, ?_⟩
  · unfold Realm.lookup
    rw [hglobal]
    rfl
  · rw [hlookup _ _ hr.founded.global, if_pos ⟨rfl, hglobal.trans hinner.symm⟩]

end TreeScript
