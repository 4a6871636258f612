import TreeScript.Proofs.Lowering.Safety
import TreeScript.Proofs.Lowering.Sources
import TreeScript.Proofs.Machine.Trust

/-!
# Compiled programs run safely

Compiled code finds on the stack, among its operands and in its artifact all that it needs, in every
realm that compiled programs have left behind.  The one error that is left is a jump that no
statement of a function takes.
-/

namespace TreeScript

open Code Syntax Lowering

/-- A realm that has not been used. -/
def Realm.IsNew (r : Realm) : Prop :=
  ∃ maxCallDepth traceUnits, r = .create maxCallDepth traceUnits

/-- The realms that those in `first` become by running compiled programs for which `Q` holds, and by
handing out what they print. -/
inductive Realm.Reached (first : Realm → Prop) (Q : Program → Prop) : Realm → Prop where
  | first {r : Realm} : first r → Reached first Q r
  | run {r r' : Realm} {p : Program} {strict strict' : Bool} {a : Artifact} {fuel : Nat}
      {result : Except MachineError Completion} {context : Context} :
    Reached first Q r → Q p → compile p strict = .ok a →
    runProgram fuel a r strict' = .halted result r' context → Reached first Q r'
  | takeOutput {r : Realm} : Reached first Q r → Reached first Q r.takeOutput.2

/-- All code is compiled; if `W`, its jumps are well scoped.  Properties are defined only on what is
`plain`. -/
def Policy.defining (W : Prop) (plain : Value → Prop) : Policy where
  toRules := compiledRules W plain
  fair := fair_allowed
  foreign _ _ := False
  reaches := nofun

/-- All code is compiled; if `W`, its jumps are well scoped. -/
abbrev Policy.compiled (W : Prop) : Policy := .defining W fun _ => True

instance (W : Prop) : (Policy.compiled W).Lax := ⟨fun _ => trivial⟩

variable {a : Artifact} {strict : Bool} {r : Realm}

section

variable {W : Prop} {plain : Value → Prop}

theorem not_open_compiled : ¬ (Policy.defining W plain).Open := fun ⟨_, _, h⟩ => h

theorem completes_declaring {body : List Stmt} (h : W → stmtsWellScoped {} body = true) :
    Completes a (compiledRules W plain) (Allowed W {}) ((Body.declaring body).gen strict) :=
  completes_declaringBody (passes_genDeclarations rfl strict {} body h)
    (completes_statementList allowed_of_isNormal (accumulates_genStatements rfl strict {} body h))

theorem defining_trusts_entry {p : Program} (h : compile p strict = .ok a)
    (hw : W → p.wellScoped = true) (n : Nat) :
    (Policy.defining W plain).Trusts n a a.entry := by
  obtain ⟨u, hu, -, -, hc⟩ := compile_entry h
  exact .inr ⟨u, hu, safe_start (completes_declaring hw) hc⟩

theorem trusts_entry {p : Program} (h : compile p strict = .ok a) (hw : W → p.wellScoped = true)
    (n : Nat) : (Policy.compiled W).Trusts n a a.entry :=
  defining_trusts_entry h hw n

theorem trusts_reached {first : Realm → Prop} {Q : Program → Prop}
    (hfirst : ∀ r, first r → ∀ n, (Policy.compiled W).TrustsAll n r)
    (hQ : ∀ p, Q p → W → p.wellScoped = true) (h : Realm.Reached first Q r) :
    ∀ n, (Policy.compiled W).TrustsAll n r := by
  induction h with
  | first hr => exact hfirst _ hr
  | run _ hp hc hrun ih => exact (Policy.invoke_halts ih (trusts_entry hc (hQ _ hp)) hrun).1
  | takeOutput _ ih => exact ih

theorem Realm.IsNew.not_holds (h : r.IsNew) (c : Closure) : ¬ r.Holds c := by
  obtain ⟨maxCallDepth, traceUnits, rfl⟩ := h
  rintro ⟨⟨index⟩, hc⟩
  match index with
  | 0 | 1 | 2 | 3 | 4 | _ + 5 => cases hc

end

/-! ## A program that meets a jump out of a function -/

def Outcome.realm? : Outcome → Option Realm
  | .halted (.ok _) r _ => some r
  | _ => none

def Outcome.error? : Outcome → Option MachineError
  | .halted (.error e) _ _ => some e
  | _ => none

theorem Outcome.of_realm? {o : Outcome} (h : o.realm? = some r) :
    ∃ c context, o = .halted (.ok c) r context := by
  unfold realm? at h
  split at h
  · next c _ context =>
    cases h
    exact ⟨c, context, rfl⟩
  · cases h

theorem Outcome.of_error? {o : Outcome} {e : MachineError} (h : o.error? = some e) :
    ∃ r context, o = .halted (.error e) r context := by
  unfold error? at h
  split at h
  · next e' r context =>
    cases h
    exact ⟨r, context, rfl⟩
  · cases h

def leavingJump : Program where
  body := [.function (.mk (some "f") [] [.break none] false)]

def callingJump : Program where
  body := [.expression (.call (.identifier "f") [])]

theorem callingJump_escapes :
    ((compile leavingJump false).toOption.bind fun a =>
      (runProgram 100 a (.create 16 false) false).realm?.bind fun r =>
        (compile callingJump false).toOption.bind fun b => (runProgram 100 b r false).error?) =
      some (.escapedCompletion .break "Function_0") := by
  decide +kernel

theorem exists_callingJump_escapes :
    ∃ a r b, compile leavingJump false = .ok a ∧
      (∃ c context, runProgram 100 a (.create 16 false) false = .halted (.ok c) r context) ∧
      compile callingJump false = .ok b ∧
      ∃ r' context, runProgram 100 b r false =
        .halted (.error (.escapedCompletion .break "Function_0")) r' context := by
  obtain ⟨a, ha, h⟩ := Option.bind_eq_some_iff.mp callingJump_escapes
  obtain ⟨r, hr, h⟩ := Option.bind_eq_some_iff.mp h
  obtain ⟨b, hb, he⟩ := Option.bind_eq_some_iff.mp h
  exact ⟨a, r, b, ok_of_toOption ha, Outcome.of_realm? hr, ok_of_toOption hb, Outcome.of_error? he⟩

/-- A compiled program, in any realm that compiled programs have left behind, never finishes, or
finishes with a completion, or fails because a function ended with a jump.  All completions on the
way are well formed. -/
theorem runProgram_safe {p : Program} {strict : Bool} {a : Artifact} {r : Realm}
    (hc : compile p strict = .ok a) (hr : Realm.Reached Realm.IsNew (fun _ => True) r)
    (strict' : Bool) :
    (∀ fuel result r' context, runProgram fuel a r strict' = .halted result r' context →
      (∃ c, result = .ok c ∧ c.WellFormed) ∨
        ∃ kind name, result = .error (.escapedCompletion kind name)) ∧
    (∀ fuel m c, runProgram fuel a r strict' = .exhausted m → m.status = .finishing c →
      c.WellFormed) := by
  have htrusts := trusts_reached (W := False) (fun _ hnew _ c hc => absurd hc (hnew.not_holds c))
    (fun _ _ => False.elim) hr
  have hentry := trusts_entry (W := False) hc False.elim
  refine ⟨fun fuel result r' context h => ?_, fun fuel m c h hm => ?_⟩
  · obtain ⟨-, ho | hresult⟩ := Policy.invoke_halts htrusts hentry h
    · exact absurd ho not_open_compiled
    · cases result with
      | ok c => exact .inl ⟨c, rfl, hresult.1⟩
      | error e =>
        obtain ⟨c, name, rfl, -⟩ := hresult
        exact .inr ⟨c.kind, name, rfl⟩
  · obtain ⟨-, post, hmay, -, hgo⟩ := Policy.invoke_sound htrusts hentry h 0
    rw [hm] at hgo
    cases hmay with
    | own hfair _ => exact hfair.wellFormed hgo
    | foreign hf _ => exact absurd hf.choose_spec.2 id

/-- The error that is left does occur, and in a realm that is not new. -/
theorem runProgram_safe_callingJump :
    ∃ r b, Realm.Reached Realm.IsNew (fun _ => True) r ∧ compile callingJump false = .ok b ∧
      (∃ r' context, runProgram 100 b r false =
        .halted (.error (.escapedCompletion .break "Function_0")) r' context) ∧
      (∀ fuel result r' context, runProgram fuel b r false = .halted result r' context →
        (∃ c, result = .ok c ∧ c.WellFormed) ∨
          ∃ kind name, result = .error (.escapedCompletion kind name)) ∧
      (∀ fuel m c, runProgram fuel b r false = .exhausted m → m.status = .finishing c →
        c.WellFormed) := by
  obtain ⟨a, r, b, ha, ⟨c, context, hrun⟩, hb, hescapes⟩ := exists_callingJump_escapes
  have hr : Realm.Reached Realm.IsNew (fun _ => True) r :=
    .run (.first ⟨16, false, rfl⟩) trivial ha hrun
  exact ⟨r, b, hr, hb, hescapes, runProgram_safe hb hr false⟩

end TreeScript
