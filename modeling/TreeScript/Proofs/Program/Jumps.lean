import TreeScript.Proofs.Program.Safety

/-!
# Jumps stay inside their functions

If every `break` and `continue` of a program has a place to go, none of them leaves a function or
the program, whatever else is in the realm.  A program can still meet the jump of another one, if a
function that is not well scoped was left in the realm; there is no other way.
-/

namespace TreeScript

open Code Syntax Lowering

def Completion.NoJump (c : Completion) : Prop := c.kind ≠ .break ∧ c.kind ≠ .continue

theorem noJump_of_allowed {c : Completion} (h : Allowed True {} c) : c.NoJump := by
  obtain ⟨hb, hc⟩ := h.2 trivial
  refine ⟨fun hk => ?_, fun hk => ?_⟩
  · have hplace := hb hk
    cases ht : c.target <;> rw [ht] at hplace <;> cases hplace
  · have hplace := hc hk
    cases ht : c.target <;> rw [ht] at hplace <;> cases hplace

/-- The unit is the body of a function or of a program. -/
def Code.Artifact.Declares (a : Artifact) (id : UnitId) : Prop :=
  ∃ u, a.unit? id = some u ∧ isDeclaring u.role = true

/-- What has a place for all its jumps, if `W`. -/
def Lowering.Terrain.scoped (W : Prop) (strict : Bool) : Terrain where
  stands _ x := W → x.WellScoped
  part h hy w := (h w).part hy
  inside {_ f} h w := by
    obtain ⟨name, params, body, ownStrict⟩ := f
    exact ⟨{}, h w⟩
  top := strict
  loops := True
  loop _ _ := trivial

theorem safe_declares {W : Prop} {plain : Value → Prop} {p : Program} {strict : Bool}
    {a : Artifact} {u : CodeUnit} {id : UnitId} (hc : compile p strict = .ok a)
    (hw : W → p.wellScoped = true) (hu : a.unit? id = some u) (hd : isDeclaring u.role = true)
    (n : Nat) : Safe a (compiledRules W plain) n u (Ending (Allowed W {})) .start := by
  obtain ⟨_, ⟨_, _, _, _, -, -, -, rfl, hdeclaring⟩, hcompiles⟩ :=
    compile_sources hc (.scoped W (strict || p.strict)) rfl (fun w => ⟨{}, hw w⟩) hu
  rcases hdeclaring hd with ⟨-, rfl⟩ | ⟨⟨name, params, body, ownStrict⟩, fs, hf, -, rfl⟩
  · exact safe_start (completes_declaring hw) hcompiles
  · exact safe_start (completes_declaring hf) hcompiles

def Policy.only (p : Program) (strict : Bool) (a : Artifact) (hc : compile p strict = .ok a)
    (hw : p.wellScoped = true) : Policy where
  toRules := compiledRules True fun _ => True
  fair := fair_allowed
  foreign b id := ¬ (b = a ∧ a.Declares id)
  reaches {b id} _ id' := by
    by_cases h : b = a ∧ a.Declares id'
    · obtain ⟨rfl, u, hu, hd⟩ := h
      exact .inr ⟨u, hu, safe_declares hc (fun _ => hw) hu hd⟩
    · exact .inl h

instance {p : Program} {strict : Bool} {a : Artifact} {hc : compile p strict = .ok a}
    {hw : p.wellScoped = true} : (Policy.only p strict a hc hw).Lax := ⟨fun _ => trivial⟩

theorem trusts_only {p : Program} {strict : Bool} {a : Artifact} (hc : compile p strict = .ok a)
    (hw : p.wellScoped = true) (n : Nat) (b : Artifact) (id : UnitId) :
    (Policy.only p strict a hc hw).Trusts n b id := by
  by_cases h : b = a ∧ a.Declares id
  · obtain ⟨rfl, u, hu, hd⟩ := h
    exact .inr ⟨u, hu, safe_declares hc (fun _ => hw) hu hd n⟩
  · exact .inl h

/-- Every function of the realm is one of a compiled program whose jumps are well scoped. -/
def Realm.WellScoped (r : Realm) : Prop :=
  ∀ c, r.Holds c → ∃ p strict, p.wellScoped = true ∧ compile p strict = .ok c.artifact ∧
    c.artifact.Declares c.info.unit

theorem Realm.IsNew.wellScoped {r : Realm} (h : r.IsNew) : r.WellScoped :=
  fun c hc => absurd hc (h.not_holds c)

theorem Realm.WellScoped.trusts {r : Realm} (h : r.WellScoped) (n : Nat) :
    (Policy.compiled True).TrustsAll n r := by
  intro c hc
  obtain ⟨p, strict, hw, hcompile, u, hu, hd⟩ := h c hc
  exact .inr ⟨u, hu, safe_declares hcompile (fun _ => hw) hu hd n⟩

/-- A program that is well scoped and meets a jump that is not its own. -/
theorem escapes_callingJump :
    callingJump.wellScoped = true ∧
    ∃ a r b, compile leavingJump false = .ok a ∧
      (∃ c context, runProgram 100 a (.create 16 false) false = .halted (.ok c) r context) ∧
      compile callingJump false = .ok b ∧
      ∃ r' context, runProgram 100 b r false =
        .halted (.error (.escapedCompletion .break "Function_0")) r' context :=
  ⟨rfl, exists_callingJump_escapes⟩

/-- No function and no program unit of a well-scoped program ends with a jump, in any realm and
whatever code has called it.  In realms whose functions are all well scoped, such a program never
ends with a jump, nor fails. -/
theorem runProgram_noJump {p : Program} {strict : Bool} {a : Artifact}
    (hc : compile p strict = .ok a) (hw : p.wellScoped = true) :
    (∀ b id r context fuel m c, invoke fuel b id r context = .exhausted m →
      m.frame.artifact = a → isDeclaring m.frame.unit.role = true → m.status = .finishing c →
      c.NoJump) ∧
    (∀ r, Realm.Reached Realm.WellScoped (fun p => p.wellScoped = true) r →
      ∀ fuel strict' result r' context,
        runProgram fuel a r strict' = .halted result r' context →
        ∃ c, result = .ok c ∧ c.NoJump) := by
  refine ⟨fun b id r context fuel m c h ha hd hm => ?_,
    fun r hr fuel strict' result r' context h => ?_⟩
  · obtain ⟨-, post, hmay, -, hgo⟩ := Policy.invoke_sound
      (fun n c _ => trusts_only hc hw n c.artifact c.info.unit)
      (fun n => trusts_only hc hw n b id) h 0
    rw [hm] at hgo
    cases hmay with
    | own _ hends => exact noJump_of_allowed (hends hd c hgo)
    | foreign hf _ =>
      obtain ⟨id', hu, hforeign⟩ := hf
      rw [ha] at hu
      exact absurd ⟨ha, m.frame.unit, hu, hd⟩ hforeign
  · have htrusts := trusts_reached (W := True) (fun r hr n => hr.trusts n) (fun _ hp _ => hp) hr
    obtain ⟨-, ho | hresult⟩ := Policy.invoke_halts htrusts (trusts_entry hc fun _ => hw) h
    · exact absurd ho not_open_compiled
    · cases result with
      | ok c => exact ⟨c, rfl, noJump_of_allowed hresult⟩
      | error e =>
        obtain ⟨c, name, -, hends, hjump⟩ := hresult
        obtain ⟨hb, hcont⟩ := noJump_of_allowed hends
        exact absurd hjump (not_or.mpr ⟨hb, hcont⟩)

/-- A jump through a `finally` and out of a `switch` and a loop, to the label of the loop. -/
def leavingLoop : Program where
  body := [.labeled "outer" (.whileLoop (.boolean true) (.tryCatch
    [.switch (.boolean true) [.mk (some (.boolean true)) [.break (some "outer")]]] none
    (some [.empty])))]

theorem leavingLoop_ends :
    ((compile leavingLoop false).toOption.bind fun a =>
      (runProgram 100 a (.create 16 false) false).realm?).isSome = true := by
  decide +kernel

theorem runProgram_noJump_leavingLoop :
    leavingLoop.wellScoped = true ∧ ∃ a, compile leavingLoop false = .ok a ∧
      (∃ c r context, runProgram 100 a (.create 16 false) false = .halted (.ok c) r context ∧
        c.NoJump) ∧
      (∀ b id r context fuel m c, invoke fuel b id r context = .exhausted m →
        m.frame.artifact = a → isDeclaring m.frame.unit.role = true → m.status = .finishing c →
        c.NoJump) := by
  refine ⟨rfl, ?_⟩
  obtain ⟨r, hends⟩ := Option.isSome_iff_exists.mp leavingLoop_ends
  obtain ⟨a, ha, hr⟩ := Option.bind_eq_some_iff.mp hends
  have ha := ok_of_toOption ha
  obtain ⟨c, context, hrun⟩ := Outcome.of_realm? hr
  obtain ⟨hfunctions, hprogram⟩ := runProgram_noJump ha rfl
  have hnew : Realm.IsNew (.create 16 false) := ⟨16, false, rfl⟩
  obtain ⟨c', hc, hstays⟩ := hprogram _ (.first hnew.wellScoped) 100 false _ _ _ hrun
  cases hc
  exact ⟨a, ha, ⟨c, r, context, hrun, hstays⟩, hfunctions⟩

end TreeScript
