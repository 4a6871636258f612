import TreeScript.Proofs.Machine.Without
import TreeScript.Proofs.Program.Safety

/-!
# What a program depends on

The variables that the units of an artifact mention are all the globals that its result depends on.
Two realms that differ in the global binding of another name are the same to it: it halts in both or
in neither, with the same result and the same output, and each realm keeps its own binding.
-/

namespace TreeScript

open Code Syntax Lowering Realm

theorem Realm.SameBut.draws {A : Artifact → Prop} {z : String} {r r' : Realm}
    (h : r.SameBut z r') (hr : r.Draws A) : r'.Draws A := by
  rintro c ⟨ref, hc⟩
  refine hr ⟨ref, ?_⟩
  unfold object at hc ⊢
  rw [← h.objects]
  exact hc

/-- Calls a function that has a parameter `z`, and prints what it returns. -/
def ignoringParameter : Program where
  body := [.function (.mk (some "f") ["z"] [.return (some (.string "done"))] false),
    .print (.call (.identifier "f") [.identifier "f"])]

theorem ignoringParameter_ends :
    ((compile ignoringParameter false).toOption.bind fun a =>
      if a.units.toList.all fun u => !u.usedVariables.contains "z" then
        (runProgram 100 a (.create 16 false) false).realm?.map fun r => r.output.toList
      else none) = some ["done"] := by
  decide +kernel

/-- Code does not depend on a global that it does not mention, in a realm whose functions do not
mention it either. -/
theorem runProgram_sameBut {a : Artifact} {z : String} (ha : a.Avoids z) {r r' : Realm}
    (hr : r.HasEnv globalEnv) (hf : r.Draws (Artifact.Avoids z)) (hsame : r.SameBut z r')
    (strict : Bool) (fuel : Nat) :
    (∀ m, runProgram fuel a r strict = .exhausted m →
      ∃ m', runProgram fuel a r' strict = .exhausted m') ∧
    (∀ result r₁ context, runProgram fuel a r strict = .halted result r₁ context →
      ∃ r₁', runProgram fuel a r' strict = .halted result r₁' context ∧
        r₁'.output = r₁.output ∧ r₁.SameBut z r₁' ∧
        r₁.globalBinding z = r.globalBinding z ∧ r₁'.globalBinding z = r'.globalBinding z) := by
  have hr' := hsame.hasEnv hr
  have hf' := hsame.draws hf
  have hboth :
      (runProgram fuel a r strict).without z = (runProgram fuel a r' strict).without z := by
    unfold runProgram
    rw [← invoke_without hf hr ha, ← invoke_without hf' hr' ha, hsame]
  refine ⟨fun m hm => ?_, fun result r₁ context hhalted => ?_⟩
  · rw [hm] at hboth
    cases h : runProgram fuel a r' strict with
    | exhausted m' => exact ⟨m', rfl⟩
    | halted result r₁' context =>
      rw [h] at hboth
      cases hboth
  · rw [hhalted] at hboth
    cases h : runProgram fuel a r' strict with
    | exhausted m' =>
      rw [h] at hboth
      cases hboth
    | halted result' r₁' context' =>
      rw [h] at hboth
      injection hboth with hresult hrealm hcontext
      subst hresult hcontext
      exact ⟨r₁', rfl, SameBut.output hrealm, hrealm, globalBinding_invoke hf hr ha hhalted,
        globalBinding_invoke hf' hr' ha h⟩

/-- A global with the name of a parameter makes no difference to the call. -/
theorem runProgram_sameBut_ignoringParameter :
    ∃ a c r₁ r₁' context, compile ignoringParameter false = .ok a ∧ a.Avoids "z" ∧
      runProgram 100 a (.create 16 false) false = .halted (.ok c) r₁ context ∧
      runProgram 100 a ((create 16 false).modifyEnv globalEnv (·.bind "z" .null)) false =
        .halted (.ok c) r₁' context ∧
      r₁'.output.toList = ["done"] ∧ r₁.SameBut "z" r₁' ∧
      r₁'.globalBinding "z" = some ⟨.null, false⟩ := by
  obtain ⟨a, ha, hends⟩ := Option.bind_eq_some_iff.mp ignoringParameter_ends
  have ha := ok_of_toOption ha
  split at hends
  · next havoids =>
    obtain ⟨r₁, hr₁, houtput⟩ := Option.map_eq_some_iff.mp hends
    obtain ⟨c, context, hrun⟩ := Outcome.of_realm? hr₁
    have havoids : a.Avoids "z" := fun u hu => by
      simpa [CodeUnit.Avoids] using List.all_eq_true.mp havoids u (Array.mem_toList_iff.mpr hu)
    have hnew : (create 16 false).IsNew := ⟨16, false, rfl⟩
    have hglobal : (create 16 false).HasEnv globalEnv := Nat.zero_lt_one
    have hbound : ((create 16 false).modifyEnv globalEnv (·.bind "z" .null)).globalBinding "z" =
        some ⟨.null, false⟩ := by
      unfold globalBinding
      rw [env_modifyEnv_self hglobal]
      unfold Environment.bind
      have hflag : (((create 16 false).env globalEnv).bindings.find? "z").any Binding.deletable =
          false := by
        decide +kernel
      rw [KeyTable.find?_insert, if_pos rfl, hflag]
    obtain ⟨r₁', hrun', hsame, hbut, -, hbinding⟩ :=
      (runProgram_sameBut havoids hglobal (fun c hc => absurd hc (hnew.not_holds c))
        (sameBut_bind _ "z" .null) false 100).2 _ _ _ hrun
    exact ⟨a, c, r₁, r₁', context, ha, havoids, hrun, hrun', by rw [hsame, houtput], hbut,
      hbinding.trans hbound⟩
  · cases hends

end TreeScript
