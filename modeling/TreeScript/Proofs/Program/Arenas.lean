import TreeScript.Proofs.Machine.Settled
import TreeScript.Proofs.Program.Safety

/-!
# The arenas of a realm stay founded

A new realm is founded, and programs keep it so: every object has a lower number than those that
inherit from it, every environment a lower one than those inside it, and no handle that a program
comes by leads out of the realm.  Programs reassign the `prototype` of functions, close over scopes
and throw errors of all kinds, but none of this turns a link around.
-/

namespace TreeScript

open Code Syntax Lowering

theorem Realm.IsNew.founded {r : Realm} (h : r.IsNew) : r.Founded := by
  obtain ⟨maxCallDepth, traceUnits, rfl⟩ := h
  have hfirst : 4 < 5 := by decide
  refine ⟨fun {i o} ho => ?_, fun {i e} he => ?_, hfirst, Nat.zero_lt_one⟩
  · match i with
    | 0 =>
      cases ho
      exact hasObject_bare nofun nofun
    | 1 | 2 | 4 =>
      cases ho
      exact hasObject_plain (by decide)
    | 3 =>
      cases ho
      exact ((hasObject_plain (by decide)).define "name" (p := .hidden (.string "Error"))
        trivial).define "message" (p := .hidden (.string "")) trivial
    | i + 5 => cases ho
  · match i with
    | 0 =>
      cases he
      have hempty : HasScope (.create maxCallDepth traceUnits) 0 {} :=
        ⟨nofun, fun _ => rfl, KeyTable.all_empty⟩
      exact ((hempty.bind "undefined" (v := .undefined) trivial).bind "NaN" (v := .number _)
        trivial).bind "Infinity" (v := .number _) trivial
    | i + 1 => cases he

theorem Realm.Reached.founded {first : Realm → Prop} {Q : Program → Prop} {r : Realm}
    (h : Realm.Reached first Q r) (hfirst : ∀ r, first r → r.Founded) : r.Founded := by
  induction h with
  | first hr => exact hfirst _ hr
  | run _ _ _ hrun ih => exact (inside_of_invoke (Context.inside_global ih _) hrun).1.realm
  | takeOutput _ ih => exact ih.of_same rfl rfl

/-- Makes an object whose prototypes are an object that was constructed, too, the first prototype of
its constructor, and the prototype of all objects. -/
def derivingTwice : Program where
  body := [.function (.mk (some "f") [] [] false),
    .expression (.assignment .assign (.member (.identifier "f") (.identifier "prototype") false)
      (.construct (.identifier "f") [])),
    .expression (.construct (.identifier "f") [])]

/-- How many objects there are from the value that a run has ended with to the last prototype. -/
def Outcome.lineage? : Outcome → Option Nat
  | .halted (.ok c) r _ => c.valueOrUndefined.object?.map fun ref => (r.lineage ref).length
  | _ => none

theorem lineage_derivingTwice :
    ((compile derivingTwice false).toOption.bind fun a =>
      (runProgram 100 a (.create 16 false) false).lineage?) = some 4 := by
  decide +kernel

/-- In every realm that compiled programs have left behind, and in every state of a compiled program
that runs in it, links lead to what is older, handles to what is there, and every search ends
without leaving the realm. -/
theorem reached_founded {r : Realm} (hr : Realm.Reached Realm.IsNew (fun _ => True) r) :
    r.Founded ∧ r.Searchable ∧
    ∀ p strict a strict', compile p strict = .ok a →
      (∀ fuel m, runProgram fuel a r strict' = .exhausted m →
        m.Founded ∧ m.realm.Searchable) ∧
      (∀ fuel result r' context, runProgram fuel a r strict' = .halted result r' context →
        context.Inside r' ∧ r'.Searchable ∧ ∀ c, result = .ok c → r'.Ends c) := by
  have hf : r.Founded := hr.founded fun _ hnew => hnew.founded
  have hglobal (strict' : Bool) := Context.inside_global hf strict'
  refine ⟨hf, hf.searchable, fun p strict a strict' _ => ⟨fun fuel m hm => ?_, ?_⟩⟩
  · have hm := founded_of_invoke (hglobal strict') hm
    exact ⟨hm, hm.realm.searchable⟩
  · intro fuel result r' context hhalted
    obtain ⟨hin, hends⟩ := inside_of_invoke (hglobal strict') hhalted
    exact ⟨hin, hin.realm.searchable, hends⟩

/-- A realm with a chain of four objects. -/
theorem reached_founded_derivingTwice :
    ∃ a c r context ref, compile derivingTwice false = .ok a ∧
      runProgram 100 a (.create 16 false) false = .halted (.ok c) r context ∧
      c.valueOrUndefined.object? = some ref ∧ (r.lineage ref).length = 4 ∧
      Realm.Reached Realm.IsNew (fun _ => True) r ∧ r.Founded ∧ r.Searchable := by
  obtain ⟨a, ha, hlineage⟩ := Option.bind_eq_some_iff.mp lineage_derivingTwice
  have ha := ok_of_toOption ha
  unfold Outcome.lineage? at hlineage
  split at hlineage
  · next c r context hrun =>
    obtain ⟨ref, href, hlength⟩ := Option.map_eq_some_iff.mp hlineage
    have hr : Realm.Reached Realm.IsNew (fun _ => True) r :=
      .run (.first ⟨16, false, rfl⟩) trivial ha hrun
    obtain ⟨hf, hsearch, -⟩ := reached_founded hr
    exact ⟨a, c, r, context, ref, ha, hrun, href, hlength, hr, hf, hsearch⟩
  · cases hlineage

end TreeScript
