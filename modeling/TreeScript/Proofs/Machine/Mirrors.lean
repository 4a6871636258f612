import TreeScript.Proofs.Machine.Steady

/-!
# Computations that mirror each other

Two computations mirror each other if one does what the other does, with every state and every
failure translated.  That they do can depend on the state that they start from, so it goes together
with an invariant that the first of them keeps.
-/

namespace TreeScript

namespace Upkeep

variable {ε ε' σ σ' α β : Type}

/-- From `s` the computation `x` keeps the invariant, and from the translation of `s` the
computation `y` does what `x` does. -/
structure Mirrors (U : Upkeep ε σ) (φ : σ → σ') (ψ : ε → ε') (s : σ) (x : EStateM ε σ α)
    (y : EStateM ε' σ' α) (A : σ → α → Prop) : Prop where
  sustains : U.Sustains s x A
  eq : y (φ s) = translate φ ψ (x s)

variable {U : Upkeep ε σ} {φ : σ → σ'} {ψ : ε → ε'} {s : σ} {A : σ → α → Prop}

theorem mirrors_pure {a : α} (h : U.holds s) (ha : A s a) :
    U.Mirrors φ ψ s (pure a) (pure a) A :=
  ⟨sustains_pure h ha, rfl⟩

theorem mirrors_throw {e : ε} {e' : ε'} (h : U.holds s) (he : U.fails s e) (heq : e' = ψ e) :
    U.Mirrors φ ψ s (throw e : EStateM ε σ α) (throw e') A := by
  subst heq
  exact ⟨sustains_throw h he, rfl⟩

theorem mirrors_get {f : σ → EStateM ε σ α} {g : σ' → EStateM ε' σ' α}
    (h : U.Mirrors φ ψ s (f s) (g (φ s)) A) : U.Mirrors φ ψ s (get >>= f) (get >>= g) A :=
  ⟨sustains_get h.sustains, h.eq⟩

theorem mirrors_modify {f : σ → σ} {g : σ' → σ'} {A : σ → Unit → Prop} (hs : U.along s (f s))
    (h : U.holds (f s)) (ha : A (f s) ()) (heq : g (φ s) = φ (f s)) :
    U.Mirrors φ ψ s (modify f) (modify g) A :=
  ⟨sustains_modify hs h ha, congrArg (EStateM.Result.ok ()) heq⟩

theorem mirrors_modifyGet {f : σ → α × σ} {g : σ' → α × σ'} (hs : U.along s (f s).2)
    (h : U.holds (f s).2) (ha : A (f s).2 (f s).1) (heq : g (φ s) = ((f s).1, φ (f s).2)) :
    U.Mirrors φ ψ s (modifyGet f : EStateM ε σ α) (modifyGet g) A := by
  refine ⟨sustains_modifyGet hs h ha, ?_⟩
  show EStateM.Result.ok (g (φ s)).1 (g (φ s)).2 = _
  rw [heq]
  rfl

theorem Mirrors.bind {x : EStateM ε σ α} {y : EStateM ε' σ' α} {f : α → EStateM ε σ β}
    {g : α → EStateM ε' σ' β} {B : σ → β → Prop} (hx : U.Mirrors φ ψ s x y A)
    (hf : ∀ a s', U.along s s' → U.holds s' → A s' a → U.Mirrors φ ψ s' (f a) (g a) B) :
    U.Mirrors φ ψ s (x >>= f) (y >>= g) B := by
  refine ⟨hx.sustains.bind fun a s' hs hi ha => (hf a s' hs hi ha).sustains, ?_⟩
  have hsustains := hx.sustains
  unfold Sustains at hsustains
  show EStateM.bind y g (φ s) = translate φ ψ (EStateM.bind x f s)
  unfold EStateM.bind
  rw [hx.eq]
  cases hrun : x s with
  | error e s' => rfl
  | ok a s' =>
    rw [hrun] at hsustains
    exact (hf a s' hsustains.1 hsustains.2.1 hsustains.2.2).eq

/-- A computation that commutes with `φ` keeps to the states that `φ i` leaves as they are. -/
theorem mirrors_of_commutes {φ : ι → σ → σ} {χ : σ → σ} {i j : ι} {x : EStateM ε σ α}
    (hx : Commutes φ x) (hi : φ i s = s) (hj : χ s = φ j s)
    (hkept : ∀ s', φ i s' = s' → U.along s s' ∧ U.holds s' ∧ φ j s' = χ s')
    (hA : ∀ a s', x s = .ok a s' → A s' a) (he : ∀ s' e, U.fails s' e) :
    U.Mirrors χ id s x x A := by
  have hsame := hx s i
  have heq := hx s j
  rw [hi] at hsame
  rw [← hj] at heq
  cases hrun : x s with
  | ok a s' =>
    rw [hrun] at hsame heq
    obtain ⟨halong, hholds, himage⟩ := hkept s' (EStateM.Result.ok.inj hsame).2.symm
    refine ⟨?_, ?_⟩
    · unfold Sustains
      rw [hrun]
      exact ⟨halong, hholds, hA a s' hrun⟩
    · rw [heq, hrun]
      exact congrArg (EStateM.Result.ok a) himage
  | error e s' =>
    rw [hrun] at hsame heq
    obtain ⟨halong, hholds, himage⟩ := hkept s' (EStateM.Result.error.inj hsame).2.symm
    refine ⟨?_, ?_⟩
    · unfold Sustains
      rw [hrun]
      exact ⟨halong, hholds, he s' e⟩
    · rw [heq, hrun]
      exact congrArg (EStateM.Result.error e) himage

end Upkeep

end TreeScript
