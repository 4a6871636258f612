import TreeScript.Proofs.Lowering.Sources
import TreeScript.Proofs.Machine.Safety

/-!
# Code without loops ends

A frame is at a place in its unit, and `Turns` tells where an instruction can lead from there.  What
an instruction does besides is left open, so every run of a frame is among the walks that are
possible by that.

A program that has no `while`, no `do` and no `for`, but perhaps `for`-`in`, has code whose jumps
lead to labels still to be placed, or back to the head of an enumeration.  Such code has no walks
without end: what is still to be placed lies ahead, and what an enumeration jumps back with is a
higher position, of which there are finitely many.
-/

namespace TreeScript.Lowering

open Code Machine

/-- A walk through a unit can lead from `p` to `p'` with one instruction. -/
def Follows (u : CodeUnit) (p' p : Place) : Prop :=
  ∃ i, u.instructions[p.next]? = some i ∧ Turns u { p with next := p.next + 1 } p' i

def Ends (u : CodeUnit) (p : Place) : Prop := Acc (Follows u) p

/-- All walks from an instruction come to an end, if the temporaries below `low` hold what `temps`
has there. -/
def EndsFrom (u : CodeUnit) (low : Nat) (temps : Array Value) (k : Nat) : Prop :=
  ∀ temps', Kept low temps temps' → Ends u ⟨k, temps'⟩

def EndsAt (u : CodeUnit) (low : Nat) (temps : Array Value) (l : Label) : Prop :=
  ∀ k, u.offset? l = some k → EndsFrom u low temps k

variable {a : Artifact} {u : CodeUnit} {low k : Nat} {temps : Array Value}

theorem ends_of_none (h : u.instructions[k]? = none) : Ends u ⟨k, temps⟩ := by
  refine .intro _ ?_
  rintro p' ⟨i, hi, -⟩
  rw [h] at hi
  cases hi

variable {i : Instruction} {l : Label} {c : Setting} {w : Site} {known : List Reference}
  {pending : List Label}

theorem ends_of_instruction (hi : u.instructions[k]? = some i)
    (h : ∀ p', Turns u ⟨k + 1, temps⟩ p' i → Ends u p') : Ends u ⟨k, temps⟩ := by
  refine .intro _ ?_
  rintro p' ⟨i', hi', ht⟩
  obtain rfl : i = i' := Option.some.inj (hi.symm.trans hi')
  exact h p' ht

theorem EndsFrom.mono {low' : Nat} {temps' : Array Value} (h : EndsFrom u low temps k)
    (hk : Kept low temps temps') (hle : low ≤ low') : EndsFrom u low' temps' k :=
  fun _ ht => h _ (hk.trans ht hle)

theorem EndsAt.mono {low' : Nat} {temps' : Array Value} (h : EndsAt u low temps l)
    (hk : Kept low temps temps') (hle : low ≤ low') : EndsAt u low' temps' l :=
  fun k hl => (h k hl).mono hk hle

theorem endsAt_of_offset (hl : u.offset? l = some k) (h : EndsFrom u low temps k) :
    EndsAt u low temps l := by
  intro k' hk
  obtain rfl : k = k' := Option.some.inj (hl.symm.trans hk)
  exact h

/-- Where there are no loops a jump leads ahead, or back to the head of an enumeration. -/
theorem MayJump.endsAt (h : MayJump c w known pending l) (hloops : ¬ c.terrain.loops)
    (hfree : ¬ w.free) (hheads : ∀ l ∈ w.heads, EndsAt u low temps l)
    (hlabels : ∀ l ∈ pending, EndsAt u low temps l) : EndsAt u low temps l := by
  rcases h.2 with h | h | h | h
  · exact absurd h hloops
  · exact absurd h hfree
  · exact hheads l h
  · exact hlabels l h

theorem endsFrom_of_next (hcode : u.instructions[k]? = some i)
    (hi : ∀ {p p'}, Turns u p p' i → p' = p) (hnext : EndsFrom u low temps (k + 1)) :
    EndsFrom u low temps k := by
  intro temps' hkept
  refine ends_of_instruction hcode fun p' ht => ?_
  rw [hi ht]
  exact hnext temps' hkept

theorem endsFrom_of_fits (hcode : u.instructions[k]? = some i) (hi : Fits c w known pending i)
    (hmine : ∀ t ∈ w.mine, low ≤ t) (hnext : EndsFrom u low temps (k + 1))
    (hlabels : ∀ l, MayJump c w known pending l → EndsAt u low temps l) :
    EndsFrom u low temps k := by
  intro temps' hkept
  refine ends_of_instruction hcode fun p' ht => ?_
  cases i with
  | storeTemp t =>
    obtain ⟨v, rfl⟩ := ht
    exact hnext _ (hkept.trans (kept_setIfInBounds (hmine t hi.2) temps' v) (Nat.le_refl _))
  | store | operate | forInStep | invoke | makeClosure => exact False.elim hi
  | jump l =>
    obtain ⟨offset, hl, rfl⟩ := ht
    exact hlabels l hi offset hl temps' hkept
  | jumpIfFalse l | jumpIfTrue l | jumpIfAbrupt l | jumpIfKind _ l | jumpUnlessKind _ l =>
    rcases ht with rfl | ⟨offset, hl, rfl⟩
    · exact hnext temps' hkept
    · exact hlabels l hi offset hl temps' hkept
  | jumpIfBreaksHere _ l | jumpIfContinuesHere _ l =>
    rcases ht with rfl | ⟨offset, hl, rfl⟩
    · exact hnext temps' hkept
    · exact hlabels l hi.2 offset hl temps' hkept
  | _ =>
    cases ht
    exact hnext temps' hkept

/-! ## Enumeration -/

/-- An enumeration ends if its code ends for each key, given that it does when it comes back to the
head with the position where it was put. -/
theorem endsFrom_enumeration {head keys : Nat} {done : Label}
    (hcode : u.instructions[head]? = some (.forInStep keys done))
    (hkeys : tempAfter keys 1 = keys + 1) (hlow : low ≤ keys + 1) (hdone : EndsAt u low temps done)
    (heach : ∀ temps', Kept low temps temps' → EndsFrom u (keys + 2) temps' head →
      EndsFrom u (keys + 2) temps' (head + 1)) : EndsFrom u low temps head := by
  -- `n` is a bound for the positions that are left, from the one that the temporaries hold on.
  suffices hbound : ∀ n temps', Kept low temps temps' →
      (∀ position ≤ 0xFFFFFFFF, (∀ x, temps'.getD (keys + 1) .undefined = .number x →
        Number.saturated32 x < position) → 0xFFFFFFFF < position + n) → Ends u ⟨head, temps'⟩ from
    fun temps' hkept => hbound 0x100000000 temps' hkept fun position _ _ => by omega
  intro n
  induction n using Nat.strongRecOn with
  | ind n ih =>
    intro temps' hkept hn
    refine ends_of_instruction hcode fun p' ht => ?_
    obtain ⟨position, next, hsize, rfl, hturn⟩ := ht
    rw [hkeys] at hsize hturn ⊢
    have hkept' := hkept.trans (kept_setIfInBounds hlow temps'
      (.number (Number.ofNat position))) (Nat.le_refl _)
    rcases hturn with hl | ⟨rfl, hle, hx⟩
    · exact hdone next hl _ hkept'
    · have hleft := hn position hle hx
      refine heach _ hkept' (fun temps'' hagain => ?_) _ (.refl _ _)
      refine ih (n - 1) (by omega) temps'' (hkept'.trans hagain (by omega))
        fun position' hle' hx' => ?_
      have hposition : temps''.getD (keys + 1) .undefined = .number (Number.ofNat position) := by
        rw [hagain.getD_eq (by omega), Array.getD_eq_getD_getElem?,
          Array.getElem?_setIfInBounds_self_of_lt hsize]
        rfl
      have hlt := hx' _ hposition
      rw [Number.saturated32_ofNat hle] at hlt
      omega

/-! ## Regular code without loops -/

theorem tempAfter_one {keys : Nat} (h : keys + 4 ≤ Builder.maxTemporaries) :
    tempAfter keys 1 = keys + 1 :=
  Nat.mod_eq_of_lt (by unfold Builder.maxTemporaries at h; omega)

theorem le_of_mem_range'_append {mine : List Nat} {first count : Nat} (hfirst : low ≤ first)
    (hmine : ∀ t ∈ mine, low ≤ t) : ∀ t ∈ List.range' first count ++ mine, low ≤ t := by
  intro t ht
  rcases List.mem_append.mp ht with ht | ht
  · exact Nat.le_trans hfirst (List.mem_range'_1.mp ht).1
  · exact hmine t ht

/-- If all walks end from where the code leads to, and from the labels that it leaves, then all
walks end from its start, and from all labels that were pending. -/
theorem ends_of_regular {t : Nat} {α : Type} {g : Bool → Gen α} {d : Demand} {ok : Prop}
    {Q : Result α} {s s' : Stage} {x : α} (hg : Regular c w known pending t g d ok Q)
    (hloops : ¬ c.terrain.loops) (hfree : ¬ w.free) (h : Laid a u (g c.strict) s x s')
    (hmine : ∀ t ∈ w.mine, low ≤ t) (hlow : low ≤ s.temps)
    (hexit : EndsFrom u low temps s'.offset) (hheads : ∀ l ∈ w.heads, EndsAt u low temps l)
    (hlabels : ∀ l ∈ Q.pending x, EndsAt u low temps l) :
    EndsFrom u low temps s.offset ∧ ∀ l ∈ pending, EndsAt u low temps l := by
  induction hg generalizing s s' low temps with
  | pure _ _ hpending =>
    obtain ⟨rfl, rfl⟩ := laid_pure h
    rw [hpending] at hlabels
    exact ⟨hexit, hlabels⟩
  | bind hg hf _ ihg ihf =>
    have := hg.composed
    have := fun y => (hf y).composed
    obtain ⟨y, s1, h1, h2⟩ := laid_bind.mp h
    have htemps := (grows_of_built hg.composed h1.yields).builder.temps
    obtain ⟨hstart, hlabels1⟩ := ihf y hloops
      (not_or.mpr ⟨hfree, not_not_intro (hg.is h1.yields)⟩) h2 hmine (Nat.le_trans hlow htemps)
      hexit hheads hlabels
    exact ihg hloops hfree h1 hmine hlow hstart hheads hlabels1
  | emit i hi =>
    have hadds := laid_emit h
    rw [hadds.offset] at hexit
    exact ⟨endsFrom_of_fits hadds.code hi hmine hexit
      fun l hl => hl.endsAt hloops hfree hheads hlabels, hlabels⟩
  | store _ =>
    have hadds := laid_emit h
    rw [hadds.offset] at hexit
    exact ⟨endsFrom_of_next hadds.code id hexit, hlabels⟩
  | newLabels count =>
    exact ⟨(laid_newLabels h).offset ▸ hexit, fun l hl => hlabels l (List.mem_append_right _ hl)⟩
  | place l before after =>
    obtain ⟨hl, hk⟩ := laid_place h
    rw [hk.offset] at hexit
    refine ⟨hexit, fun l' hl' => ?_⟩
    rcases List.mem_append.mp hl' with hl' | hl'
    · exact hlabels l' (List.mem_append_left after hl')
    · rcases List.mem_cons.mp hl' with rfl | hl'
      · exact endsAt_of_offset hl hexit
      · exact hlabels l' (List.mem_append_right before hl')
  | intern o => exact ⟨(laid_intern h).2.offset ▸ hexit, hlabels⟩
  | temporaries count hf ih =>
    have := fun first => (hf first).composed
    obtain ⟨first, s1, h1, h2⟩ := laid_bind.mp h
    obtain ⟨rfl, htemps, hoffset, -⟩ := laid_allocate h1
    obtain ⟨hstart, hall⟩ := ih s.temps hloops hfree h2 (le_of_mem_range'_append hlow hmine)
      (by omega) hexit hheads hlabels
    exact ⟨hoffset ▸ hstart, hall⟩
  | operate _ _ | put | delete =>
    obtain ⟨-, hadds⟩ := laid_operate h
    rw [hadds.offset] at hexit
    exact ⟨endsFrom_of_next hadds.code id hexit, hlabels⟩
  | invoke _ _ _ hbody _ =>
    obtain ⟨_, _, hadds, -⟩ := laid_invoke h
    rw [hadds.offset] at hexit
    exact ⟨endsFrom_of_next hadds.code id hexit, hlabels⟩
  | @closure c _ _ _ _ f _ _ _ _ hbody _ =>
    obtain ⟨_, s1, hunit, h⟩ := laid_bind.mp h
    obtain ⟨_, s2, hadd, hemit⟩ := laid_bind.mp h
    have hadds := laid_emit hemit
    rw [hadds.offset] at hexit
    rw [← (laid_inUnit hunit).1.offset, ← (laid_addFunction hadd).2.offset]
    exact ⟨endsFrom_of_next hadds.code id hexit, hlabels⟩
  | unsupported construct => exact absurd h not_laid_unsupported
  | tooMany what => exact absurd h not_laid_tooMany
  | enumeration _ hsetup heach ihs ihe =>
    have := fun keys => (hsetup keys).composed
    have := fun keys => (heach keys).composed
    obtain ⟨keys, s1, hallocate, h⟩ := laid_bind.mp h
    obtain ⟨_, s2, hs, h⟩ := laid_bind.mp h
    obtain ⟨_, s3, hn, h⟩ := laid_bind.mp h
    obtain ⟨_, s4, hi, h⟩ := laid_bind.mp h
    obtain ⟨_, s5, he, hd⟩ := laid_bind.mp h
    obtain ⟨rfl, htemps1, hoffset1, hmax⟩ := laid_allocate hallocate
    obtain ⟨hnext, hk3⟩ := laid_place hn
    obtain ⟨hcode, hoffset4, htemps4⟩ := laid_emit hi
    obtain ⟨hdone, hk⟩ := laid_place hd
    have htemps2 : s1.temps ≤ s2.temps :=
      (grows_of_built (hsetup _).composed hs.yields).builder.temps
    have htemps3 := hk3.temps
    rw [hk.offset] at hexit
    have hdone := endsAt_of_offset hdone hexit
    have hhead : EndsFrom u low temps s3.offset := by
      refine endsFrom_enumeration hcode (tempAfter_one hmax) (by omega) hdone
        fun temps' hkept hagain => ?_
      rw [← hoffset4]
      have hback := endsAt_of_offset hnext (hk3.offset ▸ hagain)
      refine (ihe s.temps hloops hfree he (by simp) (by omega) (hexit.mono hkept (by omega)) ?_
        ?_).1
      · exact List.forall_mem_cons.mpr ⟨hback, fun l hl => (hheads l hl).mono hkept (by omega)⟩
      · exact List.forall_mem_cons.mpr ⟨hdone.mono hkept (by omega),
          fun l hl => (hlabels l hl).mono hkept (by omega)⟩
    rw [hk3.offset] at hhead
    obtain ⟨hstart, hall⟩ := ihs s.temps hloops hfree hs (le_of_mem_range'_append hlow hmine)
      (by omega) hhead hheads (List.forall_mem_cons.mpr ⟨hdone,
        List.forall_mem_cons.mpr ⟨endsAt_of_offset hnext hhead, hlabels⟩⟩)
    exact ⟨hoffset1 ▸ hstart, hall⟩

/-! ## Units -/

def Terrain.loopless (strict : Bool) : Terrain where
  stands _ x := ∀ n ∈ x.nodes, n.isLoop = false
  part h hy _ hn := h _ (Syntax.Part.nodes_of_mem_parts hy hn)
  inside {_ f} h := by
    obtain ⟨name, params, body, ownStrict⟩ := f
    exact h
  top := strict
  loops := False
  loop {_ s} h hs := by
    have hself : Syntax.Node.stmt s ∈ Syntax.Stmt.nodes true s := by
      cases s <;> simp [Syntax.Stmt.nodes]
    have hs' := h _ hself
    cases s <;> simp [Syntax.Stmt.isLoop, Syntax.Node.isLoop] at hs hs'

/-- All walks through a unit of a program without loops come to an end. -/
theorem ends_of_loopFree {p : Syntax.Program} {strict : Bool} {id : UnitId}
    (h : compile p strict = .ok a) (hp : p.loopFree = true) (hu : a.unit? id = some u)
    (temps : Array Value) : Ends u ⟨0, temps⟩ := by
  obtain ⟨_, ⟨fs, _, _, _, -, hregular, hstrict, rfl, -⟩, s, s', hlaid, hoffset, -, hsize, -⟩ :=
    compile_sources h (.loopless (strict || p.strict)) rfl
      (fun n hn => by simpa using List.all_eq_true.mp hp n hn) hu
  rw [hstrict] at hlaid
  have hexit : EndsFrom u 0 temps s'.offset :=
    fun _ _ => ends_of_none (hsize ▸ Array.getElem?_eq_none (Nat.le_refl _))
  have hstart := (ends_of_regular hregular not_false not_false hlaid (List.forall_mem_nil _)
    (Nat.zero_le _) hexit (List.forall_mem_nil _) (List.forall_mem_nil _)).1
  rw [hoffset] at hstart
  exact hstart temps (.refl _ _)

end TreeScript.Lowering
