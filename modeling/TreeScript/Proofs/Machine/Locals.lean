import TreeScript.Proofs.Machine.Settled
import TreeScript.Proofs.Machine.Scopes

/-!
# Names in a call

A call of a function has an environment of its own, and the frames that belong to it work there or
in catch scopes opened during the call.  The function begins with its declarations.  Once these have
run, the names that they bind are found in the call's own environment, unless a catch scope of the
call has one of the same name, and never further out.
-/

namespace TreeScript

open Code Realm

/-! ## Declarations at the start of a unit -/

variable {scopes : List EnvRef} {u : CodeUnit} {name : String}

namespace Code

/-- How many instructions at the start of the unit are for its declarations. -/
def CodeUnit.prologue (u : CodeUnit) : Nat :=
  (u.instructions.toList.takeWhile Instruction.declares).length

def CodeUnit.BindsAt (u : CodeUnit) (offset : Nat) (name : String) : Prop :=
  ∃ i, (u.instructions[offset]? = some (.declareVariable i) ∨
    u.instructions[offset]? = some (.initializeBinding i)) ∧ u.operands[i]? = some (.binding name)

theorem CodeUnit.declares_of_lt {offset : Nat} (h : offset < u.prologue) :
    ∃ i, u.instructions[offset]? = some i ∧ i.declares = true := by
  obtain ⟨rest, hrest⟩ := List.takeWhile_prefix Instruction.declares (l := u.instructions.toList)
  have hget := List.getElem?_eq_getElem h
  refine ⟨_, ?_, List.all_eq_true.mp List.all_takeWhile _ (List.mem_of_getElem? hget)⟩
  rw [← hget, ← Array.getElem?_toList, ← List.getElem?_append_left h, hrest]

theorem CodeUnit.le_prologue {n : Nat}
    (h : ∀ k < n, ∃ i, u.instructions[k]? = some i ∧ i.declares = true) : n ≤ u.prologue := by
  unfold CodeUnit.prologue
  simp only [← Array.getElem?_toList] at h
  generalize u.instructions.toList = is at h
  induction is generalizing n with
  | nil =>
    cases n with
    | zero => exact Nat.le_refl 0
    | succ n =>
      obtain ⟨i, hi, -⟩ := h 0 (Nat.succ_pos n)
      cases hi
  | cons i is ih =>
    cases n with
    | zero => exact Nat.zero_le _
    | succ n =>
      obtain ⟨_, hi, hdeclares⟩ := h 0 (Nat.succ_pos n)
      cases hi
      rw [List.takeWhile_cons_of_pos hdeclares]
      exact Nat.succ_le_succ (ih fun k hk => h (k + 1) (Nat.succ_lt_succ hk))

end Code

/-! ## Chains of environments -/

namespace Realm

variable {r : Realm}

theorem Founded.scopes_outer (h : r.Founded) {env outer : EnvRef} (he : r.HasEnv env)
    (ho : (r.env env).outer = some outer) : r.scopes env = env :: r.scopes outer := by
  have hfind := env?_of_hasEnv he
  have hlt := (h.environments hfind).outer outer ho
  have houter := h.walk_scopes (Nat.lt_trans hlt he)
  rw [← ho] at houter
  exact (h.walk_scopes he).unique (.step hfind houter) |>.symm

theorem Founded.scopes_cons (h : r.Founded) {env : EnvRef} (he : r.HasEnv env) :
    ∃ rest, r.scopes env = env :: rest := by
  have hwalk := h.walk_scopes he
  cases hs : r.scopes env with
  | nil =>
    rw [hs] at hwalk
    cases hwalk
  | cons ref rest =>
    rw [hs] at hwalk
    cases hwalk
    exact ⟨rest, rfl⟩

end Realm

/-- The catch scopes that a frame has opened, when it works in `env`. -/
def Frame.openScopes (f : Frame) (env : EnvRef) : List EnvRef := (env :: f.scopes).dropLast

namespace Machine

variable {base env : EnvRef}

theorem Chain.le {r : Realm} (h : Chain r base env scopes) (hr : r.Founded) :
    base.index ≤ env.index := by
  induction h with
  | base => exact Nat.le_refl _
  | @scope env outer scopes he ho _ ih =>
    have hlt := (hr.environments (env?_of_hasEnv he)).outer outer ho
    exact Nat.le_trans ih (Nat.le_of_lt hlt)

theorem Chain.trans {r : Realm} {base' : EnvRef} {scopes' : List EnvRef}
    (h : Chain r base env scopes) (h' : Chain r base' base scopes') :
    Chain r base' env (scopes ++ scopes') := by
  induction h with
  | base => exact h'
  | scope he ho _ ih => exact .scope he ho ih

theorem Chain.dropLast_append {r : Realm} (h : Chain r base env scopes) (scopes' : List EnvRef) :
    (env :: (scopes ++ scopes')).dropLast =
      (env :: scopes).dropLast ++ (base :: scopes').dropLast := by
  induction h with
  | base => rfl
  | @scope env _ _ _ _ _ ih => exact congrArg (env :: ·) ih

theorem Chain.scopes_eq {r : Realm} (h : Chain r base env scopes) (hr : r.Founded) :
    r.scopes env = (env :: scopes).dropLast ++ r.scopes base ∧
      ∀ ref ∈ (env :: scopes).dropLast, base.index < ref.index := by
  induction h with
  | base => exact ⟨rfl, nofun⟩
  | @scope env outer scopes he ho hrest ih =>
    obtain ⟨hscopes, hlt⟩ := ih
    have hdrop : (env :: outer :: scopes).dropLast = env :: (outer :: scopes).dropLast := rfl
    have houter := (hr.environments (env?_of_hasEnv he)).outer outer ho
    have hle := hrest.le hr
    refine ⟨?_, fun ref hmem => ?_⟩
    · rw [hr.scopes_outer he ho, hscopes]
      rfl
    · rcases List.mem_cons.mp hmem with rfl | hmem
      · exact Nat.lt_of_le_of_lt hle houter
      · exact hlt ref hmem

/-! ## Frames of a call -/

/-- A frame of the machine works in this environment, with these frames below it. -/
inductive HasFrame (m : Machine) : EnvRef → Frame → List Frame → Prop where
  | top : HasFrame m m.context.env m.frame m.callers
  | under {env : EnvRef} {f caller : Frame} {callers : List Frame} :
    HasFrame m env f (caller :: callers) → HasFrame m f.callerEnv caller callers

/-- A frame that works in an environment belongs to the call of the function with `depth` frames
below it: it is that of the function, or runs a unit for a frame that belongs to the call.  The last
argument are the catch scopes that are open between the environment and that of the call. -/
inductive Belongs (depth : Nat) : EnvRef → Frame → List Frame → List EnvRef → Prop where
  | function {env : EnvRef} {f : Frame} {callers : List Frame} :
    callers.length = depth → Belongs depth env f callers (f.openScopes env)
  | unit {env : EnvRef} {f caller : Frame} {callers : List Frame} {opened : List EnvRef} :
    f.resume = .unit → Belongs depth f.callerEnv caller callers opened →
    Belongs depth env f (caller :: callers) (f.openScopes env ++ opened)

theorem Belongs.depth_le {depth : Nat} {f : Frame} {callers : List Frame} {opened : List EnvRef}
    (h : Belongs depth env f callers opened) : depth ≤ callers.length := by
  induction h with
  | function hd => exact Nat.le_of_eq hd.symm
  | unit _ _ ih => exact Nat.le_succ_of_le ih

namespace InCall

variable {r : Realm} {base env : EnvRef} {depth : Nat} {f : Frame} {callers : List Frame}

theorem hasFrame {m : Machine} (h : InCall r base depth m.context.env m.frame m.callers)
    (hw : m.HasFrame env f callers) (hd : depth ≤ callers.length) :
    InCall r base depth env f callers := by
  induction hw with
  | top => exact h
  | under _ ih =>
    cases ih (Nat.le_succ_of_le hd) with
    | function hlength _ =>
      rw [List.length_cons] at hlength
      omega
    | unit _ _ hrest => exact hrest
    | call _ hrest => exact hrest

theorem chain {opened : List EnvRef} (h : InCall r base depth env f callers)
    (hb : Belongs depth env f callers opened) :
    ∃ scopes, Chain r base env scopes ∧ opened = (env :: scopes).dropLast := by
  induction hb with
  | function hd =>
    cases h with
    | function _ hchain => exact ⟨_, hchain, rfl⟩
    | unit _ _ hrest | call _ hrest =>
      have hle := hrest.depth_le
      rw [List.length_cons] at hd
      omega
  | unit hunit hbelow ih =>
    cases h with
    | function hd _ =>
      have hle := hbelow.depth_le
      rw [List.length_cons] at hd
      omega
    | call hcall _ => exact absurd hunit hcall
    | unit _ hchain hrest =>
      obtain ⟨scopes, hchain', rfl⟩ := ih hrest
      exact ⟨_, hchain.trans hchain', (hchain.dropLast_append scopes).symm⟩

end InCall

/-! ## Names -/

theorem Chain.resolve {r : Realm} (h : Chain r base env scopes) (hr : r.Founded)
    (hb : r.HasEnv base) (hn : (r.env base).Fixed name) :
    ∃ ref, r.resolve env name = some ref ∧ (ref = base ∨ ref ∈ (env :: scopes).dropLast) ∧
      base.index ≤ ref.index := by
  obtain ⟨hscopes, hlt⟩ := h.scopes_eq hr
  obtain ⟨rest, hrest⟩ := hr.scopes_cons hb
  unfold Realm.resolve
  rw [hscopes, hrest, List.find?_append]
  cases hfind : (env :: scopes).dropLast.find? fun ref => (r.env ref).has name with
  | some ref =>
    have hmem := List.mem_of_find?_eq_some hfind
    exact ⟨ref, rfl, .inr hmem, Nat.le_of_lt (hlt ref hmem)⟩
  | none =>
    have hbase : (base :: rest).find? (fun ref => (r.env ref).has name) = some base :=
      List.find?_cons_of_pos hn.has
    rw [hbase]
    exact ⟨base, rfl, .inl rfl, Nat.le_refl _⟩

theorem assign_of_resolve {r : Realm} {ref : EnvRef} (h : r.resolve env name = some ref)
    (v : Value) (strict : Bool) :
    Realm.assign env name v strict r = .ok () (r.modifyEnv ref (·.bind name v)) := by
  have hget (f : Realm → RealmM Unit) : (get >>= f) r = f r r := rfl
  unfold Realm.assign
  rw [hget, h]
  rfl

/-! ## During a call -/

/-- The step from `m` to `m'` calls a function that has this unit for its body. -/
structure CallsUnit (a : Artifact) (id : UnitId) (m m' : Machine) : Prop where
  step : m.step = .next m'
  deeper : m'.callers.length = m.callers.length + 1
  resume : m'.frame.resume ≠ .unit
  artifact : m'.frame.artifact = a
  unit : a.unit? id = some m'.frame.unit

/-- The machine comes from `m₁` to `m` without a return to fewer than `depth` frames below the
running one. -/
inductive During (depth : Nat) (m₁ : Machine) : Machine → Prop where
  | start : During depth m₁ m₁
  | step {m m' : Machine} : During depth m₁ m → m.step = .next m' → depth ≤ m'.callers.length →
    During depth m₁ m'

variable {m0 m1 m m' : Machine} {depth : Nat}

theorem During.trans (h : During depth m0 m1) (h' : During depth m1 m) : During depth m0 m := by
  induction h' with
  | start => exact h
  | step _ hs hd ih => exact ih.step hs hd

theorem During.retains (h : During depth m1 m) : m1.realm.Retains m.realm := by
  induction h with
  | start => exact .refl _
  | step _ hs _ ih => exact ih.trans (shifts_step hs).retains

theorem During.founded (h : During depth m1 m) (h1 : m1.Founded) : m.Founded := by
  induction h with
  | start => exact h1
  | step _ hs _ ih => exact ih.next hs

theorem During.inCall (h : During depth m1 m)
    (h1 : InCall m1.realm base depth m1.context.env m1.frame m1.callers) :
    InCall m.realm base depth m.context.env m.frame m.callers := by
  induction h with
  | start => exact h1
  | step _ hs hd ih => exact ih.shifts (shifts_step hs) hd

/-- A call begins in an environment that was not there before. -/
theorem CallsUnit.enters {a : Artifact} {id : UnitId} (h : CallsUnit a id m m') :
    m'.frame.scopes = [] ∧ m'.frame.next = 0 ∧ m'.status = .running ∧
      m.realm.environments.size ≤ m'.context.env.index := by
  have hdeeper := h.deeper
  cases shifts_step h.step with
  | stays hl =>
    rw [hl.callers] at hdeeper
    omega
  | opens _ _ hc | closes _ _ hc =>
    rw [hc] at hdeeper
    omega
  | leaves _ hc =>
    rw [hc, List.length_cons] at hdeeper
    omega
  | enters _ _ _ _ hscopes hnext _ hstatus _ hcall =>
    exact ⟨hscopes, hnext, hstatus, hcall h.resume⟩

theorem CallsUnit.inCall {a : Artifact} {id : UnitId} (h : CallsUnit a id m m') :
    InCall m'.realm m'.context.env m'.callers.length m'.context.env m'.frame m'.callers := by
  refine .function rfl ?_
  rw [h.enters.1]
  exact .base

/-! ## The declarations run -/

/-- How far the declarations of a function have come: they have run, or are running in the
environment of the call, or something was thrown. -/
inductive Declaring (u : CodeUnit) (base : EnvRef) (depth : Nat) (m : Machine) : Prop where
  | done : (∀ {offset name}, offset < u.prologue → u.BindsAt offset name →
      (m.realm.env base).Fixed name) → Declaring u base depth m
  | running : m.status = .running → m.callers.length = depth → m.frame.unit = u →
    m.frame.next < u.prologue → m.context.env = base →
    (∀ {offset name}, offset < m.frame.next → u.BindsAt offset name →
      (m.realm.env base).Fixed name) → Declaring u base depth m
  | thrown {c : Completion} : m.status = .finishing c → m.callers.length = depth →
    Declaring u base depth m

theorem fixed_of_bindsAt {i : Instruction} {offset : Nat} (hb : m.frame.unit.BindsAt offset name)
    (hi : m.frame.unit.instructions[offset]? = some i) (he : exec i m = .ok () m')
    (hhas : m.realm.HasEnv m.context.env) (ha : m.realm.Anchored)
    (hne : m.context.env ≠ globalEnv) : (m'.realm.env m.context.env).Fixed name := by
  obtain ⟨index, hcode, hname⟩ := hb
  rcases hcode with hcode | hcode
  · cases hi.symm.trans hcode
    rw [exec_declareVariable hname] at he
    cases he
    show ((m.realm.modifyEnv m.context.env _).env m.context.env).Fixed name
    rw [env_modifyEnv_self hhas]
    exact Environment.fixed_declare_self (ha hne)
  · cases hi.symm.trans hcode
    have hexec : exec (.initializeBinding index) m = _ := bind_ok (nameOf_eq hname)
    have hpop : Local true m (stateOf (pop m)) := own_pop.tame.moves m
    rw [hexec] at he
    cases hp : pop m with
    | error e m1 =>
      rw [bind_error hp] at he
      cases he
    | ok v m1 =>
      rw [hp] at hpop
      rw [bind_ok hp] at he
      have hm' : EStateM.Result.ok () (m1.withRealm
          (m1.realm.modifyEnv m1.context.env (·.bind name v))) = .ok () m' := he
      cases hm'
      have hcontext : m1.context = m.context := hpop.context
      have hhas1 : m1.realm.HasEnv m.context.env := Nat.lt_of_lt_of_le hhas hpop.realm.retains.size
      show ((m1.realm.modifyEnv m1.context.env _).env m.context.env).Fixed name
      rw [hcontext, env_modifyEnv_self hhas1]
      exact Environment.fixed_bind_self (ha.retains hpop.realm.retains hne) v

theorem hangs_of_declares {i : Instruction} (h : i.declares = true) : m.hangs i = false := by
  cases i with
  | makeClosure _ | initializeBinding _ | declareVariable _ => rfl
  | _ => cases h

theorem Declaring.step (h : Declaring u base depth m) (hs : m.step = .next m')
    (hd : depth ≤ m'.callers.length) (hf : m.Founded) (ha : m.realm.Anchored)
    (hne : base ≠ globalEnv) : Declaring u base depth m' := by
  cases h with
  | done hall => exact .done fun hlt hb => (shifts_step hs).retains.fixed (hall hlt hb)
  | thrown hst hc =>
    rw [step_finishing hst] at hs
    obtain ⟨_, _, hcallers, -⟩ := leave_next hs
    rw [hcallers, List.length_cons] at hc
    omega
  | running hst hc hu hnext henv hbound =>
    obtain ⟨i, hi, hdeclares⟩ := CodeUnit.declares_of_lt hnext
    rw [← hu] at hi
    have hstill : Local false m.advance (stateOf (exec i m.advance)) :=
      (local_declares hdeclares).moves m.advance
    rw [step_eq hst hi (hangs_of_declares hdeclares)] at hs
    cases he : exec i m.advance with
    | error e m1 =>
      rw [he] at hs hstill
      cases e with
      | thrown fault =>
        cases hs
        exact .thrown rfl ((congrArg _ hstill.callers).trans hc)
      | fatal e => cases hs
    | ok x m1 =>
      rw [he] at hs hstill
      cases hs
      have hnext1 : m'.frame.next = m.frame.next + 1 := hstill.next rfl
      have hbound1 {offset : Nat} {name : String} (hlt : offset < m.frame.next + 1)
          (hb : u.BindsAt offset name) : (m'.realm.env base).Fixed name := by
        by_cases hoffset : offset = m.frame.next
        · subst hoffset
          subst hu
          subst henv
          exact fixed_of_bindsAt (m := m.advance) hb hi he hf.env ha hne
        · exact hstill.realm.retains.fixed (hbound (by omega) hb)
      by_cases hlast : m.frame.next + 1 < u.prologue
      · refine .running (hstill.status.trans hst) ((congrArg _ hstill.callers).trans hc)
          (hstill.frame.unit.trans hu) ?_ (hstill.env.trans henv) ?_
        · rwa [hnext1]
        · rw [hnext1]
          exact hbound1
      · exact .done fun hlt hb => hbound1 (by omega) hb

theorem During.declaring (h : During depth m1 m) (h1 : Declaring u base depth m1)
    (hf : m1.Founded) (ha : m1.realm.Anchored) (hne : base ≠ globalEnv) :
    Declaring u base depth m := by
  induction h with
  | start => exact h1
  | step hduring hs hd ih =>
    exact ih.step hs hd (hduring.founded hf) (ha.retains hduring.retains) hne

end Machine

end TreeScript
