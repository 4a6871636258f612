import TreeScript.Proofs.Evaluation.Looping
import TreeScript.Proofs.Lowering.Windows

/-!
# Lists of statements

The statements of a list are run in order until one of them ends abruptly.  Each has a stretch of
the code to itself, and what stands between the stretches keeps the completion of the list so far
below the one of the statement that runs.
-/

namespace TreeScript

open Code Syntax Lowering

/-! ## Stretches -/

/-- A stretch of the code of a unit. -/
structure Stretch where
  first : Nat
  last : Nat

def Stretch.Has (σ : Stretch) (k : Nat) : Prop := σ.first ≤ k ∧ k < σ.last

/-- The stretches follow each other between two places, with room for two instructions behind each
of them. -/
def Successive (first last : Nat) : List Stretch → Prop
  | [] => first ≤ last
  | σ :: σs => first ≤ σ.first ∧ σ.first ≤ σ.last ∧ Successive (σ.last + 2) last σs

theorem Successive.le {first last : Nat} {σs : List Stretch} (h : Successive first last σs) :
    first ≤ last ∧ ∀ σ ∈ σs, first ≤ σ.first ∧ σ.first ≤ σ.last ∧ σ.last + 2 ≤ last := by
  induction σs generalizing first with
  | nil => exact ⟨h, fun _ hσ => absurd hσ List.not_mem_nil⟩
  | cons σ σs ih =>
    obtain ⟨hfirst, hlast, h⟩ := h
    obtain ⟨hle, hin⟩ := ih h
    refine ⟨by omega, List.forall_mem_cons.mpr ⟨⟨hfirst, hlast, hle⟩, fun τ hτ => ?_⟩⟩
    have := hin τ hτ
    omega

theorem Successive.mono {first last last' : Nat} {σs : List Stretch} (h : Successive first last σs)
    (hle : last ≤ last') : Successive first last' σs := by
  induction σs generalizing first with
  | nil => exact Nat.le_trans h hle
  | cons σ σs ih => exact ⟨h.1, h.2.1, ih h.2.2⟩

theorem Successive.apart {first last k : Nat} {done rest : List Stretch}
    (h : Successive first last (done ++ rest))
    (hk : k < first ∨ ∃ σ ∈ done, k < σ.last + 2) : ∀ σ ∈ rest, ¬ σ.Has k := by
  induction done generalizing first with
  | nil =>
    intro τ hτ hin
    have hle := (h.le.2 τ hτ).1
    have hin := hin.1
    rcases hk with hk | ⟨_, hσ, -⟩
    · omega
    · cases hσ
  | cons σ done ih =>
    obtain ⟨hfirst, hlast, h⟩ := h
    refine ih h ?_
    rcases hk with hk | ⟨τ, hτ, hin⟩
    · exact .inl (by omega)
    · rcases List.mem_cons.mp hτ with rfl | hτ
      · exact .inl hin
      · exact .inr ⟨τ, hτ, hin⟩

theorem Successive.not_has {first last : Nat} {σs : List Stretch} (h : Successive first last σs) :
    ∀ σ ∈ σs, ∀ τ ∈ σs, ¬ τ.Has σ.last := by
  induction σs generalizing first with
  | nil => exact fun _ hσ => absurd hσ List.not_mem_nil
  | cons σ σs ih =>
    obtain ⟨-, -, h⟩ := h
    have hin := h.le.2
    refine List.forall_mem_cons.mpr ⟨List.forall_mem_cons.mpr ⟨fun hhas => ?_, fun τ hτ hhas => ?_⟩,
      fun τ hτ => List.forall_mem_cons.mpr ⟨fun hhas => ?_, ih h τ hτ⟩⟩
    · exact Nat.lt_irrefl _ hhas.2
    · have := (hin τ hτ).1
      have := hhas.1
      omega
    · have := hin τ hτ
      have := hhas.2
      omega

namespace Machine

variable {m m' m1 m2 : Machine} {σ : Stretch} {σs : List Stretch} {c : Completion}
  {cs : List Completion}

/-- The frame of `m` has run the stretch to its end, and there is one completion more on its
stack. -/
structure Completes (m : Machine) (σ : Stretch) (c : Completion) (m' : Machine) : Prop where
  treads : Treads m.callers.length σ.Has m m'
  persists : m.Persists m'
  running : m'.status = .running
  next : m'.frame.next = σ.last
  stack : m'.frame.stack = .completion c :: m.frame.stack

/-- The frame of `m` has ended with a throw inside the stretch. -/
structure Fails (m : Machine) (σ : Stretch) (v : Value) (m' : Machine) : Prop where
  treads : Treads m.callers.length σ.Has m m'
  persists : m.Persists m'
  status : m'.status = .finishing (.throwing v)

/-- The frame of `m` never gets out of the stretch. -/
def Remains (m : Machine) (σ : Stretch) : Prop :=
  ∀ m', m.Reaches m' → Treads m.callers.length σ.Has m m' ∧ m.Over m'

theorem Persists.hosts {a : Artifact} {u : CodeUnit} (h : m.Persists m') (hm : m.Hosts a u)
    (hr : m'.status = .running) : m'.Hosts a u where
  artifact := h.frame.artifact.trans hm.artifact
  unit := h.frame.unit.trans hm.unit
  temps := h.frame.temps.trans hm.temps
  running := hr

/-- The frame's next instruction raises a fault. -/
def Raises (m : Machine) (fault : Fault) (m' : Machine) : Prop :=
  m.status = .running ∧ ∃ i, m.frame.unit.instructions[m.frame.next]? = some i ∧
    m.hangs i = false ∧ exec i m.advance = .error (.thrown fault) m'

/-- A fault that is raised inside a stretch ends the frame with a throw. -/
theorem Raises.fails {fault : Fault} (h : m1.Raises fault m2) (hf : m.Persists m1)
    (ht : Treads m.callers.length σ.Has m m1) (hin : σ.Has m1.frame.next) :
    m.Fails σ (m2.realm.materialize fault).1 (m2.throwFault fault) := by
  obtain ⟨hr, i, hi, hh, he⟩ := h
  have hstays : Stays m1.advance m2 := by
    rcases (effective_exec i).effect m1.advance with hs | ⟨m3, he', -⟩
    · rw [he] at hs
      exact hs
    · rw [he] at he'
      cases he'
  have hf2 := hf.trans (persists_advance ⟨hstays.frame, hstays.callers⟩)
  exact ⟨ht.trans (treads_of_step hin (step_throw hr hi hh he)), ⟨hf2.frame, hf2.callers⟩, rfl⟩

/-- The frame of `m` is in a list of statements, of which some were run and gave normal
completions. -/
structure Between (m : Machine) (cs : List Completion) (m' : Machine) : Prop where
  persists : m.Persists m'
  running : m'.status = .running
  stack : m'.frame.stack = .completion (.settled cs) :: m.frame.stack

structure Behind (m : Machine) (cs : List Completion) (c : Completion) (next : Nat)
    (m₂ : Machine) : Prop where
  persists : m.Persists m₂
  running : m₂.status = .running
  next : m₂.frame.next = next
  stack : m₂.frame.stack =
    .completion c :: .completion (.settled cs) :: m.frame.stack

/-- The frame of `m` runs statements one after the other, and all of them complete normally. -/
inductive Performs (m : Machine) (first : Nat) :
    List Stretch → List Completion → Machine → Prop where
  | begin {m₁ : Machine} : Treads m.callers.length (· < first) m m₁ → m.Between [] m₁ →
    Performs m first [] [] m₁
  | next {σs : List Stretch} {cs : List Completion} {m₁ m₂ m₃ : Machine} {σ : Stretch}
      {c : Completion} :
    Performs m first σs cs m₁ → m₁.frame.next = σ.first → m₁.Completes σ c m₂ →
    c.isAbrupt = false → Treads m.callers.length (fun k => σ.last ≤ k ∧ k < σ.last + 2) m₂ m₃ →
    m.Between (cs ++ [c]) m₃ → Performs m first (σs ++ [σ]) (cs ++ [c]) m₃

theorem Performs.between {first : Nat} (h : m.Performs first σs cs m1) : m.Between cs m1 := by
  cases h with
  | begin _ hb => exact hb
  | next _ _ _ _ _ hb => exact hb

theorem Performs.treads {first : Nat} (h : m.Performs first σs cs m1) :
    Treads m.callers.length (fun k => k < first ∨ ∃ σ ∈ σs, k < σ.last + 2) m m1 := by
  induction h with
  | begin ht _ => exact ht.mono fun _ hk => .inl hk
  | @next σs cs m1 m2 m3 σ c hp hfirst hc _ ht _ ih =>
    have hcallers := hp.between.persists.callers
    have hlast : σ ∈ σs ++ [σ] := List.mem_append_right σs (List.mem_singleton_self σ)
    have hc := hc.treads
    rw [hcallers] at hc
    refine ((ih.mono ?_).trans (hc.mono ?_)).trans (ht.mono ?_)
    · exact fun k hk => hk.imp_right fun ⟨τ, hτ, hin⟩ => ⟨τ, List.mem_append_left _ hτ, hin⟩
    · exact fun k hk => .inr ⟨σ, hlast, Nat.lt_add_right 2 hk.2⟩
    · exact fun k hk => .inr ⟨σ, hlast, hk.2⟩

/-- From `m1` on the frame of `m` comes to `last` without running any of the statements, and has the
completion on top of its stack. -/
def Arrives (m : Machine) (σs : List Stretch) (last : Nat) (c : Completion) (m1 : Machine) : Prop :=
  ∃ m', Treads m.callers.length (fun k => ∀ σ ∈ σs, ¬ σ.Has k) m1 m' ∧ m.Persists m' ∧
    m'.status = .running ∧ m'.frame.next = last ∧
    m'.frame.stack = .completion c :: m.frame.stack

/-- How a list goes on from `m₁`, where the first statements were run and `rest` are the others:
there is none left and `all` holds, or the next one ends abruptly as `abrupt` says, or it throws, or
it is never left. -/
inductive Concludes (m₁ : Machine) (all : Prop) (abrupt : Completion → Machine → Prop) :
    List Stretch → Prop where
  | all : all → Concludes m₁ all abrupt []
  | abrupt {σ : Stretch} {later : List Stretch} {c : Completion} {m₂ : Machine} :
    m₁.frame.next = σ.first → m₁.Completes σ c m₂ → c.isAbrupt = true → abrupt c m₂ →
    Concludes m₁ all abrupt (σ :: later)
  | throws {σ : Stretch} {later : List Stretch} {v : Value} {m₂ : Machine} :
    m₁.frame.next = σ.first → m₁.Fails σ v m₂ → Concludes m₁ all abrupt (σ :: later)
  | endless {σ : Stretch} {later : List Stretch} :
    m₁.frame.next = σ.first → m₁.Remains σ → Concludes m₁ all abrupt (σ :: later)

theorem Concludes.imp {all all' : Prop} {abrupt abrupt' : Completion → Machine → Prop}
    {rest : List Stretch} (h : m1.Concludes all abrupt rest) (hall : rest = [] → all → all')
    (habrupt : ∀ σ ∈ rest, ∀ c m2, m2.frame.next = σ.last → abrupt c m2 → abrupt' c m2) :
    m1.Concludes all' abrupt' rest := by
  cases h with
  | all h => exact .all (hall rfl h)
  | abrupt hf hc ha h => exact .abrupt hf hc ha (habrupt _ (List.mem_cons_self ..) _ _ hc.next h)
  | throws hf h => exact .throws hf h
  | endless hf h => exact .endless hf h

end Machine

/-! ## Statements -/

namespace Lowering

open Machine

variable {a : Artifact} {u : CodeUnit} {s s' : Stage} {strict : Bool} {m : Machine}

/-- The stretch has the code of the statement. -/
def StatementCode (a : Artifact) (u : CodeUnit) (strict : Bool) (t : Stmt) (σ : Stretch) : Prop :=
  ∃ s s', Laid a u (genStmt strict [] t) s () s' ∧ σ = ⟨s.offset, s'.offset⟩

/-- A frame that runs a statement completes it, fails or never gets out of it. -/
theorem statement_cases {t : Stmt} {σ : Stretch} (h : StatementCode a u strict t σ)
    (hm : m.Hosts a u) (hnext : m.frame.next = σ.first) :
    (∃ c m', m.Completes σ c m') ∨ (∃ v m', m.Fails σ v m') ∨ m.Remains σ := by
  obtain ⟨s, s', h, rfl⟩ := h
  have hnext : m.frame.next = s.offset := hnext
  let stop : View → Prop := fun v =>
    v.next = s'.offset ∧ ∃ c, v.stack = .completion c :: m.frame.stack
  have hsafe (n : Nat) : Safe a (compiledRules False fun _ => True) n
      (window u s.offset s'.offset) stop m.frame.view := by
    have hview : m.frame.view = ⟨(s.hiding s.offset u.tempCount).offset, m.frame.stack,
        m.frame.scopes.length⟩ := by
      rw [offset_hiding, ← hnext]
      rfl
    rw [hview]
    refine @completes_genStmt False (compiledRules False fun _ => True) a rfl strict {} [] t
      (fun _ => rfl) False.elim _ _ _ (laid_window h) ⟨n, stop, m.frame.scopes.length⟩
      m.frame.stack fun c => ?_
    cases n with
    | zero => trivial
    | succ n =>
      unfold Rest.At Safe
      rw [offset_hiding, getElem?_window, if_neg (Nat.lt_irrefl _)]
      exact ⟨rfl, c.1, rfl⟩
  have hfares (n : Nat) : Fares (Stretch.Has ⟨s.offset, s'.offset⟩)
      (fun v => (window u s.offset s'.offset).instructions[v.next]? = none ∧ stop v) n m := by
    refine fares_of_safe (fun _ => trivial) n hm.artifact ?_ hm.running ?_ (hsafe n)
    · rw [hm.temps, hm.unit]
    · rw [hm.unit]
      exact covers_window
  by_cases hbusy : ∀ n m', run n m = .exhausted m' →
      Treads m.callers.length (Stretch.Has ⟨s.offset, s'.offset⟩) m m' ∧ m.Over m'
  · refine .inr (.inr fun m' hreaches => ?_)
    obtain ⟨n, hn⟩ := hreaches
    exact hbusy n m' hn
  · obtain ⟨n, hn⟩ := not_forall.mp hbusy
    cases hfares n with
    | ended ht hf hr hstop =>
      obtain ⟨-, hlast, c, hstack⟩ := hstop
      exact .inl ⟨c, _, ht, hf, hr, hlast, hstack⟩
    | threw ht hf hs => exact .inr (.inl ⟨_, _, ht, hf, hs⟩)
    | busy hb => exact absurd hb hn

/-! ## Between statements -/

theorem treads_adds {m' : Machine} {i : Instruction} {depth : Nat} {inside : Nat → Prop}
    (h : Adds u i s s') (hm : m.Hosts a u) (hnext : m.frame.next = s.offset)
    (hh : m.hangs i = false) (hin : inside s.offset) (he : exec i m.advance = .ok () m') :
    Treads depth inside m m' := by
  refine treads_of_step (hnext ▸ hin) (step_exec hm.running ?_ hh he)
  rw [hm.unit, hnext]
  exact h.code

theorem next_advance {i : Instruction} (h : Adds u i s s') (hnext : m.frame.next = s.offset) :
    m.advance.frame.next = s'.offset := by
  rw [h.offset, ← hnext]
  rfl

theorem offset_of_hosts {l : Label} {offset : Nat} (hm : m.Hosts a u)
    (hl : u.offset? l = some offset) : m.advance.frame.unit.offset? l = some offset := by
  show m.frame.unit.offset? l = some offset
  rw [hm.unit]
  exact hl

section

variable {m2 : Machine} {cs : List Completion} {c : Completion} {t t1 t2 : Stage} {abrupt : Label}
  {place : Nat}

theorem between_of_normal (hjump : Adds u (.jumpIfAbrupt abrupt) t t1)
    (hmerge : Adds u .merge t1 t2)
    (hm : m.Hosts a u) (hl : u.offset? abrupt = some place) (h : Behind m cs c t.offset m2)
    (hc : c.isAbrupt = false) :
    ∃ m3, Treads m.callers.length (fun k => t.offset ≤ k ∧ k < t.offset + 2) m2 m3 ∧
      m.Between (cs ++ [c]) m3 ∧ m3.frame.next = t2.offset := by
  have hhosts := h.persists.hosts hm h.running
  have he := exec_jumpIfAbrupt (m := m2.advance) (offset_of_hosts hhosts hl) h.stack
  rw [hc] at he
  have hf : m2.Persists m2.advance := persists_advance (.refl _)
  have hnext := next_advance hjump h.next
  have hhosts' := hf.hosts hhosts hhosts.running
  have he' := exec_merge (m := m2.advance.advance) h.stack
  rw [Completion.merge_settled] at he'
  have hoffset := hjump.offset
  refine ⟨_, (treads_adds hjump hhosts h.next rfl ?_ he).trans
    (treads_adds hmerge hhosts' hnext rfl ?_ he'),
    ⟨h.persists.trans ⟨⟨rfl, rfl, rfl, rfl, rfl⟩, rfl⟩, h.running, rfl⟩, next_advance hmerge hnext⟩
  · omega
  · omega

theorem leaves_of_abrupt (hjump : Adds u (.jumpIfAbrupt abrupt) t t1) (hm : m.Hosts a u)
    (hl : u.offset? abrupt = some place) (h : Behind m cs c t.offset m2) (hc : c.isAbrupt = true) :
    ∃ m3, Treads m.callers.length (· = t.offset) m2 m3 ∧ Behind m cs c place m3 := by
  have hhosts := h.persists.hosts hm h.running
  have he := exec_jumpIfAbrupt (m := m2.advance) (offset_of_hosts hhosts hl) h.stack
  rw [hc] at he
  exact ⟨_, treads_adds hjump hhosts h.next rfl rfl he,
    h.persists.trans ⟨⟨rfl, rfl, rfl, rfl, rfl⟩, rfl⟩, h.running, rfl, h.stack⟩

def LeavesList (m : Machine) (cs : List Completion) (place : Nat) (c : Completion) (m1 : Machine) :
    Prop :=
  ∃ m2, Treads m.callers.length (· = m1.frame.next) m1 m2 ∧ Behind m cs c place m2

theorem performs_genStatements (first : Nat) (hl : u.offset? abrupt = some place)
    (body : List Stmt) {x : Unit} (h : Laid a u (genStatements strict [] body abrupt) s x s') :
    ∃ rest, List.Forall₂ (StatementCode a u strict) body rest ∧ Successive s.offset s'.offset rest ∧
      ∀ {m m1 : Machine} {done : List Stretch} {cs : List Completion}, m.Hosts a u →
        m.Performs first done cs m1 → m1.frame.next = s.offset →
        ∃ done' rest' cs' m2, done ++ rest = done' ++ rest' ∧ m.Performs first done' cs' m2 ∧
          m2.Concludes (m2.frame.next = s'.offset) (LeavesList m cs' place) rest' := by
  induction body generalizing s with
  | nil =>
    obtain ⟨-, rfl⟩ := laid_pure h
    refine ⟨[], .nil, Nat.le_refl _, fun {m m1 done cs} hm hp hnext => ?_⟩
    exact ⟨done, [], cs, m1, rfl, hp, .all hnext⟩
  | cons t ts ih =>
    rw [genStatements_cons] at h
    obtain ⟨_, s1, h1, h2⟩ := laid_bind.mp h
    simp only [inList, laid_bind] at h1
    obtain ⟨_, s2, h3, _, s3, h4, h5⟩ := h1
    obtain ⟨rest, hcode, horder, hrest⟩ := ih h2
    have hjump := laid_emit h4
    have hmerge := laid_emit h5
    have hoffset : s1.offset = s2.offset + 2 := by
      rw [hmerge.offset, hjump.offset]
    have hstatement : StatementCode a u strict t ⟨s.offset, s2.offset⟩ := ⟨s, s2, h3, rfl⟩
    refine ⟨⟨s.offset, s2.offset⟩ :: rest, .cons hstatement hcode, ⟨Nat.le_refl _,
      laid_offset_le h3, hoffset ▸ horder⟩, fun {m m1 done cs} hm hp hnext => ?_⟩
    have hb := hp.between
    have hhosts := hb.persists.hosts hm hb.running
    rcases statement_cases hstatement hhosts hnext with
      ⟨c, m2, hcompletes⟩ | ⟨v, m2, hfails⟩ | hremains
    · have hbehind : m.Behind cs c s2.offset m2 :=
        ⟨hb.persists.trans hcompletes.persists, hcompletes.running, hcompletes.next,
          hcompletes.stack.trans (congrArg _ hb.stack)⟩
      cases hc : c.isAbrupt with
      | true =>
        obtain ⟨m3, ht, hout⟩ := leaves_of_abrupt hjump hm hl hbehind hc
        refine ⟨done, _, cs, m1, rfl, hp, .abrupt hnext hcompletes hc ⟨m3, ?_, hout⟩⟩
        rw [hbehind.next]
        exact ht
      | false =>
        obtain ⟨m3, ht, hbetween, hnext3⟩ := between_of_normal hjump hmerge hm hl hbehind hc
        have hperforms := hp.next hnext hcompletes hc ht hbetween
        obtain ⟨done', rest', cs', m4, heq, hrun⟩ := hrest hm hperforms hnext3
        rw [List.append_assoc] at heq
        exact ⟨done', rest', cs', m4, heq, hrun⟩
    · exact ⟨done, _, cs, m1, rfl, hp, .throws hnext hfails⟩
    · exact ⟨done, _, cs, m1, rfl, hp, .endless hnext hremains⟩

end

/-! ## The law -/

theorem arrives_of_behind {m1 : Machine} {cs : List Completion} {c : Completion} {σs : List Stretch}
    {x : Unit} (h : Laid a u dropBelow s x s') (hm : m.Hosts a u) (hb : m.Behind cs c s.offset m1)
    (hout : ∀ k, s.offset ≤ k → ∀ σ ∈ σs, ¬ σ.Has k) : m.Arrives σs s'.offset c m1 := by
  obtain ⟨_, s1, h1, h2⟩ := laid_bind.mp h
  have hswap := laid_emit h1
  have hpop := laid_emit h2
  have hhosts := hb.persists.hosts hm hb.running
  have he := exec_swap (m := m1.advance) hb.stack
  have hnext := next_advance hswap hb.next
  generalize hm2 : m1.advance.withStack _ = m2 at he
  have hf : m1.Persists m2 := hm2 ▸ ⟨⟨rfl, rfl, rfl, rfl, rfl⟩, rfl⟩
  have hhosts2 := hf.hosts hhosts (hm2 ▸ hb.running)
  have hstack : m2.advance.frame.stack =
      .completion (.settled cs) :: .completion c :: m.frame.stack := hm2 ▸ rfl
  have hnext2 : m2.frame.next = s1.offset := hm2 ▸ hnext
  have he2 := exec_pop (m := m2.advance) hstack
  have hoffset := hswap.offset
  refine ⟨_, (treads_adds hswap hhosts hb.next rfl (hout _ (Nat.le_refl _)) he).trans
    (treads_adds hpop hhosts2 hnext2 rfl (hout _ (by omega)) he2), ?_, hhosts2.running,
    next_advance hpop hnext2, rfl⟩
  exact (hb.persists.trans hf).trans ⟨⟨rfl, rfl, rfl, rfl, rfl⟩, rfl⟩

/-- The list law: every statement has a stretch of the code of its own.  Wherever the list stands
and whatever is on the stack, its statements are run in order and once each, as long as they
complete normally, and nothing of the others is run meanwhile.  At the end there is one completion
more on the stack: that of the first statement that ended abruptly, or a normal one with the last
value that there was.  A fault in a statement ends the frame with a throw, and then or when a
statement is never left, nothing behind it is run. -/
theorem statementList_course {body : List Stmt}
    (h : Laid a u (statementList body (genStatements strict [] body)) s () s') :
    ∃ σs, List.Forall₂ (StatementCode a u strict) body σs ∧ Successive (s.offset + 1) s'.offset σs ∧
      (∀ m : Machine, m.Hosts a u → m.frame.next = s.offset →
        ∃ done rest cs m₁, σs = done ++ rest ∧ m.Performs (s.offset + 1) done cs m₁ ∧
          Treads m.callers.length (fun k => ∀ σ ∈ rest, ¬ σ.Has k) m m₁ ∧
          m₁.Concludes (m.Arrives σs s'.offset (.settled cs) m₁) (m.Arrives σs s'.offset) rest) ∧
      ∀ σ ∈ σs, ∀ m m₁ m₂ fault, m.Persists m₁ → Treads m.callers.length σ.Has m m₁ →
        σ.Has m₁.frame.next → m₁.Raises fault m₂ →
        m.Fails σ (m₂.realm.materialize fault).1 (m₂.throwFault fault) := by
  -- The list begins with a normal completion.
  have hbegin {s₁ : Stage} (hnormal : Adds u .normal s s₁) {m : Machine} (hm : m.Hosts a u)
      (hnext : m.frame.next = s.offset) : ∃ m₁, m.Performs (s.offset + 1) [] [] m₁ ∧
        m₁.frame.next = s₁.offset :=
    ⟨m.advance.pushed (.completion .normal),
      .begin (treads_adds hnormal hm hnext rfl (Nat.lt_succ_self _) rfl)
        ⟨⟨⟨rfl, rfl, rfl, rfl, rfl⟩, rfl⟩, hm.running, rfl⟩, next_advance hnormal hnext⟩
  cases body with
  | nil =>
    obtain ⟨_, s₁, h₁, h₂⟩ := laid_bind.mp h
    obtain ⟨-, rfl⟩ := laid_pure h₂
    have hnormal := laid_emit h₁
    refine ⟨[], .nil, Nat.le_of_eq hnormal.offset.symm, fun m hm hnext => ?_,
      fun _ _ _ _ _ _ hf ht hin hr => hr.fails hf ht hin⟩
    obtain ⟨m₁, hp, hnext₁⟩ := hbegin hnormal hm hnext
    have hb := hp.between
    exact ⟨[], [], [], m₁, rfl, hp, hp.treads.mono fun _ _ _ hσ => absurd hσ (List.not_mem_nil),
      .all ⟨m₁, .refl _, hb.persists, hb.running, hnext₁, hb.stack⟩⟩
  | cons t ts =>
    simp only [statementList_cons, laid_bind] at h
    obtain ⟨_, s₁, h₁, abrupt, s₂, h₂, done, s₃, h₃, _, s₄, h₄, _, s₅, h₅, _, s₆, h₆, _, s₇, h₇,
      h₈⟩ := h
    have hnormal := laid_emit h₁
    have k₃ := (laid_newLabel h₂).trans (laid_newLabel h₃)
    have hjump := laid_emit h₅
    obtain ⟨habrupt, k₆⟩ := laid_placed h₆
    obtain ⟨hdone, k₈⟩ := laid_placed h₈
    obtain ⟨σs, hcode, horder, hruns⟩ := performs_genStatements (s.offset + 1) habrupt
      (t :: ts) h₄
    have hstart : s₃.offset = s.offset + 1 := k₃.offset.trans hnormal.offset
    rw [hstart] at horder
    have hjumped := hjump.offset
    have hsettled := k₆.offset
    have hend : s₄.offset ≤ s'.offset := by
      have := laid_offset_le h₇
      have := k₈.offset
      omega
    -- Nothing behind the code of the statements belongs to them.
    have hout (k : Nat) (hk : s₄.offset ≤ k) : ∀ σ ∈ σs, ¬ σ.Has k := fun σ hσ hin => by
      have := (horder.le.2 σ hσ).2
      have := hin.2
      omega
    have horder := horder.mono hend
    refine ⟨σs, hcode, horder, fun m hm hnext => ?_,
      fun _ _ _ _ _ _ hf ht hin hr => hr.fails hf ht hin⟩
    obtain ⟨m₀, hp, hnext₀⟩ := hbegin hnormal hm hnext
    obtain ⟨done, rest, cs, m₁, rfl, hp, hc⟩ := hruns hm hp (hnext₀.trans k₃.offset.symm)
    have hb := hp.between
    have hhosts := hb.persists.hosts hm hb.running
    refine ⟨done, rest, cs, m₁, rfl, hp, hp.treads.mono fun k hk => horder.apart hk,
      hc.imp (fun _ hnext₁ => ?_) fun σ hσ c m₂ hnext₂ hleaves => ?_⟩
    · exact ⟨_, treads_adds hjump hhosts hnext₁ rfl (hout _ (Nat.le_refl _))
        (exec_jump (m := m₁.advance) (offset_of_hosts hhosts hdone)),
        hb.persists.trans ⟨⟨rfl, rfl, rfl, rfl, rfl⟩, rfl⟩, hb.running, rfl, hb.stack⟩
    · obtain ⟨m₃, ht, hb⟩ := hleaves
      have hσ := List.mem_append_right done hσ
      obtain ⟨m₄, ht₄, harrives⟩ := arrives_of_behind h₇ hm hb fun k hk => hout k (by omega)
      refine ⟨m₄, (ht.mono fun k hk τ hτ => ?_).trans ht₄, k₈.offset ▸ harrives⟩
      rw [hk, hnext₂]
      exact horder.not_has σ hσ τ hτ

/-- `"a"; throw "b"; "c"` -/
def givingUp : List Stmt :=
  [.expression (.string "a"), .throw (.string "b"), .expression (.string "c")]

theorem compiles_givingUp :
    (compile { body := [.block givingUp] } false).toOption.isSome = true := by
  decide +kernel

/-- A block of three statements, in a frame that has a value on its stack. -/
theorem statementList_course_givingUp :
    ∃ a u s s', compile { body := [.block givingUp] } false = .ok a ∧ a.entryUnit? = some u ∧
      Laid a u (statementList givingUp (genStatements false [] givingUp)) s () s' ∧
      ∃ σ₁ σ₂ σ₃ done rest cs m₁, Successive (s.offset + 1) s'.offset [σ₁, σ₂, σ₃] ∧
        StatementCode a u false (.throw (.string "b")) σ₂ ∧ [σ₁, σ₂, σ₃] = done ++ rest ∧
        ((atOffset a u s.offset).pushed (.value .undefined)).Performs (s.offset + 1) done cs m₁ ∧
        m₁.Concludes (((atOffset a u s.offset).pushed (.value .undefined)).Arrives [σ₁, σ₂, σ₃]
            s'.offset (.settled cs) m₁)
          (((atOffset a u s.offset).pushed (.value .undefined)).Arrives [σ₁, σ₂, σ₃] s'.offset)
          rest := by
  obtain ⟨a, hc⟩ := Option.isSome_iff_exists.mp compiles_givingUp
  have hc := ok_of_toOption hc
  obtain ⟨u, s, s', hu, hlaid⟩ := laid_statement hc
  refine ⟨a, u, s, s', hc, hu, hlaid, ?_⟩
  obtain ⟨σs, hcode, horder, hruns, -⟩ := statementList_course hlaid
  obtain - | ⟨-, hcode⟩ := hcode
  obtain - | ⟨hthrow, hcode⟩ := hcode
  obtain - | ⟨-, hcode⟩ := hcode
  cases hcode
  obtain ⟨done, rest, cs, m₁, hparts, hperforms, -, hconcludes⟩ :=
    hruns ((atOffset a u s.offset).pushed (.value .undefined)) ⟨rfl, rfl, Array.size_replicate, rfl⟩
      rfl
  exact ⟨_, _, _, done, rest, cs, m₁, horder, hthrow, hparts, hperforms, hconcludes⟩

end Lowering

end TreeScript
