import TreeScript.Proofs.Evaluation.Agreement

/-!
# The meaning of constructs

`Means` says that code does what an evaluation does, wherever the code stands and whatever is on the
stack.  The statements put the meaning of a construct together from those of its parts, in the order
in which the parts are run.
-/

namespace TreeScript.Lowering

open Code Syntax Machine

/-- The code between two stages does what `ev` does, with `pre` on the stack in front of it and what
`top` tells behind it.  It may only use temporaries of its own.  The results of `ev` are all in
`R`. -/
def Turns {α : Type} (a : Artifact) (u : CodeUnit) (s s' : Stage) (R : α → Prop) (pre : List Slot)
    (top : α → List Slot) (ev : Scene → Eval α) : Prop :=
  ∀ ⦃way : Machine → Machine → Prop⦄ ⦃m : Machine⦄ [Way m.callers.length way], m.Hosts a u →
    ∀ ⦃stack : List Slot⦄ ⦃temps : Array Value⦄ ⦃r : Realm⦄, temps.size = u.tempCount →
    ∀ ⦃β : Type⦄ ⦃Q : β → Realm → Machine → Prop⦄ ⦃k : α → Eval β⦄,
      (∀ x temps' r', R x → Kept s.temps temps temps' →
        m.RunsBy way Q (m.placed s'.offset (top x ++ stack) temps' r') (k x r')) →
      m.RunsBy way Q (m.placed s.offset (pre ++ stack) temps r) ((ev m.scene >>= k) r)

abbrev Computes {α : Type} (a : Artifact) (u : CodeUnit) (s s' : Stage) (R : α → Prop)
    (top : α → List Slot) (ev : Scene → Eval α) : Prop :=
  Turns a u s s' R [] top ev

def Means {α : Type} (a : Artifact) (R : α → Prop) (top : α → List Slot) (P : Links → Prop)
    (ev : Scene → Links → Eval α) (g : Gen Unit) : Prop :=
  ∀ ⦃u : CodeUnit⦄ ⦃s s' : Stage⦄, Laid a u g s () s' →
    ∃ links, P links ∧ Computes a u s s' R top fun scene => ev scene links

abbrev MeansValue (a : Artifact) (P : Links → Prop) (ev : Scene → Links → Eval Value)
    (g : Gen Unit) : Prop :=
  Means a (fun _ => True) (fun v => [.value v]) P ev g

abbrev MeansValues (a : Artifact) (count : Nat) (P : Links → Prop)
    (evs : Scene → Links → Eval (List Value)) (g : Gen Unit) : Prop :=
  Means a (fun vs => vs.length = count) slots P evs g

variable {a : Artifact} {u : CodeUnit} {s s' : Stage} {P P' : Links → Prop}
  {ev ev' : Scene → Links → Eval Value}

theorem laid_temps {α : Type} {g : Gen α} [hg : Composed g] {x : α} (h : Laid a u g s x s') :
    s.temps ≤ s'.temps :=
  (grows_of_built hg h.yields).builder.temps

theorem placed_keeps {way : Machine → Machine → Prop} {m : Machine} {stack : List Slot}
    {temps : Array Value} {r : Realm} {β : Type} {Q : β → Realm → Machine → Prop}
    {out : Option (Except Fault β × Realm)}
    (h : Keeps s s') (hk : m.RunsBy way Q (m.placed s'.offset stack temps r) out) :
    m.RunsBy way Q (m.placed s.offset stack temps r) out := by
  rw [← h.offset]
  exact hk

section

variable {α β : Type} {s1 : Stage} {R : α → Prop} {pre : List Slot} {top : α → List Slot}
  {f : Scene → Eval α}

theorem Turns.bind {R' : β → Prop} {top' : β → List Slot} {f' : α → Scene → Eval β}
    (h : Turns a u s s1 R pre top f) (ht : s.temps ≤ s1.temps)
    (h' : ∀ x, R x → Turns a u s1 s' R' (top x) top' (f' x)) :
    Turns a u s s' R' pre top' fun scene => f scene >>= fun x => f' x scene := by
  intro way m _ hm stack temps r hsize β Q k hk
  rw [bind_assoc]
  refine h hm hsize fun x temps1 r1 hx k1 => ?_
  refine h' x hx hm (k1.size.trans hsize) fun y temps2 r2 hy k2 => ?_
  exact hk y temps2 r2 hy (k1.trans k2 ht)

theorem Turns.over (h : Turns a u s s' R pre top f) (rest : List Slot) :
    Turns a u s s' R (pre ++ rest) (fun x => top x ++ rest) f := by
  intro way m _ hm stack temps r ht β Q k hk
  simp only [List.append_assoc] at hk ⊢
  exact h hm ht hk

theorem turns_pure {t : α → List Slot} {x : α} (hx : R x) :
    Turns a u s s R (t x) t fun _ => pure x := by
  intro way m _ hm stack temps r ht β Q k hk
  exact hk x temps r hx (.refl _ _)

theorem Turns.keeps (h : Turns a u s1 s' R pre top f) (hs : Keeps s s1) :
    Turns a u s s' R pre top f := by
  intro way m _ hm stack temps r ht β Q k hk
  rw [← hs.temps] at hk
  exact placed_keeps hs (h hm ht hk)

theorem Turns.emit {i : Instruction} {p : List Slot} (h : Turns a u s1 s' R p top f)
    (hadd : Adds u i s s1) (hi : i.invoked? = none)
    (hh : ∀ {m : Machine} {stack : List Slot} {temps : Array Value} {r : Realm},
      (m.placed s.offset (pre ++ stack) temps r).hangs i = false)
    (he : ∀ {m : Machine} {stack : List Slot} {temps : Array Value} {r : Realm},
      exec i (m.placed s1.offset (pre ++ stack) temps r) =
        .ok () (m.placed s1.offset (p ++ stack) temps r)) :
    Turns a u s s' R pre top f := by
  intro way m _ hm stack temps r ht β Q k hk
  rw [← hadd.temps] at hk
  exact runs_emit hadd hi hh hm he (h hm ht hk)

theorem Turns.constant {c : Constant} (h : Turns a u s1 s' R (.value c.value :: pre) top f)
    (hl : Laid a u (loadConstant c) s () s1) : Turns a u s s' R pre top f := by
  intro way m _ hm stack temps r ht β Q k hk
  refine runs_loadConstant hl hm (h hm ht fun x temps' r' hx k1 => ?_)
  exact hk x temps' r' hx (k1.mono (laid_temps hl))

theorem turns_operate {op : Operation} {supplied : Nat} {ev : Eval Value} (vs : List Value)
    (h : Laid a u (operate op supplied) s () s') (hev : ev = Eval.operation op vs)
    (hvs : vs.length = supplied) (hop : op.runsCode = false) :
    Turns a u s s' (fun _ => True) (slots vs) (fun v => [.value v]) fun _ => ev := by
  intro way m _ hm stack temps r ht β Q k hk
  rw [hev]
  exact runs_operate vs h hvs hop hm ht fun v r' => hk v temps r' trivial (.refl _ _)

end

/-! ## Expressions -/

theorem means_loadConstant (c : Constant) :
    MeansValue a (fun _ => True) (fun _ _ => pure c.value) (loadConstant c) := by
  intro u s s' h
  exact ⟨default, trivial, (turns_pure (t := fun v => [.value v]) trivial).constant h⟩

theorem means_name (name : String) :
    MeansValue a (fun _ => True) (fun scene _ => scene.valueOf name) (load (.binding name)) := by
  intro u s s' h
  refine ⟨default, trivial, fun way m _ hm stack temps r ht β Q k hk => ?_⟩
  obtain ⟨i, ho, hadd⟩ := laid_load h
  exact runs_loadName hadd hm ht ho fun v r' => hk v temps r' trivial (.refl _ _)

variable {g g' : Gen Unit}

theorem means_unary [Composed g] (hg : MeansValue a P ev g) {op : Operation}
    {f : Value → Eval Value} (hf : ∀ v, f v = Eval.operation op [v]) (hop : op.runsCode = false) :
    MeansValue a (fun links => P (links.part 0))
      (fun scene links => do
        let v ← ev scene (links.part 0)
        f v)
      (do g; operate op 1) := by
  intro u s s' h
  obtain ⟨_, s1, h1, h2⟩ := laid_bind.mp h
  obtain ⟨l, hl, hc⟩ := hg h1
  exact ⟨.join [l], hl, hc.bind (laid_temps h1) fun v _ => turns_operate [v] h2 (hf v) rfl hop⟩

theorem means_binary [Composed g] [Composed g'] (hg : MeansValue a P ev g)
    (hg' : MeansValue a P' ev' g') {op : Operation} {f : Value → Value → Eval Value}
    (hf : ∀ v v', f v v' = Eval.operation op [v, v']) (hop : op.runsCode = false) :
    MeansValue a (fun links => P (links.part 0) ∧ P' (links.part 1))
      (fun scene links => do
        let v ← ev scene (links.part 0)
        let v' ← ev' scene (links.part 1)
        f v v')
      (do g; g'; operate op 2) := by
  intro u s s' h
  obtain ⟨_, s1, h1, h⟩ := laid_bind.mp h
  obtain ⟨_, s2, h2, h3⟩ := laid_bind.mp h
  obtain ⟨l, hl, hc⟩ := hg h1
  obtain ⟨l', hl', hc'⟩ := hg' h2
  exact ⟨.join [l, l'], ⟨hl, hl'⟩, hc.bind (laid_temps h1) fun v _ =>
    (hc'.over [.value v]).bind (laid_temps h2) fun v' _ =>
      turns_operate [v, v'] h3 (hf v v') rfl hop⟩

theorem means_then [Composed g] [Composed g'] (hg : MeansValue a P ev g)
    (hg' : MeansValue a P' ev' g') :
    MeansValue a (fun links => P (links.part 0) ∧ P' (links.part 1))
      (fun scene links => do
        let _ ← ev scene (links.part 0)
        ev' scene (links.part 1))
      (do g; emit .pop; g') := by
  intro u s s' h
  obtain ⟨_, s1, h1, h⟩ := laid_bind.mp h
  obtain ⟨_, s2, h2, h3⟩ := laid_bind.mp h
  obtain ⟨l, hl, hc⟩ := hg h1
  obtain ⟨l', hl', hc'⟩ := hg' h3
  exact ⟨.join [l, l'], ⟨hl, hl'⟩, hc.bind (laid_temps h1) fun v _ =>
    hc'.emit (laid_emit h2) rfl rfl (exec_pop rfl)⟩

theorem Means.imp {α : Type} {R : α → Prop} {top : α → List Slot} {f : Scene → Links → Eval α}
    (h : Means a R top P f g) (hP : ∀ links, P links → P' links) : Means a R top P' f g := by
  intro u s s' hl
  obtain ⟨l, hp, hc⟩ := h hl
  exact ⟨l, hP l hp, hc⟩

variable {target : Gen Target} {key : Gen Unit} {op : UpdateOp}

theorem means_memberKey {computed : Bool} {property : Expr} (hkey : MeansValue a P ev key)
    (hP : ∀ name, property = .identifier name → P default) :
    MeansValue a P (fun scene links => propertyKey computed property (ev scene links))
      (memberKey computed property key) := by
  cases computed with
  | true => exact hkey
  | false =>
    cases property with
    | identifier name =>
      intro u s s' h
      obtain ⟨_, -, hc⟩ := means_loadConstant (.string name) h
      exact ⟨default, hP name rfl, hc⟩
    | _ => exact fun u s s' h => absurd h not_laid_unsupported

/-! ## Lists -/

section

variable {evs : Scene → Links → Eval (List Value)}

theorem means_nil :
    MeansValues a 0 (fun _ => True) (fun _ _ => pure []) (pure ()) := by
  intro u s s' h
  obtain ⟨-, rfl⟩ := laid_pure h
  exact ⟨default, trivial, turns_pure rfl⟩

theorem means_cons {count : Nat} [Composed g] [Composed g'] (hg : MeansValue a P ev g)
    (hg' : MeansValues a count P' evs g') :
    MeansValues a (count + 1) (fun links => P (links.part 0) ∧ P' (links.part 1))
      (fun scene links => do
        let v ← ev scene (links.part 0)
        let vs ← evs scene (links.part 1)
        return v :: vs)
      (do g; g') := by
  intro u s s' h
  obtain ⟨_, s1, h1, h2⟩ := laid_bind.mp h
  obtain ⟨l, hl, hc⟩ := hg h1
  obtain ⟨l', hl', hc'⟩ := hg' h2
  refine ⟨.join [l, l'], ⟨hl, hl'⟩, hc.bind (laid_temps h1) fun v _ =>
    (hc'.over [.value v]).bind (laid_temps h2) fun vs hvs => ?_⟩
  have hslots : slots (v :: vs) = slots vs ++ [.value v] := slots_append [v] vs
  rw [← hslots]
  exact turns_pure (congrArg (· + 1) hvs)

end

/-! ## Choices -/

/-- Only the chosen branch is evaluated. -/
theorem means_choice {P1 P2 : Links → Prop} {ev1 ev2 : Scene → Links → Eval Value}
    {test consequent alternate : Gen Unit} [Composed test] [Composed consequent]
    [Composed alternate] (ht : MeansValue a P ev test) (hc : MeansValue a P1 ev1 consequent)
    (ha : MeansValue a P2 ev2 alternate) :
    MeansValue a (fun links => P (links.part 0) ∧ P1 (links.part 1) ∧ P2 (links.part 2))
      (fun scene links => do
        let v ← ev scene (links.part 0)
        if v.truthy then ev1 scene (links.part 1) else ev2 scene (links.part 2))
      (choice test consequent alternate) := by
  intro u s s' h
  simp only [choice, condition, laid_bind] at h
  obtain ⟨otherwise, s1, h1, done, s2, h2, _, s4, ⟨_, s3, h3, h4⟩, _, s5, h5, _, s6, h6, _, s7, h7,
    _, s8, h8, _, s9, h9, h10⟩ := h
  obtain ⟨l, hl, ct⟩ := ht h3
  obtain ⟨l1, hl1, cc⟩ := hc h6
  obtain ⟨l2, hl2, ca⟩ := ha h9
  obtain ⟨hotherwise, k8⟩ := laid_placed h8
  obtain ⟨hdone, k10⟩ := laid_placed h10
  have t1 := (laid_newLabel h1).temps
  have t2 := (laid_newLabel h2).temps
  have t3 := laid_temps h3
  have t4 := (laid_operate h4).2.temps
  have t5 := (laid_emit h5).temps
  have t6 := laid_temps h6
  have t7 := (laid_emit h7).temps
  have t8 := k8.temps
  refine ⟨.join [l, l1, l2], ⟨hl, hl1, hl2⟩, fun way m _ hm stack temps r ht β Q k hk => ?_⟩
  rw [bind_assoc]
  refine placed_keeps (laid_newLabel h1) (placed_keeps (laid_newLabel h2) ?_)
  refine ct hm ht fun v temps1 r1 _ kept1 => runs_toBoolean h4 hm ?_
  refine runs_jumpIfFalse (laid_emit h5) hm hotherwise (fun hv => ?_) fun hv => ?_
  · rw [if_pos hv]
    refine cc hm (kept1.size.trans ht) fun w temps2 r2 hw kept2 =>
      runs_jump (laid_emit h7) hm hdone ?_
    exact hk w temps2 r2 hw ((kept1.mono (by omega)).trans kept2 (by omega))
  · rw [if_neg (Bool.eq_false_iff.mp hv)]
    refine ca hm (kept1.size.trans ht) fun w temps2 r2 hw kept2 => ?_
    rw [← k10.offset]
    exact hk w temps2 r2 hw ((kept1.mono (by omega)).trans kept2 (by omega))

theorem means_shortCircuit (op : LogicalOp) {left right : Gen Unit} [Composed left]
    [Composed right] (hl : MeansValue a P ev left) (hr : MeansValue a P' ev' right) :
    MeansValue a (fun links => P (links.part 0) ∧ P' (links.part 1))
      (fun scene links => decideBy op (ev scene (links.part 0)) (ev' scene (links.part 1)))
      (shortCircuit op left right) := by
  intro u s s' h
  simp only [shortCircuit_eq, laid_bind] at h
  obtain ⟨done, s1, h1, _, s2, h2, _, s3, h3, _, s4, h4, _, s5, h5, _, s6, h6, _, s7, h7, h8⟩ := h
  obtain ⟨l, hp, cl⟩ := hl h2
  obtain ⟨l', hp', cr⟩ := hr h7
  obtain ⟨hdone, k8⟩ := laid_place h8
  have t1 := (laid_newLabel h1).temps
  have t2 := laid_temps h2
  have t3 := (laid_emit h3).temps
  have t4 := (laid_operate h4).2.temps
  have t5 := (laid_emit h5).temps
  have t6 := (laid_emit h6).temps
  refine ⟨.join [l, l'], ⟨hp, hp'⟩, fun way m _ hm stack temps r ht β Q k hk => ?_⟩
  rw [k8.offset] at hk
  unfold decideBy
  rw [bind_assoc]
  refine placed_keeps (laid_newLabel h1) (cl hm ht fun v temps1 r1 _ kept1 => ?_)
  refine runs_dup (laid_emit h3) hm (runs_toBoolean h4 hm ?_)
  have hleft : m.RunsBy way Q (m.placed s7.offset (.value v :: stack) temps1 r1) (k v r1) :=
    hk v temps1 r1 trivial (kept1.mono (by omega))
  have hright : m.RunsBy way Q (m.placed s5.offset (.value v :: stack) temps1 r1)
      ((ev' m.scene l' >>= k) r1) := by
    refine runs_pop (laid_emit h6) hm (cr hm (kept1.size.trans ht) fun w temps2 r2 hw kept2 => ?_)
    exact hk w temps2 r2 hw ((kept1.mono (by omega)).trans kept2 (by omega))
  cases op with
  | and =>
    refine runs_jumpIfFalse (laid_emit h5) hm hdone (fun hv => ?_) fun hv => ?_
    · rw [if_pos hv]
      exact hright
    · rw [if_neg (Bool.eq_false_iff.mp hv), pure_bind]
      exact hleft
  | or =>
    refine runs_jumpIfTrue (laid_emit h5) hm hdone (fun hv => ?_) fun hv => ?_
    · dsimp only
      rw [if_pos hv, pure_bind]
      exact hleft
    · dsimp only
      rw [if_neg (Bool.eq_false_iff.mp hv)]
      exact hright

/-! ## Object literals -/

def MeansFilled (a : Artifact) (P : Links → Prop) (ev : Scene → Value → Links → Eval Value)
    (g : Gen Unit) : Prop :=
  ∀ ⦃u : CodeUnit⦄ ⦃s s' : Stage⦄, Laid a u g s () s' → ∃ links, P links ∧ ∀ object,
    Turns a u s s' (fun _ => True) [.value object] (fun v => [.value v]) fun scene =>
      ev scene object links

theorem means_filled_nil :
    MeansFilled a (fun _ => True) (fun _ object _ => pure object) (pure ()) := by
  intro u s s' h
  obtain ⟨-, rfl⟩ := laid_pure h
  exact ⟨default, trivial, fun object => turns_pure (t := fun v => [.value v]) trivial⟩

theorem means_filled_cons {f f' : Scene → Value → Links → Eval Value} [Composed g] [Composed g']
    (hg : MeansFilled a P f g) (hg' : MeansFilled a P' f' g') :
    MeansFilled a (fun links => P (links.part 0) ∧ P' (links.part 1))
      (fun scene object links => do
        let object ← f scene object (links.part 0)
        f' scene object (links.part 1))
      (do g; g') := by
  intro u s s' h
  obtain ⟨_, s1, h1, h2⟩ := laid_bind.mp h
  obtain ⟨l, hl, hc⟩ := hg h1
  obtain ⟨l', hl', hc'⟩ := hg' h2
  exact ⟨.join [l, l'], ⟨hl, hl'⟩, fun object => (hc object).bind (laid_temps h1) fun v _ => hc' v⟩

theorem keyName_of_laid {key : Expr} {name : String} (h : Laid a u (literalKey key) s name s') :
    keyName key = pure name ∧ s' = s := by
  cases key with
  | identifier _ | string _ | number _ =>
    obtain ⟨rfl, rfl⟩ := laid_pure h
    exact ⟨rfl, rfl⟩
  | _ => exact absurd h not_laid_unsupported

theorem means_member {key : Expr} {value : Gen Unit} [Composed value]
    (hv : MeansValue a P ev value) :
    MeansFilled a P
      (fun scene object links => do
        let name ← keyName key
        let v ← ev scene links
        Eval.realm (apply .defineProperty [object, .string name, v]))
      (do
        loadConstant (.string (← literalKey key))
        value
        operate .defineProperty 3) := by
  intro u s s' h
  simp only [laid_bind] at h
  obtain ⟨name, s1, h1, _, s2, h2, _, s3, h3, h4⟩ := h
  obtain ⟨hname, rfl⟩ := keyName_of_laid h1
  obtain ⟨l, hl, hc⟩ := hv h3
  refine ⟨l, hl, fun object => ?_⟩
  simp only [hname, pure_bind]
  refine ((hc.over [.value (.string name), .value object]).bind (laid_temps h3) fun v _ =>
    turns_operate [object, .string name, v] h4 (Eval.realm_eq_operation rfl fun r => ?_)
      rfl rfl).constant h2
  cases object <;> rfl

/-! ## Assignments -/

def placeTop : Scene.Place → List Slot
  | .binding _ => []
  | .property object key => [.value key, .value object]

/-- A target of the code stands for a place. -/
inductive Stands (u : CodeUnit) : Target → Scene.Place → Prop where
  | binding {i : OperandIndex} {name : String} :
    u.operands[i]? = some (.binding name) → Stands u (.binding i) (.binding name)
  | property (object key : Value) : Stands u .property (.property object key)

def MeansPlace (a : Artifact) (P : Links → Prop) (ev : Scene → Links → Eval Scene.Place)
    (g : Gen Target) : Prop :=
  ∀ ⦃u : CodeUnit⦄ ⦃s s' : Stage⦄ ⦃t : Target⦄, Laid a u g s t s' →
    ∃ links, P links ∧ Computes a u s s' (Stands u t) placeTop fun scene => ev scene links

section

variable {t : Target} {place : Scene.Place} {m : Machine} {stack : List Slot} {temps : Array Value}
  {r : Realm} {β : Type} {Q : β → Realm → Machine → Prop} {way : Machine → Machine → Prop}
  [Way m.callers.length way]

theorem turns_read (h : Laid a u t.read s () s') (hp : Stands u t place) :
    Turns a u s s' (fun _ => True) (placeTop place) (fun v => .value v :: placeTop place)
      fun scene => scene.read place := by
  cases hp with
  | binding ho =>
    exact fun _ _ _ hm _ temps _ ht _ _ _ hk =>
      runs_loadName (laid_emit h) hm ht ho fun v r' => hk v temps r' trivial (.refl _ _)
  | property object key =>
    simp only [Target.read, laid_bind] at h
    obtain ⟨_, s1, h1, h2⟩ := h
    exact ((turns_operate [object, key] h2 (Eval.property_eq object key) rfl rfl).over
      [.value key, .value object]).emit (laid_emit h1) rfl rfl (exec_dupPair rfl)

theorem settle_putProperty {strict : Bool} {object key v : Value} {done : Value → Realm → Machine}
    {thrown : Realm → Machine} :
    settle (apply (.putProperty strict) [object, key, v] r) done thrown =
      settle (Realm.put object (r.toText key) v strict r) (fun _ => done v) thrown := by
  show settle (EStateM.bind (Realm.put object (r.toText key) v strict) (fun _ => pure v) r) _ _ = _
  unfold EStateM.bind
  cases Realm.put object (r.toText key) v strict r <;> rfl

theorem turns_write {strict : Bool} {v : Value} (h : Laid a u (t.write strict) s () s')
    (hp : Stands u t place) :
    Turns a u s s' (fun _ => True) (.value v :: placeTop place) (fun _ : Unit => [.value v])
      fun scene => scene.write strict v place := by
  intro way m _ hm stack temps r ht β Q k hk
  have hk r' := hk () temps r' trivial (.refl _ _)
  cases hp with
  | binding ho => exact runs_store (laid_emit h) hm ht ho hk
  | property object key =>
    obtain ⟨-, hadd⟩ := laid_operate h
    have hexec : exec (.operate (.putProperty strict))
        (m.placed s'.offset (slots [object, key, v] ++ stack) temps r) =
        settle (Realm.put object (r.toText key) v strict r)
          (fun _ r' => m.placed s'.offset (.value v :: stack) temps r')
          (fun r' => m.placed s'.offset stack temps r') :=
      (exec_applied _ rfl rfl s'.offset).trans settle_putProperty
    unfold Scene.write Eval.put
    rw [bind_assoc, Eval.get_bind, bind_assoc]
    refine runs_converting hadd rfl hm (hangs_operate [object, key, v] rfl rfl) fun hh => ?_
    exact runs_settle hadd rfl hh hm ht hexec (fun _ => rfl) fun _ => hk

end

section

variable {f : Scene → Links → Eval Scene.Place}

theorem means_binding (name : String) :
    MeansPlace a (fun _ => True) (fun _ _ => pure (.binding name))
      (do return .binding (← binding name)) := by
  intro u s s' t h
  obtain ⟨i, h1, rfl⟩ := laid_map h
  obtain ⟨hi, k1⟩ := laid_binding h1
  exact ⟨default, trivial, (turns_pure (R := Stands _ _) (.binding hi)).keeps k1⟩

theorem means_property {object : Gen Unit} [Composed object] [Composed key]
    (ho : MeansValue a P ev object) (hkey : MeansValue a P' ev' key) :
    MeansPlace a (fun links => P (links.part 0) ∧ P' (links.part 1))
      (fun scene links => do
        let base ← ev scene (links.part 0)
        let key ← ev' scene (links.part 1)
        return .property base key)
      (do object; key; return .property) := by
  intro u s s' t h
  simp only [laid_bind] at h
  obtain ⟨_, s1, h1, _, s2, h2, h3⟩ := h
  obtain ⟨rfl, rfl⟩ := laid_pure h3
  obtain ⟨l, hl, hc⟩ := ho h1
  obtain ⟨l', hl', hc'⟩ := hkey h2
  exact ⟨.join [l, l'], ⟨hl, hl'⟩, hc.bind (laid_temps h1) fun v _ =>
    (hc'.over [.value v]).bind (laid_temps h2) fun v' _ =>
      turns_pure (t := placeTop) (.property v v')⟩

theorem turns_toNumber {v : Value} (h : Laid a u (operate .toNumber 1) s () s') :
    Turns a u s s' (fun _ => True) [.value v] (fun n => [.value (.number n)]) fun _ =>
      Eval.number v :=
  fun _ _ _ hm _ temps r _ _ _ _ hk => runs_toNumber h hm (hk _ temps r trivial (.refl _ _))

theorem runsCode_ofUpdate (op : UpdateOp) : (Operation.ofUpdate op).runsCode = false := by
  cases op <;> rfl

theorem runsCode_ofBinary (op : BinaryOp) : (Operation.ofBinary op).runsCode = false := by
  cases op <;> rfl

variable {strict : Bool}

theorem means_updateTarget_prefixed [Composed target] (hg : MeansPlace a P f target) :
    MeansValue a (fun links => P (links.part 0))
      (fun scene links => do
        let place ← f scene (links.part 0)
        scene.update strict op true place)
      (updateTarget strict op true target) := by
  intro u s s' h
  simp only [updateTarget_prefixed, laid_bind] at h
  obtain ⟨t, s1, h1, _, s2, h2, _, s3, h3, _, s4, h4, _, s5, h5, h6⟩ := h
  obtain ⟨l, hl, hc⟩ := hg h1
  refine ⟨.join [l], hl, hc.bind (laid_temps h1) fun place hp => ?_⟩
  refine (turns_read h2 hp).bind (laid_temps h2) fun old _ => ?_
  refine ((turns_toNumber h3).over (placeTop place)).bind (laid_temps h3) fun n _ => ?_
  refine (((turns_operate [.number n, .number (Number.ofNat 1)] h5 (Eval.updated_eq op n) rfl
    (runsCode_ofUpdate op)).over (placeTop place)).constant h4).bind ?_ fun new _ => ?_
  · exact Nat.le_trans (laid_temps h4) (laid_temps h5)
  · exact (turns_write h6 hp).bind (laid_temps h6) fun _ _ => turns_pure trivial

/-- A number that is kept behind the write is kept in a temporary that nothing else uses. -/
theorem means_updateTarget_postfixed [Composed target] (hg : MeansPlace a P f target) :
    MeansValue a (fun links => P (links.part 0))
      (fun scene links => do
        let place ← f scene (links.part 0)
        scene.update strict op false place)
      (updateTarget strict op false target) := by
  intro u s s' h
  simp only [updateTarget_postfixed, laid_bind] at h
  obtain ⟨t, s1, h1, _, s2, h2, _, s3, h3, index, s4, h4, _, s5, h5, _, s6, h6, _, s7, h7, _, s8,
    h8, _, s9, h9, _, s10, h10, h11⟩ := h
  obtain ⟨rfl, htemps, hoffset, -⟩ := laid_allocate h4
  obtain ⟨l, hl, hc⟩ := hg h1
  have hbound : s3.temps < u.tempCount := by
    have := h4.within.temps
    omega
  refine ⟨.join [l], hl, hc.bind (laid_temps h1) fun place hp => ?_⟩
  refine (turns_read h2 hp).bind (laid_temps h2) fun old _ => ?_
  refine ((turns_toNumber h3).over (placeTop place)).bind (laid_temps h3) fun n _ => ?_
  intro way m _ hm stack temps r ht β Q k hk
  rw [← hoffset]
  refine runs_storeTemp (laid_emit h5) hm (by rw [ht]; exact hbound) ?_
  -- From here on the temporary holds the old number.
  have hkept := kept_setIfInBounds (Nat.le_refl s3.temps) temps (.number n)
  have hold : (temps.setIfInBounds s3.temps (.number n)).getD s3.temps .undefined = .number n := by
    rw [Array.getD_eq_getD_getElem?, Array.getElem?_setIfInBounds_self_of_lt (by omega)]
    rfl
  have hlater : s3.temps < s8.temps := by
    have := laid_temps h5
    have := laid_temps h6
    have := laid_temps h7
    have := laid_temps h8
    omega
  refine runs_loadTemp h6 hm (runs_loadConstant h7 hm ?_)
  rw [hold, bind_assoc, Eval.updated_eq]
  refine runs_operate [.number n, .number (Number.ofNat 1)] h8 rfl (runsCode_ofUpdate op) hm
    (hkept.size.trans ht) fun new r3 => ?_
  rw [bind_assoc]
  refine turns_write h9 hp hm (hkept.size.trans ht) fun _ temps2 r4 _ k2 => ?_
  refine runs_pop (laid_emit h10) hm (runs_loadTemp h11 hm ?_)
  rw [k2.getD_eq hlater, hold, pure_bind]
  exact hk _ _ r4 trivial (hkept.trans k2 (Nat.le_of_lt hlater))

/-- The place is found once, for the read and for the write. -/
theorem means_updateTarget {prefixed : Bool} [Composed target] (hg : MeansPlace a P f target) :
    MeansValue a (fun links => P (links.part 0))
      (fun scene links => do
        let place ← f scene (links.part 0)
        scene.update strict op prefixed place)
      (updateTarget strict op prefixed target) := by
  cases prefixed with
  | true => exact means_updateTarget_prefixed hg
  | false => exact means_updateTarget_postfixed hg

/-- The place is found first, then the value is evaluated, then it is written. -/
theorem means_assignTarget {op : Option BinaryOp} {value : Gen Unit} [Composed target]
    [Composed value] (hg : MeansPlace a P f target) (hv : MeansValue a P' ev' value) :
    MeansValue a (fun links => P (links.part 0) ∧ P' (links.part 1))
      (fun scene links => do
        let place ← f scene (links.part 0)
        scene.assign strict op place (ev' scene (links.part 1)))
      (assignTarget strict op target value) := by
  intro u s s' h
  cases op with
  | none =>
    simp only [assignTarget_none, laid_bind] at h
    obtain ⟨t, s1, h1, _, s2, h2, h3⟩ := h
    obtain ⟨l, hl, hc⟩ := hg h1
    obtain ⟨l', hl', hc'⟩ := hv h2
    exact ⟨.join [l, l'], ⟨hl, hl'⟩, hc.bind (laid_temps h1) fun place hp =>
      (hc'.over (placeTop place)).bind (laid_temps h2) fun v _ =>
        (turns_write h3 hp).bind (laid_temps h3) fun _ _ => turns_pure trivial⟩
  | some op =>
    simp only [assignTarget_some, laid_bind] at h
    obtain ⟨t, s1, h1, _, s2, h2, _, s3, h3, _, s4, h4, h5⟩ := h
    obtain ⟨l, hl, hc⟩ := hg h1
    obtain ⟨l', hl', hc'⟩ := hv h3
    exact ⟨.join [l, l'], ⟨hl, hl'⟩, hc.bind (laid_temps h1) fun place hp =>
      (turns_read h2 hp).bind (laid_temps h2) fun old _ =>
        (hc'.over (.value old :: placeTop place)).bind (laid_temps h3) fun v _ =>
          ((turns_operate [old, v] h4 (Eval.binary_eq op old v) rfl (runsCode_ofBinary op)).over
            (placeTop place)).bind (laid_temps h4) fun new _ =>
              (turns_write h5 hp).bind (laid_temps h5) fun _ _ => turns_pure trivial⟩

end

/-! ## Names and functions -/

theorem means_this :
    MeansValue a (fun _ => True) (fun scene _ => pure scene.context.this) (emit .loadThis) := by
  intro u s s' h
  refine ⟨default, trivial, fun way m _ hm stack temps r ht β Q k hk => ?_⟩
  exact runs_emit (laid_emit h) rfl rfl hm exec_loadThis
    (hk m.context.this temps r trivial (.refl _ _))

theorem means_deleteName (name : String) :
    MeansValue a (fun _ => True)
      (fun scene _ => do
        return .boolean (← Eval.realm (Realm.deleteBinding scene.context.env name)))
      (do emit (.deleteVariable (← binding name))) := by
  intro u s s' h
  obtain ⟨i, s1, h1, h2⟩ := laid_bind.mp h
  obtain ⟨hi, k1⟩ := laid_binding h1
  refine ⟨default, trivial, fun way m _ hm stack temps r ht β Q k hk => placed_keeps k1 ?_⟩
  rw [bind_assoc]
  refine runs_settle (laid_emit h2) rfl rfl hm ht (exec_deleteVariable (operand_placed hm hi))
    (fun _ => rfl) fun b r' => ?_
  exact hk (.boolean b) temps r' trivial (.refl _ _)

theorem means_typeOfName (name : String) :
    MeansValue a (fun _ => True) (fun scene _ => scene.typeOfName name)
      (do emit (.typeOfVariable (← binding name))) := by
  intro u s s' h
  obtain ⟨i, s1, h1, h2⟩ := laid_bind.mp h
  obtain ⟨hi, k1⟩ := laid_binding h1
  refine ⟨default, trivial, fun way m _ hm stack temps r ht β Q k hk => placed_keeps k1 ?_⟩
  unfold Scene.typeOfName
  exact runs_emit (laid_emit h2) rfl rfl hm (exec_typeOfVariable (operand_placed hm hi))
    (hk _ temps r trivial (.refl _ _))

/-- What the record of a function says, and that its unit has the code of the function's body. -/
structure Implements (a : Artifact) (strict : Bool) (definition : FunctionDef)
    (info : FunctionInfo) : Prop where
  listed : ∃ id, a.function? id = some info
  name : info.name = definition.name
  params : info.params = definition.params
  strict : info.strict = (strict || definition.strict)
  selfBinding : info.selfBinding = definition.name.isSome
  body : ∃ u, a.unit? info.unit = some u ∧ u.role = .function ∧ u.strict = info.strict ∧
    Compiles a u ((Body.declaring definition.body).gen info.strict)

theorem implements_genFunction {strict : Bool} {definition : FunctionDef} {id : FunctionId}
    (h : Laid a u (genFunction strict definition.name.isSome definition) s id s') :
    Keeps s s' ∧ ∃ info, a.function? id = some info ∧ Implements a strict definition info := by
  obtain ⟨name, params, body, ownStrict⟩ := definition
  obtain ⟨unit, s1, h1, h2⟩ := laid_bind.mp h
  obtain ⟨k1, u', hu, hrole, hstrict, hcompiles⟩ := laid_inUnit h1
  obtain ⟨hf, k2⟩ := laid_addFunction h2
  exact ⟨⟨k2.offset.trans k1.offset, k2.temps.trans k1.temps⟩, _, hf,
    ⟨id, hf⟩, rfl, rfl, rfl, rfl, u', hu, hrole, hstrict, hcompiles⟩

theorem means_function {strict : Bool} {definition : FunctionDef} :
    MeansValue a (fun links => Implements a strict definition (links []))
      (fun scene links => Eval.realm (newClosure scene.artifact (links []) scene.context.env))
      (do emit (.makeClosure (← genFunction strict definition.name.isSome definition))) := by
  intro u s s' h
  obtain ⟨id, s1, h1, h2⟩ := laid_bind.mp h
  obtain ⟨k1, info, hinfo, himpl⟩ := implements_genFunction h1
  refine ⟨fun _ => info, himpl, fun way m _ hm stack temps r ht β Q k hk => placed_keeps k1 ?_⟩
  rw [← hm.artifact] at hinfo
  exact runs_settle (laid_emit h2) rfl rfl hm ht (exec_makeClosure hinfo) (fun _ => rfl)
    fun v r' => hk v temps r' trivial (Kept.refl _ _)

/-! ## Calls -/

section

variable {strict : Bool} {arguments : List Expr} {evs : Scene → Links → Eval (List Value)}

theorem means_callWith (hargs : MeansValues a arguments.length P evs (genExprs strict arguments))
    (h : Laid a u (callWith strict arguments) s () s') :
    ∃ links, P links ∧ ∀ function receiver,
      Turns a u s s' (fun _ => True) [.value function, .value receiver] (fun v => [.value v])
        fun scene => evs scene links >>= fun args => scene.call function receiver args none := by
  simp only [callWith, laid_bind] at h
  obtain ⟨argc, s1, h1, _, s2, h2, h3⟩ := h
  obtain ⟨rfl, rfl, -⟩ := laid_argumentCount h1
  obtain ⟨l, hl, hc⟩ := hargs h2
  refine ⟨l, hl, fun function receiver =>
    (hc.over [.value function, .value receiver]).bind (laid_temps h2) fun vs hvs => ?_⟩
  have hslots := slots_append [receiver, function] vs
  exact hslots ▸ fun _ _ _ hm _ temps _ ht _ _ _ hk =>
    runs_call h3 hvs hm ht fun v r' => hk v temps r' trivial (.refl _ _)

theorem means_call {callee : Gen Unit} [Composed callee] (hcallee : MeansValue a P ev callee)
    (hargs : MeansValues a arguments.length P' evs (genExprs strict arguments)) :
    MeansValue a (fun links => P (links.part 0) ∧ P' (links.part 1))
      (fun scene links => do
        let function ← ev scene (links.part 0)
        let args ← evs scene (links.part 1)
        scene.call function .undefined args none)
      (do loadConstant .undefined; callee; callWith strict arguments) := by
  intro u s s' h
  simp only [laid_bind] at h
  obtain ⟨_, s1, h1, _, s2, h2, h3⟩ := h
  obtain ⟨l, hl, hc⟩ := hcallee h2
  obtain ⟨l', hl', hc'⟩ := means_callWith hargs h3
  exact ⟨.join [l, l'], ⟨hl, hl'⟩, ((hc.over [.value .undefined]).bind (laid_temps h2)
    fun function _ => hc' function .undefined).constant h1⟩

/-- The receiver of a method is evaluated once, and the method is fetched before the arguments. -/
theorem means_methodCall {object : Gen Unit} [Composed object] [Composed key] {P'' : Links → Prop}
    (hobject : MeansValue a P ev object) (hkey : MeansValue a P' ev' key)
    (hargs : MeansValues a arguments.length P'' evs (genExprs strict arguments)) :
    MeansValue a
      (fun links => (P ((links.part 0).part 0) ∧ P' ((links.part 0).part 1)) ∧ P'' (links.part 1))
      (fun scene links => do
        let receiver ← ev scene ((links.part 0).part 0)
        let key ← ev' scene ((links.part 0).part 1)
        let function ← Eval.property receiver key
        let args ← evs scene (links.part 1)
        scene.call function receiver args none)
      (do object; emit .dup; key; operate .getProperty 2; callWith strict arguments) := by
  intro u s s' h
  simp only [laid_bind] at h
  obtain ⟨_, s1, h1, _, s2, h2, _, s3, h3, _, s4, h4, h5⟩ := h
  obtain ⟨l, hl, hc⟩ := hobject h1
  obtain ⟨l', hl', hc'⟩ := hkey h3
  obtain ⟨l'', hl'', hc''⟩ := means_callWith hargs h5
  refine ⟨.join [.join [l, l'], l''], ⟨⟨hl, hl'⟩, hl''⟩,
    hc.bind (laid_temps h1) fun receiver _ => ?_⟩
  refine Turns.emit (p := [.value receiver, .value receiver]) ?_ (laid_emit h2) rfl rfl
    (exec_dup rfl)
  refine (hc'.over [.value receiver, .value receiver]).bind (laid_temps h3) fun key _ => ?_
  exact ((turns_operate [receiver, key] h4 (Eval.property_eq receiver key) rfl rfl).over
    [.value receiver]).bind (laid_temps h4) fun function _ => hc'' function receiver

theorem means_construct {callee : Gen Unit} [Composed callee] (hcallee : MeansValue a P ev callee)
    (hargs : MeansValues a arguments.length P' evs (genExprs strict arguments)) :
    MeansValue a (fun links => P (links.part 0) ∧ P' (links.part 1))
      (fun scene links => do
        let function ← ev scene (links.part 0)
        let args ← evs scene (links.part 1)
        scene.construct function args)
      (do
        callee
        let argc ← argumentCount arguments
        genExprs strict arguments
        operate (.construct argc) (argc + 1)) := by
  intro u s s' h
  simp only [laid_bind] at h
  obtain ⟨_, s1, h1, argc, s2, h2, _, s3, h3, h4⟩ := h
  obtain ⟨rfl, rfl, -⟩ := laid_argumentCount h2
  obtain ⟨l, hl, hc⟩ := hcallee h1
  obtain ⟨l', hl', hc'⟩ := hargs h3
  refine ⟨.join [l, l'], ⟨hl, hl'⟩, hc.bind (laid_temps h1) fun function _ =>
    (hc'.over [.value function]).bind (laid_temps h3) fun vs hvs => ?_⟩
  have hslots := slots_append [function] vs
  exact hslots ▸ fun _ _ _ hm _ temps _ ht _ _ _ hk =>
    runs_construct h4 hvs hm ht fun v r' => hk v temps r' trivial (.refl _ _)

end

end TreeScript.Lowering
