import TreeScript.Proofs.Syntax.Lexical
import TreeScript.Proofs.Syntax.Nodes
import TreeScript.Proofs.Syntax.Scoping

/-!
# What parts of a program have in common

The nodes of a part are nodes of what it is a part of, and if the jumps of the whole have a place to
go, so have those of the part.
-/

namespace TreeScript.Syntax

/-! ## Lists of parts -/

section

variable {α β : Type} {f : List α → List β} {p : List α → Bool} {x : α} {xs : List α}

theorem mem_of_cons {g : α → List β} (hf : ∀ y ys, f (y :: ys) = g y ++ f ys) (h : x ∈ xs) {z : β}
    (hz : z ∈ g x) : z ∈ f xs := by
  induction h with
  | head => exact hf .. ▸ List.mem_append_left _ hz
  | tail _ _ ih => exact hf .. ▸ List.mem_append_right _ ih

theorem of_cons {q : α → Bool} (hp : ∀ y ys, p (y :: ys) = (q y && p ys)) (h : x ∈ xs)
    (hxs : p xs = true) : q x = true := by
  induction h with
  | head => exact (Bool.and_eq_true_iff.mp ((hp ..).symm.trans hxs)).1
  | tail _ _ ih => exact ih (Bool.and_eq_true_iff.mp ((hp ..).symm.trans hxs)).2

end

def Declarator.init : Declarator → Option Expr
  | mk _ init => init

def SwitchClause.test : SwitchClause → Option Expr
  | mk test _ => test

/-! ## Nodes -/

theorem mem_declaratorsNodes {d : Declarator} {ds : List Declarator} (h : d ∈ ds) {n : Node}
    (hn : n ∈ elementNodes d.init) : n ∈ declaratorsNodes ds :=
  mem_of_cons (g := fun d => elementNodes d.init) (by rintro ⟨⟩ _; rfl) h hn

def Part.nodes : Part → List Node
  | body ss => stmtsNodes true ss
  | stmt s => s.nodes true
  | expr e => e.nodes
  | member m => m.nodes
  | function f => f.nodes

theorem Part.mem_initializers {ds : List Declarator} {y : Part} (h : y ∈ initializers ds) :
    ∃ name e, .mk name (some e) ∈ ds ∧ y = .expr e := by
  obtain ⟨⟨name, init⟩, hd, hy⟩ := List.mem_filterMap.mp h
  obtain ⟨e, rfl, rfl⟩ := Option.map_eq_some_iff.mp hy
  exact ⟨name, e, hd, rfl⟩

theorem Part.mem_clause {c : SwitchClause} {y : Part} (h : y ∈ clause c) :
    (∃ e body, c = .mk (some e) body ∧ y = .expr e) ∨ y = .body c.body := by
  obtain ⟨_ | e, body⟩ := c
  · exact .inr (List.mem_singleton.mp h)
  · rcases List.mem_cons.mp h with rfl | h
    · exact .inl ⟨e, body, rfl, rfl⟩
    · exact .inr (List.mem_singleton.mp h)

theorem Part.nodes_of_mem_head {h : ForHead} {y : Part} (hy : y ∈ head h) {n : Node}
    (hn : n ∈ y.nodes) : n ∈ h.nodes := by
  cases h with
  | declaration ds =>
    obtain ⟨name, e, hd, rfl⟩ := mem_initializers hy
    exact mem_declaratorsNodes hd hn
  | expression e =>
    cases List.mem_singleton.mp hy
    exact hn

theorem Part.nodes_of_mem_parts {x y : Part} (h : y ∈ x.parts) {n : Node} (hn : n ∈ y.nodes) :
    n ∈ x.nodes := by
  cases x with
  | body ss =>
    obtain ⟨s, hs, rfl⟩ := List.mem_map.mp h
    exact mem_of_cons (fun _ _ => rfl) hs hn
  | member m =>
    cases m with
    | value key value =>
      simp only [parts, List.mem_cons, List.not_mem_nil, or_false] at h
      rcases h with rfl | rfl <;> simp_all [nodes, Member.nodes]
    | accessor => cases h
  | function f => cases h
  | expr e =>
    cases e <;> simp [parts, ofExpr] at h <;> simp only [nodes, Expr.nodes]
    case array es =>
      obtain ⟨_, he, e, rfl, rfl⟩ := h
      exact List.mem_cons_of_mem _ (mem_of_cons (fun _ _ => rfl) he hn)
    case object ms =>
      obtain ⟨m, hm, rfl⟩ := h
      exact List.mem_cons_of_mem _ (mem_of_cons (fun _ _ => rfl) hm hn)
    case sequence es =>
      obtain ⟨e, he, rfl⟩ := h
      exact List.mem_cons_of_mem _ (mem_of_cons (fun _ _ => rfl) he hn)
    case call | construct =>
      rcases h with rfl | ⟨e, he, rfl⟩
      · simp_all [nodes]
      · simp_all [nodes, mem_of_cons (f := exprsNodes) (fun _ _ => rfl) he hn]
    all_goals
      rcases h with rfl | rfl | rfl <;> simp_all [nodes]
  | stmt s =>
    cases s <;> simp [parts, ofStmt] at h <;> simp only [nodes, Stmt.nodes]
    case declaration ds =>
      obtain ⟨name, e, hd, rfl⟩ := mem_initializers h
      exact List.mem_cons_of_mem _ (mem_declaratorsNodes hd hn)
    case forLoop init test update body =>
      refine List.mem_cons_of_mem _ ?_
      simp only [List.mem_append]
      rcases h with h | ⟨e, rfl, rfl⟩ | ⟨e, rfl, rfl⟩ | rfl
      · cases init with
        | none => simp at h
        | some head => exact .inl (nodes_of_mem_head h hn)
      · exact .inr (.inl hn)
      · exact .inr (.inr (.inl hn))
      · exact .inr (.inr (.inr hn))
    case forIn left right body =>
      refine List.mem_cons_of_mem _ ?_
      simp only [List.mem_append]
      rcases h with h | rfl | rfl
      · exact .inl (nodes_of_mem_head h hn)
      · exact .inr (.inl hn)
      · exact .inr (.inr hn)
    case switch discriminant clauses =>
      refine List.mem_cons_of_mem _ ?_
      simp only [List.mem_append]
      rcases h with rfl | ⟨c, hc, h⟩
      · exact .inl hn
      · rcases mem_clause h with ⟨e, body, rfl, rfl⟩ | rfl
        · exact .inr (.inl (mem_of_cons (g := fun c : SwitchClause => elementNodes c.test)
            (by rintro ⟨⟩ _; rfl) hc hn))
        · exact .inr (.inr (mem_of_cons (g := fun c : SwitchClause => stmtsNodes true c.body)
            (by rintro ⟨⟩ _; rfl) hc hn))
    case tryCatch block handler finalizer =>
      refine List.mem_cons_of_mem _ ?_
      simp only [List.mem_append]
      rcases h with rfl | ⟨⟨param, body⟩, rfl, rfl⟩ | ⟨body, rfl, rfl⟩
      · exact .inl hn
      · exact .inr (.inl hn)
      · exact .inr (.inr hn)
    case ifElse test consequent alternate =>
      refine List.mem_cons_of_mem _ ?_
      simp only [List.mem_append]
      rcases h with rfl | rfl | ⟨s, rfl, rfl⟩
      · exact .inl hn
      · exact .inr (.inl hn)
      · exact .inr (.inr hn)
    case «return» argument =>
      obtain ⟨e, rfl, rfl⟩ := h
      exact List.mem_cons_of_mem _ hn
    all_goals
      rcases h with rfl | rfl <;> simp_all [nodes]

/-! ## Loops -/

/-- Whether a node is a loop that goes on for as long as a test says. -/
def Node.isLoop : Node → Bool
  | .stmt (.whileLoop _ _) | .stmt (.doWhile _ _) | .stmt (.forLoop _ _ _ _) => true
  | _ => false

/-- A program without `while`, `do` and `for`, also in its functions. -/
def Program.loopFree (p : Program) : Bool := p.nodes.all (!·.isLoop)

/-! ## Jumps -/

def Part.WellScoped : Part → Prop
  | body ss => ∃ scope, stmtsWellScoped scope ss = true
  | stmt s => ∃ scope attached, s.wellScoped scope attached = true
  | expr e => e.wellScoped = true
  | member m => m.wellScoped = true
  | function f => f.wellScoped = true

theorem wellScoped_of_mem_declarators {d : Declarator} {ds : List Declarator} (hd : d ∈ ds)
    (h : declaratorsWellScoped ds = true) : elementWellScoped d.init = true :=
  of_cons (q := fun d => elementWellScoped d.init) (by rintro ⟨⟩ _; rfl) hd h

theorem Part.WellScoped.of_mem_head {h : ForHead} {y : Part} (hy : y ∈ head h)
    (hw : h.wellScoped = true) : y.WellScoped := by
  cases h with
  | declaration ds =>
    obtain ⟨name, e, hd, rfl⟩ := mem_initializers hy
    exact wellScoped_of_mem_declarators hd hw
  | expression e =>
    cases List.mem_singleton.mp hy
    exact hw

theorem Part.WellScoped.part {x y : Part} (h : x.WellScoped) (hy : y ∈ x.parts) :
    y.WellScoped := by
  cases x with
  | body ss =>
    obtain ⟨scope, h⟩ := h
    obtain ⟨s, hs, rfl⟩ := List.mem_map.mp hy
    exact ⟨scope, [], of_cons (fun _ _ => rfl) hs h⟩
  | member m =>
    cases m with
    | value key value =>
      obtain ⟨hkey, hvalue⟩ := Bool.and_eq_true_iff.mp h
      simp only [parts, List.mem_cons, List.not_mem_nil, or_false] at hy
      rcases hy with rfl | rfl
      · exact hkey
      · exact hvalue
    | accessor => cases hy
  | function f => cases hy
  | expr e =>
    change e.wellScoped = true at h
    cases e <;> simp [parts, ofExpr] at hy <;> simp [Expr.wellScoped] at h
    case array es =>
      obtain ⟨_, he, e, rfl, rfl⟩ := hy
      exact of_cons (q := elementWellScoped) (fun _ _ => rfl) he h
    case object ms =>
      obtain ⟨m, hm, rfl⟩ := hy
      exact of_cons (fun _ _ => rfl) hm h
    case sequence es =>
      obtain ⟨e, he, rfl⟩ := hy
      exact of_cons (fun _ _ => rfl) he h
    case call | construct =>
      rcases hy with rfl | ⟨e, he, rfl⟩
      · exact h.1
      · exact of_cons (fun _ _ => rfl) he h.2
    all_goals
      rcases hy with rfl | rfl | rfl <;> simp_all [WellScoped]
  | stmt s =>
    obtain ⟨scope, attached, h⟩ := h
    cases s <;> simp [parts, ofStmt] at hy <;> simp [Stmt.wellScoped] at h
    case declaration ds =>
      obtain ⟨name, e, hd, rfl⟩ := mem_initializers hy
      exact wellScoped_of_mem_declarators hd h
    case forLoop init test update body =>
      obtain ⟨⟨⟨hinit, htest⟩, hupdate⟩, hbody⟩ := h
      rcases hy with hy | ⟨e, rfl, rfl⟩ | ⟨e, rfl, rfl⟩ | rfl
      · cases init with
        | none => simp at hy
        | some head => exact .of_mem_head hy hinit
      · exact htest
      · exact hupdate
      · exact ⟨_, _, hbody⟩
    case forIn left right body =>
      rcases hy with hy | rfl | rfl
      · exact .of_mem_head hy h.1.1
      · exact h.1.2
      · exact ⟨_, _, h.2⟩
    case switch discriminant clauses =>
      rcases hy with rfl | ⟨⟨test, body⟩, hc, hy⟩
      · exact h.1
      · have hc := Bool.and_eq_true_iff.mp <| of_cons
          (q := fun c : SwitchClause => elementWellScoped c.test && stmtsWellScoped _ c.body)
          (by rintro ⟨⟩ _; rfl) hc h.2
        rcases mem_clause hy with ⟨e, _, heq, rfl⟩ | rfl
        · cases heq
          exact hc.1
        · exact ⟨_, hc.2⟩
    case tryCatch block handler finalizer =>
      rcases hy with rfl | ⟨⟨param, body⟩, rfl, rfl⟩ | ⟨body, rfl, rfl⟩
      · exact ⟨_, h.1.1⟩
      · exact ⟨_, h.1.2⟩
      · exact ⟨_, h.2⟩
    case ifElse test consequent alternate =>
      rcases hy with rfl | rfl | ⟨s, rfl, rfl⟩
      · exact h.1.1
      · exact ⟨_, _, h.1.2⟩
      · exact ⟨_, _, h.2⟩
    case «return» argument =>
      obtain ⟨e, rfl, rfl⟩ := hy
      exact h
    case whileLoop | doWhile | withObject =>
      rcases hy with rfl | rfl
      · exact h.1
      · exact ⟨_, _, h.2⟩
    case block body =>
      subst hy
      exact ⟨_, h⟩
    case labeled label body =>
      subst hy
      exact ⟨_, _, h⟩
    all_goals
      subst hy
      exact h

end TreeScript.Syntax
