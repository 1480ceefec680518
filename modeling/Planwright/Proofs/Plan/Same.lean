import Planwright.Proofs.Plan.Nodes

/-! Plans that are left as they were. A run that only looks around changes no more than what nodes remember. `Unchanged` also
    lets nodes be added, which nothing in the plan refers to yet. -/

namespace Planwright

open Run

namespace Plan

variable {p p' p'' : Plan} {n : NodeId}

/-! ### What is left as it was -/

/-- The same plan, but for what nodes remember and for nodes that were added. -/
structure Unchanged (p p' : Plan) : Prop where
  adds : Adds p p'
  vars : p'.vars = p.vars

theorem Same.unchanged (h : Same p p') : Unchanged p p' := ⟨⟨h.size.ge, fun n r hr => h.keeps.node n r hr id⟩, h.vars⟩

theorem Unchanged.refl (p : Plan) : Unchanged p p := (Same.refl p).unchanged

theorem Unchanged.trans (h : Unchanged p p') (h' : Unchanged p' p'') : Unchanged p p'' :=
  ⟨h.adds.trans h'.adds, h'.vars.trans h.vars⟩

theorem Adds.view (h : Adds p p') {d d' : Nat} (hd : d ≤ d') {t : Tree} (ht : p.view d n = some t) : p'.view d' n = some t := by
  induction d generalizing d' n t with
  | zero => cases ht
  | succ d ih =>
    obtain ⟨d', rfl⟩ : ∃ e, d' = e + 1 := ⟨d' - 1, by omega⟩
    obtain ⟨r, cs, hr, rfl, hcs⟩ := view_succ ht
    obtain ⟨r', hr', ho, hc⟩ := h.node n r hr
    have hbelow : r'.children.mapM (p'.view d') = some cs := by
      rw [hc]
      exact mapM_of_forall₂ (hcs.imp fun m c hm => ih (by omega) hm)
    simp [Plan.view, hr', hbelow, ho]

theorem Adds.tree? (h : Adds p p') {t : Tree} (ht : p.tree? n = some t) : p'.tree? n = some t := h.view h.size ht

/-! ### Runs that add nodes -/

/-- A run that at most adds nodes. -/
def Builds {α : Type} (x : PlanM α) : Prop := ∀ p, Ends x p fun _ p' => Unchanged p p'

section Builds
variable {α β : Type} {x : PlanM α} {f : α → PlanM β}

theorem create_builds {op : Op} {cs : List NodeId} : Builds (create op cs) := fun p => by
  have hrest : Ends (create op cs) p fun _ p' => p'.vars = p.vars := by
    refine .bind (R := fun _ p' => p' = p) ?_ fun _ p₁ hp n p' hrun => ?_
    · rw [checkCount]
      split
      · exact .pure rfl
      · exact .throw
    · cases hrun
      exact hp ▸ rfl
  exact fun n p' hrun => ⟨(create_adds n p' hrun).1, hrest n p' hrun⟩

end Builds

end Plan

namespace Predicate

open Plan

variable {q : Predicate}

theorem splitByTable_looks {table : VarSet} : Looks (q.splitByTable table) :=
  .bind (.mapM (fun _ => .bind (.bind info_looks fun _ => .pure) fun _ => .pure) _) fun _ => .pure

end Predicate

end Planwright
