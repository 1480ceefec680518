import Planwright.Proofs.Plan.Build

/-! Steps that look around in a plan. -/

namespace Planwright.Plan

open Run

theorem Holds.tree_halts {p : Plan} {t : Tree} (h : p.Holds t) : Halts (tree t.id) p fun s p' => p' = p ∧ s = t :=
  .of_run h.tree_run id ⟨rfl, rfl⟩

/-- A run that changes nothing but what nodes remember. -/
def Looks {α : Type} (x : PlanM α) : Prop := ∀ p, Halts x p fun _ p' => Same p p'

section Looks
variable {n : NodeId} {α β γ : Type} {x : PlanM α} {f : α → PlanM β}

theorem Looks.bind (hx : Looks x) (hf : ∀ a, Looks (f a)) : Looks (x >>= f) := fun p =>
  .bind (hx p) fun a p₁ h₁ => (hf a p₁).mono fun _ _ h₂ => h₁.trans h₂

theorem Looks.pure {a : α} : Looks (pure a) := fun p => .pure (.refl p)

theorem Looks.throw {e : Fault} (he : e ≠ .outOfFuel) : Looks (throw e : PlanM α) := fun _ => .throw he

theorem Looks.get {f : Plan → PlanM β} (hf : ∀ p, Looks (f p)) : Looks (MonadState.get >>= f) := fun p => .get (hf p p)

theorem Looks.mapM {f : γ → PlanM β} (hf : ∀ c, Looks (f c)) (cs : List γ) : Looks (cs.mapM f) := by
  induction cs with
  | nil => exact .pure
  | cons c cs ih =>
    rw [List.mapM_cons]
    exact .bind (hf c) fun _ => .bind ih fun _ => .pure

theorem op_looks : Looks (op n) := fun p => op_halts.mono fun _ _ h => h.1 ▸ .refl p

theorem kind_looks : Looks (kind n) := .bind op_looks fun _ => .pure

theorem children_looks : Looks (children n) := fun p => children_halts.mono fun _ _ h => h.1 ▸ .refl p

theorem child_looks {i : Nat} : Looks (child n i) := by
  refine .bind children_looks fun cs => ?_
  split
  · exact .pure
  · exact .throw nofun

theorem tree_looks : Looks (tree n) := by
  refine .get fun p => ?_
  split
  · exact .pure
  · exact .throw nofun

theorem typeOf_looks {v : VarId} : Looks (typeOf v) := .get fun _ => .pure

theorem recompute_looks : Looks (recompute n) := recompute_halts n

theorem info_looks : Looks (info n) := fun p => ((info_works n p).when nofun).mono fun _ _ h => h.1

theorem relationInfo_looks : Looks (relationInfo n) := fun p => ((relationInfo_works n p).when nofun).mono fun _ _ h => h.1

theorem definedVar_looks : Looks (RuleM.definedVar n) := by
  refine .bind op_looks fun o => ?_
  split
  · exact .pure
  · exact .throw nofun

end Looks

end Planwright.Plan
