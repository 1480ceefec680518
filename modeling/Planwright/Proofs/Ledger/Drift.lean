import Planwright.Proofs.Ledger.Filter

/-! How rules act. A rule looks around first; then it either leaves everything as it was, or it commits itself
    to a change. All that it writes to the context are renamings and filters to be left alone. This holds in any
    plan: a ledger may keep account of the context alone. -/

namespace Planwright

open Run Plan

/-- A way for the context to move on that takes in what rules write. -/
structure Drift where
  Moves : Context → Context → Prop
  trans {c c' c''} : Moves c c' → Moves c' c'' → Moves c c''
  writes (c m s) : Moves c { c with mappings := m, suppressed := s }

/-- Whatever a step does to the plan, it moves the context along the drift. -/
def Drift.Within {α : Type} (δ : Drift) (x : RuleM α) : Prop := ∀ c p, EndsIn x c p fun _ c' _ => δ.Moves c c'

namespace Drift

theorem refl (δ : Drift) (c : Context) : δ.Moves c c := δ.writes c c.mappings c.suppressed

section Within
variable {α β : Type} {δ : Drift} {n : NodeId} {x : RuleM α} {f : α → RuleM β}

theorem Within.pure {a : α} : δ.Within (pure a) := fun c _ => .pure (δ.refl c)

theorem Within.bind (hx : δ.Within x) (hf : ∀ a, δ.Within (f a)) : δ.Within (x >>= f) := fun c p =>
  .bind (hx c p) fun a c₁ p₁ h₁ => (hf a c₁ p₁).mono fun _ _ _ h₂ => δ.trans h₁ h₂

theorem Within.lift {x : PlanM α} : δ.Within (liftM x) := fun c _ => .lift fun _ _ _ => δ.refl c

theorem Within.plan {x : PlanM α} {f : α → RuleM β} (hf : ∀ a, δ.Within (f a)) : δ.Within (liftM x >>= f) := .bind .lift hf

theorem Within.get {f : Context → RuleM β} (hf : ∀ c, δ.Within (f c)) : δ.Within (MonadState.get >>= f) := fun c p =>
  .get (hf c c p)

theorem Within.ite {b : Prop} [Decidable b] {y : RuleM α} (hx : δ.Within x) (hy : δ.Within y) : δ.Within (if b then x else y) := by
  split
  · exact hx
  · exact hy

theorem renameSubtree_within : δ.Within (RuleM.renameSubtree n) := .get fun _ => .plan fun _ => .pure

end Within

/-- Everything is at hand as long as the context has moved along the drift. -/
def ledger (δ : Drift) (c₀ : Context) : Ledger where
  Owns c _ _ := δ.Moves c₀ c
  Fits _ _ := True
  Same _ _ := True
  weaken _ h := h
  adds _ h := h
  writes _ _ h := δ.trans h (δ.writes ..)
  symm _ := trivial
  retag _ h := h
  same _ _ := trivial
  shows h := h
  again h := h
  looks h _ _ := h
  opens h _ := h
  closes h := h
  rereads h _ _ _ := h
  fits _ _ := trivial
  fits_of _ := trivial
  creates _ _ _ _ h := h
  sets h _ _ := h
  renames h _ _ _ := h
  copies h _ _ := h

/-- Where its pattern holds, the rule moves the context along the drift, and leaves everything as it was unless it gives a node. -/
def Acts (δ : Drift) (rule : Rule) (settle : NodeId → RuleM NodeId) : Prop :=
  ∀ {c p n}, rule.pattern.holds p n = true → EndsIn (rule.apply settle n) c p fun out c' p' =>
    δ.Moves c c' ∧ (out = none → c' = c ∧ Unchanged p p')

theorem rules_act {δ : Drift} {settle : NodeId → RuleM NodeId} (hset : ∀ m, δ.Within (settle m)) (group : RuleGroup) :
    ∀ rule ∈ group.rules, δ.Acts rule settle := by
  intro rule hr c p n hm
  have hsettles : (δ.ledger c).Settles settle settle := fun _ m c₁ p₁ _ h₁ =>
    ⟨rfl, (hset m c₁ p₁).mono fun _ _ _ h₂ => δ.trans h₁ h₂⟩
  have hends := ((Ledger.rules_concur group rule hr).apply (ρ := .relational) hsettles hm c p 0 (.refl p) (δ.refl c)).2
  refine hends.mono fun out c' p' hout => ?_
  cases out with
  | none =>
    obtain ⟨rfl, _, ⟨⟩, hu⟩ := hout
    exact ⟨δ.refl _, fun _ => ⟨rfl, hu⟩⟩
  | some m => exact ⟨hout, nofun⟩

end Drift

end Planwright
