import Planwright.Engine.Settle
import Planwright.Proofs.Plan.Conjunction
import Planwright.Proofs.Rule.Match

/-! What rules make. A rule looks around, and then it either leaves everything as it is or puts a tree together from parts
    of the old one and from new nodes. What it makes is told here once for each rule, whatever is to be shown of it. -/

namespace Planwright

open Run Planwright.Tree Plan

/-! ### Looking around -/

/-- A computation that changes nothing but what nodes remember. -/
def Quiet {α : Type} (x : RuleM α) : Prop := ∀ c p, HaltsIn x c p fun _ c' p' => c' = c ∧ Same p p'

section Quiet
variable {α β : Type} {x : RuleM α} {f : α → RuleM β} {c : Context} {p : Plan} {Q : β → Context → Plan → Prop}

theorem Run.HaltsIn.quiet (hx : Quiet x) (hf : ∀ a p', Keeps ∅ p p' → HaltsIn (f a) c p' Q) : HaltsIn (x >>= f) c p Q :=
  .bind (hx c p) fun a _ p' ⟨hc, hs⟩ => hc ▸ hf a p' hs.keeps

theorem Run.HaltsIn.tree {t : Tree} {f : Tree → RuleM β} (ht : p.Holds t) (hf : HaltsIn (f t) c p Q) :
    HaltsIn (liftM (Plan.tree t.id) >>= f) c p Q :=
  .step ht.tree_halts fun _ _ ⟨hp, hs⟩ => hp ▸ hs ▸ hf

theorem Quiet.bind (hx : Quiet x) (hf : ∀ a, Quiet (f a)) : Quiet (x >>= f) := fun c p =>
  .bind (hx c p) fun a c₁ p₁ ⟨hc, hs⟩ => (hf a c₁ p₁).mono fun _ _ _ ⟨hc', hs'⟩ => ⟨hc'.trans hc, hs.trans hs'⟩

theorem Quiet.pure {a : α} : Quiet (pure a) := fun _ _ => .pure ⟨rfl, .refl _⟩

theorem Quiet.get {f : Context → RuleM β} (h : ∀ c, Quiet (f c)) : Quiet (MonadState.get >>= f) := fun c p => .get (h c c p)

theorem Quiet.plan {x : PlanM α} (h : Looks x) : Quiet (liftM x) := fun _ p => .lift ((h p).mono fun _ _ hs => ⟨rfl, hs⟩)

theorem Run.EndsIn.except {e : Except Fault α} (hf : ∀ a, e = .ok a → EndsIn (f a) c p Q) :
    EndsIn ((liftM e : RuleM α) >>= f) c p Q := by
  cases e with
  | error e => exact .bind (R := fun _ _ _ => False) .throw fun _ _ _ => nofun
  | ok a => exact hf a rfl

theorem Run.HaltsIn.except {e : Except Fault α} (he : Spares e) (hf : ∀ a, e = .ok a → HaltsIn (f a) c p Q) :
    HaltsIn ((liftM e : RuleM α) >>= f) c p Q := by
  cases e with
  | error e => exact .bind (R := fun _ _ _ => False) (.throw fun heq => he (congrArg _ heq)) fun _ _ _ => nofun
  | ok a => exact hf a rfl

theorem Quiet.except {e : Except Fault α} (he : Spares e) : Quiet (liftM e : RuleM α) := fun c p => by
  cases e with
  | error e => exact .throw fun heq => he (congrArg _ heq)
  | ok a => exact Quiet.pure c p

theorem Quiet.mapM {f : β → RuleM α} {bs : List β} (h : ∀ b, Quiet (f b)) : Quiet (bs.mapM f) := by
  induction bs with
  | nil => exact .pure
  | cons b bs ih =>
    rw [List.mapM_cons]
    exact .bind (h b) fun _ => .bind ih fun _ => .pure

theorem Quiet.anyM {f : β → RuleM Bool} {bs : List β} (h : ∀ b, Quiet (f b)) : Quiet (bs.anyM f) := by
  induction bs with
  | nil => exact .pure
  | cons b bs ih =>
    rw [List.anyM]
    refine .bind (h b) fun found => ?_
    cases found
    · exact ih
    · exact .pure

end Quiet

theorem Engine.keyOf_quiet {n : NodeId} {place : Option (NodeId × Nat)} : Quiet (keyOf n place) :=
  .bind (.plan info_looks) fun _ => .pure

theorem RuleM.isCostly_quiet {uses : Option (List VarId)} {size : Nat} {d : NodeId} : Quiet (isCostly uses size d) := by
  cases uses with
  | none => exact .pure
  | some us =>
    refine .get fun c => ?_
    split
    · exact .bind (.plan definedVar_looks) fun _ => .pure
    · exact .pure

/-! ### Making a tree -/

/-- A tree was put together from parts of another and from new nodes, with the variables `vs` made on the way. -/
structure Remakes (c : Context) (p : Plan) (t : Tree) (c' : Context) (p' : Plan) (t' : Tree) (vs : List VarId) : Prop where
  holds : p'.Holds t'
  grows : ∃ fs, Grows {x | x ∈ t.ids} fs vs p p' ∧ ∀ x, t'.ids.count x ≤ fs.count x + t.ids.count x
  steps : c'.steps = c.steps

/-- What a rule ends with that settles nothing itself: it has changed nothing, or made a tree. `P` tells which tree it
    makes, with which variables and renamings. -/
def Remade (c : Context) (p : Plan) (t : Tree) (P : List VarId → VarMap → Tree → Prop) :
    Option NodeId → Context → Plan → Prop
  | none, c', p' => c' = c ∧ Keeps ∅ p p'
  | some n, c', p' => ∃ t' vs, t'.id = n ∧ Remakes c p t c' p' t' vs ∧ P vs c'.mappings t'

section Remade
variable {c c' : Context} {p p₁ p' : Plan} {t t' : Tree} {fs vs : List Nat} {P : List VarId → VarMap → Tree → Prop}

theorem Remade.of_grows (ht : p'.Holds t') (hg : Grows ∅ fs vs p p') (hids : ∀ x, t'.ids.count x ≤ fs.count x + t.ids.count x)
    (hP : P vs c.mappings t') : Remade c p t P (some t'.id) c p' :=
  ⟨t', vs, rfl, ⟨ht, ⟨fs, hg.mono fun _ h => h.elim, hids⟩, rfl⟩, hP⟩

theorem Remade.mono {P' : List VarId → VarMap → Tree → Prop} {out : Option NodeId} (h : Remade c p t P out c' p')
    (hP : ∀ vs m t', P vs m t' → P' vs m t') : Remade c p t P' out c' p' := by
  cases out with
  | none => exact h
  | some n =>
    obtain ⟨t', vs, hid, hr, hmade⟩ := h
    exact ⟨t', vs, hid, hr, hP vs _ t' hmade⟩

end Remade

/-- A tree that the run can go on with. -/
structure Standing (p : Plan) (t : Tree) : Prop where
  holds : p.Holds t
  ids : t.ids.Nodup
  wellFormed : t.wellFormed = true

/-- What the rule makes of a tree that its pattern fits, however it settles subtrees: `P` tells what it makes of which tree. -/
def Rule.Makes (rule : Rule) (P : Context → Plan → Tree → List VarId → VarMap → Tree → Prop) : Prop :=
  ∀ c p t (settle : NodeId → RuleM NodeId), Standing p t → rule.pattern.fits t →
    HaltsIn (rule.apply settle t.id) c p (Remade c p t (P c p t))

theorem Rule.Makes.mono {rule : Rule} {P : Context → Plan → Tree → List VarId → VarMap → Tree → Prop} (h : rule.Makes P) {c : Context}
    {p : Plan} {t : Tree} (settle : NodeId → RuleM NodeId) (hs : Standing p t) (hmatch : rule.pattern.holds p t.id = true)
    {Q : NodeId → Context → Plan → Prop}
    (hQ : ∀ vs c' p' t', Remakes c p t c' p' t' vs → P c p t vs c'.mappings t' → Q t'.id c' p') :
    HaltsIn (rule.apply settle t.id) c p fun out c' p' => ∀ n, out = some n → Q n c' p' := by
  refine (h c p t settle hs ((Pattern.holds_eq_fits _ hs.holds).symm.trans hmatch)).mono fun out c' p' hmade n hn => ?_
  subst hn
  obtain ⟨t', vs, rfl, hr, hmade⟩ := hmade
  exact hQ vs c' p' t' hr hmade

/-- The same of a rule that makes no variables and renames nothing. -/
def Rule.Rebuilds (rule : Rule) (R : Tree → Tree → Prop) : Prop :=
  rule.Makes fun c _ t vs m t' => vs = [] ∧ m = c.mappings ∧ R t t'

theorem Rules.exists_of_fires {r : Except Fault ((Option NodeId × Context) × Plan)} (h : (r.toOption.bind (·.1.1)).isSome) :
    ∃ n c p, r = .ok ((some n, c), p) := by
  obtain _ | ⟨⟨_ | n, c⟩, p⟩ := r
  · cases h
  · cases h
  · exact ⟨n, c, p, rfl⟩

end Planwright
