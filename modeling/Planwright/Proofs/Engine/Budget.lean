import Planwright.Proofs.Engine.Frame
import Planwright.Proofs.Engine.Termination
import Planwright.Proofs.Rule.Budget

/-! The budget of the projection rules. Every step of a run with them is paid for by a projection or a
    definition that is met in the tree before it and not after it. What is done between the steps changes no
    kinds and adds no nodes. -/

namespace Planwright

open Run Plan

namespace Plan

variable {p p' : Plan} {n : NodeId} {μ : VarMap}

theorem renameNode_eases : Ends (renameNode μ n) p fun _ p' => Eases ∅ p p' := by
  refine .get (.bind op_ends fun o p₁ ⟨hp, r, hr, ho⟩ => ?_)
  subst hp ho
  refine .bind (.lift (R := fun o p' => p' = p₁ ∧ r.op.renamed? μ p₁.vars.type = .ok o) fun o h => ⟨rfl, h⟩) fun o p₂ ⟨hp, hop⟩ => ?_
  subst hp
  split
  · refine .bind (R := fun _ p' => Eases ∅ p₂ p') (.bind node_ends fun s p₃ ⟨hp, hs⟩ => ?_) fun _ _ h => .pure h
    subst hp
    cases hr.symm.trans hs
    refine .bind (R := fun _ p' => p' = p₃) ?_ fun _ p₄ hp => ?_
    · rw [checkCount]
      split
      · exact .pure rfl
      · exact .throw
    · subst hp
      refine .modify (.of_kept (Array.size_setIfInBounds ..).ge fun x s hs => ?_)
      by_cases hx : n = x
      · subst hx
        cases hr.symm.trans hs
        exact ⟨_, Array.getElem?_setIfInBounds_self_of_lt (Array.getElem?_eq_some_iff.mp hr).1, (Op.renamed?_fits hop).1, rfl⟩
      · exact ⟨s, (Array.getElem?_setIfInBounds_ne hx).trans hs, rfl, rfl⟩
  · exact .pure (.refl _ p₂)

theorem renameTree_eases {t : Tree} : Ends (renameTree μ t) p fun _ p' => Eases ∅ p p' := by
  induction t using Tree.induct generalizing p with
  | node id op cs ih =>
    have hall : ∀ ds : List Tree, (∀ d ∈ ds, d ∈ cs) → ∀ p, Ends (renameTree.renameAll μ ds) p fun _ p' => Eases ∅ p p' := by
      intro ds
      induction ds with
      | nil => exact fun _ p => .pure (.refl _ p)
      | cons d ds ihs =>
        intro hds p
        refine .bind (ih d (hds d (.head _))) fun _ p₁ h₁ => ?_
        exact .bind (ihs (fun e he => hds e (.tail _ he)) p₁) fun _ p₂ h₂ => .pure (h₁.trans h₂ nofun)
    refine .bind (hall cs (fun _ h => h) p) fun below p₁ h₁ => .bind renameNode_eases fun own p₂ h₂ => ?_
    have h₂ := h₁.trans h₂ nofun
    split
    · exact .bind (recompute_looks p₂).ends fun _ p₃ h₃ => .pure (h₂.trans (h₃.unchanged.adds.eases (X := ∅)) nofun)
    · exact .pure h₂

theorem renameSubtree_eases : Ends (renameSubtree μ n) p fun _ p' => Eases ∅ p p' := by
  rw [renameSubtree]
  split
  · exact .pure (.refl _ p)
  · refine .bind tree_ends ?_
    rintro t _ ⟨rfl, -⟩
    exact renameTree_eases

end Plan

namespace Engine

/-! ### Runs that pay for their steps -/

/-- What was made of a place has paid for the steps in between with tolls. -/
def Paid (c : Context) (p : Plan) (S : Multiset NodeId) (m : NodeId) (c' : Context) (p' : Plan) : Prop :=
  ∃ d S', c'.steps = c.steps + d ∧ p'.Spans [m] S' ∧ Lighter p p' d S S' ∧ Eases {x | x ∈ S} p p'

theorem Paid.trans {c c₁ c₂ : Context} {p p₁ p₂ : Plan} {S : Multiset NodeId} {m m' : NodeId} (h : Paid c p S m c₁ p₁)
    (h' : ∀ S₁, p₁.Spans [m] S₁ → Paid c₁ p₁ S₁ m' c₂ p₂) : Paid c p S m' c₂ p₂ := by
  obtain ⟨d, S₁, hd, hS₁, hl, he⟩ := h
  obtain ⟨d', S₂, hd', hS₂, hl', he'⟩ := h' S₁ hS₁
  refine ⟨d + d', S₂, by omega, hS₂, hl.trans hl' he.size, he.trans he' fun x hx hlt => ?_⟩
  exact (hl.mem x hx).resolve_right (Nat.not_le.mpr hlt)

theorem Paid.of_eases {c c' : Context} {p p' : Plan} {S : Multiset NodeId} {n : NodeId} (hc : c'.steps = c.steps) (he : Eases ∅ p p')
    (hS : p.Spans [n] S) : Paid c p S n c' p' := by
  obtain ⟨S', hS', hl⟩ := he.spans n S hS
  exact ⟨0, S', hc, hS', hl, he.mono (Set.empty_subset _)⟩

/-- A run at a node that pays for its steps. `g` tells where it leaves off. -/
def Pays {α : Type} (n : NodeId) (x : RuleM α) (g : α → NodeId) : Prop := ∀ c p S, p.Spans [n] S →
  EndsIn x c p fun a c' p' => Paid c p S (g a) c' p'

section Pays
variable {α β : Type} {n : NodeId} {x : RuleM α} {f : α → RuleM β} {g : α → NodeId} {h : β → NodeId}

theorem Pays.bind (hx : Pays n x g) (hf : ∀ a, Pays (g a) (f a) h) : Pays n (x >>= f) h := fun c p S hS => by
  refine .bind (hx c p S hS) fun a c₁ p₁ h₁ b c₂ p₂ hrun => h₁.trans fun S₁ hS₁ => hf a c₁ p₁ S₁ hS₁ b c₂ p₂ hrun

theorem Pays.pure {a : α} (ha : g a = n) : Pays n (pure a) g := fun _ p _ hS => .pure (ha ▸ .of_eases rfl (.refl _ p) hS)

theorem Pays.throw {e : Fault} : Pays n (throw e : RuleM α) g := fun _ _ _ _ => .throw

theorem Pays.get {f : Context → RuleM β} (hf : ∀ c, Pays n (f c) h) : Pays n (MonadState.get >>= f) h := fun c p S hS =>
  .get (hf c c p S hS)

theorem Pays.plan {x : PlanM α} {f : α → RuleM β} (hx : ∀ p, Ends x p fun _ p' => Eases ∅ p p') (hf : ∀ a, Pays n (f a) h) :
    Pays n (liftM x >>= f) h :=
  .bind (g := fun _ => n) (fun _ p _ hS => .lift ((hx p).mono fun _ _ he => .of_eases rfl he hS)) hf

theorem Pays.look {x : PlanM α} {f : α → RuleM β} (hx : Looks x) (hf : ∀ a, Pays n (f a) h) : Pays n (liftM x >>= f) h :=
  .plan (fun p => (hx p).ends.mono fun _ _ h => h.unchanged.adds.eases) hf

theorem Pays.modify {k : Context → Context} (hk : ∀ c, (k c).steps = c.steps) : Pays n (modify k) fun _ => n := fun c p _ hS =>
  .modify (.of_eases (hk c) (.refl _ p) hS)

end Pays

variable {n : NodeId} {table : RuleTable}

/-- Runs that pay for their steps. -/
def paying : Logic where
  Ok n x _ g := Pays n x g
  pure h := .pure h
  throw := .throw
  bind hx hf := .bind hx hf
  get hf := .get hf
  look hx hf := .look hx hf
  modify h := .modify fun c => (h c).steps
  catchUp := by
    refine .get fun c => ?_
    dsimp only
    split
    · refine .look info_looks fun i => ?_
      split
      · exact .get fun c => .plan (fun _ => renameSubtree_eases) fun _ => .pure rfl
      · exact .pure rfl
    · exact .pure rfl
  refresh := .get fun _ => .plan (fun _ => renameNode_eases) fun _ => .look recompute_looks fun _ => .pure rfl

theorem tryRules_pays {settle : NodeId → RuleM NodeId} {rules : List Rule} (hrules : ∀ rule ∈ rules, rule.Saves) :
    Pays n (tryRules settle n rules) fun out => out.getD n := by
  induction rules with
  | nil => exact .pure rfl
  | cons rule rules ih =>
    have ih := ih fun rule hr => hrules rule (.tail _ hr)
    obtain ⟨hacts, hsaves⟩ := hrules rule (.head _)
    intro c p S hS
    refine .getPlan ?_
    split
    · exact ih c p S hS
    rename_i hpattern
    replace hpattern : rule.pattern.holds p n = true := by simpa using hpattern
    refine .bind (R := fun _ c' p' => c'.steps = c.steps ∧ p' = p) (.modify ⟨rfl, rfl⟩) fun _ c₁ p₁ ⟨hc₁, hp⟩ => ?_
    subst hp
    refine .bind (fun out c₂ p₂ hrun => And.intro (hacts settle hpattern out c₂ p₂ hrun) (hsaves settle c₁ hpattern hS out c₂ p₂ hrun))
      fun out c₂ p₂ ⟨⟨hc₂, hnone⟩, hsaved⟩ => ?_
    replace hc₂ : c₂.steps = c.steps := Eq.trans hc₂ hc₁
    cases out with
    | none =>
      have hpaid : Paid c p₁ S n c₂ p₂ := .of_eases hc₂ (hnone rfl).2.adds.eases hS
      exact fun b c₃ p₃ hrun => hpaid.trans fun S₂ hS₂ => ih c₂ p₂ S₂ hS₂ b c₃ p₃ hrun
    | some m =>
      obtain ⟨he, S', hS', hl⟩ := hsaved m rfl
      refine .bind (R := fun _ c' p' => c'.steps = c₂.steps + 1 ∧ Adds p₂ p') ?_ fun _ c₃ p₃ ⟨hc₃, h₃⟩ => .pure ?_
      · exact .bind (R := fun _ c' p' => c'.steps = c₂.steps + 1 ∧ p' = p₂) (.modify ⟨rfl, rfl⟩) fun _ _ p₃ ⟨hc₃, hp⟩ =>
          .step (recompute_looks p₃).ends fun _ _ h => .pure ⟨hc₃, hp ▸ h.unchanged.adds⟩
      · have hpaid : Paid c p₁ S m c₃ p₂ := ⟨1, S', by omega, hS', hl, he⟩
        exact hpaid.trans fun S₂ hS₂ => .of_eases rfl h₃.eases hS₂

theorem settleChild_pays {settle settle' : Nat → NodeId → RuleM NodeId} (hset : ∀ i, paying.Settles (settle i) (settle' i)) {i : Nat} :
    paying.Ok n (settleChild settle n i) (settleChild settle' n i) fun _ => n := by
  intro c p S hS
  refine .step child_ends fun m p₁ ⟨hp, r, hr, hc⟩ => ?_
  subst hp
  obtain ⟨U, hU, hUS, hn⟩ := hS.child hr hc
  refine .bind (hset i m c p₁ U hU) fun m' c₂ p₂ ⟨d, U', hd, hU', hl, he⟩ => ?_
  have hput (p₃ : Plan) (hp : Puts n i m' p₂ p₃) : Paid c p₁ S n c₂ p₃ := by
    obtain ⟨S', hS', hl'⟩ := Puts.lighter hr hc hU hn he (fun _ hx => hx) hU' hl hp hS
    refine ⟨d, S', hd, hS', hl', (Puts.eases hr hc hU hn he (fun _ hx => hx) hU' hl hp).mono fun x hx => ?_⟩
    rcases hx with rfl | hx
    · exact hS.mem_of_mem (.head _)
    · exact Multiset.mem_of_le hUS hx
  split
  · exact .lift (setChild_puts.mono fun _ p₃ hp => hput p₃ hp)
  · rename_i heq
    obtain ⟨r', hr', -, hkept⟩ := he.node n r hr
    refine .pure (hput p₂ (.refl hr' ?_))
    rw [hkept hn, hc, not_not.mp heq]

theorem settle_pays (htable : ∀ rule ∈ table, rule.Saves) (fuel : Nat) (n : NodeId) : Pays n (settle table fuel [] n none) id :=
  paying.settle table table (fun hset _ => Logic.children fun _ => settleChild_pays hset)
    (fun _ _ _ => tryRules_pays fun rule hr => htable rule (List.mem_of_mem_filter hr)) fuel [] n none

/-- A pass with the projection rules makes no more steps than there are projections and definitions in the tree, whatever the
    options. Where the plan is a tree, from some budget on it ends in one and the same way, within that bound. -/
theorem project_steps_le {p : Plan} {t : Tree} (ht : p.tree? p.root = some t) (options : Options) :
    (∀ fuel, Ends (pass fuel options .project) p fun out _ =>
      out.stats.steps ≤ t.kinds.count .project + t.kinds.count .varDef) ∧
    (Rooted p t → Ceases (fun fuel => pass fuel options .project) p fun out _ =>
      out.stats.steps ≤ t.kinds.count .project + t.kinds.count .varDef) := by
  have hspans : p.Spans [p.root] t.ids := .of_view ht
  have hpay : p.tolls t.ids = t.kinds.count .project + t.kinds.count .varDef := by rw [tolls_view ht, OpKind.sum_toll]
  have htable : ∀ rule ∈ RuleGroup.project.enabledRules options.disabledRules, rule.Saves := fun rule hr =>
    projectRules_save rule (List.mem_of_mem_filter hr)
  have hends (fuel : Nat) : Ends (pass fuel options .project) p fun out _ =>
      out.stats.steps ≤ t.kinds.count .project + t.kinds.count .varDef := by
    refine (pass_ends_of (R := fun _ c _ => c.steps ≤ p.tolls t.ids) (fun _ _ => Nat.zero_le _) fun stats _ => ?_).mono ?_
    · refine (settle_pays htable fuel p.root _ p _ hspans).mono fun _ c p' ⟨d, S', hd, _, hl, _⟩ => ?_
      have hsteps : c.steps = d := hd.trans (Nat.zero_add d)
      exact hsteps ▸ (Nat.le_add_left ..).trans hl.tolls
    · rintro out p' ⟨-, root, c, p₁, log, hsteps, rfl, -⟩
      exact Int.ofNat_le.mpr (hpay ▸ hsteps)
  refine ⟨hends, fun hroot => ?_⟩
  obtain ⟨k, r, hr, -, hrun⟩ := pass_ceases options .project hroot
  exact ⟨k, r, hr, fun out p' h => hends k out p' ((hrun k le_rfl).trans h), hrun⟩

/-- `Project(Project(t, x := a), y := x + x)`, with a definition that is a plain reference. -/
def stackedTree : Tree :=
  .node 10 (.project (.ofList [2]))
    [.node 4 (.project (.ofList [1])) [.node 0 (.scanTable ⟨0, "t", [0], .empty, none⟩) [],
        .node 3 .varDefList [.node 2 (.varDef 1) [.node 1 (.varRef 0 .int64) []]]],
      .node 9 .varDefList [.node 8 (.varDef 2) [.node 7 (.scalar .plus .int64)
        [.node 5 (.varRef 1 .int64) [], .node 6 (.varRef 1 .int64) []]]]]

def stacked : Plan := stackedTree.plan 1 [⟨.column, "t.a", .int64⟩, ⟨.computed, "x", .int64⟩, ⟨.computed, "y", .int64⟩]

theorem stacked_rooted : Rooted stacked stackedTree := by
  have hbelow : ∀ i : Fin 11, ∀ m ∈ (stacked.nodes[i.val]?.map (·.children)).getD [], m < i.val := by decide
  have hranked : Ranked id 11 stacked := ⟨rfl, fun m n ⟨r, hr, hm⟩ _ => by
    have hlt : n < 11 := (Array.getElem?_eq_some_iff.mp hr).1
    exact hbelow ⟨n, hlt⟩ m (by simpa [hr] using hm)⟩
  have hview : stacked.tree? 10 = some stackedTree := rfl
  exact ⟨hranked.acyclic, rfl, holds_of_view (by decide) hview, by decide, by decide⟩

theorem project_steps_le_stacked : stacked.tree? stacked.root = some stackedTree ∧ Rooted stacked stackedTree ∧
    (∀ fuel, Ends (pass fuel .standard .project) stacked fun out _ => out.stats.steps ≤ 2 + 2) ∧
    Ceases (fun fuel => pass fuel .standard .project) stacked fun out _ => out.stats.steps ≤ 2 + 2 := by
  have h := project_steps_le (p := stacked) (t := stackedTree) rfl .standard
  exact ⟨rfl, stacked_rooted, h.1, h.2 stacked_rooted⟩

end Engine

end Planwright
