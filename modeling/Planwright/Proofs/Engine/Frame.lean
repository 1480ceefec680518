import Planwright.Proofs.Engine.Walk
import Planwright.Proofs.Ledger.Drift

/-! Passes in which no rule is applied. As long as no step is counted, nothing is renamed, no child is replaced,
    and every rule that was tried has declined before it changed anything. Nothing is asked of the plan. -/

namespace Planwright

open Run Plan

/-! ### Renaming nothing -/

namespace VarMap

theorem resolve_empty (v : VarId) : VarMap.empty.resolve v = pure v := by
  simp [resolve, follow, empty, get?]

theorem resolveSet?_empty (s : VarSet) : VarMap.empty.resolveSet? s = pure none := by
  have hno : ¬s.overlaps VarMap.empty.domain := by
    rw [VarSet.overlaps_iff]
    rintro ⟨v, -, hv⟩
    exact mem_domain.mp hv rfl
  rw [resolveSet?, if_neg hno]

theorem mapValues_empty (m : VarMap) : m.mapValues VarMap.empty.resolve = pure m := by
  have hentries : (m.entries.mapM fun e => pure e : Except Fault _) = pure m.entries := by
    simpa using List.mapM_pure (m := Except Fault) (l := m.entries) (f := id)
  simp [mapValues, resolve_empty, hentries]

end VarMap

theorem Op.renamed?_empty (types : VarId → ScalarType) (o : Op) : o.renamed? .empty types = pure none := by
  have hkeys (keys : List SortKey) : Op.renamed?.renamedKeys .empty keys = pure none := by
    simp [Op.renamed?.renamedKeys, VarMap.resolve_empty]
  cases o with
  | varRef v type => simp [Op.renamed?, VarMap.resolve_empty]
  | project | distinct | groupBy => simp [Op.renamed?, VarMap.resolveSet?_empty]
  | combine => simp [Op.renamed?, VarMap.mapValues_empty]
  | sort | constrainedSort => simp [Op.renamed?, hkeys]
  | _ => rfl

theorem Plan.renameNode_empty_looks {n : NodeId} : Looks (renameNode .empty n) := by
  refine .get fun p => .bind op_looks fun o => ?_
  rw [Op.renamed?_empty]
  exact .pure

/-! ### Runs without a step -/

namespace Engine

def forward : Drift := ⟨fun c c' => c.steps ≤ c'.steps, Nat.le_trans, fun _ _ _ => Nat.le_refl _⟩

/-- If no step is counted, nothing is renamed and the plan is unchanged, and the answer is as `R` says;
    `P` is what is known as long as none is counted. -/
def Rests {α : Type} (P : Prop) (x : RuleM α) (R : α → Prop) : Prop := ∀ c p, EndsIn x c p fun a c' p' =>
  c.steps ≤ c'.steps ∧ (P → c'.steps = c.steps → c.mappings = .empty → R a ∧ c'.mappings = .empty ∧ Unchanged p p')

section Rests
variable {α β γ : Type} {P : Prop} {x : RuleM α} {f : α → RuleM β} {R R' : α → Prop} {S : β → Prop}

theorem Rests.bind (hx : Rests P x R) (hf : ∀ a, Rests (P ∧ R a) (f a) S) : Rests P (x >>= f) S := fun c p =>
  .bind (hx c p) fun a c₁ p₁ ⟨hle, hrest⟩ => (hf a c₁ p₁).mono fun b c₂ p₂ ⟨hle', hrest'⟩ => by
    refine ⟨hle.trans hle', fun hP hsteps hm => ?_⟩
    obtain ⟨ha, hm₁, h₁⟩ := hrest hP (by omega) hm
    obtain ⟨hb, hm₂, h₂⟩ := hrest' ⟨hP, ha⟩ (by omega) hm₁
    exact ⟨hb, hm₂, h₁.trans h₂⟩

theorem Rests.mono {Q : Prop} (hx : Rests P x R) (hQ : Q → P) (hR : ∀ a, Q → R a → R' a) : Rests Q x R' := fun c p =>
  (hx c p).mono fun a _ _ ⟨hle, hrest⟩ => ⟨hle, fun h hsteps hm => (hrest (hQ h) hsteps hm).imp_left (hR a h)⟩

theorem Rests.pure {a : α} (ha : P → R a) : Rests P (pure a) R := fun _ p => .pure ⟨le_rfl, fun hP _ hm => ⟨ha hP, hm, .refl p⟩⟩

theorem Rests.throw {e : Fault} : Rests P (throw e : RuleM α) R := fun _ _ => .throw

theorem Rests.late (hx : forward.Within x) (hP : ¬P) : Rests P x R := fun c p =>
  (hx c p).mono fun _ _ _ hle => ⟨hle, fun h => absurd h hP⟩

theorem Rests.within (hx : Rests P x R) : forward.Within x := fun c p => (hx c p).mono fun _ _ _ h => h.1

theorem Rests.get {f : Context → RuleM β} (hf : ∀ c, Rests (P ∧ c.mappings = .empty) (f c) S) : Rests P (MonadState.get >>= f) S :=
  fun c p => .get ((hf c c p).mono fun _ _ _ ⟨hle, hrest⟩ => ⟨hle, fun hP hsteps hm => hrest ⟨hP, hm⟩ hsteps hm⟩)

theorem Rests.look {x : PlanM α} {f : α → RuleM β} (hx : Looks x) (hf : ∀ a, Rests P (f a) S) : Rests P (liftM x >>= f) S :=
  .bind (R := fun _ => True) (fun _ p => .lift ((hx p).ends.mono fun _ _ h => ⟨le_rfl, fun _ _ hm => ⟨trivial, hm, h.unchanged⟩⟩))
    fun a => (hf a).mono And.left fun _ _ h => h

theorem Rests.modify {g : Context → Context} {R : Prop} (hs : ∀ c, (g c).steps = c.steps)
    (hm : ∀ c, (g c).mappings = c.mappings) (hR : P → R) : Rests P (modify g) fun _ => R := fun c p =>
  .modify ⟨(hs c).ge, fun hP _ h => ⟨hR hP, (hm c).trans h, .refl p⟩⟩

end Rests

variable {P : Prop} {n : NodeId}

theorem catchUp_rests {R : Prop} (hR : P → R) : Rests P (catchUp n) fun _ => R := by
  refine .get fun c => ?_
  dsimp only
  split
  · rename_i hsize
    refine .late (.plan fun i => .ite Drift.renameSubtree_within .pure) fun h => ?_
    rw [h.2] at hsize
    cases hsize
  · exact .pure fun h => hR h.1

theorem refresh_rests {R : Prop} (hR : P → R) : Rests P (refresh n) fun _ => R := by
  refine .get fun c => ?_
  by_cases hm : c.mappings = .empty
  · rw [hm]
    exact .look renameNode_empty_looks fun _ => .look recompute_looks fun _ => .pure fun h => hR h.1
  · exact .late (.plan fun _ => .plan fun _ => .pure) fun h => hm h.2

/-- Runs that stay at a node as long as no step is counted. -/
def resting : Logic where
  Ok n x _ g := ∀ N P, (P → n = N) → Rests P x fun a => g a = N
  pure h _ _ hN := .pure fun hP => h.trans (hN hP)
  throw _ _ _ := .throw
  bind hx hf N P hN := .bind (hx N P hN) fun a => hf a N (P ∧ _) And.right
  get hf N P hN := .get fun c => hf c N (P ∧ _) fun h => hN h.1
  look hx hf N P hN := .look hx fun a => hf a N P hN
  modify h _ _ hN := .modify (fun c => (h c).steps) (fun c => (h c).mappings) hN
  catchUp _ _ hN := catchUp_rests hN
  refresh _ _ hN := refresh_rests hN

structure Recorded (rule : Rule) (c c' : Context) : Prop where
  steps : c'.steps = c.steps + 1
  stats : c'.stats = c.stats.recordChange rule.name
  pruning : c'.pruningRequired = (c.pruningRequired || Rule.requiresPruning rule.name)
  nullability : c'.nullabilityRequired = (c.nullabilityRequired || Rule.requiresNullability rule.name)

theorem record_recorded {rule : Rule} {out : NodeId} {c : Context} {p : Plan} :
    EndsIn (record rule out) c p fun _ c' _ => Recorded rule c c' :=
  .bind (R := fun _ c' _ => Recorded rule c c') (.modify ⟨rfl, rfl, rfl, rfl⟩) fun _ _ p₁ hc =>
    .step (recompute_looks p₁).ends fun _ _ _ => .pure hc

theorem tryRules_rests {settle : NodeId → RuleM NodeId} {rules : List Rule} (hrules : ∀ rule ∈ rules, forward.Acts rule settle) :
    Rests P (tryRules settle n rules) (· = none) := by
  induction rules with
  | nil => exact .pure fun _ => rfl
  | cons rule rules ih =>
    have ih := ih fun rule hr => hrules rule (.tail _ hr)
    intro c p
    refine .getPlan ?_
    split
    · exact ih c p
    rename_i hpattern
    refine .bind (R := fun _ c' p' => c'.steps = c.steps ∧ c'.mappings = c.mappings ∧ p' = p) (.modify ⟨rfl, rfl, rfl⟩)
      fun _ c₁ p₁ ⟨hs₁, hm₁, hp⟩ => ?_
    subst hp
    refine .bind (hrules rule (.head _) (by simpa using hpattern)) fun out c₂ p₂ ⟨hle, hnone⟩ => ?_
    cases out with
    | none =>
      obtain ⟨rfl, h₂⟩ := hnone rfl
      refine (ih c₂ p₂).mono fun _ _ _ ⟨hle', hr⟩ => ⟨hs₁ ▸ hle', fun hP hsteps hm => ?_⟩
      exact (hr hP (hsteps.trans hs₁.symm) (hm₁.trans hm)).imp_right (.imp_right h₂.trans)
    | some out =>
      refine .bind record_recorded fun _ c₃ p₃ hc => .pure ?_
      have hlt : c.steps < c₃.steps := by
        rw [hc.steps]
        exact Nat.lt_succ_of_le (hs₁ ▸ hle)
      exact ⟨hlt.le, fun _ hsteps => absurd hsteps hlt.ne'⟩

theorem settleChild_rests {settle settle' : Nat → NodeId → RuleM NodeId} (hset : ∀ i, resting.Settles (settle i) (settle' i)) {i : Nat} :
    resting.Ok n (settleChild settle n i) (settleChild settle' n i) fun _ => n := by
  refine fun N P hN => .look child_looks fun m => .bind (hset i m m P fun _ => rfl) fun m' => ?_
  split
  · rename_i hne
    exact .late .lift fun h => hne h.2
  · exact .pure fun h => hN h.1

theorem settle_rests {table : RuleTable} {group : RuleGroup} (htable : ∀ rule ∈ table, rule ∈ group.rules) (fuel : Nat) (n : NodeId) :
    Rests True (settle table fuel [] n none) (· = n) := by
  refine resting.settle table table ?_ ?_ fuel [] n none n True fun _ => rfl
  · exact fun hset _ => Logic.children fun _ => settleChild_rests hset
  · refine fun hset n k N P hN => (tryRules_rests fun rule hr => ?_).mono id fun out hP hout => ?_
    · exact Drift.rules_act (fun m => (hset m m True fun _ => rfl).within) group rule (htable rule (List.mem_of_mem_filter hr))
    · rw [hout]
      exact hN hP

/-- A pass that reports no change has made no step: the plan denotes the same tree, down to its nodes, and has the same variables. -/
theorem pass_unchanged (fuel : Nat) (options : Options) (group : RuleGroup) (p : Plan) :
    Ends (pass fuel options group) p fun out p' => out.changed = false →
      p'.root = p.root ∧ p'.tree? p'.root = p.tree? p.root ∧ p'.vars.size = p.vars.size ∧ out.stats.steps = 0 := by
  refine (pass_ends_of (R := fun root c p' => c.steps = 0 → root = p.root ∧ Unchanged p p') (fun stats _ _ => ⟨rfl, .refl p⟩)
    fun stats _ => ?_).mono ?_
  · refine (settle_rests (fun _ => List.mem_of_mem_filter) fuel p.root _ p).mono fun root c p' ⟨_, hrest⟩ hsteps => ?_
    exact (hrest trivial hsteps rfl).imp_right And.right
  · rintro out p' ⟨⟨t, ht⟩, root, c, p₁, log, hrest, rfl, rfl⟩ hchanged
    have hsteps : c.steps = 0 := Nat.eq_zero_of_not_pos (of_decide_eq_false hchanged)
    obtain ⟨rfl, h⟩ := hrest hsteps
    have hadds : Adds p { p₁ with root := p.root } := h.adds.trans ⟨Nat.le_refl _, fun _ r hr => ⟨r, hr, rfl, rfl⟩⟩
    exact ⟨rfl, (hadds.tree? ht).trans ht.symm, congrArg Registry.size h.vars, by simp [report, hsteps]⟩

end Engine

end Planwright
