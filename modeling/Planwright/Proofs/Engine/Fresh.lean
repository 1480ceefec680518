import Mathlib.Tactic.FinCases
import Planwright.Proofs.Engine.Budget

/-! What a plan remembers is up to date. Whenever a rule is applied, the analyses remembered below the node are
    those that the operators give: a run that would stop at the first node where one is not is the same run, and
    it ends as well. -/

namespace Planwright

open Run Plan

/-! ### Runs that may stop earlier -/

namespace Run

variable {α β σ : Type} {e : Fault}

/-- The run does what the other one does, or stops with the fault. -/
def Mimics (e : Fault) (x y : StateT σ PlanM α) : Prop := ∀ c p, x c p = .error e ∨ x c p = y c p

theorem Mimics.refl (x : StateT σ PlanM α) : Mimics e x x := fun _ _ => .inr rfl

theorem Mimics.bind {x y : StateT σ PlanM α} {f g : α → StateT σ PlanM β} (hx : Mimics e x y)
    (hf : ∀ a, Mimics e (f a) (g a)) : Mimics e (x >>= f) (y >>= g) := by
  intro c p
  have hrun (x : StateT σ PlanM α) (f : α → StateT σ PlanM β) : (x >>= f) c p =
    (x c p >>= fun r => f r.1.1 r.1.2 r.2 : Except Fault ((β × σ) × Plan)) := rfl
  rw [hrun, hrun]
  rcases hx c p with h | h
  · exact .inl (by rw [h]; rfl)
  · rw [← h]
    cases x c p with
    | error e' => exact .inr rfl
    | ok r => exact hf r.1.1 r.1.2 r.2

theorem Mimics.ite {P : Prop} [Decidable P] {x y x' y' : StateT σ PlanM α} (hx : Mimics e x x') (hy : Mimics e y y') :
    Mimics e (if P then x else y) (if P then x' else y') := by
  split
  · exact hx
  · exact hy

theorem Mimics.forM {γ : Type} {f g : γ → StateT σ PlanM Unit} {as : List γ} (h : ∀ a, Mimics e (f a) (g a)) :
    Mimics e (as.forM f) (as.forM g) := by
  induction as with
  | nil => exact .refl _
  | cons a as ih => exact .bind (h a) fun _ => ih

end Run

/-- The rule does what the other one does, or stops with the fault, if this is so of the way to settle that it is given. -/
structure Rule.Mimics (e : Fault) (rule rule' : Rule) : Prop where
  name : rule'.name = rule.name
  pattern : rule'.pattern = rule.pattern
  apply : ∀ {settle settle' : NodeId → RuleM NodeId}, (∀ n, Run.Mimics e (settle n) (settle' n)) → ∀ n,
    Run.Mimics e (rule.apply settle n) (rule'.apply settle' n)

namespace Rules

variable {e : Fault} {settle settle' : NodeId → RuleM NodeId}

theorem simple_mimics {name : String} {pattern : Pattern} {f : NodeId → RuleM (Option NodeId)} :
    (Rule.simple name pattern f).Mimics e (Rule.simple name pattern f) :=
  ⟨rfl, rfl, fun _ n => .refl (f n)⟩

theorem overSetOp_mimics (h : ∀ n, Mimics e (settle n) (settle' n)) (n : NodeId) :
    Mimics e (overSetOp settle n) (overSetOp settle' n) := by
  unfold overSetOp
  refine .bind (.refl _) fun ⟨pushed, rest⟩ => ?_
  cases pushed with
  | none => exact .refl _
  | some pushed =>
    refine .bind (.refl _) fun shape => .ite (.refl _) (.bind (.refl _) fun combined => .bind (.refl _) fun op => ?_)
    cases op with
    | combine kind outputs left right =>
      refine .bind (.refl _) fun leftBranch => .bind (.refl _) fun rightBranch => .bind (.refl _) fun leftRefs => ?_
      dsimp only
      refine .ite (.bind (.refl _) fun leftPredicate => ?_) (.bind (.refl _) fun leftPredicate => ?_)
      all_goals
        refine .bind (.refl _) fun _ => .bind (.refl _) fun _ => .bind (h _) fun newLeft => .ite (.refl _) ?_
        exact .bind (.refl _) fun _ => .bind (.refl _) fun _ => .bind (.refl _) fun _ => .bind (h _) fun _ => .refl _
    | _ => exact .refl _

theorem filterSide_mimics (h : ∀ n, Mimics e (settle n) (settle' n)) (side : NodeId) (predicate : Option NodeId) :
    Mimics e (filterSide settle side predicate) (filterSide settle' side predicate) := by
  cases predicate with
  | none => exact .refl _
  | some predicate => exact .bind (.refl _) h

theorem overJoin_mimics (h : ∀ n, Mimics e (settle n) (settle' n)) (n : NodeId) :
    Mimics e (overJoin settle n) (overJoin settle' n) := by
  refine .bind (.refl _) fun s => ?_
  cases s with
  | none => exact .refl _
  | some s => exact .bind (filterSide_mimics h _ _) fun _ => .bind (filterSide_mimics h _ _) fun _ => .refl _

theorem filterRules_mimic : ∀ rule ∈ filterRules, rule.Mimics e rule := by
  have hjoin {name : String} {pattern : Pattern} : (⟨name, pattern, overJoin⟩ : Rule).Mimics e ⟨name, pattern, overJoin⟩ :=
    ⟨rfl, rfl, overJoin_mimics⟩
  have hsetOp {name : String} {pattern : Pattern} : (⟨name, pattern, overSetOp⟩ : Rule).Mimics e ⟨name, pattern, overSetOp⟩ :=
    ⟨rfl, rfl, overSetOp_mimics⟩
  simp only [filterRules, List.forall_mem_cons]
  exact ⟨simple_mimics, hjoin, simple_mimics, hsetOp, simple_mimics, simple_mimics, hjoin, hsetOp, hjoin, simple_mimics, hsetOp,
    simple_mimics, List.forall_mem_nil _⟩

end Rules

open Rules in
theorem RuleGroup.rules_mimic (group : RuleGroup) (e : Fault) : ∀ rule ∈ group.rules, rule.Mimics e rule := by
  intro rule hr
  rcases RuleGroup.mem_rules hr with hr | hr | hr | hr | hr
  · fin_cases hr <;> exact simple_mimics
  · exact filterRules_mimic rule hr
  all_goals fin_cases hr <;> exact simple_mimics

namespace Engine

variable {e : Fault} {n : NodeId} {p : Plan} {t : Tree}

/-! ### Engines of rules that may stop earlier -/

theorem tryRules_mimics {settle settle' : NodeId → RuleM NodeId} (h : ∀ n, Mimics e (settle n) (settle' n))
    {rules rules' : List Rule} (hrules : List.Forall₂ (Rule.Mimics e) rules rules') :
    Mimics e (tryRules settle n rules) (tryRules settle' n rules') := by
  induction hrules with
  | nil => exact .refl _
  | @cons rule rule' rules rules' hrule _ ih =>
    have hrecord : record rule' = record rule := by
      unfold record
      rw [hrule.name]
    rw [tryRules, tryRules, hrule.name, hrule.pattern, hrecord]
    refine .bind (.refl _) fun p => .ite ih (.bind (.refl _) fun _ => .bind (hrule.apply h n) fun out => ?_)
    cases out with
    | none => exact ih
    | some out => exact .refl _

theorem settle_mimics {table table' : RuleTable} (htable : List.Forall₂ (Rule.Mimics e) table table') {fuel fuel' : Nat}
    (hfuel : fuel = fuel' ∨ e = .outOfFuel ∧ fuel ≤ fuel') {seen : List SubtreeKey} {place : Option (NodeId × Nat)} :
    Mimics e (settle table fuel seen n place) (settle table' fuel' seen n place) := by
  induction fuel generalizing fuel' seen n place with
  | zero =>
    rcases hfuel with rfl | ⟨rfl, -⟩
    · exact .refl _
    · exact fun _ _ => .inl rfl
  | succ fuel ih =>
    obtain ⟨fuel', rfl⟩ : ∃ k, fuel' = k + 1 := ⟨fuel' - 1, by omega⟩
    have hset {m : NodeId} {seen : List SubtreeKey} {place : Option (NodeId × Nat)} :
        Mimics e (settle table fuel seen m place) (settle table' fuel' seen m place) :=
      ih (hfuel.imp (fun h => by omega) fun h => ⟨h.1, by omega⟩)
    have hkind (k : OpKind) : List.Forall₂ (Rule.Mimics e) (table.forKind k) (table'.forKind k) := by
      refine List.rel_filter (fun rule rule' hrule => ?_) htable
      beta_reduce
      rw [hrule.pattern]
    rw [settle, settle]
    refine .bind (.refl _) fun _ => .bind (.refl _) fun key => .bind (.refl _) fun c => .ite (.refl _) (.ite (.refl _) ?_)
    refine .bind (.refl _) fun ds => .bind (.forM fun i => ?_) fun _ => .bind (.refl _) fun _ => .bind (.refl _) fun k => ?_
    · exact .bind (.refl _) fun d => .bind hset fun _ => .refl _
    · refine .bind (tryRules_mimics (fun _ => hset) (hkind k)) fun out => ?_
      cases out with
      | none => exact .refl _
      | some out => exact .bind (.refl _) fun _ => hset

end Engine

/-! ### Rules that look at what is remembered -/

/-- What the plan remembers of the nodes below a node, where anything is remembered, is what their operators give. -/
def Plan.Fresh (p : Plan) (n : NodeId) : Prop := ∃ t, p.tree? n = some t ∧ p.Holds t

theorem Standing.fresh {p : Plan} {t : Tree} (h : Standing p t) : p.Fresh t.id :=
  ⟨t, h.holds.tree?, h.holds⟩

open Classical in
/-- A rule that stops the run where anything that is remembered is out of date. -/
noncomputable def Rule.guarded (e : Fault) (rule : Rule) : Rule where
  name := rule.name
  pattern := rule.pattern
  apply settle n := do
    if (← getThe Plan).Fresh n then rule.apply settle n else throw e

section Guarded
variable {e e' : Fault} {rule : Rule} {settle : NodeId → RuleM NodeId} {n : NodeId} {c : Context} {p : Plan}

open Classical in
theorem Rule.guarded_run :
    (rule.guarded e).apply settle n c p = (if p.Fresh n then rule.apply settle n else throw e : RuleM (Option NodeId)) c p :=
  rfl

theorem Rule.guarded_fresh (h : p.Fresh n) : (rule.guarded e).apply settle n c p = rule.apply settle n c p := by
  rw [guarded_run, if_pos h]

theorem Rule.guarded_stale (h : ¬p.Fresh n) : (rule.guarded e).apply settle n c p = .error e := by
  rw [guarded_run, if_neg h]
  rfl

theorem Rule.Mimics.guarded (h : rule.Mimics e rule) : (rule.guarded e').Mimics e (rule.guarded e') := by
  refine ⟨rfl, rfl, fun hset n c p => ?_⟩
  by_cases hf : p.Fresh n
  · rw [guarded_fresh hf, guarded_fresh hf]
    exact h.apply hset n c p
  · exact .inr (by rw [guarded_stale hf, guarded_stale hf])

theorem Rule.Mimics.guarded_other (h : rule.Mimics e rule) : (rule.guarded e).Mimics e (rule.guarded e') := by
  refine ⟨rfl, rfl, fun hset n c p => ?_⟩
  by_cases hf : p.Fresh n
  · rw [guarded_fresh hf, guarded_fresh hf]
    exact h.apply hset n c p
  · exact .inl (guarded_stale hf)

theorem Rule.Mimics.guarded_plain (h : rule.Mimics e rule) : (rule.guarded e).Mimics e rule := by
  refine ⟨rfl, rfl, fun hset n c p => ?_⟩
  by_cases hf : p.Fresh n
  · rw [guarded_fresh hf]
    exact h.apply hset n c p
  · exact .inl (guarded_stale hf)

theorem Rule.Reduces.guarded (h : rule.Reduces) : (rule.guarded e).Reduces := by
  intro settle c p t hs hset hm
  have hrun : Stabilizes (fun k => rule.apply (settle k) t.id) c p (Reduced c p t) := h hs hset hm
  refine ⟨fun k => ?_, fun hp => ?_⟩
  · simpa only [EndsIn, guarded_fresh hs.fresh] using hrun.ends k
  · simpa only [guarded_fresh hs.fresh] using hrun.stable hp

end Guarded

namespace Engine

variable {p : Plan} {t : Tree}

/-- Rules that look at what is remembered find it up to date, whatever the budget. -/
theorem settle_guarded {table : RuleTable} (hreduces : ∀ rule ∈ table, rule.Reduces)
    (hmimics : ∀ e, ∀ rule ∈ table, rule.Mimics e rule) (hp : p.Acyclic) (hs : Standing p t) (e : Fault) (c : Context)
    (fuel : Nat) (seen : List SubtreeKey) (place : Option (NodeId × Nat)) :
    settle (table.map (Rule.guarded e)) fuel seen t.id place c p = settle table fuel seen t.id place c p := by
  have hguarded (e : Fault) : ∀ rule ∈ table.map (Rule.guarded e), rule.Reduces :=
    List.forall_mem_map.mpr fun rule hr => Rule.Reduces.guarded (hreduces rule hr)
  have hother (e e' : Fault) : List.Forall₂ (Rule.Mimics e) (table.map (Rule.guarded e)) (table.map (Rule.guarded e')) :=
    List.forall₂_map_left_iff.mpr (List.forall₂_map_right_iff.mpr (List.forall₂_same.mpr fun rule hr =>
      (hmimics e rule hr).guarded_other))
  have hself (e e' : Fault) : List.Forall₂ (Rule.Mimics e) (table.map (Rule.guarded e')) (table.map (Rule.guarded e')) :=
    List.forall₂_same.mpr (List.forall_mem_map.mpr fun rule hr => (hmimics e rule hr).guarded)
  have hplain (e : Fault) : List.Forall₂ (Rule.Mimics e) (table.map (Rule.guarded e)) table :=
    List.forall₂_map_left_iff.mpr (List.forall₂_same.mpr fun rule hr => (hmimics e rule hr).guarded_plain)
  -- With a large budget, a run that would stop for want of one does not stop at a rule.
  have hstable : Stabilizes (fun k => settle (table.map (Rule.guarded .outOfFuel)) k seen t.id place) c p (Lowered c p t) :=
    settle_stabilizes (hguarded .outOfFuel) hs
  obtain ⟨n, r, hr, -, hm⟩ := hstable.stable hp
  obtain ⟨e', he', hne⟩ : ∃ e', e' ≠ .outOfFuel ∧ r ≠ .error e' := by
    by_cases hr : r = .error .malformed
    · exact ⟨.noAncestor, nofun, by rw [hr]; nofun⟩
    · exact ⟨.malformed, nofun, hr⟩
  have hlarge : settle (table.map (Rule.guarded e')) (max n fuel) seen t.id place c p = r := by
    have hrun := hm (max n fuel) (le_max_left _ _)
    rcases settle_mimics (hother .outOfFuel e') (.inl rfl) c p with h | h
    · exact absurd (hrun.symm.trans h) hr
    · exact h.symm.trans hrun
  have hsmall : settle (table.map (Rule.guarded e')) fuel seen t.id place c p ≠ .error e' := by
    rcases settle_mimics (hself .outOfFuel e') (.inr ⟨rfl, le_max_right n fuel⟩) c p with h | h
    · rw [h]
      exact fun heq => he' (Except.error.inj heq).symm
    · rwa [h, hlarge]
  rw [← (settle_mimics (hplain e') (.inl rfl) c p).resolve_left hsmall,
    (settle_mimics (hother e' e) (.inl rfl) c p).resolve_left hsmall]

/-- What a plan remembers of its tree is up to date after a pass if it was before, and in between it is so below every node
    that a rule is applied to: a run that would stop at the first rule that finds it otherwise is the same run. -/
theorem pass_fresh (h : Rooted p t) (fuel : Nat) (options : Options) (group : RuleGroup) :
    (∀ e c, settle ((group.enabledRules options.disabledRules).map (Rule.guarded e)) fuel [] p.root none c p =
      settle (group.enabledRules options.disabledRules) fuel [] p.root none c p) ∧
    Ends (pass fuel options group) p fun _ p' => p'.Fresh p'.root := by
  have hreduces : ∀ rule ∈ group.enabledRules options.disabledRules, rule.Reduces := fun rule hr =>
    group.rules_reduce rule (List.mem_filter.mp hr).1
  have hmimics (e : Fault) : ∀ rule ∈ group.enabledRules options.disabledRules, rule.Mimics e rule := fun rule hr =>
    group.rules_mimic e rule (List.mem_filter.mp hr).1
  have hroot := h.root
  refine ⟨fun e c => ?_, ?_⟩
  · rw [hroot]
    exact settle_guarded hreduces hmimics h.acyclic h.standing e c fuel [] none
  · refine (pass_ends_of (R := fun n _ p' => ∃ t', t'.id = n ∧ Standing p' t') (fun _ _ => ⟨t, hroot.symm, h.standing⟩)
      fun stats _ => ?_).mono ?_
    · rw [hroot]
      exact ((settle_stabilizes hreduces h.standing).ends fuel).mono fun _ _ _ ⟨t', hid, hl⟩ => ⟨t', hid, hl.standing h.standing⟩
    · rintro _ _ ⟨-, n, c, p₁, log, ⟨t', rfl, hs⟩, -, rfl⟩
      exact (hs.still (.of_nodes rfl (Nat.le_refl _)) : Standing { p₁ with root := t'.id } t').fresh

theorem pass_fresh_stacked : Rooted stacked stackedTree ∧
    (∀ e c, settle ((RuleGroup.project.enabledRules []).map (Rule.guarded e)) 100 [] 10 none c stacked =
      settle (RuleGroup.project.enabledRules []) 100 [] 10 none c stacked) ∧
    Reaches (pass 100 .standard .project) stacked fun o p' => o.changed = true ∧ p'.Fresh p'.root := by
  obtain ⟨hsame, hends⟩ := pass_fresh stacked_rooted 100 .standard .project
  exact ⟨stacked_rooted, hsame, hends.reaches (by decide +kernel)⟩

end Engine

end Planwright
