import Planwright.Proofs.Engine.Frame
import Planwright.Proofs.Rule.Stats

/-! What a run counts. A rule is counted when it matches, and again when it has changed the tree. From one point
    of a run to another the steps grow as the changes do, and every rule gains at least as many matches as
    changes. -/

namespace Planwright

open Run Plan

variable {required : String → Bool} {s : Stats} {flag : Bool}

/-- A flag is raised when a rule that requires it changes the tree. -/
def Flagged (required : String → Bool) (s s' : Stats) (flag flag' : Bool) : Prop :=
  flag' = true ↔ flag = true ∨ ∃ n, required n = true ∧ s.changedBy n < s'.changedBy n

/-- What is counted from one point of a run with rules of a table to another. -/
structure Counts (table : RuleTable) (c c' : Context) : Prop where
  listed : ∀ r' ∈ c'.stats.rules, (∃ r ∈ c.stats.rules, r.name = r'.name) ∨ ∃ rule ∈ table, rule.name = r'.name
  steps : c'.steps + c.stats.sum (·.changed) = c.steps + c'.stats.sum (·.changed)
  changed : ∀ n, c.stats.changedBy n ≤ c'.stats.changedBy n
  matched : ∀ n, c.stats.matchedBy n + c'.stats.changedBy n ≤ c'.stats.matchedBy n + c.stats.changedBy n
  pruning : Flagged Rule.requiresPruning c.stats c'.stats c.pruningRequired c'.pruningRequired
  nullability : Flagged Rule.requiresNullability c.stats c'.stats c.nullabilityRequired c'.nullabilityRequired

theorem Flagged.refl : Flagged required s s flag flag :=
  ⟨.inl, fun h => h.elim id fun ⟨_, _, h⟩ => absurd h (lt_irrefl _)⟩

theorem Flagged.trans {s' s'' : Stats} {flag' flag'' : Bool} (h : Flagged required s s' flag flag')
    (h' : Flagged required s' s'' flag' flag'') (hle : ∀ n, s.changedBy n ≤ s'.changedBy n)
    (hle' : ∀ n, s'.changedBy n ≤ s''.changedBy n) : Flagged required s s'' flag flag'' := by
  unfold Flagged at *
  rw [h', h]
  constructor
  · rintro ((hf | ⟨n, hn, hlt⟩) | ⟨n, hn, hlt⟩)
    · exact .inl hf
    · exact .inr ⟨n, hn, hlt.trans_le (hle' n)⟩
    · exact .inr ⟨n, hn, (hle n).trans_lt hlt⟩
  · rintro (hf | ⟨n, hn, hlt⟩)
    · exact .inl (.inl hf)
    · rcases lt_or_eq_of_le (hle n) with hlt' | heq
      · exact .inl (.inr ⟨n, hn, hlt'⟩)
      · exact .inr ⟨n, hn, heq ▸ hlt⟩

theorem Flagged.of_change (name : String) :
    Flagged required s (s.recordChange name) flag (flag || required name) := by
  simp only [Flagged, Stats.recordChange, Stats.changedBy_add, Bool.or_eq_true]
  refine or_congr_right ⟨fun h => ⟨name, h, by simp⟩, fun ⟨n, hn, hlt⟩ => ?_⟩
  by_cases heq : name = n
  · exact heq ▸ hn
  · simp [heq] at hlt

namespace Counts

variable {table : RuleTable} {c c' c'' : Context}

theorem of_same (hs : c'.steps = c.steps) (ht : c'.stats = c.stats) (hp : c'.pruningRequired = c.pruningRequired)
    (hn : c'.nullabilityRequired = c.nullabilityRequired) : Counts table c c' where
  listed r hr := .inl ⟨r, ht ▸ hr, rfl⟩
  steps := by rw [hs, ht]
  changed n := by rw [ht]
  matched n := by rw [ht]
  pruning := by
    rw [ht, hp]
    exact .refl
  nullability := by
    rw [ht, hn]
    exact .refl

theorem trans (h : Counts table c c') (h' : Counts table c' c'') : Counts table c c'' where
  listed r hr := by
    rcases h'.listed r hr with ⟨r', hr', hn⟩ | hrule
    · rw [← hn]
      exact h.listed r' hr'
    · exact .inr hrule
  steps := by
    have := h.steps
    have := h'.steps
    omega
  changed n := (h.changed n).trans (h'.changed n)
  matched n := by
    have := h.matched n
    have := h'.matched n
    omega
  pruning := h.pruning.trans h'.pruning h.changed h'.changed
  nullability := h.nullability.trans h'.nullability h.changed h'.changed

theorem of_match {rule : Rule} (hr : rule ∈ table) : Counts table c { c with stats := c.stats.recordMatch rule.name } where
  listed r hmem := (Stats.name_of_mem_addTo hmem).symm.imp_right fun hn => ⟨rule, hr, hn⟩
  steps := by simp [Stats.recordMatch, Stats.changes_add]
  changed n := by simp [Stats.recordMatch, Stats.changedBy_add]
  matched n := by simp [Stats.recordMatch, Stats.changedBy_add, Stats.matchedBy_add]
  pruning := by simp [Flagged, Stats.recordMatch, Stats.changedBy_add]
  nullability := by simp [Flagged, Stats.recordMatch, Stats.changedBy_add]

theorem of_application {rule : Rule} (hr : rule ∈ table) (h : Counts table { c with stats := c.stats.recordMatch rule.name } c')
    (h' : Engine.Recorded rule c' c'') : Counts table c c'' := by
  have hrecord (n : String) : c'.stats.changedBy n ≤ (c'.stats.recordChange rule.name).changedBy n := by
    rw [Stats.recordChange, Stats.changedBy_add]
    exact Nat.le_add_right ..
  have hfirst := (of_match hr).trans h
  refine ⟨fun r hmem => ?_, ?_, fun n => ?_, fun n => ?_, ?_, ?_⟩
  · rw [h'.stats] at hmem
    rcases Stats.name_of_mem_addTo hmem with hn | ⟨r', hr', hn⟩
    · exact .inr ⟨rule, hr, hn⟩
    · rw [← hn]
      exact hfirst.listed r' hr'
  · have hsteps := hfirst.steps
    simp only [h'.steps, h'.stats, Stats.recordChange, Stats.changes_add]
    omega
  · rw [h'.stats]
    exact (hfirst.changed n).trans (hrecord n)
  · have hmatched := h.matched n
    simp only [Stats.recordMatch, Stats.changedBy_add, Stats.matchedBy_add] at hmatched
    simp only [h'.stats, Stats.recordChange, Stats.changedBy_add, Stats.matchedBy_add]
    split_ifs at * <;> omega
  · rw [h'.pruning, h'.stats]
    exact hfirst.pruning.trans (.of_change _) hfirst.changed hrecord
  · rw [h'.nullability, h'.stats]
    exact hfirst.nullability.trans (.of_change _) hfirst.changed hrecord

end Counts

namespace Engine

variable {group : RuleGroup} {options : Options} {log : List String}
variable {table : RuleTable} {n : NodeId}
variable {stats : Stats} {fuel : Nat} {p : Plan}

/-- Runs with rules of a table. -/
def counting (table : RuleTable) : Drift := ⟨Counts table, Counts.trans, fun _ _ _ => .of_same rfl rfl rfl rfl⟩

/-- Runs of which the counters tell. -/
def tallying (table : RuleTable) : Logic where
  Ok _ x _ _ := (counting table).Within x
  pure _ := .pure
  throw _ _ := .throw
  bind hx hf := .bind hx hf
  get hf := .get hf
  look _ hf := .plan hf
  modify h c _ := .modify (.of_same (h c).steps (h c).stats (h c).pruning (h c).nullability)
  catchUp := .get fun _ => .ite (.plan fun _ => .ite Drift.renameSubtree_within .pure) .pure
  refresh := .get fun _ => .plan fun _ => .plan fun _ => .pure

theorem tryRules_counts {settle : NodeId → RuleM NodeId} {rules : List Rule}
    (hrules : ∀ rule ∈ rules, rule ∈ table ∧ (counting table).Acts rule settle) : (counting table).Within (tryRules settle n rules) := by
  induction rules with
  | nil => exact .pure
  | cons rule rules ih =>
    have ih := ih fun rule hr => hrules rule (.tail _ hr)
    obtain ⟨hmem, hacts⟩ := hrules rule (.head _)
    intro c p
    refine .getPlan ?_
    split
    · exact ih c p
    rename_i hpattern
    refine .bind (R := fun _ c' p' => c' = { c with stats := c.stats.recordMatch rule.name } ∧ p' = p) (.modify ⟨rfl, rfl⟩)
      fun _ c₁ p₁ ⟨hc₁, hp⟩ => ?_
    subst hc₁ hp
    refine .bind (hacts (by simpa using hpattern)) fun out c₂ p₂ ⟨h₂, _⟩ => ?_
    cases out with
    | none => exact (ih c₂ p₂).mono fun _ _ _ h₃ => ((Counts.of_match hmem).trans h₂).trans h₃
    | some out => exact .bind record_recorded fun _ _ _ h₃ => .pure (Counts.of_application hmem h₂ h₃)

theorem settle_counts (htable : ∀ rule ∈ table, rule ∈ group.rules) (fuel : Nat) (n : NodeId) :
    (counting table).Within (settle table fuel [] n none) := by
  refine (tallying table).settle table table (fun hset n => ?_) (fun hset n k => tryRules_counts fun rule hr => ?_) fuel [] n none
  · exact Logic.children fun i => Drift.Within.plan fun m => .bind (hset i m) fun _ => .ite .lift .pure
  · have hr := List.mem_of_mem_filter hr
    exact ⟨hr, Drift.rules_act hset group rule (htable rule hr)⟩

/-- What a pass tells is consistent. The steps are those of the listed rules, which are enabled rules of the group in ascending
    order, none with more changes than matches; the tree is reported as changed if there was a step, and a flag is raised if a
    rule that requires it has changed the tree. -/
structure Consistent (options : Options) (group : RuleGroup) (out : Outcome) : Prop where
  sound : out.stats.Sound
  listed : ∀ r ∈ out.stats.rules, r.name ∉ options.disabledRules ∧ ∃ rule ∈ group.rules, rule.name = r.name
  changed : out.changed = true ↔ 0 < out.stats.steps
  pruning : out.stats.pruningRequired = true ↔ ∃ r ∈ out.stats.rules, Rule.requiresPruning r.name = true ∧ 0 < r.changed
  nullability : out.stats.nullabilityRequired = true ↔ ∃ r ∈ out.stats.rules, Rule.requiresNullability r.name = true ∧ 0 < r.changed

theorem raised_iff {required : String → Bool} {s s' : Stats} {flag' : Bool} (h : Flagged required s s' false flag')
    (hs : s.rules = []) : flag' = true ↔ ∃ r ∈ s'.rules, required r.name ∧ 0 < r.changed := by
  have hzero (n : String) : s.changedBy n = 0 := by simp [Stats.changedBy, Stats.sum, hs]
  simp only [Flagged, hzero, Bool.false_eq_true, false_or] at h
  rw [h]
  constructor
  · rintro ⟨n, hn, hpos⟩
    obtain ⟨r, hr, rfl, hr'⟩ := Stats.exists_of_changedBy_pos hpos
    exact ⟨r, hr, hn, hr'⟩
  · rintro ⟨r, hr, hn, hpos⟩
    exact ⟨r.name, hn, by rwa [Stats.changedBy, Stats.sum_name hr (·.changed)]⟩

theorem consistent_report (hstats : stats.rules = []) {c : Context}
    (h : Counts (group.enabledRules options.disabledRules) { Context.start options with stats } c) :
    Consistent options group (report c log) := by
  have hsum (f : RuleCount → Nat) : stats.sum f = 0 := by simp [Stats.sum, hstats]
  refine ⟨⟨?_, ?_, c.stats.ascending⟩, fun r hr => ?_, ?_, raised_iff h.pruning hstats, raised_iff h.nullability hstats⟩
  · have hsteps := h.steps
    simp only [hsum, Context.start] at hsteps
    simp only [report, Stats.sum] at hsteps ⊢
    omega
  · refine Stats.changed_le_iff.mpr fun n => ?_
    have hmatched := h.matched n
    simp only [Stats.matchedBy, Stats.changedBy, hsum, Nat.zero_add, Nat.add_zero] at hmatched
    exact hmatched
  · rcases h.listed r hr with ⟨r', hr', -⟩ | ⟨rule, hrule, hn⟩
    · simp [hstats] at hr'
    · obtain ⟨hmem, henabled⟩ := List.mem_filter.mp hrule
      exact ⟨by simpa [hn] using henabled, rule, hmem, hn⟩
  · simp [report]

theorem pass_consistent :
    Ends (pass fuel options group) p fun out _ => Consistent options group out := by
  refine (pass_ends_of (R := fun _ c _ => ∃ stats : Stats, stats.rules = [] ∧
    Counts (group.enabledRules options.disabledRules) { Context.start options with stats } c) (fun stats h => ?_) fun stats h => ?_).mono ?_
  · exact ⟨stats, h, .of_same rfl rfl rfl rfl⟩
  · exact (settle_counts (fun _ => List.mem_of_mem_filter) fuel p.root _ p).mono fun _ _ _ hc => ⟨stats, h, hc⟩
  · rintro _ _ ⟨-, root, c, p₁, log, ⟨stats, hstats, hc⟩, rfl, -⟩
    exact consistent_report hstats hc

theorem loop_sound {rounds : Nat} {last : Outcome}
    (h : stats.Sound) : Ends (optimize.loop fuel options rounds stats log last) p fun out _ => out.stats.Sound := by
  induction rounds generalizing stats log last p with
  | zero => exact .throw
  | succ rounds ih =>
    rw [optimize.loop]
    split
    · exact .bind pass_consistent fun next _ hnext => ih (h.merge hnext.sound)
    · exact .pure h

/-- The statistics of every pass are consistent, and so are the sums, the bounds and the order in those of an optimization, which are
    merged from all of its passes. -/
theorem statistics_consistent (fuel : Nat) (options : Options) (p : Plan) :
    (∀ group, Ends (pass fuel options group) p fun out _ => Consistent options group out) ∧
      Ends (optimize fuel options) p fun out _ => out.stats.Sound :=
  ⟨fun _ => pass_consistent, .bind pass_consistent fun _ _ hfirst => loop_sound hfirst.sound⟩

end Engine

end Planwright
