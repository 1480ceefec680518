import Planwright.Engine.Pass
import Planwright.Proofs.Rule.Settling

/-! Every run ends. Settling a tree comes down in rank, so that from some budget on a run ends in one and the
    same way, which is not for want of a budget. -/

namespace Planwright.Engine

open Run Planwright.Tree Plan Outline

variable {c c' : Context} {p p' : Plan} {t : Tree} {cs : List Tree} {i : Nat}
variable {n : NodeId} {c₀ : Context} {p₀ : Plan} {t' : Tree}

/-! ### Around the rules -/

theorem catchUp_halts (hs : Standing p t) : HaltsIn (catchUp t.id) c p fun _ c' p' => c' = c ∧ Lowered c p t t.id c p' := by
  refine .get ?_
  dsimp only
  split
  · refine .step (info_halts t.id p) fun i p₁ ⟨hk, _⟩ => ?_
    have hs₁ := hs.still hk
    split
    · refine .get (.step (renameSubtree_halts hs₁.holds hs₁.ids) fun _ p₂ ⟨t', hr, hh, hk₂⟩ => .pure ⟨rfl, t', hr.id, ?_⟩)
      exact (hs.lowers.still hk rfl).trans ⟨.of_alike hs.wellFormed hs.ids hr.alike hr.ids hk₂, hh⟩
    · exact .pure ⟨rfl, t, rfl, hs.lowers.still hk rfl⟩
  · exact .pure ⟨rfl, t, rfl, hs.lowers⟩

theorem enter_halts (hs : Standing p t) : HaltsIn (enter t.id) c p fun _ c' p' => Lowered c p t t.id c' p' := by
  have rest : ∀ c', c'.steps = c.steps → HaltsIn (catchUp t.id) c' p fun _ c' p' => Lowered c p t t.id c' p' := fun c₁ hc₁ => by
    refine (catchUp_halts hs).mono fun _ c₂ p₂ ⟨hc₂, t', hid, hl⟩ => ⟨t', hid, ?_⟩
    subst hc₂
    exact (hs.lowers.still (.refl _ _) hc₁).trans hl
  refine .read hs.holds.kind_run (.ite (fun _ => ?_) fun _ => rest c rfl)
  exact .bind (R := fun _ c' p' => c'.steps = c.steps ∧ p' = p) (.modify ⟨rfl, rfl⟩) fun _ c₁ p₁ ⟨hc, hp⟩ => hp ▸ rest c₁ hc

theorem leave_halts : HaltsIn (leave n) c p fun _ c' p' => c'.steps = c.steps ∧ Keeps ∅ p p' := by
  refine .step (kind_looks p) fun k p₁ hs => ?_
  split
  · refine .get ?_
    split
    · exact .throw nofun
    · split
      · exact .bind (R := fun _ _ _ => False) (.throw nofun) fun _ _ _ h => h.elim
      · exact .modify ⟨rfl, hs.keeps⟩
  · exact .pure ⟨rfl, hs.keeps⟩

theorem record_halts {rule : Rule} : HaltsIn (record rule n) c p fun _ c' p' => c.steps ≤ c'.steps ∧ Keeps ∅ p p' :=
  .bind (R := fun _ c' p' => c.steps ≤ c'.steps ∧ p' = p) (.modify ⟨Nat.le_succ _, rfl⟩) fun _ _ p₁ ⟨hc, hp⟩ =>
    .step (recompute_looks p₁) fun _ _ hs => .pure ⟨hc, hp ▸ hs.keeps⟩

theorem stop_halts (h : Lowers c₀ p₀ t c p t') :
    HaltsIn (do leave t'.id; return t'.id) c p (Lowered c₀ p₀ t) :=
  .bind leave_halts fun _ _ _ ⟨hc, hk⟩ => .pure ⟨t', rfl, h.still hk hc⟩

theorem markSettled_stop_halts {key : SubtreeKey} (h : Lowers c₀ p₀ t c p t') :
    HaltsIn (do markSettled key; leave t'.id; return t'.id) c p (Lowered c₀ p₀ t) :=
  .bind (R := fun _ c' p' => c'.steps = c.steps ∧ p' = p) (.modify ⟨rfl, rfl⟩) fun _ _ _ ⟨hc, hp⟩ =>
    stop_halts (h.still (hp ▸ .refl _ _) hc)

/-! ### The children of a node -/

/-- Some children of a node have been settled. -/
structure Underway (c : Context) (p : Plan) (t : Tree) (c' : Context) (p' : Plan) (cs : List Tree) : Prop where
  shows : p'.Shows t.id t.op cs
  descends : Descends c p t c' p' (.node t.id t.op cs)

section Children
variable {settle : Nat → Nat → NodeId → RuleM NodeId}

theorem Underway.step (hset : ∀ i, SettlesBelow (fun k => settle k i) t) (hs : Standing p t) (h : Underway c p t c' p' cs)
    (hi : i < cs.length) : Stabilizes (fun k => settleChild (settle k) t.id i) c' p' fun _ c'' p'' =>
      ∃ cs', cs'.length = cs.length ∧ Underway c p t c'' p'' cs' := by
  have hd : cs[i]? = some cs[i] := List.getElem?_eq_getElem hi
  have hmem : cs[i] ∈ cs := List.getElem_mem hi
  have hn := h.descends.parts.nodup hs.ids
  have hstanding : Standing p' cs[i] :=
    ⟨h.shows.below _ hmem, nodup_ids_of_mem hn hmem, (wellFormed_node.mp h.descends.wellFormed).2 _ hmem⟩
  have hrank := lt_of_lt_of_le (rank_child hmem) h.descends.sinks.rank_le
  refine .read (h.shows.child_run hd) (.bind (hset i hstanding hrank) ?_)
  rintro _ c'' p'' ⟨d', rfl, hl⟩
  have hset {p₃ : Plan} (hk : Keeps {t.id} p'' p₃) := hl.toDescends.set h.descends.wellFormed h.shows.ids_lt hd hk
  have hn' := (hset (.refl _ _)).parts.nodup hn
  refine ((replaceChild_halts h.shows hn hd hl.keeps hl.holds hn').mono fun _ c₃ p₃ ⟨hc, hk, hshows⟩ => ?_).stabilizes
  subst hc
  exact ⟨cs.set i d', List.length_set, hshows, h.descends.trans (hset hk)⟩

theorem Underway.run (hset : ∀ i, SettlesBelow (fun k => settle k i) t) (hs : Standing p t) (h : Underway c p t c' p' cs) {m : Nat}
    (hm : i + m = cs.length) : Stabilizes (fun k => (List.range' i m).forM (settleChild (settle k) t.id)) c' p' fun _ c'' p'' =>
      ∃ cs', Underway c p t c'' p'' cs' := by
  induction m generalizing i c' p' cs with
  | zero => exact (HaltsIn.pure ⟨cs, h⟩).stabilizes
  | succ m ih =>
    simp only [List.range'_succ, List.forM]
    refine .bind (h.step hset hs (by omega)) ?_
    rintro _ c₁ p₁ ⟨cs₁, hlen, h₁⟩
    exact ih h₁ (by omega)

end Children

theorem Underway.refresh (hs : Standing p t) (h : Underway c p t c' p' cs) :
    HaltsIn (refresh t.id) c' p' fun _ c'' p'' => Lowered c p t t.id c'' p'' := by
  have hn := h.descends.parts.nodup hs.ids
  refine .get (.step (renameNode_halts h.shows (not_mem_of_child hn)) fun _ p₁ ⟨op', ho, hk, hshows⟩ => ?_)
  refine .step (hshows.recompute_halts (not_mem_of_child hn)) fun _ p₂ ⟨hk₂, hh⟩ => .pure ⟨.node t.id op' cs, rfl, ?_, hh⟩
  have halike : Alike (.node t.id t.op cs) (.node t.id op' cs) :=
    .node ho.kind (fun ks hf => (ho.fits ks).trans hf) (List.forall₂_same.mpr fun _ _ => .refl _)
  refine h.descends.trans (.of_alike h.descends.wellFormed hn halike (by rw [ids_node, ids_node]) ?_)
  refine (hk.and_then hk₂).mono fun x hx _ => ?_
  obtain rfl : x = t.id := hx
  exact id_mem_ids (.node t.id t.op cs)

/-! ### Rules -/

theorem reduced_after {c₁ : Context} {p₁ : Plan} {out : Option NodeId} (hs : Standing p t) (hc : c₁.steps = c.steps) (hk : Keeps ∅ p p₁)
    (h : Reduced c₁ p₁ t out c' p') : Reduced c p t out c' p' := by
  cases out with
  | none => exact ⟨h.1.trans hc, hk.and_then h.2⟩
  | some n =>
    obtain ⟨t', hid, hl, hf⟩ := h
    exact ⟨t', hid, (hs.lowers.still hk hc).trans hl, hf⟩

theorem tryRules_stabilizes {settle : Nat → NodeId → RuleM NodeId} {rules : List Rule} (hrules : ∀ rule ∈ rules, rule.Reduces)
    (hset : SettlesBelow settle t) (hs : Standing p t) : Stabilizes (fun k => tryRules (settle k) t.id rules) c p (Reduced c p t) := by
  induction rules generalizing c p with
  | nil => exact (HaltsIn.pure ⟨rfl, .refl _ _⟩).stabilizes
  | cons rule rules ih =>
    obtain ⟨hrule, hrest⟩ := List.forall_mem_cons.mp hrules
    simp only [tryRules]
    refine .getPlan (.ite (fun _ => ih hrest hs) fun hm => ?_)
    have hm : rule.pattern.holds p t.id := by simpa using hm
    refine .after (R := fun _ c' p' => c'.steps = c.steps ∧ p' = p) (.modify ⟨rfl, rfl⟩) fun _ c₁ p₁ ⟨hc, hp⟩ => ?_
    subst hp
    refine .bind (hrule hs hset hm) fun out c₂ p₂ hout => ?_
    cases out with
    | none => exact (ih hrest (hs.still hout.2)).mono fun _ _ _ h => reduced_after hs (hout.1.trans hc) hout.2 h
    | some n =>
      obtain ⟨t', rfl, hl, hf⟩ := hout
      refine (HaltsIn.bind record_halts fun _ c₃ p₃ ⟨hc₃, hk₃⟩ => .pure ⟨t', rfl, ?_, hf⟩).stabilizes
      -- A step was made, and the tree stands below.
      exact { hl with
        holds := hk₃.still hl.holds
        keeps := hl.keeps.and_then hk₃
        steps := hc ▸ hl.steps.trans hc₃
        falls := fun _ => hf }

theorem settle_stabilizes {table : RuleTable} (hrules : ∀ rule ∈ table, rule.Reduces) {seen : List SubtreeKey}
    {place : Option (NodeId × Nat)} (hs : Standing p t) :
    Stabilizes (fun k => settle table k seen t.id place) c p (Lowered c p t) := by
  induction hrank : t.outline.rank using WellFoundedLT.induction generalizing c p t seen place with
  | ind r ih =>
    subst hrank
    have hset {t₁ : Tree} (hle : t₁.outline.rank ≤ t.outline.rank) (place : Option (NodeId × Nat)) :
        SettlesBelow (fun k m => settle table k [] m place) t₁ := fun hs' hlt => ih _ (lt_of_lt_of_le hlt hle) hs' rfl
    refine .succ .throw ?_
    simp only [settle]
    refine .after (enter_halts hs) ?_
    rintro _ c₁ p₁ ⟨t₁, hid₁, hl₁⟩
    rw [← hid₁]
    refine .after (keyOf_quiet c₁ p₁) ?_
    rintro key c₂ p₂ ⟨rfl, h₂⟩
    have hl₂ := hl₁.still h₂.keeps rfl
    have hs₂ := hl₂.standing hs
    refine .get (.ite (fun _ => (stop_halts hl₂).stabilizes) fun _ => .ite (fun _ => (markSettled_stop_halts hl₂).stabilizes) fun _ => ?_)
    have hstart : Underway c₂ p₂ t₁ c₂ p₂ t₁.children := ⟨hs₂.holds.shows, by
      cases t₁
      exact hs₂.lowers.toDescends⟩
    refine .read hs₂.holds.children_run ?_
    simp only [List.range_eq_range', List.length_map]
    refine .bind (hstart.run (fun i => hset hl₂.sinks.rank_le (some (t₁.id, i))) hs₂ (Nat.zero_add _)) ?_
    rintro _ c₃ p₃ ⟨cs, h₃⟩
    refine .after (h₃.refresh hs₂) ?_
    rintro _ c₄ p₄ ⟨t₄, hid₄, hl₄⟩
    have hl₄ := hl₂.trans hl₄
    have hs₄ := hl₄.standing hs
    rw [← hid₄]
    refine .read hs₄.holds.kind_run ?_
    have hforKind : ∀ rule ∈ table.forKind t₄.kind, rule.Reduces := fun rule hr => hrules rule (List.mem_filter.mp hr).1
    refine .bind (tryRules_stabilizes hforKind (hset hl₄.sinks.rank_le none) hs₄) fun out c₅ p₅ hout => ?_
    cases out with
    | none =>
      have hl₅ := hl₄.still hout.2 hout.1
      refine (HaltsIn.bind (keyOf_quiet c₅ p₅) ?_).stabilizes
      rintro key' _ p₆ ⟨rfl, h₆⟩
      exact markSettled_stop_halts (hl₅.still h₆.keeps rfl)
    | some n =>
      obtain ⟨t₅, rfl, hl₅, hf⟩ := hout
      refine .after leave_halts ?_
      rintro _ c₆ p₆ ⟨hc₆, hk₆⟩
      have hl₆ := (hl₄.trans hl₅).still hk₆ hc₆
      have hlt : t₅.outline.rank < t.outline.rank := lt_of_lt_of_le hf.rank_lt hl₄.sinks.rank_le
      refine (ih _ hlt (hl₆.standing hs) rfl).mono ?_
      rintro m c₇ p₇ ⟨t₇, hid₇, hl₇⟩
      exact ⟨t₇, hid₇, hl₆.trans hl₇⟩

/-! ### Passes -/

/-- A plan whose tree a run can go on with. -/
structure Rooted (p : Plan) (t : Tree) : Prop where
  acyclic : p.Acyclic
  root : p.root = t.id
  standing : Standing p t

/-- From some budget on, the run ends in one and the same way, which is not for want of a budget. -/
def Ceases {α : Type} (f : Nat → PlanM α) (p : Plan) (Q : α → Plan → Prop) : Prop :=
  ∃ n r, r ≠ .error .outOfFuel ∧ (∀ a p', r = .ok (a, p') → Q a p') ∧ ∀ m, n ≤ m → f m p = r

section Ceases
variable {α β : Type} {f : Nat → PlanM α} {g : Nat → α → PlanM β} {P : α → Plan → Prop} {Q : β → Plan → Prop}

theorem Ceases.pure {a : α} (h : P a p) : Ceases (fun _ => pure a) p P :=
  ⟨0, .ok (a, p), nofun, fun _ _ heq => by cases heq; exact h, fun _ _ => rfl⟩

theorem Ceases.bind (hf : Ceases f p P) (hg : ∀ a p', P a p' → Ceases (fun n => g n a) p' Q) :
    Ceases (fun n => f n >>= g n) p Q := by
  obtain ⟨n, r, hr, hP, hm⟩ := hf
  have hrun : ∀ m, n ≤ m → (f m >>= g m) p = (r >>= fun x => g m x.1 x.2 : Except Fault (β × Plan)) := fun m hle => by
    rw [bind_run, hm m hle]
  cases r with
  | error e => exact ⟨n, .error e, fun h => hr (by rw [Except.error.inj h]), nofun, hrun⟩
  | ok r =>
    obtain ⟨n', r', hr', hQ, hm'⟩ := hg r.1 r.2 (hP r.1 r.2 rfl)
    exact ⟨max n n', r', hr', hQ, fun m hle => (hrun m (by omega)).trans (hm' m (by omega))⟩

theorem Ceases.of_run {x : PlanM α} {a : α} (hx : x p = .ok (a, p')) (h : P a p') : Ceases (fun _ => x) p P :=
  ⟨0, .ok (a, p'), nofun, fun _ _ heq => by cases heq; exact h, fun _ _ => hx⟩

theorem ceases_of_stabilizes {f : Nat → RuleM α} {R : α → Context → Plan → Prop} (hp : p.Acyclic) (h : Stabilizes f c p R) :
    Ceases (fun n => (f n).run c) p fun out p' => p'.Acyclic ∧ R out.1 out.2 p' := by
  obtain ⟨n, r, hr, hac, hm⟩ := h.stable hp
  exact ⟨n, r, hr, fun out p' hout => ⟨hac out.1 out.2 p' hout, h.ends n out.1 out.2 p' ((hm n le_rfl).trans hout)⟩, hm⟩

end Ceases

/-- A tree that stands no higher than another, and below it if anything was changed. -/
def Passed (t : Tree) (out : Outcome) (p' : Plan) : Prop :=
  ∃ t', Rooted p' t' ∧ t'.outline.rank ≤ t.outline.rank ∧ (out.changed = true → t'.outline.rank < t.outline.rank)

theorem pass_ceases (options : Options) (group : RuleGroup) (h : Rooted p t) :
    Ceases (fun fuel => pass fuel options group) p (Passed t) := by
  have hs := h.standing
  have htable : ∀ rule ∈ group.enabledRules options.disabledRules, rule.Reduces := fun rule hr =>
    group.rules_reduce rule (List.mem_filter.mp hr).1
  have htree : tree p.root p = .ok (t, p) := h.root ▸ hs.holds.tree_run
  refine .bind (.of_run (P := fun q p' => q = p ∧ p' = p) rfl ⟨rfl, rfl⟩) fun q p₁ ⟨hq, hp₁⟩ => ?_
  subst hq hp₁
  refine .bind (.of_run (P := fun s p' => s = t ∧ p' = p₁) htree ⟨rfl, rfl⟩) fun s p₂ ⟨hs', hp₂⟩ => ?_
  subst hs' hp₂
  dsimp only
  split
  · exact .pure ⟨s, h, le_rfl, nofun⟩
  · rw [h.root]
    refine .bind (ceases_of_stabilizes h.acyclic (settle_stabilizes htable hs)) fun out p₃ ⟨hp₃, t', hid, hl⟩ => ?_
    have hk : Keeps ∅ p₃ { p₃ with root := out.1 } := .of_nodes rfl (Nat.le_refl _)
    refine .bind (.of_run (P := fun _ p' => p' = { p₃ with root := out.1 }) rfl rfl) fun _ p₄ hp₄ => .pure ?_
    subst hp₄
    refine ⟨t', ⟨hk.acyclic hp₃, hid.symm, (hl.standing hs).still hk⟩, hl.sinks.rank_le, fun hchanged => ?_⟩
    exact (hl.falls (of_decide_eq_true hchanged)).rank_lt

theorem loop_stops (options : Options) (stats : Stats) (log : List String) {last : Outcome}
    (hno : (last.changed && last.stats.nullabilityRequired) = false) :
    ∃ r, r ≠ .error .outOfFuel ∧ ∀ m k, 1 ≤ k → optimize.loop m options k stats log last p = r := by
  refine ⟨.ok (⟨stats.steps > 0, stats, log⟩, p), nofun, fun m k hk => ?_⟩
  obtain ⟨k, rfl⟩ := Nat.exists_eq_add_of_le' hk
  rw [optimize.loop, hno]
  rfl

theorem loop_ceases (options : Options) (stats : Stats) (log : List String) (last : Outcome) (h : Rooted p t) :
    ∃ n r, r ≠ .error .outOfFuel ∧ ∀ m, n ≤ m → ∀ k, n ≤ k → optimize.loop m options k stats log last p = r := by
  induction hrank : t.outline.rank using WellFoundedLT.induction generalizing p t stats log last with
  | ind r ih =>
    subst hrank
    cases hmore : last.changed && last.stats.nullabilityRequired with
    | false =>
      obtain ⟨r, hr, hrun⟩ := loop_stops (p := p) options stats log hmore
      exact ⟨1, r, hr, fun m _ k hk => hrun m k hk⟩
    | true =>
      obtain ⟨n, out, hout, hpassed, hm⟩ := pass_ceases options .nullability h
      have hrun : ∀ m, n ≤ m → ∀ k, optimize.loop m options (k + 1) stats log last p =
          (out >>= fun x => optimize.loop m options k (stats.merge x.1.stats) (log ++ x.1.log) x.1 x.2 : Except Fault _) :=
        fun m hle k => by
          rw [optimize.loop, hmore, ← hm m hle]
          rfl
      have hnext : ∃ n' r', r' ≠ .error .outOfFuel ∧ ∀ m, n ≤ m → n' ≤ m → ∀ k, n' ≤ k →
          optimize.loop m options (k + 1) stats log last p = r' := by
        cases out with
        | error e => exact ⟨0, .error e, fun h => hout (by rw [Except.error.inj h]), fun m hle _ k _ => hrun m hle k⟩
        | ok x =>
          obtain ⟨t', hr', -, hfalls⟩ := hpassed x.1 x.2 rfl
          cases hchanged : x.1.changed with
          | true =>
            obtain ⟨n', r', hr', hm'⟩ := ih _ (hfalls hchanged) (stats.merge x.1.stats) (log ++ x.1.log) x.1 hr' rfl
            exact ⟨n', r', hr', fun m hle hle' k hk => (hrun m hle k).trans (hm' m hle' k hk)⟩
          | false =>
            obtain ⟨r', hr', hm'⟩ := loop_stops (p := x.2) options (stats.merge x.1.stats) (log ++ x.1.log)
              (show (x.1.changed && _) = false by rw [hchanged, Bool.false_and])
            exact ⟨1, r', hr', fun m hle _ k hk => (hrun m hle k).trans (hm' m k hk)⟩
      obtain ⟨n', r', hr', hm'⟩ := hnext
      refine ⟨max n n' + 1, r', hr', fun m hle k hk => ?_⟩
      obtain ⟨k, rfl⟩ := Nat.exists_eq_add_of_le' (Nat.le_trans (Nat.le_add_left 1 _) hk)
      exact hm' m (by omega) (by omega) k (by omega)

theorem optimize_ceases (options : Options) (h : Rooted p t) : Ceases (fun fuel => optimize fuel options) p fun _ _ => True := by
  obtain ⟨n, out, hout, hpassed, hm⟩ := pass_ceases options .all h
  have hrun : ∀ m, n ≤ m → optimize m options p =
      (out >>= fun x => optimize.loop m options m x.1.stats x.1.log x.1 x.2 : Except Fault _) := fun m hle => by
    rw [← hm m hle]
    rfl
  cases out with
  | error e => exact ⟨n, .error e, fun h => hout (by rw [Except.error.inj h]), fun _ _ _ => trivial, hrun⟩
  | ok x =>
    obtain ⟨t', hr', -⟩ := hpassed x.1 x.2 rfl
    obtain ⟨n', r', hr', hm'⟩ := loop_ceases options x.1.stats x.1.log x.1 hr'
    exact ⟨max n n', r', hr', fun _ _ _ => trivial, fun m hle => (hrun m (by omega)).trans (hm' m (by omega) m (by omega))⟩

end Planwright.Engine
