import Mathlib.Algebra.Ring.Int.Defs
import Mathlib.Data.List.Sort
import Planwright.Proofs.Rule.Stats

/-! Statistics merged. Whatever is merged into whatever first, the outcome is read off the runs that took part:
    sums of the counters, the largest tree, and a flag where one of them has it. -/

namespace Planwright.Stats

variable {s t : Stats}

/-- The rule has counters, which may be zero. -/
def Lists (s : Stats) (name : String) : Prop := ∃ r ∈ s.rules, r.name = name

theorem lists_merge {name : String} : (s.merge t).Lists name ↔ s.Lists name ∨ t.Lists name := by
  have hfold (ts rs : List RuleCount) :
      (∃ r ∈ addAll rs ts, r.name = name) ↔ (∃ r ∈ rs, r.name = name) ∨ ∃ r ∈ ts, r.name = name := by
    induction ts generalizing rs with
    | nil => simp [addAll]
    | cons t ts ih =>
      rw [addAll, List.foldl_cons, ← addAll, ih, exists_mem_addTo, List.exists_mem_cons_iff, or_assoc, or_left_comm]
  exact hfold t.rules s.rules

/-- Counters in ascending order are known by the rules that have them and by their sums. -/
theorem rules_eq (hnames : ∀ n, s.Lists n ↔ t.Lists n)
    (hmatched : ∀ n, s.matchedBy n = t.matchedBy n) (hchanged : ∀ n, s.changedBy n = t.changedBy n) : s.rules = t.rules := by
  have hsub {s t : Stats} (hnames : ∀ n, s.Lists n → t.Lists n)
      (hmatched : ∀ n, s.matchedBy n = t.matchedBy n) (hchanged : ∀ n, s.changedBy n = t.changedBy n) :
      ∀ r ∈ s.rules, r ∈ t.rules := by
    intro r hr
    obtain ⟨r', hr', hname⟩ := hnames r.name ⟨r, hr, rfl⟩
    have hm : r.matched = r'.matched := by
      rw [← sum_name hr (·.matched), ← sum_name hr' (·.matched), hname]
      exact hmatched r.name
    have hc : r.changed = r'.changed := by
      rw [← sum_name hr (·.changed), ← sum_name hr' (·.changed), hname]
      exact hchanged r.name
    obtain ⟨n, m, c⟩ := r
    obtain ⟨n', m', c'⟩ := r'
    obtain rfl : n' = n := hname
    obtain rfl : m = m' := hm
    obtain rfl : c = c' := hc
    exact hr'
  have : Std.Irrefl fun r r' : RuleCount => r.name < r'.name := ⟨fun r => lt_irrefl r.name⟩
  have : Std.Antisymm fun r r' : RuleCount => r.name < r'.name := ⟨fun r r' h h' => absurd h' h.asymm⟩
  refine List.Pairwise.eq_of_mem_iff s.ascending t.ascending fun r => ⟨?_, ?_⟩
  · exact hsub (fun n => (hnames n).mp) hmatched hchanged r
  · exact hsub (fun n => (hnames n).mpr) (fun n => (hmatched n).symm) (fun n => (hchanged n).symm) r

/-! ### Runs that took part -/

/-- What is read off the runs that took part in a merge. -/
structure Totals (ts : List Stats) (s : Stats) : Prop where
  steps : s.steps = (ts.map (·.steps)).sum
  nodeCount_mem : ∃ t ∈ ts, t.nodeCount = s.nodeCount
  nodeCount_ge : ∀ t ∈ ts, t.nodeCount ≤ s.nodeCount
  pruning : s.pruningRequired = ts.any (·.pruningRequired)
  nullability : s.nullabilityRequired = ts.any (·.nullabilityRequired)
  lists : ∀ n, s.Lists n ↔ ∃ t ∈ ts, t.Lists n
  matched : ∀ n, s.matchedBy n = (ts.map (·.matchedBy n)).sum
  changed : ∀ n, s.changedBy n = (ts.map (·.changedBy n)).sum
  ascending : s.Ascending

/-- The outcome of a merge, but for the group and whether the run was skipped. -/
structure Agrees (s t : Stats) : Prop where
  steps : s.steps = t.steps
  nodeCount : s.nodeCount = t.nodeCount
  pruning : s.pruningRequired = t.pruningRequired
  nullability : s.nullabilityRequired = t.nullabilityRequired
  rules : s.rules = t.rules

namespace Totals

variable {ss ts : List Stats}

theorem single (s : Stats) : Totals [s] s := by
  constructor
  case ascending => exact s.ascending
  all_goals simp

theorem perm (h : Totals ts s) (hp : ts.Perm ss) : Totals ss s where
  steps := h.steps.trans (hp.map _).sum_eq
  nodeCount_mem := h.nodeCount_mem.imp fun t ⟨ht, hn⟩ => ⟨hp.mem_iff.mp ht, hn⟩
  nodeCount_ge t ht := h.nodeCount_ge t (hp.mem_iff.mpr ht)
  pruning := by rw [h.pruning, hp.any_eq]
  nullability := by rw [h.nullability, hp.any_eq]
  lists n := (h.lists n).trans (exists_congr fun t => and_congr_left' hp.mem_iff)
  matched n := (h.matched n).trans (hp.map _).sum_eq
  changed n := (h.changed n).trans (hp.map _).sum_eq
  ascending := h.ascending

theorem merge (hs : Totals ss s) (ht : Totals ts t) : Totals (ss ++ ts) (s.merge t) where
  steps := by
    rw [List.map_append, List.sum_append, ← hs.steps, ← ht.steps]
    rfl
  nodeCount_mem := by
    obtain ⟨x, hx, hxs⟩ := hs.nodeCount_mem
    obtain ⟨y, hy, hyt⟩ := ht.nodeCount_mem
    rcases max_choice s.nodeCount t.nodeCount with h | h
    · exact ⟨x, List.mem_append_left _ hx, hxs.trans h.symm⟩
    · exact ⟨y, List.mem_append_right _ hy, hyt.trans h.symm⟩
  nodeCount_ge x hx := by
    rcases List.mem_append.mp hx with hx | hx
    · exact (hs.nodeCount_ge x hx).trans (le_max_left _ _)
    · exact (ht.nodeCount_ge x hx).trans (le_max_right _ _)
  pruning := by
    rw [List.any_append, ← hs.pruning, ← ht.pruning]
    rfl
  nullability := by
    rw [List.any_append, ← hs.nullability, ← ht.nullability]
    rfl
  lists n := by
    rw [lists_merge, hs.lists, ht.lists]
    simp only [List.mem_append, or_and_right, exists_or]
  matched n := by rw [matchedBy_merge, hs.matched, ht.matched, List.map_append, List.sum_append]
  changed n := by rw [changedBy_merge, hs.changed, ht.changed, List.map_append, List.sum_append]
  ascending := (s.merge t).ascending

theorem agrees (hs : Totals ts s) (ht : Totals ts t) : Agrees s t where
  steps := hs.steps.trans ht.steps.symm
  nodeCount := by
    obtain ⟨x, hx, hxs⟩ := hs.nodeCount_mem
    obtain ⟨y, hy, hyt⟩ := ht.nodeCount_mem
    exact le_antisymm (hxs ▸ ht.nodeCount_ge x hx) (hyt ▸ hs.nodeCount_ge y hy)
  pruning := hs.pruning.trans ht.pruning.symm
  nullability := hs.nullability.trans ht.nullability.symm
  rules := rules_eq (fun n => (hs.lists n).trans (ht.lists n).symm)
    (fun n => (hs.matched n).trans (ht.matched n).symm) fun n => (hs.changed n).trans (ht.changed n).symm

theorem foldl (hs : Totals ss s) : Totals (ss ++ ts) (ts.foldl Stats.merge s) := by
  induction ts generalizing ss s with
  | nil => rwa [List.append_nil]
  | cons t ts ih =>
    have h := ih (hs.merge (.single t))
    rwa [List.append_assoc] at h

end Totals

theorem foldl_merge_frame (ts : List Stats) (s : Stats) : (ts.foldl merge s).invocation = s.invocation ∧
    (ts.foldl merge s).group = s.group ∧ (ts.foldl merge s).skipped = s.skipped := by
  induction ts generalizing s with
  | nil => exact ⟨rfl, rfl, rfl⟩
  | cons t ts ih => exact ih (s.merge t)

/-- Ways to merge: nothing is merged yet, or what came of one merge is merged into what came of another. -/
inductive Merging
  | alone (s : Stats)
  | into (receiver other : Merging)

namespace Merging

def outcome : Merging → Stats
  | alone s => s
  | into receiver other => receiver.outcome.merge other.outcome

def runs : Merging → List Stats
  | alone s => [s]
  | into receiver other => receiver.runs ++ other.runs

theorem totals : ∀ m : Merging, Totals m.runs m.outcome
  | alone s => .single s
  | into receiver other => receiver.totals.merge other.totals

end Merging

/-- Statistics are merged in any order, and some of them into each other first, with the same outcome: sums of the steps and
    of each rule's counters, the largest tree, and the flags that one of them has. Each rule is listed once, in ascending
    order of names. -/
theorem merge_unordered (s : Stats) (ts : List Stats) :
    (∀ us : List Stats, us.Perm ts → us.foldl merge s = ts.foldl merge s) ∧
      (∀ m : Merging, m.runs.Perm (s :: ts) → Agrees m.outcome (ts.foldl merge s)) ∧ Totals (s :: ts) (ts.foldl merge s) := by
  have hfold (us : List Stats) : Totals (s :: us) (us.foldl merge s) := (Totals.single s).foldl
  refine ⟨fun us hp => ?_, fun m hp => (m.totals.perm hp).agrees (hfold ts), hfold ts⟩
  obtain ⟨hsteps, hcount, hpruning, hnull, hrules⟩ := ((hfold us).perm (hp.cons s)).agrees (hfold ts)
  obtain ⟨hid, hgroup, hskipped⟩ := foldl_merge_frame us s
  obtain ⟨hid', hgroup', hskipped'⟩ := foldl_merge_frame ts s
  rcases hu : us.foldl merge s with ⟨⟩
  rcases ht : ts.foldl merge s with ⟨⟩
  simp_all

/-- Two runs that share a rule, and a run of another rule. -/
def overlapping : List Stats :=
  [{ (Stats.empty.add "A" 3 1).add "C" 1 1 with steps := 2, nodeCount := 5 },
    { Stats.empty.add "B" 2 1 with steps := 1, nodeCount := 9, pruningRequired := true },
    { Stats.empty.add "A" 4 0 with nodeCount := 7 }]

theorem merge_unordered_overlapping :
    (overlapping.foldl merge .empty).rules = [⟨"A", 7, 1⟩, ⟨"B", 2, 1⟩, ⟨"C", 1, 1⟩] ∧
      overlapping.reverse.foldl merge .empty = overlapping.foldl merge .empty :=
  ⟨by decide, (merge_unordered .empty overlapping).1 _ overlapping.reverse_perm⟩

end Planwright.Stats
