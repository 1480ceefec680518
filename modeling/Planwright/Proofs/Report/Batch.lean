import Mathlib.Data.List.Forall2
import Mathlib.Data.List.Pairwise
import Planwright.Report.Batch

/-! Reporting to a batch. Of the reports with one index the last one stands. A batch holds those that stand, each
    once, in ascending order of their index, so it does not show in which order the documents were finished. -/

namespace Planwright.Batch

variable {r s : Result} {rs reports : List Result}

/-- The results are in ascending order of their index, and no two share one. -/
def Ascending (rs : List Result) : Prop := rs.Pairwise fun r s => r.index < s.index

/-- The reports that no later one of the same index replaces. -/
def latest (rs : List Result) : List Result := rs.pwFilter fun r s => r.index ≠ s.index

def reported (total : Int) (withStats : Bool) (rs : List Result) : Batch := rs.foldl report (start total withStats)

theorem mem_insert (h : Ascending rs) : s ∈ insert r rs ↔ s = r ∨ s ∈ rs ∧ s.index ≠ r.index := by
  induction rs with
  | nil => simp [insert]
  | cons other rest ih =>
    obtain ⟨hother, hrest⟩ := List.pairwise_cons.mp h
    have hafter : s ∈ rest → other.index < s.index := hother s
    rw [insert]
    split
    case isTrue hlt =>
      simp only [List.mem_cons]
      grind
    case isFalse hlt =>
      split
      case isTrue heq =>
        simp only [List.mem_cons]
        grind
      case isFalse hne =>
        simp only [List.mem_cons, ih hrest]
        grind

theorem insert_ascending (h : Ascending rs) : Ascending (insert r rs) := by
  induction rs with
  | nil => exact List.pairwise_singleton _ r
  | cons other rest ih =>
    obtain ⟨hother, hrest⟩ := List.pairwise_cons.mp h
    rw [insert]
    split
    case isTrue hlt =>
      refine List.pairwise_cons.mpr ⟨fun s hs => ?_, h⟩
      rcases List.mem_cons.mp hs with rfl | hs
      · exact hlt
      · exact Int.lt_trans hlt (hother s hs)
    case isFalse hlt =>
      split
      case isTrue heq => exact List.pairwise_cons.mpr ⟨fun s hs => heq ▸ hother s hs, hrest⟩
      case isFalse hne =>
        refine List.pairwise_cons.mpr ⟨fun s hs => ?_, ih hrest⟩
        rcases (mem_insert hrest).mp hs with rfl | ⟨hs, -⟩
        · omega
        · exact hother s hs

theorem Ascending.nodup (h : Ascending rs) : rs.Nodup := h.imp fun hlt heq => by simp [heq] at hlt

theorem Ascending.eq_of_perm (hr : Ascending rs) (hs : Ascending reports) (h : rs.Perm reports) : rs = reports :=
  h.eq_of_pairwise (fun r s _ _ hrs hsr => absurd hrs (by omega)) hr hs

theorem latest_pairwise (rs : List Result) : (latest rs).Pairwise fun r s => r.index ≠ s.index :=
  List.pairwise_pwFilter rs

theorem latest_of_pairwise (h : rs.Pairwise fun r s => r.index ≠ s.index) : latest rs = rs :=
  List.pwFilter_eq_self.mpr h

theorem mem_latest_cons : s ∈ latest (r :: rs) ↔ s ∈ latest rs ∨ s = r ∧ ∀ r' ∈ rs, s.index ≠ r'.index := by
  have hall : (∀ s ∈ latest rs, r.index ≠ s.index) ↔ ∀ s ∈ rs, r.index ≠ s.index :=
    List.forall_mem_pwFilter (fun {x y z} hne => by omega) r rs
  by_cases hr : ∀ s ∈ latest rs, r.index ≠ s.index
  · have hcons : latest (r :: rs) = r :: latest rs := List.pwFilter_cons_of_pos hr
    rw [hcons, List.mem_cons]
    grind
  · have hcons : latest (r :: rs) = latest rs := List.pwFilter_cons_of_neg hr
    rw [hcons]
    grind

/-- Reporting keeps the order. A batch that has been reported to holds what stands of the reports and what it held
    under the other indexes. -/
theorem foldl_report (rs : List Result) (b : Batch) (hb : Ascending b.results) :
    Ascending (rs.foldl report b).results ∧ ∀ s, s ∈ (rs.foldl report b).results ↔
      s ∈ latest rs ∨ s ∈ b.results ∧ ∀ r ∈ rs, s.index ≠ r.index := by
  induction rs generalizing b with
  | nil => exact ⟨hb, fun s => by simp [latest]⟩
  | cons r rs ih =>
    obtain ⟨hordered, hmem⟩ := ih (b.report r) (insert_ascending hb)
    refine ⟨hordered, fun s => ?_⟩
    rw [List.foldl_cons, hmem, report, mem_insert hb, mem_latest_cons]
    grind

theorem reported_eq (total : Int) (withStats : Bool) (rs : List Result) :
    ∃ sorted, reported total withStats rs = ⟨total, withStats, sorted⟩ ∧ Ascending sorted ∧ sorted.Perm (latest rs) := by
  have hframe : ∀ b : Batch, rs.foldl report b = ⟨b.total, b.withStats, (rs.foldl report b).results⟩ := by
    induction rs with
    | nil => exact fun b => rfl
    | cons r rs ih => exact fun b => ih (b.report r)
  obtain ⟨hordered, hmem⟩ := foldl_report rs (start total withStats) List.Pairwise.nil
  refine ⟨_, hframe _, hordered, (List.perm_ext_iff_of_nodup hordered.nodup ?_).mpr fun s => ?_⟩
  · exact (latest_pairwise rs).imp fun hne heq => hne (congrArg Result.index heq)
  · simpa [start] using hmem s

theorem failure?_of_least {b : Batch} (hb : Ascending b.results) (hr : r ∈ b.results) {message : String}
    (hfailed : r.failure = some message) (hleast : ∀ s ∈ b.results, s.failure.isSome → r.index ≤ s.index) :
    b.failure? = some (r.name ++ ": " ++ message) := by
  obtain ⟨before, after, hsplit⟩ := List.append_of_mem hr
  rw [hsplit] at hleast
  refine List.findSome?_eq_some_iff.mpr ⟨before, r, after, hsplit, by rw [hfailed, Option.map_some], fun s hs => ?_⟩
  have hlt : s.index < r.index :=
    (List.pairwise_append.mp (hsplit ▸ hb : Ascending (before ++ r :: after))).2.2 s hs r (by simp)
  cases hf : s.failure with
  | none => rfl
  | some m => exact absurd (hleast s (by simp [hs]) (by rw [hf]; rfl)) (Int.not_le.mpr hlt)

/-! ### What is shown -/

/-- What became of a document, in one word. -/
inductive HasStatus (r : Result) : String → Prop
  | error (hr : r.failure.isSome) : HasStatus r "error"
  | cached (hr : r.failure = none) (hc : r.cached = true) : HasStatus r "cached"
  | skipped {s : Stats} (hr : r.failure = none) (hc : r.cached = false) (hs : r.stats = some s) (hskipped : s.skipped = true) :
    HasStatus r "skipped"
  | done (hr : r.failure = none) (hc : r.cached = false) (hs : ∀ s, r.stats = some s → s.skipped = false) : HasStatus r "done"

/-- The line of a result in the table of progress. -/
def Lists (r : Result) (cells : List String) : Prop :=
  ∃ status steps, cells = [toString r.index, r.name, status, steps] ∧ HasStatus r status ∧
    (r.stats = none → steps = "") ∧ ∀ s, r.stats = some s → steps = toString s.steps

def headline (naming : Naming) (s : Stats) : String :=
  "invocation " ++ naming.name s.invocation ++ ": group " ++ s.group ++ ", " ++ toString s.nodeCount ++ " nodes, " ++
    toString s.steps ++ " steps\n"

/-- What is printed of statistics: a line that tells them from those of other runs, and the rules by name with what they did. -/
inductive Counts (naming : Naming) (s : Stats) : String → Prop
  | skipped (hs : s.skipped = true) : Counts naming s (headline naming s ++ "skipped: tree over the node limit\n")
  | listed {pruning nullability : String} {rows : List (List String)} (hs : s.skipped = false)
    (hp : pruning = if s.pruningRequired then "projection pruning required\n" else "")
    (hn : nullability = if s.nullabilityRequired then "nullability rules required\n" else "")
    (hrows : List.Forall₂ (fun r row => row = [r.name, toString r.matched, toString r.changed]) s.rules rows) :
    Counts naming s (headline naming s ++ pruning ++ nullability ++ (Grid.report ["rule", "matched", "changed"] rows).render)

def title (total : Int) (r : Result) : String := if 1 < total then "-- " ++ r.name ++ "\n" else ""

/-- What is printed for a result: the message of a failure, or the tree with the difference and the result's own statistics,
    where these are asked for. Its name stands above if there are several documents. -/
inductive Prints (total : Int) (withStats : Bool) (naming : Naming) (r : Result) : String → Prop
  | failed {message : String} (hr : r.failure = some message) :
    Prints total withStats naming r (title total r ++ "error: " ++ message ++ "\n")
  | plain (hr : r.failure = none) (hs : withStats = true → r.stats = none) :
    Prints total withStats naming r (title total r ++ r.dump ++ r.diff)
  | counted {s : Stats} {counts : String} (hr : r.failure = none) (hw : withStats = true) (hs : r.stats = some s)
    (hcounts : Counts naming s counts) : Prints total withStats naming r (title total r ++ r.dump ++ r.diff ++ counts)

theorem hasStatus_status (r : Result) : HasStatus r r.status := by
  rw [Result.status]
  split
  case isTrue hr => exact .error hr
  case isFalse hr =>
    have hr : r.failure = none := by simpa using hr
    split
    case isTrue hc => exact .cached hr hc
    case isFalse hc =>
      have hc : r.cached = false := by simpa using hc
      split
      case isTrue hs =>
        obtain ⟨s, hs, hskipped⟩ := (Option.any_eq_true ..).mp hs
        exact .skipped hr hc hs hskipped
      case isFalse hs => exact .done hr hc fun s hs' => by simpa [hs'] using hs

theorem counts_report (naming : Naming) (s : Stats) : Counts naming s (s.report naming) := by
  rw [Stats.report]
  split
  case isTrue hs => exact .skipped hs
  case isFalse hs =>
    exact .listed (by simpa using hs) rfl rfl (List.forall₂_map_right_iff.mpr (List.forall₂_same.mpr fun _ _ => rfl))

theorem prints_resultText {total : Int} {withStats : Bool} {naming : Naming} {rs : List Result} (r : Result) :
    Prints total withStats naming r (resultText naming ⟨total, withStats, rs⟩ r) := by
  rw [resultText]
  split
  case h_1 message hr => exact .failed hr
  case h_2 hr =>
    by_cases hs : withStats = true → r.stats = none
    · have hnone : (if withStats then (r.stats.map (·.report naming)).getD "" else "") = "" := by
        split
        · rw [hs ‹_›]
          rfl
        · rfl
      simp only [hnone, String.append_empty]
      exact .plain hr hs
    · obtain ⟨hw, hs⟩ := Classical.not_imp.mp hs
      obtain ⟨s, hs⟩ := Option.ne_none_iff_exists'.mp hs
      simp only [hw, hs, if_true, Option.map_some, Option.getD_some]
      exact .counted hr rfl hs (counts_report naming s)

/-- Whatever the order of the reports, the batch shows each result once, in ascending order of the index, and fails as
    the first document does that fails. Reports that a later one of the same index replaces leave no trace. -/
theorem reports_unordered (rs : List Result) (hrs : rs.Pairwise fun r s => r.index ≠ s.index) (total : Int)
    (withStats : Bool) :
    ∃ (sorted : List Result) (rows : List (List String)) (texts : Naming → List String),
      sorted.Perm rs ∧ (sorted.Pairwise fun r s => r.index < s.index) ∧ List.Forall₂ Lists sorted rows ∧
      (∀ naming, List.Forall₂ (Prints total withStats naming) sorted (texts naming)) ∧
      ∀ reports : List Result, reports.Perm rs ∨ (latest reports).Perm rs →
        (reported total withStats reports).progress = (Grid.report ["#", "document", "status", "steps"] rows).render ++
          toString rs.length ++ "/" ++ toString total ++ " documents\n" ∧
        (∀ naming, (reported total withStats reports).text naming = String.join (texts naming)) ∧
        ((∀ r ∈ rs, r.failure = none) → (reported total withStats reports).failure? = none) ∧
        ∀ r ∈ rs, ∀ message, r.failure = some message → (∀ s ∈ rs, s.failure.isSome → r.index ≤ s.index) →
          (reported total withStats reports).failure? = some (r.name ++ ": " ++ message) := by
  obtain ⟨sorted, -, hsorted, hperm⟩ := reported_eq total withStats rs
  rw [latest_of_pairwise hrs] at hperm
  refine ⟨sorted, sorted.map fun r => [toString r.index, r.name, r.status, (r.stats.map fun s => toString s.steps).getD ""],
    fun naming => sorted.map (resultText naming ⟨total, withStats, sorted⟩), hperm, hsorted,
    List.forall₂_map_right_iff.mpr (List.forall₂_same.mpr fun r _ => ?_),
    fun naming => List.forall₂_map_right_iff.mpr (List.forall₂_same.mpr fun r _ => prints_resultText r), fun reports hreports => ?_⟩
  · exact ⟨_, _, rfl, hasStatus_status r, fun hs => by rw [hs]; rfl, fun s hs => by rw [hs]; rfl⟩
  have hlatest : (latest reports).Perm rs := by
    refine hreports.elim (fun h => ?_) id
    rwa [latest_of_pairwise (h.symm.pairwise hrs Ne.symm)]
  obtain ⟨sorted', hb, hsorted', hperm'⟩ := reported_eq total withStats reports
  obtain rfl : sorted' = sorted := hsorted'.eq_of_perm hsorted ((hperm'.trans hlatest).trans hperm.symm)
  rw [hb, ← hperm.length_eq]
  refine ⟨rfl, fun naming => rfl, fun hnone => ?_, fun r hr message hfailed hleast => ?_⟩
  · exact List.findSome?_eq_none_iff.mpr fun r hr => by rw [hnone r (hperm.mem_iff.mp hr)]; rfl
  · exact failure?_of_least hsorted (hperm.mem_iff.mpr hr) hfailed fun s hs => hleast s (hperm.mem_iff.mp hs)

/-- A document whose tree was too large, one with a rule that matched, which was remembered, and one that failed. -/
def mixed : List Result :=
  [⟨0, "a", "T\n", "", some { Stats.empty with invocation := 7, group := "all", skipped := true }, false, none⟩,
    ⟨1, "b", "U\n", "+V\n", some ({ Stats.empty with invocation := 8, group := "all", steps := 4 }.recordMatch "R"), true, none⟩,
    ⟨2, "c", "", "", none, false, some "z"⟩]

theorem reports_unordered_mixed :
    let b := reported 3 true (⟨1, "b", "", "", none, false, some "y"⟩ :: mixed.reverse)
    b.progress = "+---+----------+---------+-------+\n| # | document | status  | steps |\n+---+----------+---------+-------+\n" ++
      "| 0 | a        | skipped |     0 |\n| 1 | b        | cached  |     4 |\n| 2 | c        | error   |       |\n" ++
      "+---+----------+---------+-------+\n3/3 documents\n" ∧
    b.text ⟨toString⟩ = "-- a\nT\ninvocation 7: group all, 0 nodes, 0 steps\nskipped: tree over the node limit\n" ++
      "-- b\nU\n+V\ninvocation 8: group all, 0 nodes, 4 steps\n+------+---------+---------+\n" ++
      "| rule | matched | changed |\n+------+---------+---------+\n| R    |       1 |       0 |\n+------+---------+---------+\n" ++
      "-- c\nerror: z\n" ∧
    b.failure? = some "c: z" := by
  obtain ⟨sorted, rows, texts, -, -, -, -, h⟩ := reports_unordered mixed (by decide) 3 true
  have hlatest : latest (⟨1, "b", "", "", none, false, some "y"⟩ :: mixed.reverse) = mixed.reverse := rfl
  -- The results in order and those in disorder, with one that is replaced, show the same.
  obtain ⟨hprogress, htext, -, -⟩ := h mixed (.inl (.refl mixed))
  obtain ⟨hprogress', htext', -, hfailure⟩ := h _ (.inr (hlatest ▸ mixed.reverse_perm))
  refine ⟨(hprogress'.trans hprogress.symm).trans ?_, ((htext' _).trans (htext _).symm).trans ?_, ?_⟩
  · decide +kernel
  · decide +kernel
  · exact hfailure ⟨2, "c", "", "", none, false, some "z"⟩ (by simp [mixed]) "z" rfl (by simp [mixed])

end Planwright.Batch
