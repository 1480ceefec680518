import Mathlib.Algebra.BigOperators.Group.List.Basic
import Mathlib.Algebra.GroupWithZero.Nat
import Mathlib.Algebra.Order.BigOperators.Group.List
import Mathlib.Data.String.Basic
import Planwright.Rule.Stats

/-! Counters of rules. Adding to a counter adds as much to every sum over the list; so it is by such sums that runs and
    their statistics are compared. -/

namespace Planwright

namespace Stats

variable {name : String} {matched changed : Nat} {rs : List RuleCount} {s t : Stats}

def sum (f : RuleCount → Nat) (s : Stats) : Nat := (s.rules.map f).sum

def matchedBy (name : String) (s : Stats) : Nat := s.sum fun r => if r.name = name then r.matched else 0

def changedBy (name : String) (s : Stats) : Nat := s.sum fun r => if r.name = name then r.changed else 0

def Ascending (s : Stats) : Prop := s.rules.Pairwise fun r r' => r.name < r'.name

/-- The steps are those of the rules, no rule changed the tree more often than it matched, and rules are listed in order. -/
structure Sound (s : Stats) : Prop where
  steps : s.steps = s.sum (·.changed)
  changed_le : ∀ r ∈ s.rules, r.changed ≤ r.matched
  ascending : s.Ascending

/-! ### Adding to a counter -/

theorem sum_addTo {f : RuleCount → Nat} (hf : ∀ n m c m' c', f ⟨n, m + m', c + c'⟩ = f ⟨n, m, c⟩ + f ⟨n, m', c'⟩) :
    ((addTo name matched changed rs).map f).sum = (rs.map f).sum + f ⟨name, matched, changed⟩ := by
  induction rs with
  | nil => simp [addTo]
  | cons r rs ih =>
    obtain ⟨n, m, c⟩ := r
    rw [addTo]
    split
    · simp [add_comm]
    · split
      · rename_i heq
        simp only [heq, List.map_cons, List.sum_cons, hf]
        omega
      · simp only [List.map_cons, List.sum_cons, ih]
        omega

theorem sum_add {f : RuleCount → Nat} (hf : ∀ n m c m' c', f ⟨n, m + m', c + c'⟩ = f ⟨n, m, c⟩ + f ⟨n, m', c'⟩) :
    (s.add name matched changed).sum f = s.sum f + f ⟨name, matched, changed⟩ := sum_addTo hf

theorem changes_add : (s.add name matched changed).sum (·.changed) = s.sum (·.changed) + changed := sum_add fun _ _ _ _ _ => rfl

theorem matchedBy_add (n : String) :
    (s.add name matched changed).matchedBy n = s.matchedBy n + if name = n then matched else 0 :=
  sum_add fun _ _ _ _ _ => by split <;> rfl

theorem changedBy_add (n : String) :
    (s.add name matched changed).changedBy n = s.changedBy n + if name = n then changed else 0 :=
  sum_add fun _ _ _ _ _ => by split <;> rfl

/-! ### Counters of one rule -/

theorem sum_name {r : RuleCount} (hr : r ∈ s.rules) (f : RuleCount → Nat) :
    s.sum (fun r' => if r'.name = r.name then f r' else 0) = f r := by
  have h := s.ascending
  rw [sum]
  generalize s.rules = rs at h hr
  induction rs with
  | nil => cases hr
  | cons r' rs ih =>
    obtain ⟨hlt, hrs⟩ := List.pairwise_cons.mp h
    have hrest (h : ∀ r'' ∈ rs, r''.name ≠ r.name) : (rs.map fun r'' => if r''.name = r.name then f r'' else 0).sum = 0 :=
      List.sum_eq_zero fun x hx => by
        obtain ⟨r'', hr'', rfl⟩ := List.mem_map.mp hx
        exact if_neg (h r'' hr'')
    rw [List.map_cons, List.sum_cons]
    rcases List.mem_cons.mp hr with rfl | hr
    · rw [if_pos rfl, hrest fun r'' hr'' => (hlt r'' hr'').ne', add_zero]
    · rw [if_neg (hlt r hr).ne, ih hrs hr, zero_add]

theorem changed_le_iff : (∀ r ∈ s.rules, r.changed ≤ r.matched) ↔ ∀ n, s.changedBy n ≤ s.matchedBy n := by
  constructor
  · intro hle n
    refine List.sum_le_sum fun r hr => ?_
    split
    · exact hle r hr
    · exact le_rfl
  · intro hle r hr
    have := hle r.name
    rwa [changedBy, matchedBy, sum_name hr (·.changed), sum_name hr (·.matched)] at this

theorem exists_of_changedBy_pos {n : String} (h : 0 < s.changedBy n) : ∃ r ∈ s.rules, r.name = n ∧ 0 < r.changed := by
  obtain ⟨x, hx, hpos⟩ := List.sum_pos_iff_exists_pos_nat.mp h
  obtain ⟨r, hr, rfl⟩ := List.mem_map.mp hx
  by_cases hn : r.name = n
  · exact ⟨r, hr, hn, by simpa [hn] using hpos⟩
  · simp [hn] at hpos

/-! ### Two runs -/

theorem sum_addAll {f : RuleCount → Nat} (hf : ∀ n m c m' c', f ⟨n, m + m', c + c'⟩ = f ⟨n, m, c⟩ + f ⟨n, m', c'⟩)
    (rs ts : List RuleCount) : ((addAll rs ts).map f).sum = (rs.map f).sum + (ts.map f).sum := by
  induction ts generalizing rs with
  | nil => rfl
  | cons t ts ih => rw [addAll, List.foldl_cons, ← addAll, ih, sum_addTo hf, List.map_cons, List.sum_cons, add_assoc]

theorem sum_merge {f : RuleCount → Nat} (hf : ∀ n m c m' c', f ⟨n, m + m', c + c'⟩ = f ⟨n, m, c⟩ + f ⟨n, m', c'⟩) :
    (s.merge t).sum f = s.sum f + t.sum f := sum_addAll hf s.rules t.rules

theorem matchedBy_merge (n : String) : (s.merge t).matchedBy n = s.matchedBy n + t.matchedBy n :=
  sum_merge fun _ _ _ _ _ => by split <;> rfl

theorem changedBy_merge (n : String) : (s.merge t).changedBy n = s.changedBy n + t.changedBy n :=
  sum_merge fun _ _ _ _ _ => by split <;> rfl

theorem Sound.merge (hs : s.Sound) (ht : t.Sound) : (s.merge t).Sound where
  steps := by
    rw [sum_merge fun _ _ _ _ _ => rfl, Int.natCast_add, ← hs.steps, ← ht.steps]
    rfl
  changed_le := by
    refine changed_le_iff.mpr fun n => ?_
    rw [changedBy_merge, matchedBy_merge]
    exact Nat.add_le_add (changed_le_iff.mp hs.changed_le n) (changed_le_iff.mp ht.changed_le n)
  ascending := (s.merge t).ascending

end Stats

end Planwright
