import Mathlib.Data.Fintype.Pigeonhole
import Mathlib.Logic.Relation
import Planwright.Proofs.Variable.Renaming

/-! Chains of renamings. A chain that is longer than the map has come to some variable twice, so that giving up there is
    giving up exactly on the chains that run in a circle; all others are followed to their ends. -/

namespace Planwright

open Relation

namespace VarMap

variable {m : VarMap} {u v w : VarId}

/-- The renaming of one variable to another is recorded. -/
def Leads (m : VarMap) (v w : VarId) : Prop := m.get? v = some w

theorem leads_rightUnique (m : VarMap) : Relator.RightUnique m.Leads := fun _ _ _ hv hw => Option.some.inj (hv.symm.trans hw)

/-! ### The steps of a chain -/

/-- The chain from a variable after so many steps. Where it ends it stays. -/
def after (m : VarMap) (v : VarId) (n : Nat) : VarId := m.apply^[n] v

theorem apply_of_leads (h : m.Leads v w) : m.apply v = w := by
  rw [apply, h]
  rfl

theorem leads_apply (h : m.get? v ≠ none) : m.Leads v (m.apply v) := by
  obtain ⟨w, hw⟩ := Option.ne_none_iff_exists'.mp h
  rw [apply_of_leads hw]
  exact hw

theorem after_succ (v : VarId) (n : Nat) : m.after v (n + 1) = m.after (m.apply v) n := Function.iterate_succ_apply ..

theorem after_add (v : VarId) (i n : Nat) : m.after v (i + n) = m.after (m.after v i) n := by
  rw [after, after, after, Nat.add_comm, Function.iterate_add_apply]

theorem reaches_after {n : Nat} (h : ∀ i < n, m.get? (m.after v i) ≠ none) : ReflTransGen m.Leads v (m.after v n) := by
  induction n with
  | zero => exact .refl
  | succ n ih =>
    have hstep : m.Leads (m.after v n) (m.after v (n + 1)) := by
      rw [after_add]
      exact leads_apply (h n (Nat.lt_succ_self n))
    exact .tail (ih fun i hi => h i (Nat.lt_succ_of_lt hi)) hstep

/-- A chain that was given up had not ended at any of its steps. -/
theorem get?_after_of_error {fuel : Nat} {e : Fault} (h : m.follow fuel v = .error e) :
    e = .cyclicMapping ∧ ∀ i ≤ fuel, m.get? (m.after v i) ≠ none := by
  induction fuel generalizing v with
  | zero =>
    cases hv : m.get? v with
    | none =>
      rw [follow_of_none hv] at h
      cases h
    | some w =>
      rw [follow, hv] at h
      cases h
      refine ⟨rfl, fun i hi => ?_⟩
      obtain rfl := Nat.le_zero.mp hi
      exact hv ▸ Option.some_ne_none w
  | succ fuel ih =>
    cases hv : m.get? v with
    | none =>
      rw [follow_of_none hv] at h
      cases h
    | some w =>
      rw [follow_of_some hv] at h
      obtain ⟨he, hne⟩ := ih h
      refine ⟨he, fun i hi => ?_⟩
      cases i with
      | zero => exact hv ▸ Option.some_ne_none w
      | succ i =>
        rw [after_succ, apply_of_leads hv]
        exact hne i (Nat.le_of_succ_le_succ hi)

theorem exists_after_eq (h : ∀ i ≤ m.size, m.get? (m.after v i) ≠ none) :
    ∃ i j, i < j ∧ j ≤ m.size ∧ m.after v i = m.after v j := by
  have hmaps : ∀ i ∈ Finset.range (m.size + 1), m.after v i ∈ m.keys.toFinset := by
    intro i hi
    rw [List.mem_toFinset, ← VarSet.mem_ofList]
    exact mem_domain.mpr (h i (Nat.lt_succ_iff.mp (Finset.mem_range.mp hi)))
  have hcard : m.keys.toFinset.card < (Finset.range (m.size + 1)).card := by
    rw [Finset.card_range, Nat.lt_succ_iff]
    exact (List.toFinset_card_le _).trans (List.length_map ..).le
  obtain ⟨i, hi, j, hj, hne, heq⟩ := Finset.exists_ne_map_eq_of_card_lt_of_maps_to hcard hmaps
  rw [Finset.mem_range, Nat.lt_succ_iff] at hi hj
  rcases Nat.lt_or_gt_of_ne hne with hlt | hlt
  · exact ⟨i, j, hlt, hj, heq⟩
  · exact ⟨j, i, hlt, hi, heq.symm⟩

/-- Following the renamings of a variable runs into a circle. -/
def RunsInCircle (m : VarMap) (v : VarId) : Prop := ∃ u, ReflTransGen m.Leads v u ∧ TransGen m.Leads u u

theorem circle_of_leads (h : TransGen m.Leads u u) (hl : m.Leads u w) : TransGen m.Leads w w := by
  obtain ⟨x, hx, hrest⟩ := TransGen.head'_iff.mp h
  obtain rfl := m.leads_rightUnique hl hx
  exact .tail' hrest hl

theorem circle_of_reaches (h : TransGen m.Leads u u) (hr : ReflTransGen m.Leads u w) : TransGen m.Leads w w := by
  induction hr with
  | refl => exact h
  | tail _ hl ih => exact circle_of_leads ih hl

theorem not_circle_of_get? (h : m.get? w = none) : ¬TransGen m.Leads w w := by
  intro hc
  obtain ⟨x, hx, -⟩ := TransGen.head'_iff.mp hc
  exact Option.some_ne_none x (hx.symm.trans h)

theorem not_runsInCircle (hw : m.get? w = none) (h : ReflTransGen m.Leads v w) : ¬m.RunsInCircle v := by
  rintro ⟨u, hu, hc⟩
  rcases h.total_of_right_unique m.leads_rightUnique hu with hwu | huw
  · cases hwu.cases_head with
    | inl heq => exact not_circle_of_get? hw (heq ▸ hc)
    | inr hstep =>
      obtain ⟨x, hx, -⟩ := hstep
      exact Option.some_ne_none x (hx.symm.trans hw)
  · exact not_circle_of_get? hw (circle_of_reaches hc huw)

theorem eq_of_reaches (hw : m.get? w = none) (hu : m.get? u = none) (h : ReflTransGen m.Leads v w)
    (h' : ReflTransGen m.Leads v u) : w = u := by
  have stays : ∀ {x y}, m.get? x = none → ReflTransGen m.Leads x y → x = y := by
    intro x y hx hxy
    rcases hxy.cases_head with heq | ⟨z, hz, -⟩
    · exact heq
    · exact absurd (hz.symm.trans hx) (Option.some_ne_none z)
  rcases h.total_of_right_unique m.leads_rightUnique h' with hwu | huw
  · exact stays hw hwu
  · exact (stays hu huw).symm

theorem reaches_of_follow {fuel : Nat} (h : m.follow fuel v = .ok w) : ReflTransGen m.Leads v w := by
  induction fuel generalizing v with
  | zero =>
    cases hv : m.get? v with
    | none =>
      rw [follow_of_none hv] at h
      cases h
      exact .refl
    | some x =>
      rw [follow, hv] at h
      cases h
  | succ fuel ih =>
    cases hv : m.get? v with
    | none =>
      rw [follow_of_none hv] at h
      cases h
      exact .refl
    | some x =>
      rw [follow_of_some hv] at h
      exact .head hv (ih h)

/-! ### What a variable is finally renamed to -/

theorem runsInCircle_of_error {e : Fault} (h : m.resolve v = .error e) : e = .cyclicMapping ∧ m.RunsInCircle v := by
  obtain ⟨he, hne⟩ := get?_after_of_error h
  obtain ⟨i, j, hij, hj, heq⟩ := exists_after_eq hne
  obtain ⟨n, rfl⟩ := Nat.exists_eq_add_of_lt hij
  have hi : ReflTransGen m.Leads v (m.after v i) := reaches_after fun k hk => hne k (by omega)
  have hstep : m.Leads (m.after v i) (m.after v (i + 1)) := by
    rw [after_add]
    exact leads_apply (hne i (by omega))
  have hback : ReflTransGen m.Leads (m.after v (i + 1)) (m.after v i) := by
    rw [heq, show i + n + 1 = i + 1 + n by omega, after_add v (i + 1)]
    refine reaches_after fun k hk => ?_
    rw [← after_add]
    exact hne _ (by omega)
  exact ⟨he, m.after v i, hi, .head' hstep hback⟩

theorem resolve_eq_ok : m.resolve v = .ok w ↔ ReflTransGen m.Leads v w ∧ m.get? w = none := by
  constructor
  · exact fun h => ⟨reaches_of_follow h, get?_of_follow h⟩
  · rintro ⟨h, hw⟩
    cases hr : m.resolve v with
    | ok u => rw [eq_of_reaches hw (get?_of_follow hr) h (reaches_of_follow hr)]
    | error e => exact absurd (runsInCircle_of_error hr).2 (not_runsInCircle hw h)

theorem resolve_eq_cyclic : m.resolve v = .error .cyclicMapping ↔ m.RunsInCircle v := by
  constructor
  · exact fun h => (runsInCircle_of_error h).2
  · intro h
    cases hr : m.resolve v with
    | ok w => exact absurd h (not_runsInCircle (get?_of_follow hr) (reaches_of_follow hr))
    | error e => rw [(runsInCircle_of_error hr).1]

theorem exists_resolves (h : ∀ u, ¬TransGen m.Leads u u) : ∃ ρ, m.Resolves ρ := by
  have hend : ∀ v, ∃ w, m.resolve v = .ok w := by
    intro v
    cases hr : m.resolve v with
    | ok w => exact ⟨w, rfl⟩
    | error e =>
      obtain ⟨u, -, hu⟩ := (runsInCircle_of_error hr).2
      exact absurd hu (h u)
  choose ρ hρ using hend
  exact ⟨ρ, hρ⟩

/-! ### Renamings recorded one after the other -/

/-- What a variable was last renamed to. To rename a variable to itself is to leave it. -/
def last? (pairs : List (VarId × VarId)) (v : VarId) : Option VarId := (pairs.filter fun x => x.1 ≠ x.2).reverse.lookup v

/-- The renaming of one variable to another is the last one of it. -/
def Records (pairs : List (VarId × VarId)) (v w : VarId) : Prop := last? pairs v = some w

theorem last?_cons_self (pairs : List (VarId × VarId)) (u v : VarId) : last? ((u, u) :: pairs) v = last? pairs v := by
  rw [last?, last?, List.filter_cons_of_neg (by simp)]

theorem last?_cons {old new : VarId} (h : old ≠ new) (pairs : List (VarId × VarId)) (v : VarId) :
    last? ((old, new) :: pairs) v = (last? pairs v).or (if v = old then some new else none) := by
  rw [last?, last?, List.filter_cons_of_pos (by simpa using h), List.reverse_cons, List.lookup_append]
  congr 1
  by_cases hv : v = old
  · simp [hv]
  · simp [hv, List.lookup_cons, beq_false_of_ne hv]

end VarMap

namespace RuleM

/-- Recording renamings changes nothing else, and the last one of each variable counts. -/
theorem rename_forM (pairs : List (VarId × VarId)) (c : Context) : ∃ m : VarMap,
    (∀ p, (pairs.forM fun x => rename x.1 x.2) c p = .ok (((), { c with mappings := m }), p)) ∧
      ∀ v, m.get? v = (VarMap.last? pairs v).or (c.mappings.get? v) := by
  induction pairs generalizing c with
  | nil => exact ⟨c.mappings, fun p => rfl, fun v => rfl⟩
  | cons x pairs ih =>
    obtain ⟨old, new⟩ := x
    by_cases heq : old = new
    · subst heq
      obtain ⟨m, hrun, hm⟩ := ih c
      have hrename : rename old old = pure () := if_pos rfl
      refine ⟨m, fun p => ?_, fun v => ?_⟩
      · show (rename old old >>= fun _ => pairs.forM fun x => rename x.1 x.2) c p = _
        rw [hrename]
        exact hrun p
      · rw [hm v, VarMap.last?_cons_self]
    · obtain ⟨m, hrun, hm⟩ := ih { c with mappings := c.mappings.insert old new }
      have hrename : rename old new = modify fun c => { c with mappings := c.mappings.insert old new } := if_neg heq
      refine ⟨m, fun p => ?_, fun v => ?_⟩
      · show (rename old new >>= fun _ => pairs.forM fun x => rename x.1 x.2) c p = _
        rw [hrename]
        exact hrun p
      · rw [hm v, VarMap.last?_cons heq, VarMap.get?_insert, Option.or_assoc]
        congr 1
        split <;> rfl

end RuleM

end Planwright
