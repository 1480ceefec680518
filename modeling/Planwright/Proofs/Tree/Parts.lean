import Mathlib.Data.List.Nodup
import Mathlib.Data.List.Count
import Planwright.Proofs.Tree.Shape

/-! Numbers taken over from a tree. The nodes and variables of a new tree are those of an old one, none more often
    than there, and new ones, each once. Counting keeps this apart from how the trees are put together. -/

namespace Planwright

theorem eq_of_mem_flatMap {α : Type} {f : α → List Nat} {cs : List α} (h : (cs.flatMap f).Nodup) {i j : Nat} {c d : α}
    (hc : cs[i]? = some c) (hd : cs[j]? = some d) {x : Nat} (hx : x ∈ f c) (hx' : x ∈ f d) : i = j := by
  have hpair := (List.nodup_flatMap.mp h).2
  obtain ⟨hi, rfl⟩ := List.getElem?_eq_some_iff.mp hc
  obtain ⟨hj, rfl⟩ := List.getElem?_eq_some_iff.mp hd
  rcases Nat.lt_trichotomy i j with hlt | heq | hgt
  · exact absurd hx' (List.pairwise_iff_getElem.mp hpair i j hi hj hlt hx)
  · exact heq
  · exact absurd hx (List.pairwise_iff_getElem.mp hpair j i hj hi hgt hx')

namespace Tree

variable {n : NodeId} {op : Op} {cs : List Tree} {i : Nat} {d : Tree}

theorem ids_subset_of_child (hd : cs[i]? = some d) : ∀ x ∈ d.ids, x ∈ (node n op cs).ids := by
  intro x hx
  rw [ids_node]
  exact List.mem_cons_of_mem _ (List.mem_flatMap.mpr ⟨d, List.mem_of_getElem? hd, hx⟩)

theorem not_mem_of_child (hn : (node n op cs).ids.Nodup) : ∀ d ∈ cs, n ∉ d.ids := by
  rw [ids_node] at hn
  exact fun d hd hmem => (List.nodup_cons.mp hn).1 (List.mem_flatMap.mpr ⟨d, hd, hmem⟩)

theorem eq_of_mem_ids (hn : (node n op cs).ids.Nodup) {j : Nat} {e : Tree} (hd : cs[i]? = some d)
    (he : cs[j]? = some e) {x : NodeId} (hx : x ∈ d.ids) (hx' : x ∈ e.ids) : i = j := by
  rw [ids_node] at hn
  exact eq_of_mem_flatMap (List.nodup_cons.mp hn).2 hd he hx hx'

theorem nodup_ids_of_mem (hn : (node n op cs).ids.Nodup) (hd : d ∈ cs) : d.ids.Nodup := by
  rw [ids_node] at hn
  exact (List.nodup_flatMap.mp (List.nodup_cons.mp hn).2).1 d hd

theorem disjoint_ids (hn : (node n op cs).ids.Nodup) {j : Nat} {e : Tree} (hd : cs[i]? = some d) (he : cs[j]? = some e)
    (hne : i ≠ j) : ∀ x ∈ d.ids, x ∉ e.ids := fun _ hx hx' => hne (eq_of_mem_ids hn hd he hx hx')

end Tree

/-- `ys` has nothing below `k` that `xs` has not as often, and each number from `k` on at most once. -/
structure Parts (k : Nat) (xs ys : List Nat) : Prop where
  old : ∀ x < k, ys.count x ≤ xs.count x
  new : ∀ x, k ≤ x → ys.count x ≤ 1

namespace Parts

variable {k k' : Nat} {xs ys zs : List Nat}

theorem refl (h : xs.Nodup) : Parts k xs xs := ⟨fun _ _ => Nat.le_refl _, fun x _ => List.nodup_iff_count_le_one.mp h x⟩

theorem trans (h : Parts k xs ys) (h' : Parts k' ys zs) (hk : k ≤ k') : Parts k xs zs := by
  refine ⟨fun x hx => ?_, fun x hx => ?_⟩
  · exact Nat.le_trans (h'.old x (by omega)) (h.old x hx)
  · rcases Nat.lt_or_ge x k' with hlt | hge
    · exact Nat.le_trans (h'.old x hlt) (h.new x hx)
    · exact h'.new x hge

theorem nodup (h : Parts k xs ys) (hx : xs.Nodup) : ys.Nodup := by
  refine List.nodup_iff_count_le_one.mpr fun x => ?_
  rcases Nat.lt_or_ge x k with hlt | hge
  · exact Nat.le_trans (h.old x hlt) (List.nodup_iff_count_le_one.mp hx x)
  · exact h.new x hge

theorem mem (h : Parts k xs ys) {x : Nat} (hx : x ∈ ys) : x ∈ xs ∨ k ≤ x := by
  rcases Nat.lt_or_ge x k with hlt | hge
  · have := h.old x hlt
    have := List.count_pos_iff.mpr hx
    exact .inl (List.count_pos_iff.mp (by omega))
  · exact .inr hge

theorem count_flatMap_set {α : Type} {f : α → List Nat} {cs : List α} {i : Nat} {c : α} (h : cs[i]? = some c) (c' : α)
    (x : Nat) : ((cs.set i c').flatMap f).count x + (f c).count x = (cs.flatMap f).count x + (f c').count x := by
  induction cs generalizing i with
  | nil => cases h
  | cons d cs ih =>
    cases i with
    | zero =>
      cases h
      simp only [List.set_cons_zero, List.flatMap_cons, List.count_append]
      omega
    | succ i =>
      have := ih h
      simp only [List.set_cons_succ, List.flatMap_cons, List.count_append]
      omega

theorem set {α : Type} {f : α → List Nat} {cs : List α} {i : Nat} {c c' : α} (pre : List Nat) (hc : cs[i]? = some c)
    (h : Parts k (f c) (f c')) (hlt : ∀ x ∈ pre ++ cs.flatMap f, x < k) :
    Parts k (pre ++ cs.flatMap f) (pre ++ (cs.set i c').flatMap f) := by
  refine ⟨fun x hx => ?_, fun x hx => ?_⟩
  · have := h.old x hx
    have := count_flatMap_set hc c' x (f := f)
    simp only [List.count_append]
    omega
  · have h0 : (pre ++ cs.flatMap f).count x = 0 := List.count_eq_zero.mpr fun hmem => absurd (hlt x hmem) (by omega)
    have := h.new x hx
    have := count_flatMap_set hc c' x (f := f)
    simp only [List.count_append] at h0 ⊢
    omega

end Parts

/-- Numbers from `k` on and below `k'`, each once. -/
structure Fresh (k k' : Nat) (fs : List Nat) : Prop where
  ge : ∀ x ∈ fs, k ≤ x
  lt : ∀ x ∈ fs, x < k'
  nodup : fs.Nodup

namespace Fresh

variable {k k' k'' : Nat} {fs gs xs ys : List Nat}

theorem nil : Fresh k k' [] := ⟨nofun, nofun, .nil⟩

theorem append (h : Fresh k k' fs) (h' : Fresh k' k'' gs) (hk : k ≤ k') (hk' : k' ≤ k'') : Fresh k k'' (fs ++ gs) := by
  refine ⟨fun x hx => ?_, fun x hx => ?_, List.nodup_append.mpr ⟨h.nodup, h'.nodup, fun x hx y hy heq => ?_⟩⟩
  · rcases List.mem_append.mp hx with hx | hx
    · exact h.ge x hx
    · exact Nat.le_trans hk (h'.ge x hx)
  · rcases List.mem_append.mp hx with hx | hx
    · exact Nat.lt_of_lt_of_le (h.lt x hx) hk'
    · exact h'.lt x hx
  · have := h.lt x hx
    have := h'.ge y hy
    omega

theorem perm (h : Fresh k k' fs) (hp : fs.Perm gs) : Fresh k k' gs :=
  ⟨fun x hx => h.ge x (hp.mem_iff.mpr hx), fun x hx => h.lt x (hp.mem_iff.mpr hx), hp.nodup_iff.mp h.nodup⟩

section Count
variable (h : Fresh k k' fs) (hlt : ∀ x ∈ xs, x < k) (hcount : ∀ x, ys.count x ≤ fs.count x + xs.count x)
include h hlt hcount

/-- Lists with nothing but old and fresh numbers are made of these parts. -/
theorem parts : Parts k xs ys := by
  refine ⟨fun x hx => ?_, fun x hx => ?_⟩
  · have : fs.count x = 0 := List.count_eq_zero.mpr fun hmem => absurd (h.ge x hmem) (Nat.not_le.mpr hx)
    have := hcount x
    omega
  · have : xs.count x = 0 := List.count_eq_zero.mpr fun hmem => absurd (hlt x hmem) (Nat.not_lt.mpr hx)
    have := List.nodup_iff_count_le_one.mp h.nodup x
    have := hcount x
    omega

end Count

end Fresh

end Planwright
