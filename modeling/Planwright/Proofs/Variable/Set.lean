import Mathlib.Data.List.Basic
import Mathlib.Data.List.Perm.Basic
import Mathlib.Order.Basic
import Planwright.Variable.Set

/-! Sets of variables as sets: what the tests on them and their lists of members say about membership. -/

namespace Planwright.VarSet

variable {s t : VarSet} {v : VarId} {vs : List VarId}

theorem lt_of_mem (h : v ∈ s) : v < s.bits.log2 + 1 := by
  rcases Nat.lt_or_ge v (s.bits.log2 + 1) with hv | hv
  · exact hv
  · have hlt : s.bits < 2 ^ v :=
      Nat.lt_of_lt_of_le Nat.lt_log2_self (Nat.pow_le_pow_right (by decide) hv)
    have : s.bits.testBit v = false := Nat.testBit_lt_two_pow hlt
    simp [mem_iff, has, this] at h

@[simp] theorem mem_toList : v ∈ s.toList ↔ v ∈ s := by
  simp only [toList, List.mem_filter, List.mem_range]
  exact ⟨fun h => h.2, fun h => ⟨lt_of_mem h, h⟩⟩

theorem nodup_toList (s : VarSet) : s.toList.Nodup := List.nodup_range.filter _

theorem mem_foldl_insert :
    v ∈ vs.foldl insert s ↔ v ∈ s ∨ v ∈ vs := by
  induction vs generalizing s with
  | nil => simp
  | cons w vs ih => simp only [List.foldl_cons, ih, mem_insert, List.mem_cons, or_assoc]

@[simp] theorem mem_ofList : v ∈ ofList vs ↔ v ∈ vs := by
  simp [ofList, mem_foldl_insert]

theorem toList_ofList_perm (h : vs.Nodup) : (ofList vs).toList.Perm vs :=
  (List.perm_ext_iff_of_nodup (nodup_toList _) h).mpr fun v => by simp

theorem isEmpty_iff : s.isEmpty ↔ ∀ v, ¬v ∈ s := by
  constructor
  · intro h v
    have h0 : s = empty := by
      cases s
      simpa [isEmpty, empty] using h
    simp [h0]
  · intro h
    have h0 : s = empty := ext_iff.mpr fun v => by simp [h v]
    simp [h0, isEmpty, empty]

theorem isSubset_iff : s.isSubset t = true ↔ ∀ v ∈ s, v ∈ t := by
  have h : s.isSubset t = true ↔ s ∩ t = s := by
    cases s
    cases t
    simp [isSubset, Inter.inter, inter]
  rw [h, ext_iff]
  simp only [mem_inter]
  exact ⟨fun h v hv => ((h v).mpr hv).2, fun h v => ⟨fun hv => hv.1, fun hv => ⟨hv, h v hv⟩⟩⟩

theorem overlaps_iff : s.overlaps t = true ↔ ∃ v, v ∈ s ∧ v ∈ t := by
  have h : s.overlaps t = !(s ∩ t).isEmpty := rfl
  constructor
  · intro ho
    by_contra hn
    have : (s ∩ t).isEmpty := isEmpty_iff.mpr fun v hv => hn ⟨v, mem_inter.mp hv⟩
    simp [h, this] at ho
  · rintro ⟨v, hv⟩
    have hne : ¬(s ∩ t).isEmpty := fun he => isEmpty_iff.mp he v (mem_inter.mpr hv)
    simpa [h] using hne

theorem overlaps_eq_false : s.overlaps t = false ↔ ∀ v ∈ s, ¬v ∈ t := by
  rw [← Bool.not_eq_true, overlaps_iff]
  simp

theorem first?_eq_some (h : s.first? = some v) : v ∈ s :=
  mem_toList.mp (List.mem_of_mem_head? h)

theorem first?_eq_none : s.first? = none ↔ ∀ v, ¬v ∈ s := by
  simp only [first?, List.head?_eq_none_iff, List.eq_nil_iff_forall_not_mem, mem_toList]

end Planwright.VarSet
