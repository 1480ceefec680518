import Planwright.Text.Scan

/-! Cutting a text at a mark gives the parts that were put together with the mark between them. -/

namespace Planwright.Text

variable {mark : Char} {cs rest : List Char}

theorem parts_ne_nil : parts mark cs ≠ [] := by
  induction cs with
  | nil => exact List.cons_ne_nil _ _
  | cons c cs ih =>
    rw [parts]
    split
    · exact List.cons_ne_nil _ _
    · obtain ⟨p, ps, hp⟩ := List.exists_cons_of_ne_nil ih
      rw [hp]
      exact List.cons_ne_nil _ _

theorem parts_append (h : mark ∉ cs) : parts mark (cs ++ mark :: rest) = cs :: parts mark rest := by
  induction cs with
  | nil => simp [parts]
  | cons c cs ih =>
    rw [List.mem_cons, not_or] at h
    rw [List.cons_append, parts, ih h.2, if_neg (by simpa using Ne.symm h.1)]
    rfl

theorem parts_of_not_mem (h : mark ∉ cs) : parts mark cs = [cs] := by
  induction cs with
  | nil => rfl
  | cons c cs ih =>
    rw [List.mem_cons, not_or] at h
    rw [parts, ih h.2, if_neg (by simpa using Ne.symm h.1)]
    rfl

theorem cut_ne_nil {s : String} : cut mark s ≠ [] := fun h => parts_ne_nil (List.map_eq_nil_iff.mp h)

theorem not_mem_of_mem_parts : ∀ p ∈ parts mark cs, mark ∉ p := by
  induction cs with
  | nil => simp [parts]
  | cons c cs ih =>
    rw [parts]
    split
    · exact List.forall_mem_cons.mpr ⟨List.not_mem_nil, ih⟩
    · rename_i hc
      obtain ⟨p, ps, hp⟩ : ∃ p ps, parts mark cs = p :: ps := List.exists_cons_of_ne_nil parts_ne_nil
      rw [hp, List.forall_mem_cons] at ih
      rw [hp, List.modifyHead_cons, List.forall_mem_cons]
      refine ⟨fun h => ?_, ih.2⟩
      rcases List.mem_cons.mp h with rfl | h
      · exact hc (beq_self_eq_true _)
      · exact ih.1 h

theorem intercalate_parts : [mark].intercalate (parts mark cs) = cs := by
  induction cs with
  | nil => rfl
  | cons c cs ih =>
    obtain ⟨p, ps, hp⟩ : ∃ p ps, parts mark cs = p :: ps := List.exists_cons_of_ne_nil parts_ne_nil
    rw [parts]
    rw [hp] at ih ⊢
    split
    · rename_i hc
      rw [List.intercalate_cons_cons, ih, beq_iff_eq.mp hc]
      rfl
    · cases ps <;> simp_all

theorem cut_spec (s : String) :
    (String.singleton mark).intercalate (cut mark s) = s ∧ ∀ p ∈ cut mark s, mark ∉ p.toList := by
  constructor
  · rw [← String.toList_inj, String.toList_intercalate, cut, List.map_map]
    simpa [Function.comp_def] using intercalate_parts
  · intro p hp
    obtain ⟨q, hq, rfl⟩ := List.mem_map.mp hp
    simpa using not_mem_of_mem_parts q hq

/-- Texts that are each ended by a mark are the parts, with nothing after the last mark. -/
theorem cut_join {ls : List String} (h : ∀ l ∈ ls, mark ∉ l.toList) :
    cut mark (String.join (ls.map fun l => l ++ String.singleton mark)) = ls ++ [""] := by
  induction ls with
  | nil => rfl
  | cons l ls ih =>
    rw [List.forall_mem_cons] at h
    have hrest := ih h.2
    rw [cut] at hrest ⊢
    simp only [List.map_cons, String.join_cons, String.toList_append, String.toList_singleton, List.append_assoc, List.singleton_append]
    rw [parts_append h.1, List.map_cons, hrest]
    simp

end Planwright.Text
