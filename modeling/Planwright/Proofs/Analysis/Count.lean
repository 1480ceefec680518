import Planwright.Proofs.Analysis.Keys

/-! Counting the columns of a relation. The count adds up what the relations below an operator have, where the
    analysis unites their definitions; they agree as long as each variable is brought into being once. -/

namespace Planwright

namespace Tree

variable {t : Tree}

theorem sumOf_relations {a b : Tree} {cs : List Tree} (ha : a.kind.isRelational = true) (hb : b.kind.isRelational = true) :
    outputCount.sumOf (a :: b :: cs) = a.outputCount + b.outputCount + outputCount.sumOf cs := by
  rw [outputCount.sumOf, outputCount.sumOf, if_pos ha, if_pos hb, Nat.add_assoc]

theorem sumOf_expression {c : Tree} (h : c.IsExpression) : outputCount.sumOf [c] = 0 := by
  rw [outputCount.sumOf, if_neg (not_isRelational_of_isScalar h)]
  rfl

theorem exists_columns (ht : t.wellFormed) (hrel : t.IsRelational) (hs : t.Backed (·)) (hd : t.binds.Nodup) :
    ∃ vs : List VarId, vs.Nodup ∧ (∀ v, v ∈ vs ↔ Defines (·) t v) ∧ vs.length = t.outputCount := by
  induction t using induct with
  | node id op cs ih =>
    obtain ⟨hf, hcs⟩ := wellFormed_node.mp ht
    obtain ⟨-, hbacked⟩ := backed_node.mp hs
    obtain ⟨hown, hnodup, hapart, -⟩ := nodup_binds_node.mp hd
    have child := fun c hc (hr : c.IsRelational) => ih c hc (hcs c hc) hr (hbacked c hc) (hnodup c hc)
    -- Two relations side by side.
    have pair : ∀ left ∈ cs, ∀ right ∈ cs, left.IsRelational → right.IsRelational → (∀ v ∈ left.binds, v ∉ right.binds) →
        ∃ vs : List VarId, vs.Nodup ∧ (∀ v, v ∈ vs ↔ Defines (·) left v ∨ Defines (·) right v) ∧
          vs.length = left.outputCount + right.outputCount := by
      intro left hleft right hright hl hr hne
      obtain ⟨vs, hvs, hmem, hlen⟩ := child left hleft hl
      obtain ⟨ws, hws, hmem', hlen'⟩ := child right hright hr
      refine ⟨vs ++ ws, hvs.append hws fun v hv hw => ?_, fun v => ?_, ?_⟩
      · exact hne v ((hbacked left hleft).mem_binds ((hmem v).mp hv)) ((hbacked right hright).mem_binds ((hmem' v).mp hw))
      · rw [List.mem_append, hmem, hmem']
      · rw [List.length_append, hlen, hlen']
    cases shape_of_fits hf with
    | scanTable table => exact ⟨table.columns, hown, by simp [defines_node], by rw [outputCount]⟩
    | singleRowTable => exact ⟨[], .nil, by simp [defines_node], by rw [outputCount]; rfl⟩
    | @filter input _ hi | @sort _ input hi | @constrainedSort _ input _ _ hi =>
      obtain ⟨vs, hvs, hmem, hlen⟩ := child input (by simp) hi
      exact ⟨vs, hvs, by simp [hmem, defines_node], by rw [outputCount, outputCount.firstOf, hlen]⟩
    | project shown | distinct shown | groupBy _ shown | @combine _ shown =>
      exact ⟨shown.toList, VarSet.nodup_toList _, by simp [defines_node], by rw [outputCount, VarSet.size]⟩
    | @crossJoin left right hl hr | @crossApply left right hl hr | @outerApply left right hl hr =>
      obtain ⟨vs, hvs, hmem, hlen⟩ := pair left (by simp) right (by simp) hl hr (by simpa using hapart)
      exact ⟨vs, hvs, by simp [hmem, defines_node], by simp only [hlen, outputCount, sumOf_relations hl hr]; rfl⟩
    | @innerJoin left right predicate hl hr hp | @leftOuterJoin left right predicate hl hr hp =>
      obtain ⟨vs, hvs, hmem, hlen⟩ := pair left (by simp) right (by simp) hl hr ((List.pairwise_cons.mp hapart).1 right (by simp))
      exact ⟨vs, hvs, by simp [hmem, defines_node], by simp only [hlen, outputCount, sumOf_relations hl hr, sumOf_expression hp, Nat.add_zero]⟩
    | varDefList | varDef | element => cases hrel
    | scalar hs => exact absurd hrel (not_isRelational_of_isScalar hs)

theorem outputCount_eq {i : Info} (ht : t.wellFormed) (hrel : t.IsRelational) (hs : t.Backed (·)) (hd : t.binds.Nodup)
    (hi : t.analysis = .ok i) : t.outputCount = i.definitions.size := by
  obtain ⟨vs, hvs, hmem, hlen⟩ := exists_columns ht hrel hs hd
  rw [← hlen, VarSet.size]
  refine List.Perm.length_eq ((List.perm_ext_iff_of_nodup hvs (VarSet.nodup_toList _)).mpr fun v => ?_)
  rw [hmem, VarSet.mem_toList, (analysis_scope ht hi v).1]

end Tree

/-- Asking a plan about a relation gives as many definitions as columns are counted, provided that the relation defines what it shows
    and brings each variable into being once. -/
theorem Plan.definitions_counted {p : Plan} {n : NodeId} {t : Tree} (hn : p.tree? n = some t) (hp : p.Holds t)
    (hwf : t.wellFormed = true) (hrel : t.IsRelational) (hs : t.Backed (·)) (hd : t.binds.Nodup) :
    ∃ i p', relationInfo n p = .ok (i, p') ∧ t.outputCount = i.definitions.size := by
  obtain rfl := id_view hn
  obtain ⟨i, p', hrun, -, hi⟩ := hp.relationInfo_reaches hwf hrel
  exact ⟨i, p', hrun, Tree.outputCount_eq hwf hrel hs hd hi⟩

theorem Plan.definitions_counted_keyedJoin :
    keyedJoinTree.outputCount = 3 ∧ ∃ i p', relationInfo 9 keyedJoin = .ok (i, p') ∧ keyedJoinTree.outputCount = i.definitions.size := by
  have hn : keyedJoin.tree? 9 = some keyedJoinTree := rfl
  refine ⟨by decide, definitions_counted hn (holds_of_view (by decide) hn) (by decide) (by rfl) ?_ (by decide)⟩
  simp [keyedJoinTree, Tree.backed_node, Tree.defines_node]

end Planwright
