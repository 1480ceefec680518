import Planwright.Proofs.Plan.Analysis
import Planwright.Proofs.Semantics.Likeness

/-! What a tree depends on. Outer rows that agree on the variables a tree uses and does not define give it the same
    rows or the same value, and these variables are what the analysis lists. -/

namespace Planwright

namespace Row

def Agree (P : VarId → Prop) (r s : Row) : Prop := ∀ v, P v → r.read v = s.read v

theorem read_merge (r s : Row) (v : VarId) : (r.merge s).read v = if s v = none then r.read v else s.read v := by
  rw [read, merge_apply]
  cases h : s v <;> simp [read, h]

end Row

open Row

/-- A meaning reads no other variables of what is around it than the given ones. -/
structure Meaning.Reads (m : Meaning) (P : VarId → Prop) : Prop where
  rows : ∀ {outer outer' : Row}, Agree P outer outer' → m.rows outer = m.rows outer'
  value : ∀ {env env' : Row} {group group' : List Row}, Agree P env env' → List.Forall₂ (Agree P) group group' →
    m.value env group = m.value env' group'
  bindings : ∀ {env env' : Row} {group group' : List Row}, Agree P env env' → List.Forall₂ (Agree P) group group' →
    m.bindings env group = m.bindings env' group'

namespace Tree

variable {C : Reading} {I : Interpretation} {db : Database} {M : Tree → Meaning}

theorem flatMap_congr {rs rs' : List Row} {f g : Row → List Row} (h : rs = rs') (hf : ∀ r ∈ rs, f r = g r) :
    rs.flatMap f = rs'.flatMap g := by
  subst h
  rw [List.flatMap_def, List.flatMap_def, List.map_congr_left hf]

theorem meaning_reads [Evaluation C I db M] {t : Tree} (ht : t.wellFormed) (hs : Backed (·) t) : (M t).Reads (Uses (·) t) := by
  have hμ : Distinguishes (fun _ => True) (·) := fun _ _ _ _ heq => heq
  have hself : ∀ s s', Spot.Echoes (.under Eq) (Uses (·) t) s s' → (M t).Resembles (.under Eq) (M t) s s' := by
    intro s s' h
    refine (resembles_of_parallels I.respects_eq C.respects_eq hμ False.elim (.refl Eq t) ht (.inl hs) (fun _ _ _ _ => trivial)
      (fun _ _ _ => I.arranges_eq) (.inr fun _ => rfl)).2 s s' ⟨h.row.mono fun _ hv => hv.uses, ?_⟩
    exact h.group.imp fun _ _ h => h.mono fun _ hv => hv.uses
  refine ⟨fun {outer outer'} he => ?_, fun {env env' group group'} he hg => ?_, fun {env env' group group'} he hg => ?_⟩
  · exact forall₂_resembles_eq (hself ⟨outer, []⟩ ⟨outer', []⟩ ⟨he, .nil⟩).rows
  · exact (hself ⟨env, group⟩ ⟨env', group'⟩ ⟨he, hg⟩).value
  · exact resembles_eq.mp ((hself ⟨env, group⟩ ⟨env', group'⟩ ⟨he, hg⟩).bindings hμ)

end Tree

/-- Asking a plan about a node gives the variables that its rows or its value depend on, and every row of a relation
    binds all that the answer lists as defined. -/
theorem Plan.references_sound {p : Plan} {n : NodeId} {t : Tree} (hn : p.tree? n = some t) (hp : p.Holds t)
    (hwf : t.wellFormed = true) (hs : t.Backed (·)) :
    ∃ i p', info n p = .ok (i, p') ∧ ∀ (I : Interpretation) (db : Database) (outer outer' : Row),
      (∀ v ∈ i.external, outer.read v = outer'.read v) →
        (t.IsRelational → t.rows I db outer = t.rows I db outer' ∧
          ∀ r ∈ t.rows I db outer, ∀ v ∈ i.definitions, r v ≠ none) ∧
        (t.IsExpression → ∀ group group' : List Row,
          List.Forall₂ (fun r s => ∀ v ∈ i.external, r.read v = s.read v) group group' →
            (t.meaning I db).value outer group = (t.meaning I db).value outer' group') := by
  obtain rfl := id_view hn
  obtain ⟨i, p', hrun, -, hi⟩ := hp.info_reaches hwf
  refine ⟨i, p', hrun, fun I db outer outer' hagree => ?_⟩
  have hreads : (t.meaning I db).Reads (Tree.Uses (·) t) := Tree.meaning_reads hwf hs
  have hexternal : ∀ {r s : Row}, (∀ v ∈ i.external, r.read v = s.read v) → Agree (Tree.Uses (·) t) r s :=
    fun h v hv => h v ((Tree.analysis_scope hwf hi v).2.mpr hv)
  refine ⟨fun _ => ⟨hreads.rows (hexternal hagree), fun r hr v hv => ?_⟩, fun _ group group' hg => ?_⟩
  · exact Tree.row_ne_none hwf hs hr ((Tree.analysis_scope hwf hi v).1.mp hv)
  · exact hreads.value (hexternal hagree) (hg.imp fun _ _ => hexternal)

/-- `OuterApply(t, Filter(u, u.b = t.a + p))` with a parameter `p`. -/
def correlatedTree : Tree :=
  .node 8 .outerApply [.node 0 (.scanTable ⟨0, "t", [0], .empty, none⟩) [],
    .node 7 .filter [.node 1 (.scanTable ⟨1, "u", [1], .empty, none⟩) [],
      .node 6 (.scalar .eq .boolean) [.node 2 (.varRef 1 .int64) [],
        .node 5 (.scalar .plus .int64) [.node 3 (.varRef 0 .int64) [], .node 4 (.varRef 2 .int64) []]]]]

def correlated : Plan := correlatedTree.plan 2 [⟨.column, "t.a", .int64⟩, ⟨.column, "u.b", .int64⟩, ⟨.parameter, "p", .int64⟩]

theorem Plan.references_sound_correlated :
    ∃ i p', info 8 correlated = .ok (i, p') ∧ ∀ (I : Interpretation) (db : Database) (outer outer' : Row),
      (∀ v ∈ i.external, outer.read v = outer'.read v) →
        (correlatedTree.IsRelational → correlatedTree.rows I db outer = correlatedTree.rows I db outer' ∧
          ∀ r ∈ correlatedTree.rows I db outer, ∀ v ∈ i.definitions, r v ≠ none) ∧
        (correlatedTree.IsExpression → ∀ group group' : List Row,
          List.Forall₂ (fun r s => ∀ v ∈ i.external, r.read v = s.read v) group group' →
            (correlatedTree.meaning I db).value outer group = (correlatedTree.meaning I db).value outer' group') := by
  have hn : correlated.tree? 8 = some correlatedTree := rfl
  refine references_sound hn (holds_of_view (by decide) hn) (by decide) ?_
  simp [correlatedTree, Tree.backed_node]

end Planwright
