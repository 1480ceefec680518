import Planwright.Proofs.Semantics.Likeness

/-! What mirrors mean. A tree under other names has the same rows under these names, and the same values, wherever the
    variables that it uses read the same. -/

namespace Planwright

open Op

namespace Row

variable {N : VarId → Prop} {μ : VarId → VarId} {r r' : Row}

/-- The second row binds under their new names what the first binds of the variables. -/
def Mirrors (N : VarId → Prop) (μ : VarId → VarId) (r r' : Row) : Prop := ∀ v, N v → r' (μ v) = r v

theorem Mirrors.echoes (h : Mirrors N μ r r') {v : VarId} (hv : N v) : r'.read (μ v) = r.read v := by rw [read, read, h v hv]

theorem mirrors_iff : Resembles ⟨Eq, N, μ⟩ r r' ↔ Mirrors N μ r r' := by
  refine forall₂_congr fun v _ => ?_
  cases r v <;> cases r' (μ v) <;> simp [eq_comm]

end Row

/-- Sorting looks at nothing but the values of the keys: rows with the same values in the same directions are put into the
    same order. -/
def Interpretation.SortsByValue (I : Interpretation) : Prop :=
  ∀ (keys keys' : List SortKey) (pairs : List (Row × Row)), keys'.map (·.ascending) = keys.map (·.ascending) →
    (∀ x ∈ pairs, (keys'.map fun k => x.2.read k.var) = keys.map fun k => x.1.read k.var) →
    ∃ sorted : List (Row × Row), sorted.Perm pairs ∧ I.arrange keys (pairs.map (·.1)) = sorted.map (·.1) ∧
      I.arrange keys' (pairs.map (·.2)) = sorted.map (·.2)

/-- A stable sort by an order on the values of the keys, each with its direction, looks at nothing else. -/
theorem Interpretation.sortsByValue_of_mergeSort {I : Interpretation} {le : List (Bool × Value) → List (Bool × Value) → Bool}
    (h : ∀ keys rows, I.arrange keys rows = rows.mergeSort fun r s =>
      le (keys.map fun k => (k.ascending, r.read k.var)) (keys.map fun k => (k.ascending, s.read k.var))) : I.SortsByValue := by
  intro keys keys' pairs hdirections hvalues
  have hkeys : ∀ x ∈ pairs, (keys'.map fun k => (k.ascending, x.2.read k.var)) = keys.map fun k => (k.ascending, x.1.read k.var) :=
    fun x hx => by rw [← List.zip_map', ← List.zip_map', hdirections, hvalues x hx]
  refine ⟨pairs.mergeSort fun x y =>
    le (keys.map fun k => (k.ascending, x.1.read k.var)) (keys.map fun k => (k.ascending, y.1.read k.var)),
    List.mergeSort_perm _ _, ?_, ?_⟩
  · rw [h, List.map_mergeSort]
    exact fun _ _ _ _ => rfl
  · rw [h, List.map_mergeSort]
    exact fun x hx y hy => by rw [hkeys x hx, hkeys y hy]

theorem Interpretation.SortsByValue.arranges {I : Interpretation} (hI : I.SortsByValue) (N : VarId → Prop) (μ : VarId → VarId) :
    I.Arranges ⟨Eq, N, μ⟩ := by
  intro keys rs rs' hkeys h
  obtain ⟨hlen, hpairs⟩ := List.forall₂_iff_zip.mp h
  obtain ⟨sorted, hperm, hleft, hright⟩ := hI keys (keys.map (SortKey.under μ)) (rs.zip rs') (by simp [SortKey.under]) fun x hx => by
    rw [List.map_map]
    exact List.map_congr_left fun k hk => ((hpairs hx).echoes rfl k.var (hkeys k hk)).symm
  rw [List.map_fst_zip (Nat.le_of_eq hlen)] at hleft
  rw [List.map_snd_zip (Nat.le_of_eq hlen.symm)] at hright
  rw [hleft, hright, List.forall₂_map_left_iff, List.forall₂_map_right_iff, List.forall₂_same]
  exact fun x hx => hpairs (hperm.mem_iff.mp hx)

/-- The second meaning is the first under other names, wherever the variables in `U` read the same. -/
structure Meaning.Mirrors (N U : VarId → Prop) (μ : VarId → VarId) (m m' : Meaning) : Prop where
  rows : ∀ {outer outer' : Row}, (∀ u, U u → outer'.read (μ u) = outer.read u) →
    List.Forall₂ (Row.Mirrors N μ) (m.rows outer) (m'.rows outer')
  value : ∀ {env env' : Row} {group group' : List Row}, (∀ u, U u → env'.read (μ u) = env.read u) →
    List.Forall₂ (fun r r' => ∀ u, U u → r'.read (μ u) = r.read u) group group' → m'.value env' group' = m.value env group

namespace Tree

variable {I : Interpretation} {db : Database} {N : VarId → Prop} {μ : VarId → VarId}

section Mirrors
variable {t t' : Tree} (hμ : Distinguishes N μ) (h : t.Mirrors μ t') (ht : t.wellFormed)
  (hI : ∀ s ∈ t.subtrees, s.kind = .constrainedSort → I.SortsByValue) (hs : Scoped (·) t) (hsingle : t.Singular)
  (hN : ∀ s ∈ t.subtrees, ∀ v ∈ s.op.names, N v)
include hμ h ht hI hs hsingle hN

theorem resembles_of_mirrors : (t.IsRelational → IsImage μ (t.meaning I db).columns (t'.meaning I db).columns) ∧
    ∀ s s', Spot.Echoes ⟨Eq, N, μ⟩ (Reads False t) s s' → (t.meaning I db).Resembles ⟨Eq, N, μ⟩ (t'.meaning I db) s s' :=
  resembles_of_parallels I.respects_eq (Reading.respects_eq _) hμ False.elim (h.parallels (g := ⟨Eq, N, μ⟩)) ht (.inl hs.backed) hN
    (fun s hs hk => (hI s hs hk).arranges N μ) (.inl hsingle)

theorem columns_mirrors (hrel : t.IsRelational) : IsImage μ (t.meaning I db).columns (t'.meaning I db).columns :=
  (resembles_of_mirrors hμ h ht hI hs hsingle hN).1 hrel

theorem meaning_mirrors : (t.meaning I db).Mirrors N (Uses (·) t) μ (t'.meaning I db) where
  rows {outer outer'} he := by
    have hecho : Spot.Echoes ⟨Eq, N, μ⟩ (Reads False t) ⟨outer, []⟩ ⟨outer', []⟩ := ⟨fun v hv => (he v hv.uses).symm, .nil⟩
    exact ((resembles_of_mirrors hμ h ht hI hs hsingle hN).2 _ _ hecho).rows.imp fun _ _ => Row.mirrors_iff.mp
  value {env env' group group'} he hg := by
    have hecho : Spot.Echoes ⟨Eq, N, μ⟩ (Reads False t) ⟨env, group⟩ ⟨env', group'⟩ :=
      ⟨fun v hv => (he v hv.uses).symm, hg.imp fun _ _ hr v hv => (hr v hv.uses).symm⟩
    exact ((resembles_of_mirrors hμ h ht hI hs hsingle hN).2 _ _ hecho).value.symm

end Mirrors

theorem kind_ne_element {id : NodeId} {op : Op} {cs : List Tree} (h : (node id op cs).isScalar)
    (hwf : (node id op cs).wellFormed) : op.kind ≠ .element := by
  obtain ⟨-, hcs⟩ := isScalar_node.mp h
  cases shape_of_fits (wellFormed_node.mp hwf).1 with
  | @element type input hi => exact absurd hi (not_isRelational_of_isScalar (isExpression_of_isScalar (hcs input (by simp))))
  | scalar _ hne _ _ => exact hne
  | combine kind => cases kind <;> nofun
  | _ => nofun

theorem singular_of_isScalar {t : Tree} (h : t.isScalar) (hwf : t.wellFormed) : t.Singular := by
  induction t using induct with
  | node id op cs ih =>
    refine singular_node.mpr ⟨fun hk => absurd hk (kind_ne_element h hwf), fun c hc => ?_⟩
    exact ih c hc ((isScalar_node.mp h).2 c hc) ((wellFormed_node.mp hwf).2 c hc)

theorem Mirrors.value_eq {e e' : Tree} (h : e.Mirrors (·) e') (hs : e.isScalar) (hwf : e.wellFormed) (env : Row)
    (group : List Row) : (e'.meaning I db).value env group = (e.meaning I db).value env group := by
  have hmirrors : (e.meaning I db).Mirrors (fun _ => True) (Uses (·) e) (·) (e'.meaning I db) := by
    refine meaning_mirrors (fun _ _ _ _ heq => heq) h hwf (fun s hmem hk => ?_) (scoped_of_isScalar hs)
      (singular_of_isScalar hs hwf) fun _ _ _ _ => trivial
    have := isScalar_of_mem_subtrees hs hmem
    rw [hk] at this
    cases this
  exact hmirrors.value (fun _ _ => rfl) (List.forall₂_same.mpr fun _ _ _ _ => rfl)

theorem Mirrors.uses_iff {e e' : Tree} {u : VarId} (h : e.Mirrors (·) e') (hs : e.isScalar) :
    Uses (·) e' u ↔ Uses (·) e u := by
  induction e using induct generalizing e' with
  | node id op cs ih =>
    obtain ⟨hop, hcs⟩ := isScalar_node.mp hs
    cases h with
    | @node _ id' _ op' _ cs' ho hargs =>
      have hbelow : (∃ c' ∈ cs', Uses (·) c' u) ↔ ∃ c ∈ cs, Uses (·) c u := by
        constructor
        · rintro ⟨c', hc', hu⟩
          obtain ⟨c, hc, h⟩ := Run.exists_of_forall₂_right hargs hc'
          exact ⟨c, hc, (ih c hc h (hcs c hc)).mp hu⟩
        · rintro ⟨c, hc, hu⟩
          obtain ⟨c', hc', h⟩ := Run.exists_of_forall₂_right hargs.flip hc
          exact ⟨c', hc', (ih c hc h (hcs c hc)).mpr hu⟩
      have hop' : op'.kind.isScalar := by cases ho <;> exact hop
      have href : (∃ w type, op' = .varRef w type ∧ w = u) ↔ ∃ w type, op = .varRef w type ∧ w = u := by
        cases ho <;> simp
      rw [uses_of_isScalar hop', uses_of_isScalar hop, hbelow]
      exact or_congr_left href

end Tree

end Planwright
