import Planwright.Proofs.Analysis.RowBounds
import Planwright.Proofs.Semantics.Pushdown

/-! Applies taken apart. An apply is a join where its right side does not see the left row, and what a projection on its right
    side defines can be defined above it, if for a left row without a match it is null there too. -/

namespace Planwright

namespace Row

/-- The rows read the same for each of the variables; for loose ones it is enough that both read null or neither does. -/
def ReadsLike (P loose : VarId → Prop) (r' r : Row) : Prop :=
  ∀ v, P v → r'.read v = r.read v ∨ loose v ∧ (r'.read v).isNull = (r.read v).isNull

variable {a : Value} {r s l : Row} {rows : List Row} {v : VarId} {columns columns' : VarSet}

theorem merge_assoc (r s l : Row) : (r.merge s).merge l = r.merge (s.merge l) := by
  funext v
  rw [merge_apply, merge_apply, merge_apply, merge_apply, Option.or_assoc]

theorem empty_merge (r : Row) : empty.merge r = r := by
  funext v
  exact Option.or_none

theorem read_congr (h : r v = s v) : r.read v = s.read v := by
  rw [read, read, h]

theorem read_of_eq_some (h : r v = some a) : r.read v = a := by
  rw [read, h, Option.getD_some]

theorem merge_of_none (h : s v = none) : r.merge s v = r v := by
  rw [merge_apply, h, Option.none_or]

theorem merge_of_some (h : s v = some a) : r.merge s v = some a := by
  rw [merge_apply, h, Option.some_or]

theorem orNulls_of_ne_nil {found : List Row} (h : found ≠ []) : l.orNulls columns found = found := by
  rw [orNulls, if_neg (by simpa using h)]

theorem forall₂_map_orNulls {R : Row → Row → Prop} {f g top : Row → Row}
    (hnull : R (top (l.merge (nulls columns'))) (l.merge (nulls columns))) (h : ∀ s ∈ rows, R (top (f s)) (g s)) :
    List.Forall₂ R ((l.orNulls columns' (rows.map f)).map top) (l.orNulls columns (rows.map g)) := by
  cases rows with
  | nil => exact .cons hnull .nil
  | cons s rows =>
    show List.Forall₂ R (((s :: rows).map f).map top) ((s :: rows).map g)
    rw [List.map_map]
    exact List.forall₂_map_left_iff.mpr (List.forall₂_map_right_iff.mpr (List.forall₂_same.mpr h))

theorem forall₂_flatMap_same {R : Row → Row → Prop} {f g : Row → List Row}
    (h : ∀ l ∈ rows, List.Forall₂ R (f l) (g l)) : List.Forall₂ R (rows.flatMap f) (rows.flatMap g) :=
  Run.forall₂_flatMap (List.forall₂_same.mpr fun _ _ => rfl) fun l hl _ heq => heq ▸ h l hl

end Row

theorem Meaning.filter_matches (m : Meaning) (outer l : Row) (rows : List Row) :
    (rows.map l.merge).filter (m.holds outer) = (rows.filter (m.holds (outer.merge l))).map l.merge := by
  rw [List.filter_map]
  refine congrArg (List.map _) (List.filter_congr fun r _ => ?_)
  rw [Function.comp_apply, holds, holds, Row.merge_assoc]

namespace Tree

variable {I : Interpretation} {db : Database} {x y q d : Tree} {outer l : Row} {k : Nat} {n n' f g m m' : NodeId} {op : Op}
  {outputs : VarSet}

theorem columns_project : ((node n (.project outputs) [x, d]).meaning I db).columns = outputs := by
  rw [meaning_node]
  rfl

/-! ### Right sides that do not see the left row -/

theorem rows_merge_of_apart (hwf : y.wellFormed) (hs : Scoped (·) y) (hl : l.Within x.binds)
    (h : ∀ u, Uses (·) y u → u ∉ x.binds) : y.rows I db (outer.merge l) = y.rows I db outer :=
  (meaning_reads hwf hs.backed).rows fun u hu => Row.read_congr (Row.merge_of_none (hl.eq_none (h u hu)))

theorem Valid.not_mem_left (ht : Valid k (·) (node n op [x, y])) (hop : op = .crossApply ∨ op = .outerApply) {u : VarId}
    (hu : Uses (·) y u) (hd : ¬Defines (·) x u) : u ∉ x.binds := fun hb => by
  refine ht.closed u ?_ (mem_binds_of_mem (by simp) hb)
  rcases hop with rfl | rfl <;> simp [uses_node, hu, hd]

theorem rows_crossApply_apart (h : ∀ l ∈ x.rows I db outer, y.rows I db (outer.merge l) = y.rows I db outer) :
    (node n' .crossJoin [x, y]).rows I db outer = (node n .crossApply [x, y]).rows I db outer := by
  rw [rows_crossJoin, rows_crossApply]
  exact flatMap_congr rfl fun l hl => by rw [h l hl]

theorem rows_outerApply_of_row (h : ∀ l ∈ x.rows I db outer, y.rows I db (outer.merge l) ≠ []) :
    (node n' .crossApply [x, y]).rows I db outer = (node n .outerApply [x, y]).rows I db outer := by
  rw [rows_crossApply, rows_outerApply]
  refine flatMap_congr rfl fun l hl => ?_
  rw [Row.orNulls_of_ne_nil (by simpa using h l hl)]

/-- An outer apply over a filter is an outer join, and so is one over a relation alone, with a predicate that always holds. -/
theorem rows_outerApply_apart (h : ∀ l ∈ x.rows I db outer, y.rows I db (outer.merge l) = y.rows I db outer) :
    (node n' .leftOuterJoin [x, y, q]).rows I db outer = (node n .outerApply [x, node f .filter [y, q]]).rows I db outer := by
  rw [rows_leftOuterJoin, rows_outerApply, columns_filter]
  exact flatMap_congr rfl fun l hl => by rw [rows_filter, h l hl, Meaning.filter_matches]

theorem rows_crossApply_filter (h : ∀ l ∈ x.rows I db outer, y.rows I db (outer.merge l) = y.rows I db outer) :
    (node n' .innerJoin [x, y, q]).rows I db outer = (node n .crossApply [x, node f .filter [y, q]]).rows I db outer := by
  rw [rows_innerJoin, rows_crossApply]
  exact flatMap_congr rfl fun l hl => by rw [rows_filter, h l hl, Meaning.filter_matches]

theorem rows_filter_true (o : Row) : (node f .filter [y, node n (.constantPredicate true) []]).rows I db o = y.rows I db o := by
  rw [rows_filter]
  exact List.filter_eq_self.mpr fun _ _ => rfl

theorem rows_crossApply_single (h : ∀ o r, (q.meaning I db).holds o r = true) :
    (node n' .outerApply [x, y]).rows I db outer =
      (node n .crossApply [x, node m .leftOuterJoin [node g .singleRowTable [], y, q]]).rows I db outer := by
  rw [rows_outerApply, rows_crossApply]
  refine flatMap_congr rfl fun l _ => ?_
  have hsingle : (node g .singleRowTable []).rows I db (outer.merge l) = [.empty] := rfl
  have hall : ((y.rows I db (outer.merge l)).map Row.empty.merge).filter ((q.meaning I db).holds (outer.merge l)) =
      y.rows I db (outer.merge l) := by
    rw [List.filter_eq_self.mpr fun r _ => h _ r, List.map_congr_left fun r _ => Row.empty_merge r, List.map_id']
  rw [rows_leftOuterJoin, hsingle, List.flatMap_singleton, hall]
  cases y.rows I db (outer.merge l) with
  | nil =>
    show [l.merge _] = [l.merge _]
    rw [Row.empty_merge]
  | cons r rows => rfl

/-! ### Projections above a cross apply -/

theorem rows_crossApply_project (ht : Valid k (·) (node n .crossApply [x, node g (.project outputs) [y, d]])) {shown : VarSet}
    (hshown : ∀ v, Defines (·) x v → v ∈ shown) :
    List.Forall₂ (Row.Agree (Defines (·) (node n .crossApply [x, node g (.project outputs) [y, d]])))
      ((node n' (.project (outputs ∪ shown)) [node m .crossApply [x, y], d]).rows I db outer)
      ((node n .crossApply [x, node g (.project outputs) [y, d]]).rows I db outer) := by
  obtain ⟨-, -, hwfg⟩ := wellFormed_crossApply.mp ht.wellFormed
  obtain ⟨⟨hy, hd⟩, -, hwfd⟩ := wellFormed_project.mp hwfg
  have hg := ht.second
  have hvy := hg.first
  have hx := ht.first
  rw [rows_project, rows_crossApply, rows_crossApply, List.map_flatMap]
  refine Row.forall₂_flatMap_same fun l hl => ?_
  rw [rows_project, List.map_map, List.map_map]
  refine List.forall₂_map_left_iff.mpr (List.forall₂_map_right_iff.mpr (List.forall₂_same.mpr fun s hs v hv => Row.read_congr ?_))
  simp only [Function.comp_apply, Row.only_apply, Row.merge_apply, Row.merge_assoc, VarSet.mem_union]
  by_cases hout : v ∈ outputs
  · rw [if_pos (.inl hout), if_pos hout, Option.or_assoc]
  · -- What the left side defines is bound neither by a row of the right side nor by a definition.
    have hdef : Defines (·) x v := by simpa [defines_node, hout] using hv
    have hno : v ∉ (node g (.project outputs) [y, d]).binds := apart_of_nodup ht.nodup v (mem_binds_of_defines hx.inScope hdef)
    have hs' : s v = none := (hvy.row_within hs).eq_none fun h => hno (mem_binds_of_mem (by simp) h)
    have hd' : (d.meaning I db).bindings (outer.merge (l.merge s)) [] v = none :=
      (within_bindings hwfd hd _ _).eq_none fun h => hno (mem_binds_of_mem (by simp) h)
    rw [if_pos (.inr (hshown v hdef)), if_neg hout, hs', hd']
    rfl

/-! ### Projections above an outer apply -/

section Lift
variable {ds ds' : List Def} {env r : Row} {v : VarId}

theorem project_apply_some (hn : (ds.map Def.var).Nodup) {d : Def} (hd : d ∈ ds) (hv : d.var ∈ outputs) :
    (r.merge (((defs m ds).meaning I db).bindings env [])).only outputs d.var = some ((d.expr.meaning I db).value env []) := by
  rw [Row.only_apply, if_pos hv, Row.merge_of_some (bindings_defs_some hn hd)]

theorem project_apply_none (hno : v ∉ ds.map Def.var) (hv : v ∈ outputs) :
    (r.merge (((defs m ds).meaning I db).bindings env [])).only outputs v = r v := by
  rw [Row.only_apply, if_pos hv, Row.merge_of_none (bindings_defs_none hno)]

variable (I db) in
/-- The rows of a relation with columns added that are none of the first `k` variables. -/
structure Widens (k : Nat) (y : Tree) (columns : VarSet) (wide : Row → Row) : Prop where
  columns : ∀ v < k, v ∈ columns ↔ Defines (·) y v
  same : ∀ o, ∀ s ∈ y.rows I db o, ∀ v < k, Defines (·) y v ∨ v ∉ y.binds → wide s v = s v

theorem Widens.refl (hwf : y.wellFormed) (hy : y.IsRelational) : Widens I db k y (y.meaning I db).columns (·) where
  columns _ _ := mem_columns hwf hy
  same _ _ _ _ _ _ := rfl

variable (I db) in
/-- A definition above an outer apply: it is null for a left row without a match, and has for a match the value that it has
    below. -/
structure Lifts (loose : VarId → Prop) (x y : Tree) (outer : Row) (columns : VarSet) (wide : Row → Row) (d d' : Def) : Prop where
  var : d'.var = d.var
  missing : ∀ l ∈ x.rows I db outer, (d'.expr.meaning I db).value (outer.merge (l.merge (Row.nulls columns))) [] = .null
  found : ∀ l ∈ x.rows I db outer, ∀ s ∈ y.rows I db (outer.merge l),
    (d'.expr.meaning I db).value (outer.merge (l.merge (wide s))) [] = (d.expr.meaning I db).value ((outer.merge l).merge s) [] ∨
      loose d.var ∧ ((d'.expr.meaning I db).value (outer.merge (l.merge (wide s))) []).isNull =
        ((d.expr.meaning I db).value ((outer.merge l).merge s) []).isNull

/-- What an expression on the right uses is not hidden by added columns. -/
theorem Widens.value_eq {columns : VarSet} {wide : Row → Row} (h : Widens I db k y columns wide)
    (hg : Valid k (·) (node g (.project outputs) [y, defs m ds])) {d : Def} (hd : d ∈ ds) {o s : Row} (hs : s ∈ y.rows I db o) :
    (d.expr.meaning I db).value (outer.merge (l.merge (wide s))) [] = (d.expr.meaning I db).value ((outer.merge l).merge s) [] := by
  have hds := hg.second
  have hwf := (wellFormed_defs.mp hds.wellFormed d hd).2
  refine (meaning_reads hwf (scoped_defs.mp hds.inScope d hd).backed).value (fun u hu => ?_) .nil
  have hu' : Uses (·) (defs m ds) u := uses_defs.mpr ⟨d, hd, hu⟩
  have hsame : wide s u = s u := by
    refine h.same o s hs u (hds.uses_lt u hu') ?_
    by_cases hdef : Defines (·) y u
    · exact .inl hdef
    · refine .inr fun hb => hg.closed u ?_ (mem_binds_of_mem (by simp) hb)
      rw [uses_node]
      exact .inr ⟨1, defs m ds, rfl, hu', fun j e he hsees => by
        obtain rfl : j = 0 := by simpa using hsees
        cases he
        exact hdef⟩
  rw [Row.merge_assoc]
  refine Row.read_congr ?_
  rw [Row.merge_apply, Row.merge_apply, Row.merge_apply, Row.merge_apply, hsame]

theorem Valid.defines_output (hg : Valid k (·) (node g (.project outputs) [y, defs m ds])) (hv : v ∈ outputs)
    (hno : v ∉ ds.map Def.var) : Defines (·) y v := by
  obtain ⟨-, hneeds, -⟩ := scoped_node.mp hg.inScope
  have hdef : Defines (·) y v ∨ Defines (·) (defs m ds) v := by simpa using hneeds (v, [0, 1]) (by simpa using hv)
  exact hdef.resolve_right fun hd => hno (by simpa using hd)

theorem vars_mem_binds (hv : v ∈ ds.map Def.var) : v ∈ (node g (.project outputs) [y, defs m ds]).binds := by
  refine mem_binds_of_mem (c := defs m ds) (by simp) ?_
  rw [binds_defs]
  exact (vars_sublist ds).subset hv

theorem Valid.left_apart (ht : Valid k (·) (node n op [x, node g (.project outputs) [y, defs m ds]])) (hv : Defines (·) x v) :
    v ∉ ds.map Def.var ∧ v ∉ y.binds := by
  have hx := ht.first
  have hno := apart_of_nodup ht.nodup v (mem_binds_of_defines hx.inScope hv)
  exact ⟨fun hmem => hno (vars_mem_binds hmem), fun hmem => hno (mem_binds_of_mem (by simp) hmem)⟩

section Rows
variable {loose : VarId → Prop} {columns shown : VarSet} {wide : Row → Row}
  (ht : Valid k (·) (node n .outerApply [x, node g (.project outputs) [y, defs m ds]])) (hshown : ∀ v, Defines (·) x v → v ∈ shown)
  (hwide : Widens I db k y columns wide) (h : List.Forall₂ (Lifts I db loose x y outer columns wide) ds ds')
include ht hshown hwide h

omit ht hshown hwide in
theorem vars_of_lifts : ds'.map Def.var = ds.map Def.var := by
  refine List.forall₂_eq_eq_eq ▸ ?_
  exact List.forall₂_map_left_iff.mpr (List.forall₂_map_right_iff.mpr (h.flip.imp fun _ _ hd => hd.var))

theorem read_missing (hl : l ∈ x.rows I db outer)
    (hv : Defines (·) (node n .outerApply [x, node g (.project outputs) [y, defs m ds]]) v) :
    (((l.merge (Row.nulls columns)).merge (((defs m' ds').meaning I db).bindings (outer.merge (l.merge (Row.nulls columns))) [])).only
      (outputs ∪ shown)).read v = (l.merge (Row.nulls outputs)).read v := by
  have hg := ht.second
  have hvy := hg.first
  have hn : (ds.map Def.var).Nodup := nodup_vars hg (i := 1) rfl
  have hvars := vars_of_lifts h
  have hlt : v < k := ht.binds_lt v (mem_binds_of_defines ht.inScope hv)
  by_cases hout : v ∈ outputs
  · have hnull : (l.merge (Row.nulls outputs)).read v = .null := Row.read_of_eq_some (Row.merge_of_some (by simp [hout]))
    rw [hnull]
    by_cases hmem : v ∈ ds.map Def.var
    · obtain ⟨d', hd', rfl⟩ := List.mem_map.mp (hvars ▸ hmem)
      obtain ⟨d, -, hlift⟩ := Run.exists_of_forall₂_right h hd'
      rw [Row.read_of_eq_some (project_apply_some (hvars ▸ hn) hd' (VarSet.mem_union.mpr (.inl hout))), hlift.missing l hl]
    · have hcol := (hwide.columns v hlt).mpr (hg.defines_output hout hmem)
      rw [Row.read_congr (project_apply_none (hvars ▸ hmem) (VarSet.mem_union.mpr (.inl hout)))]
      exact Row.read_of_eq_some (Row.merge_of_some (by simp [hcol]))
  · have hdef : Defines (·) x v := by simpa [defines_node, hout] using hv
    obtain ⟨hno, hnb⟩ := ht.left_apart hdef
    have hcol : v ∉ columns := fun hmem => hnb (mem_binds_of_defines hvy.inScope ((hwide.columns v hlt).mp hmem))
    refine Row.read_congr ?_
    rw [project_apply_none (hvars ▸ hno) (VarSet.mem_union.mpr (.inr (hshown v hdef))), Row.merge_of_none (by simp [hcol]),
      Row.merge_of_none (by simp [hout])]

theorem resembles_found (hl : l ∈ x.rows I db outer) {s : Row} (hs : s ∈ y.rows I db (outer.merge l)) :
    Row.ReadsLike (Defines (·) (node n .outerApply [x, node g (.project outputs) [y, defs m ds]])) loose
      (((l.merge (wide s)).merge (((defs m' ds').meaning I db).bindings (outer.merge (l.merge (wide s))) [])).only (outputs ∪ shown))
      (l.merge ((s.merge (((defs m ds).meaning I db).bindings ((outer.merge l).merge s) [])).only outputs)) := by
  intro v hv
  have hg := ht.second
  have hvy := hg.first
  obtain ⟨⟨hy, -⟩, -, -⟩ := wellFormed_project.mp hg.wellFormed
  have hn : (ds.map Def.var).Nodup := nodup_vars hg (i := 1) rfl
  have hvars := vars_of_lifts h
  have hlt : v < k := ht.binds_lt v (mem_binds_of_defines ht.inScope hv)
  by_cases hout : v ∈ outputs
  · by_cases hmem : v ∈ ds.map Def.var
    · obtain ⟨d', hd', rfl⟩ := List.mem_map.mp (hvars ▸ hmem)
      obtain ⟨d, hd, hlift⟩ := Run.exists_of_forall₂_right h hd'
      have hbelow : ((s.merge (((defs m ds).meaning I db).bindings ((outer.merge l).merge s) [])).only outputs) d'.var =
          some ((d.expr.meaning I db).value ((outer.merge l).merge s) []) := by
        rw [hlift.var] at hout ⊢
        exact project_apply_some hn hd hout
      rw [Row.read_of_eq_some (project_apply_some (hvars ▸ hn) hd' (VarSet.mem_union.mpr (.inl hout))),
        Row.read_of_eq_some (Row.merge_of_some hbelow), hlift.var]
      exact hlift.found l hl s hs
    · have hsame := hwide.same _ s hs v hlt (.inl (hg.defines_output hout hmem))
      refine .inl (Row.read_congr ?_)
      rw [project_apply_none (hvars ▸ hmem) (VarSet.mem_union.mpr (.inl hout)), Row.merge_apply, Row.merge_apply,
        project_apply_none hmem hout, hsame]
  · have hdef : Defines (·) x v := by simpa [defines_node, hout] using hv
    obtain ⟨hno, hnb⟩ := ht.left_apart hdef
    have hnone : s v = none := (hvy.row_within hs).eq_none hnb
    have hsame := hwide.same _ s hs v hlt (.inr hnb)
    refine .inl (Row.read_congr ?_)
    rw [project_apply_none (hvars ▸ hno) (VarSet.mem_union.mpr (.inr (hshown v hdef))), Row.merge_of_none (hsame.trans hnone),
      Row.merge_of_none (by simp [hout])]

theorem rows_outerApply_project {a : Tree} (ha : a.rows I db outer = (x.rows I db outer).flatMap fun l =>
      l.orNulls columns ((y.rows I db (outer.merge l)).map fun s => l.merge (wide s))) :
    List.Forall₂ (Row.ReadsLike (Defines (·) (node n .outerApply [x, node g (.project outputs) [y, defs m ds]])) loose)
      ((node n' (.project (outputs ∪ shown)) [a, defs m' ds']).rows I db outer)
      ((node n .outerApply [x, node g (.project outputs) [y, defs m ds]]).rows I db outer) := by
  rw [rows_project, ha, List.map_flatMap, rows_outerApply]
  refine Row.forall₂_flatMap_same fun l hl => ?_
  rw [columns_project, rows_project, List.map_map]
  exact Row.forall₂_map_orNulls (fun v hv => .inl (read_missing ht hshown hwide h hl hv)) fun s hs =>
    resembles_found ht hshown hwide h hl hs

end Rows

end Lift

/-! ### Constants below a join -/

section Below
variable {d : Def} {s : Row} {v : VarId} {needed : VarSet}

theorem Valid.not_mem_vars {ds : List Def} (hg : Valid k (·) (node g (.project outputs) [node f .filter [y, q], defs m ds]))
    (hu : Uses (·) q v) : v ∉ ds.map Def.var := by
  intro hmem
  have hf := hg.first
  rcases hf.defines_or hu with hdef | hnb
  · have hvy := hf.first
    refine apart_of_nodup hg.nodup v (mem_binds_of_mem (by simp) (mem_binds_of_defines hvy.inScope hdef)) ?_
    rw [binds_defs]
    exact (vars_sublist ds).subset hmem
  · have hvy := hf.first
    have hno : ¬Defines (·) y v := fun hdef => hnb (mem_binds_of_defines hvy.inScope hdef)
    refine hg.closed v ?_ (vars_mem_binds hmem)
    simp [uses_node, hu, hno]

/-- A predicate sees below a projection what it sees above, if the projection shows what it needs. -/
theorem holds_projected (hg : Valid k (·) (node g (.project outputs) [node f .filter [y, q], defs m [d]]))
    (hneeded : ∀ v, v ∈ needed ↔ Uses (·) q v ∧ Defines (·) y v) {o env : Row} (hs : s ∈ y.rows I db o) :
    (q.meaning I db).holds outer ((s.merge (((defs m [d]).meaning I db).bindings env [])).only (outputs ∪ needed)) =
      (q.meaning I db).holds outer s := by
  have hf := hg.first
  have hvy := hf.first
  have hq := hf.second
  obtain ⟨⟨hy, -⟩, -, -⟩ := wellFormed_filter.mp hf.wellFormed
  refine holds_congr hq.wellFormed hq.inScope fun u hu => read_merge_congr ?_
  have hno := hg.not_mem_vars hu
  rcases hf.defines_or hu with hdef | hnb
  · exact project_apply_none hno (VarSet.mem_union.mpr (.inr ((hneeded u).mpr ⟨hu, hdef⟩)))
  · have hnone : s u = none := (hvy.row_within hs).eq_none hnb
    by_cases hmem : u ∈ outputs ∪ needed
    · exact project_apply_none hno hmem
    · rw [Row.only_apply, if_neg hmem, hnone]

/-- A constant is defined below an outer join as well as on the right side of an outer apply. -/
theorem rows_outerApply_constant
    (ht : Valid k (·) (node n .outerApply [x, node g (.project outputs) [node f .filter [y, q], defs m [d]]]))
    (hconst : ∀ env env', (d.expr.meaning I db).value env [] = (d.expr.meaning I db).value env' [])
    (h : ∀ l ∈ x.rows I db outer, y.rows I db (outer.merge l) = y.rows I db outer)
    (hneeded : ∀ v, v ∈ needed ↔ Uses (·) q v ∧ Defines (·) y v) :
    List.Forall₂ (Row.Agree (Defines (·) (node n .outerApply [x, node g (.project outputs) [node f .filter [y, q], defs m [d]]])))
      ((node n' .leftOuterJoin [x, node m' (.project (outputs ∪ needed)) [y, defs m [d]], q]).rows I db outer)
      ((node n .outerApply [x, node g (.project outputs) [node f .filter [y, q], defs m [d]]]).rows I db outer) := by
  have hg := ht.second
  have hvy := hg.first.first
  -- The variables of the left side are not shown on the right.
  have hleft : ∀ v, v ∉ outputs →
      Defines (·) (node n .outerApply [x, node g (.project outputs) [node f .filter [y, q], defs m [d]]]) v → v ∉ outputs ∪ needed := by
    intro v hout hv hmem
    have hdef : Defines (·) x v := by simpa [defines_node, hout] using hv
    refine (ht.left_apart hdef).2 (mem_binds_of_mem (by simp) (mem_binds_of_defines hvy.inScope ?_))
    exact ((hneeded v).mp ((VarSet.mem_union.mp hmem).resolve_left hout)).2
  rw [rows_leftOuterJoin, rows_outerApply, columns_project, columns_project]
  refine Row.forall₂_flatMap_same fun l hl => Row.forall₂_orNulls (fun v hv => Row.read_congr ?_) ?_
  · by_cases hout : v ∈ outputs
    · rw [Row.merge_of_some (a := .null) (by simp [hout]), Row.merge_of_some (a := .null) (by simp [hout])]
    · have := hleft v hout hv
      rw [Row.merge_of_none (by simp [this]), Row.merge_of_none (by simp [hout])]
  · have hkept : (y.rows I db outer).filter ((q.meaning I db).holds (outer.merge l) ∘ fun s =>
        (s.merge (((defs m [d]).meaning I db).bindings (outer.merge s) [])).only (outputs ∪ needed)) =
          (y.rows I db outer).filter ((q.meaning I db).holds (outer.merge l)) :=
      List.filter_congr fun s hs => holds_projected hg hneeded hs
    rw [Meaning.filter_matches, rows_project, rows_project, rows_filter, h l hl, List.filter_map, hkept, List.map_map, List.map_map]
    refine List.forall₂_map_left_iff.mpr (List.forall₂_map_right_iff.mpr (List.forall₂_same.mpr fun s _ v hv => Row.read_congr ?_))
    rw [Function.comp_apply, Function.comp_apply, Row.merge_apply, Row.merge_apply]
    refine congrArg (Option.or · (l v)) ?_
    by_cases hout : v ∈ outputs
    · by_cases hd : v = d.var
      · subst hd
        rw [project_apply_some (by simp) (by simp) (VarSet.mem_union.mpr (.inl hout)), project_apply_some (by simp) (by simp) hout,
          hconst]
      · rw [project_apply_none (by simpa using hd) (VarSet.mem_union.mpr (.inl hout)), project_apply_none (by simpa using hd) hout]
    · rw [Row.only_apply, Row.only_apply, if_neg hout, if_neg (hleft v hout hv)]

end Below

/-! ### Elements -/

section Element
variable {h : NodeId} {old new : VarId} {shown : VarSet} {e : Tree} {s : Row}
variable {type : ScalarType} {env : Row}

theorem read_element (ht : Valid k (·) (node n op [x, y])) (hop : op = .crossApply ∨ op = .outerApply)
    (hold : ∀ v, Defines (·) y v ↔ v = old) (hnew : new ∉ x.binds) (hshown : ∀ v, Defines (·) x v → v ∈ shown)
    (hs : s.Within y.binds) (hvalue : s old = some ((e.meaning I db).value (outer.merge l) [])) {v : VarId}
    (hv : Defines (·) (node n op [x, y]) v) :
    ((l.merge (((defs m [⟨h, new, e⟩]).meaning I db).bindings (outer.merge l) [])).only (shown.insert new)).read
      (if v = old then new else v) = (l.merge s).read v := by
  have hx := ht.first
  have hdef : Defines (·) x v ∨ v = old := by
    rw [← hold]
    rcases hop with rfl | rfl <;> simpa [defines_node] using hv
  by_cases heq : v = old
  · subst heq
    rw [if_pos rfl, Row.read_of_eq_some (project_apply_some (d := ⟨h, new, e⟩) (by simp) (by simp) (by simp)),
      Row.read_of_eq_some (Row.merge_of_some hvalue)]
  · have hmem := hdef.resolve_right heq
    have hb := mem_binds_of_defines hx.inScope hmem
    have hne : v ≠ new := fun h => hnew (h ▸ hb)
    rw [if_neg heq]
    refine Row.read_congr ?_
    rw [project_apply_none (by simpa using hne) (by simp [hshown v hmem]),
      Row.merge_of_none (hs.eq_none (apart_of_nodup ht.nodup v hb))]

/-- An apply whose right side has a single column and at most one row is a projection that defines an element. -/
theorem rows_apply_element (ht : Valid k (·) (node n op [x, y])) (hop : op = .crossApply ∨ op = .outerApply)
    (hold : ∀ v, Defines (·) y v ↔ v = old) (hnew : new ∉ x.binds) (hshown : ∀ v, Defines (·) x v → v ∈ shown)
    (hone : ∀ o, (y.rows I db o).length ≤ 1) (hrow : op = .crossApply → ∀ o, y.rows I db o ≠ [])
    (hvalue : ∀ l ∈ x.rows I db outer, (e.meaning I db).value (outer.merge l) [] =
      (((y.rows I db (outer.merge l)).head?.map (·.read old)).getD .null)) :
    List.Forall₂ (fun r' r => ∀ v, Defines (·) (node n op [x, y]) v → r'.read (if v = old then new else v) = r.read v)
      ((node n' (.project (shown.insert new)) [x, defs m [⟨h, new, e⟩]]).rows I db outer) ((node n op [x, y]).rows I db outer) := by
  have hvy := ht.second
  have hy : y.IsRelational := by
    rcases hop with rfl | rfl
    · exact (wellFormed_crossApply.mp ht.wellFormed).1.2
    · exact (wellFormed_outerApply.mp ht.wellFormed).1.2
  have hcol : ∀ v, v ∈ (y.meaning I db).columns ↔ v = old := fun v => (mem_columns hvy.wellFormed hy).trans (hold v)
  -- For a left row there is its one match, or a row of nulls.
  have hfound : ∀ l ∈ x.rows I db outer, ∃ s : Row, s.Within y.binds ∧ s old = some ((e.meaning I db).value (outer.merge l) []) ∧
      (if op = .crossApply then (y.rows I db (outer.merge l)).map l.merge
        else l.orNulls (y.meaning I db).columns ((y.rows I db (outer.merge l)).map l.merge)) = [l.merge s] := by
    intro l hl
    rw [hvalue l hl]
    cases hrows : y.rows I db (outer.merge l) with
    | nil =>
      refine ⟨.nulls (y.meaning I db).columns, .nulls (columns_mem_binds hvy.wellFormed hy hvy.inScope.backed), ?_, ?_⟩
      · simp [hcol]
      · rw [if_neg fun hcross => hrow hcross _ hrows]
        rfl
    | cons s rest =>
      have hmem : s ∈ y.rows I db (outer.merge l) := hrows ▸ List.mem_cons_self
      obtain rfl : rest = [] := by
        have := hone (outer.merge l)
        rw [hrows, List.length_cons] at this
        exact List.length_eq_zero_iff.mp (by omega)
      refine ⟨s, hvy.row_within hmem, ?_, ?_⟩
      · obtain ⟨a, ha⟩ := Option.ne_none_iff_exists'.mp (hvy.row_ne_none hmem ((hold old).mpr rfl))
        simp [Row.read, ha]
      · split <;> rfl
  have hrows : (node n op [x, y]).rows I db outer = (x.rows I db outer).flatMap fun l =>
      if op = .crossApply then (y.rows I db (outer.merge l)).map l.merge
        else l.orNulls (y.meaning I db).columns ((y.rows I db (outer.merge l)).map l.merge) := by
    rcases hop with rfl | rfl
    · rw [rows_crossApply]
      rfl
    · rw [rows_outerApply]
      rfl
  rw [hrows, rows_project, ← List.flatMap_pure_eq_map]
  refine Row.forall₂_flatMap_same fun l hl => ?_
  obtain ⟨s, hs, hsome, heq⟩ := hfound l hl
  rw [heq]
  exact .cons (fun v hv => read_element ht hop hold hnew hshown hs hsome hv) .nil

theorem value_element : ((node n (.scalar .element type) [y]).meaning I db).value env [] =
    match y.rows I db env, (y.meaning I db).columns.first? with
    | r :: _, some v => r.read v
    | _, _ => .null := by
  rw [meaning_node]
  rfl

theorem value_element_copy {N : VarId → Prop} {μ : VarId → VarId} {y' : Tree}
    (hm : (y.meaning I db).Mirrors N (Uses (·) y) μ (y'.meaning I db))
    (hcols : Op.IsImage μ (y.meaning I db).columns (y'.meaning I db).columns) (hwf : y.wellFormed) (hy : y.IsRelational)
    (hold : ∀ v, Defines (·) y v ↔ v = old) (hN : N old) (hfix : ∀ u, Uses (·) y u → μ u = u) :
    ((node n (.scalar .element type) [y']).meaning I db).value env [] = ((y.rows I db env).head?.map (·.read old)).getD .null := by
  have hcol : ∀ w, w ∈ (y'.meaning I db).columns ↔ w = μ old := fun w => by
    rw [hcols w]
    simp [mem_columns hwf hy, hold, eq_comm]
  have hrows : List.Forall₂ (Row.Mirrors N μ) (y.rows I db env) (y'.rows I db env) := hm.rows fun u hu => by rw [hfix u hu]
  rw [value_element, first?_eq_of_iff hcol]
  generalize y.rows I db env = rows, y'.rows I db env = rows' at hrows
  cases hrows with
  | nil => rfl
  | cons hr _ => exact hr.echoes hN

end Element

end Tree

end Planwright
