import Planwright.Proofs.Rule.Meaning.Apply

/-! What rules on projections and distincts mean. The rule makes a tree with the rows of the old one, where the
    analysis of the input is right. A column that is dropped in favour of another is read under the name
    recorded for it, and of a null sentinel only whether it is null is kept. -/

namespace Planwright

open Run Planwright.Tree Plan Rules

theorem Row.firsts_of_pairwise {κ : Type} [DecidableEq κ] {key : Row → κ} {rs : List Row}
    (h : rs.Pairwise fun r s => key r ≠ key s) : firsts key rs = rs := by
  induction h with
  | nil => rfl
  | @cons r rs hr _ ih =>
    rw [firsts, ih, List.filter_eq_self.mpr fun s hs => ?_]
    simpa using (hr s hs).symm

namespace Tree

variable {I : Interpretation} {db : Database} {x : Tree} {outer r : Row} {k : Nat} {n n' m m' : NodeId} {outputs keys : VarSet}
  {ds : List Def} {v w : VarId}
variable {t' : Tree} {i : Info}

/-! ### Where the analysis is right -/

variable (I db) in
/-- The analysis is right about the rows of a relation: no column is null that is never null by it, and no two rows have the
    same marks on its keys. -/
structure Described (x : Tree) (outer : Row) : Prop where
  nonNullable : ∀ i, x.analysis = .ok i → ∀ r ∈ x.rows I db outer, ∀ v ∈ i.nonNullable, (r.read v).isNull = false
  keys : ∀ i known, x.analysis = .ok i → i.keys = some known → (x.rows I db outer).Pairwise fun r s =>
    r.marks I.mark known.toList ≠ s.marks I.mark known.toList

/-- The new tree has the rows of the old one, each column read under the name that is recorded for it, where the analysis of
    the input is right. -/
def PreservesOver (m : VarMap) (t t' : Tree) : Prop :=
  ∀ (I : Interpretation) (db : Database) (outer : Row), (∀ x ∈ t.children.head?, Described I db x outer) →
    List.Forall₂ (fun r' r => ∀ v, Defines (·) t v → r'.read ((m.get? v).getD v) = r.read v ∨
      DefinesSentinel t v ∧ (r'.read ((m.get? v).getD v)).isNull = (r.read v).isNull) (t'.rows I db outer) (t.rows I db outer)

theorem preservesOver_of_eq {t t' : Tree} (h : ∀ (I : Interpretation) (db : Database) (outer : Row),
    t'.rows I db outer = t.rows I db outer) : PreservesOver .empty t t' := fun I db outer _ => by
  rw [h]
  exact List.forall₂_same.mpr fun _ _ _ _ => .inl rfl

theorem preservesOver_of_map {mm : VarMap} {t t' : Tree} (hx : t.children.head? = some x)
    (ht : ∀ (I : Interpretation) (db : Database) (outer : Row), Described I db x outer → ∃ f f' : Row → Row,
      t.rows I db outer = (x.rows I db outer).map f ∧ t'.rows I db outer = (x.rows I db outer).map f' ∧
      ∀ r ∈ x.rows I db outer, ∀ v, Defines (·) t v → (f' r).read ((mm.get? v).getD v) = (f r).read v ∨
        DefinesSentinel t v ∧ ((f' r).read ((mm.get? v).getD v)).isNull = ((f r).read v).isNull) : PreservesOver mm t t' := by
  intro I db outer htrue
  obtain ⟨f, f', hf, hf', hread⟩ := ht I db outer (htrue x (by rw [hx]; rfl))
  rw [hf, hf', List.forall₂_map_left_iff, List.forall₂_map_right_iff]
  exact List.forall₂_same.mpr hread

variable (I db) in
/-- The row that a projection makes of a row. -/
def projected (m : NodeId) (ds : List Def) (outputs : VarSet) (env r : Row) : Row :=
  (r.merge (((defs m ds).meaning I db).bindings env [])).only outputs

theorem rows_projected : (node n (.project outputs) [x, defs m ds]).rows I db outer =
    (x.rows I db outer).map fun r => projected I db m ds outputs (outer.merge r) r := rows_project

/-! ### Definitions that are dropped -/

section Dropped
variable {drop : Def → Option VarId} {hide : VarSet → VarId → VarId → VarSet} {mm : VarMap}

/-- A dropped definition is read under the name it was dropped for, and all else as before. -/
theorem get?_dropAll (hn : (ds.map Def.var).Nodup) (hne : ∀ d ∈ ds, drop d ≠ some d.var) :
    (dropAll drop hide mm outputs ds).1.get? v = ((ds.find? fun d => d.var == v).bind drop).or (mm.get? v) := by
  induction ds generalizing mm outputs with
  | nil => rfl
  | cons d ds ih =>
    rw [List.map_cons, List.nodup_cons] at hn
    obtain ⟨hd, hds⟩ := List.forall_mem_cons.mp hne
    have hnone : ds.find? (fun e => e.var == d.var) = none := List.find?_eq_none.mpr fun e he heq =>
      hn.1 (List.mem_map.mpr ⟨e, he, by simpa using heq⟩)
    rw [dropAll, List.find?_cons]
    by_cases hv : d.var = v
    · subst hv
      cases hdrop : drop d with
      | none => simp [ih hn.2 hds, hnone, hdrop]
      | some w =>
        have hw : d.var ≠ w := fun heq => hd (heq ▸ hdrop)
        simp [ih hn.2 hds, hnone, hdrop, VarMap.renaming, hw]
    · have hbeq : (d.var == v) = false := beq_false_of_ne hv
      cases hdrop : drop d with
      | none => simp [ih hn.2 hds, hbeq]
      | some w =>
        rw [ih hn.2 hds, hbeq, VarMap.renaming]
        split
        · rfl
        · rw [VarMap.get?_insert, if_neg (Ne.symm hv)]

/-- How an output is hidden: all others are still shown, and the new name is if the old one was. -/
structure Hides (hide : VarSet → VarId → VarId → VarSet) : Prop where
  other : ∀ outputs old new v, v ∈ outputs → v ≠ old → v ∈ hide outputs old new
  new : ∀ outputs old new, old ∈ outputs → new ∈ hide outputs old new

theorem showAs_hides : Hides showAs where
  other outputs old new v hv hne := by simp [showAs, hv, hne]
  new outputs old new _ := by simp [showAs]

theorem showAsIf_hides : Hides showAsIf where
  other outputs old new v hv hne := by
    rw [showAsIf]
    split
    · exact showAs_hides.other outputs old new v hv hne
    · exact hv
  new outputs old new hold := by
    rw [showAsIf, if_pos (VarSet.mem_iff.mp hold)]
    exact showAs_hides.new outputs old new hold

theorem mem_dropAll_of_kept (hh : Hides hide) (hv : v ∈ outputs) (hkept : ∀ d ∈ ds, d.var = v → drop d = none) :
    v ∈ (dropAll drop hide mm outputs ds).2 := by
  induction ds generalizing mm outputs with
  | nil => exact hv
  | cons d ds ih =>
    obtain ⟨hd, hds⟩ := List.forall_mem_cons.mp hkept
    rw [dropAll]
    cases hdrop : drop d with
    | none => exact ih hv hds
    | some w =>
      refine ih (hh.other outputs d.var w v hv fun heq => ?_) hds
      rw [hd heq.symm] at hdrop
      cases hdrop

theorem mem_dropAll_of_dropped (hh : Hides hide) (hn : (ds.map Def.var).Nodup) {d : Def} (hd : d ∈ ds) (hv : d.var ∈ outputs)
    (hdrop : drop d = some w) (hw : ∀ e ∈ ds, e.var = w → drop e = none) : w ∈ (dropAll drop hide mm outputs ds).2 := by
  induction ds generalizing mm outputs with
  | nil => cases hd
  | cons e ds ih =>
    rw [List.map_cons, List.nodup_cons] at hn
    obtain ⟨hwe, hwds⟩ := List.forall_mem_cons.mp hw
    rw [dropAll]
    rcases List.mem_cons.mp hd with rfl | hmem
    · rw [hdrop]
      exact mem_dropAll_of_kept hh (hh.new outputs d.var w hv) hwds
    · have hne : d.var ≠ e.var := fun heq => hn.1 (heq ▸ List.mem_map_of_mem hmem)
      cases he : drop e with
      | none => exact ih hn.2 hmem hv hwds
      | some u => exact ih hn.2 hmem (hh.other outputs e.var u d.var hv hne) hwds

theorem mem_keptOf {d : Def} : d ∈ keptOf drop ds ↔ d ∈ ds ∧ drop d = none := by
  simp [keptOf, Option.isNone_iff_eq_none]

theorem dropAll_outputs (m₁ m₂ : VarMap) : (dropAll drop hide m₁ outputs ds).2 = (dropAll drop hide m₂ outputs ds).2 := by
  induction ds generalizing m₁ m₂ outputs with
  | nil => rfl
  | cons d ds ih =>
    rw [dropAll, dropAll]
    cases drop d with
    | none => exact ih m₁ m₂
    | some w => exact ih _ _

theorem dropAll_recorded {m₁ m₂ : VarMap} (h : ∀ v, m₁.get? v = (m₂.get? v).or (mm.get? v)) (v : VarId) :
    (dropAll drop hide m₁ outputs ds).1.get? v = ((dropAll drop hide m₂ outputs ds).1.get? v).or (mm.get? v) := by
  induction ds generalizing m₁ m₂ outputs with
  | nil => exact h v
  | cons d ds ih =>
    rw [dropAll, dropAll]
    cases drop d with
    | none => exact ih h
    | some w =>
      refine ih fun u => ?_
      rw [VarMap.renaming, VarMap.renaming]
      split
      · exact h u
      · rw [VarMap.get?_insert, VarMap.get?_insert]
        split
        · rfl
        · exact h u

section Reads
variable {env : Row} (hn : (ds.map Def.var).Nodup) (hh : Hides hide)
  (hw : ∀ d ∈ ds, ∀ w, drop d = some w → ∀ e ∈ ds, e.var = w → drop e = none)
include hn hh hw

omit hn hh in
theorem drop_ne_var : ∀ d ∈ ds, drop d ≠ some d.var := fun d hd hdrop => by
  rw [hw d hd d.var hdrop d hd rfl] at hdrop
  cases hdrop

theorem read_of_kept (hv : v ∈ outputs) (hkept : ∀ d ∈ ds, d.var = v → drop d = none) :
    (projected I db m' (keptOf drop ds) (dropAll drop hide .empty outputs ds).2 env r).read
      (((dropAll drop hide .empty outputs ds).1.get? v).getD v) = (projected I db m ds outputs env r).read v := by
  have hfind : (ds.find? fun d => d.var == v).bind drop = none := by
    cases hd : ds.find? fun d => d.var == v with
    | none => rfl
    | some d => exact hkept d (List.mem_of_find?_eq_some hd) (by simpa using List.find?_some hd)
  have hv' : v ∈ (dropAll drop hide .empty outputs ds).2 := mem_dropAll_of_kept hh hv hkept
  have hsub := (keptOf_sublist drop ds).map Def.var
  rw [get?_dropAll hn (drop_ne_var hw), hfind]
  refine Row.read_congr ?_
  by_cases hmem : v ∈ ds.map Def.var
  · obtain ⟨d, hd, rfl⟩ := List.mem_map.mp hmem
    exact (project_apply_some (hn.sublist hsub) (mem_keptOf.mpr ⟨hd, hkept d hd rfl⟩) hv').trans (project_apply_some hn hd hv).symm
  · exact (project_apply_none (fun h => hmem (hsub.subset h)) hv').trans (project_apply_none hmem hv).symm

theorem read_of_dropped {d : Def} (hd : d ∈ ds) (hv : d.var ∈ outputs) (hdrop : drop d = some w) :
    (projected I db m' (keptOf drop ds) (dropAll drop hide .empty outputs ds).2 env r).read
        (((dropAll drop hide .empty outputs ds).1.get? d.var).getD d.var) =
      (r.merge (((defs m' (keptOf drop ds)).meaning I db).bindings env [])).read w := by
  have hfind : (ds.find? fun e => e.var == d.var) = some d := by
    obtain ⟨e, he⟩ := Option.isSome_iff_exists.mp (List.find?_isSome (p := fun e => e.var == d.var).mpr ⟨d, hd, by simp⟩)
    rw [he, List.inj_on_of_nodup_map hn (List.mem_of_find?_eq_some he) hd (by simpa using List.find?_some he)]
  rw [get?_dropAll hn (drop_ne_var hw), hfind, Option.bind_some, hdrop]
  refine Row.read_congr ?_
  rw [projected, Row.only_apply]
  exact if_pos (mem_dropAll_of_dropped hh hn hd hv hdrop (hw d hd w hdrop))

end Reads

theorem preservesOver_of_dropped {mm' : VarMap} {t' : Tree} (hd : Drops drop hide mm outputs x ds mm' t')
    (ht : Valid k (·) (node n (.project outputs) [x, defs m ds])) (hh : Hides hide)
    (hw : ∀ d ∈ ds, ∀ w, drop d = some w → ∀ e ∈ ds, e.var = w → drop e = none)
    (hvalue : ∀ (m' : NodeId) (I : Interpretation) (db : Database) (outer : Row), Described I db x outer → ∀ r ∈ x.rows I db outer,
      ∀ d ∈ ds, ∀ w, drop d = some w → ∃ a, (r.merge (((defs m' (keptOf drop ds)).meaning I db).bindings (outer.merge r) [])).read w = a ∧
        (a = (d.expr.meaning I db).value (outer.merge r) [] ∨
          d.expr.op = .nullSentinel ∧ a.isNull = ((d.expr.meaning I db).value (outer.merge r) []).isNull)) :
    ∃ new : VarMap, (∀ v, mm'.get? v = (new.get? v).or (mm.get? v)) ∧ PreservesOver new (node n (.project outputs) [x, defs m ds]) t' := by
  obtain ⟨n', m', -⟩ := hd
  have hn := nodup_vars ht (i := 1) rfl
  rw [dropAll_outputs _ .empty]
  refine ⟨(dropAll drop hide .empty outputs ds).1, dropAll_recorded fun _ => rfl, preservesOver_of_map rfl fun I db outer hx =>
    ⟨_, _, rows_projected, rows_projected, fun r hr v hv => ?_⟩⟩
  have hv : v ∈ outputs := by simpa [defines_node] using hv
  by_cases hkept : ∀ d ∈ ds, d.var = v → drop d = none
  · exact .inl (read_of_kept hn hh hw hv hkept)
  · push Not at hkept
    obtain ⟨d, hd, rfl, hdrop⟩ := hkept
    obtain ⟨w, hdrop⟩ := Option.ne_none_iff_exists'.mp hdrop
    obtain ⟨a, ha, hor⟩ := hvalue m' I db outer hx r hr d hd w hdrop
    have hold : (projected I db m ds outputs (outer.merge r) r).read d.var = (d.expr.meaning I db).value (outer.merge r) [] :=
      Row.read_of_eq_some (project_apply_some hn hd hv)
    rw [read_of_dropped hn hh hw hd hv hdrop, ha, hold]
    exact hor.imp_right fun ⟨hop, hnull⟩ => ⟨⟨d.node, d.expr, mem_subtrees_of_mem (c := defs m ds) (by simp)
      (mem_subtrees_of_mem (List.mem_map_of_mem hd) (by simp [Def.tree])), hop⟩, hnull⟩

end Dropped

theorem Valid.not_mem_defs (ht : Valid k (·) (node n (.project outputs) [x, defs m ds])) (hv : Defines (·) x v) : v ∉ ds.map Def.var := by
  have hx := ht.first
  refine fun hmem => apart_of_nodup ht.nodup v (mem_binds_of_defines hx.inScope hv) ?_
  rw [binds_defs]
  exact (vars_sublist ds).subset hmem

theorem Valid.read_input (ht : Valid k (·) (node n (.project outputs) [x, defs m ds])) {es : List Def} (hsub : es.Sublist ds)
    (hv : Defines (·) x v) (env : Row) : (r.merge (((defs m' es).meaning I db).bindings env [])).read v = r.read v :=
  Row.read_congr (Row.merge_of_none (bindings_defs_none fun h => ht.not_mem_defs hv ((hsub.map _).subset h)))

theorem preservesOver_of_references {mm mm' : VarMap}
    (ht : Valid k (·) (node n (.project outputs) [x, defs m ds])) (hi : x.analysis = .ok i)
    (hd : Drops (referenceIn i.definitions) showAs mm outputs x ds mm' t') :
    ∃ new : VarMap, (∀ v, mm'.get? v = (new.get? v).or (mm.get? v)) ∧ PreservesOver new (node n (.project outputs) [x, defs m ds]) t' := by
  obtain ⟨⟨hrel, -⟩, hwfx, -⟩ := wellFormed_project.mp ht.wellFormed
  have hx := ht.first
  have hspec : ∀ d w, referenceIn i.definitions d = some w → (∃ type, d.expr.op = .varRef w type) ∧ Defines (·) x w := by
    intro d w hdrop
    rw [referenceIn] at hdrop
    split at hdrop
    · rename_i u type hop
      split at hdrop
      · rename_i hu
        obtain rfl : u = w := Option.some.inj hdrop
        exact ⟨⟨type, hop⟩, (analysis_scope hwfx hi u).1.mp hu⟩
      · cases hdrop
    · cases hdrop
  refine preservesOver_of_dropped hd ht showAs_hides (fun d hd w hdrop e he heq => ?_) fun m' I db outer _ r hr d hd w hdrop => ?_
  · exact absurd (List.mem_map.mpr ⟨e, he, heq⟩) (ht.not_mem_defs (hspec d w hdrop).2)
  · obtain ⟨⟨type, hop⟩, hdef⟩ := hspec d w hdrop
    refine ⟨_, ht.read_input (keptOf_sublist _ ds) hdef _, .inl ?_⟩
    obtain ⟨_, _, _, op, cs⟩ := d
    obtain rfl : op = .varRef w type := hop
    exact (read_merge_of_defines hwfx hx.inScope hr hdef).symm

theorem preservesOver_of_sentinels {chosen : VarId} {mm mm' : VarMap}
    (ht : Valid k (·) (node n (.project outputs) [x, defs m ds])) (hi : x.analysis = .ok i) (hchosen : chosen ∈ i.nonNullable ∨ ∃ d ∈ ds, d.var = chosen ∧ d.IsConstant)
    (hd : Drops (sentinelFor chosen) showAsIf mm outputs x ds mm' t') :
    ∃ new : VarMap, (∀ v, mm'.get? v = (new.get? v).or (mm.get? v)) ∧ PreservesOver new (node n (.project outputs) [x, defs m ds]) t' := by
  obtain ⟨⟨hrel, -⟩, hwfx, -⟩ := wellFormed_project.mp ht.wellFormed
  have hx := ht.first
  have hspec : ∀ d w, sentinelFor chosen d = some w → d.expr.op = .nullSentinel ∧ chosen = w := by
    intro d w hdrop
    rw [sentinelFor] at hdrop
    split at hdrop
    · rename_i hd
      exact ⟨Rules.eq_nullSentinel hd.1, Option.some.inj hdrop⟩
    · cases hdrop
  have hkept : ∀ e : Def, e.var = chosen → sentinelFor chosen e = none := fun e he => if_neg fun h => h.2 he
  refine preservesOver_of_dropped hd ht showAsIf_hides (fun d _ w hdrop e _ heq => ?_) fun m' I db outer htrue r hr d _ w hdrop => ?_
  · exact hkept e (heq.trans (hspec d w hdrop).2.symm)
  · obtain ⟨hop, rfl⟩ := hspec d w hdrop
    -- Neither the sentinel nor what stands in for it is null.
    have hnull : ((d.expr.meaning I db).value (outer.merge r) []).isNull = false := by
      rw [value_of_value? (v := .int32 1) (by rw [hop]; rfl)]
      rfl
    refine ⟨_, rfl, .inr ⟨hop, hnull.symm ▸ ?_⟩⟩
    rcases hchosen with hmem | ⟨e, he, heq, a, ha, hnotnull⟩
    · have hdef := (analysis_scope hwfx hi chosen).1.mp (nonNullable_defined hwfx hrel hx.inScope hi hmem)
      rw [ht.read_input (keptOf_sublist _ ds) hdef]
      exact htrue.nonNullable i hi r hr chosen hmem
    · have hn := (nodup_vars ht (i := 1) rfl).sublist ((keptOf_sublist (sentinelFor chosen) ds).map Def.var)
      have hread : (r.merge (((defs m' (keptOf (sentinelFor chosen) ds)).meaning I db).bindings (outer.merge r) [])).read e.var = a :=
        (Row.read_of_eq_some (Row.merge_of_some (bindings_defs_some hn (mem_keptOf.mpr ⟨he, hkept e heq⟩)))).trans
          (value_of_value? ha)
      rw [heq] at hread
      rw [hread]
      exact hnotnull

/-! ### Projections over projections -/

section Nested
variable {outputs₁ outputs₂ : VarSet} {n₁ n₂ m₁ m₂ : NodeId} {ds₁ ds₂ moved : List Def}
  (ht : Valid k (·) (node n₁ (.project outputs₁) [node n₂ (.project outputs₂) [x, defs m₂ ds₂], defs m₁ ds₁]))
include ht

/-- What a definition over a projection uses is shown by the projection, or not brought into being in it. -/
theorem Valid.shown_or (hu : Uses (·) (defs m₁ ds₁) v) :
    v ∈ outputs₂ ∨ v ∉ (node n₂ (.project outputs₂) [x, defs m₂ ds₂]).binds := by
  by_cases hv : v ∈ outputs₂
  · exact .inl hv
  · refine .inr fun hb => ht.closed v ?_ (mem_binds_of_mem (by simp) hb)
    rw [uses_node]
    refine .inr ⟨1, defs m₁ ds₁, rfl, hu, fun j e he hsees => ?_⟩
    obtain rfl : j = 0 := by simpa using hsees
    cases he
    simpa [defines_node] using hv

/-- An outer definition with the inner ones put in has for a row of the input the value that it has for the row of the inner
    projection. -/
theorem value_of_moved {d d' : Def} (hd : d ∈ ds₁) (hs₁ : d.expr.isScalar) (hs₂ : ∀ e ∈ ds₂, e.expr.isScalar)
    (hfills : Fills (ds₂.map fun e => (e.var, e.expr)) d.expr d'.expr) (hr : r ∈ x.rows I db outer) :
    (d'.expr.meaning I db).value (outer.merge r) [] =
      (d.expr.meaning I db).value (outer.merge (projected I db m₂ ds₂ outputs₂ (outer.merge r) r)) [] := by
  have hin := ht.first
  have hx := hin.first
  obtain ⟨⟨hrel, -⟩, hwfx, hwf₂⟩ := wellFormed_project.mp hin.wellFormed
  have hwf₁ := ht.second.wellFormed
  have hn₂ := nodup_vars hin (i := 1) rfl
  have hor : ∀ v, Uses (·) d.expr v → v ∈ outputs₂ ∨ v ∉ (node n₂ (.project outputs₂) [x, defs m₂ ds₂]).binds :=
    fun v hu => ht.shown_or (uses_defs.mpr ⟨d, hd, hu⟩)
  refine hfills.value_eq hs₁ (wellFormed_defs.mp hwf₁ d hd).2 ?_ (fun v hu hno => read_merge_congr ?_) fun v e hu hsome => ?_
  · simpa using fun e he => ⟨hs₂ e he, (wellFormed_defs.mp hwf₂ e he).2⟩
  · have hno : v ∉ ds₂.map Def.var := fun hmem => by
      obtain ⟨e, he, rfl⟩ := List.mem_map.mp hmem
      exact bne_iff_ne.mp (List.lookup_eq_none_iff.mp hno (e.var, e.expr) (List.mem_map.mpr ⟨e, he, rfl⟩)) rfl
    rcases hor v hu with hv | hv
    · exact project_apply_none hno hv
    · -- What is not brought into being below is bound neither with nor without the projection.
      have hwithin := hx.row_within hr
      have hnone : r v = none := hwithin.eq_none fun hb => hv (mem_binds_of_mem (by simp) hb)
      rw [hnone, projected, Row.only_apply, Row.merge_of_none (bindings_defs_none hno), hnone, ite_self]
  · obtain ⟨e, he, heq⟩ := List.mem_map.mp (Plan.mem_of_lookup hsome)
    cases heq
    have hv := (hor e.var hu).resolve_right fun hno => hno (vars_mem_binds (List.mem_map_of_mem he))
    exact Row.read_of_eq_some (Row.merge_of_some (project_apply_some hn₂ he hv))

theorem rows_project_project (hs₁ : ∀ d ∈ ds₁, d.expr.isScalar) (hs₂ : ∀ d ∈ ds₂, d.expr.isScalar)
    (hmoved : Rules.Moved (ds₂.map fun d => (d.var, d.expr)) ds₁ moved) :
    (node n' (.project outputs₁) [x, defs m' (moved ++ ds₂.filter fun d => outputs₁.has d.var)]).rows I db outer =
      (node n₁ (.project outputs₁) [node n₂ (.project outputs₂) [x, defs m₂ ds₂], defs m₁ ds₁]).rows I db outer := by
  have hin := ht.first
  have hn₁ := nodup_vars ht (i := 1) rfl
  have hn₂ := nodup_vars hin (i := 1) rfl
  have hvars : moved.map Def.var = ds₁.map Def.var := by
    clear hs₁ hs₂ hn₁ ht hin hn₂
    induction hmoved with
    | nil => rfl
    | cons h _ ih => rw [List.map_cons, List.map_cons, h.1, ih]
  have hapart : ∀ v ∈ ds₁.map Def.var, v ∉ ds₂.map Def.var := fun v hv hmem => by
    refine apart_of_nodup ht.nodup v (vars_mem_binds hmem) ?_
    rw [binds_defs]
    exact (vars_sublist ds₁).subset hv
  have hsub : ((ds₂.filter fun d => outputs₁.has d.var).map Def.var).Sublist (ds₂.map Def.var) := List.filter_sublist.map _
  have hn : ((moved ++ ds₂.filter fun d => outputs₁.has d.var).map Def.var).Nodup := by
    rw [List.map_append, hvars, List.nodup_append]
    exact ⟨hn₁, hn₂.sublist hsub, fun v hv w hw heq => hapart v hv (hsub.subset (heq ▸ hw))⟩
  rw [rows_projected, rows_projected, rows_projected, List.map_map]
  refine List.map_congr_left fun r hr => funext fun v => ?_
  rw [Function.comp_apply]
  by_cases hv : v ∈ outputs₁
  swap
  · rw [projected, projected, Row.only_apply, Row.only_apply, if_neg hv, if_neg hv]
  by_cases hv₁ : v ∈ ds₁.map Def.var
  · obtain ⟨d, hd, rfl⟩ := List.mem_map.mp hv₁
    obtain ⟨d', hd', hvar, hsubst⟩ := exists_of_forall₂_right hmoved.flip hd
    rw [← hvar] at hv
    have hnew : projected I db m' (moved ++ ds₂.filter fun d => outputs₁.has d.var) outputs₁ (outer.merge r) r d'.var =
        some ((d'.expr.meaning I db).value (outer.merge r) []) := project_apply_some hn (List.mem_append_left _ hd') hv
    rw [hvar] at hnew hv
    rw [hnew, value_of_moved ht hd (hs₁ d hd) hs₂ hsubst.fills hr]
    exact (project_apply_some hn₁ hd hv).symm
  · have hshown : v ∈ outputs₂ := by simpa [defines_node] using ht.defines_output hv hv₁
    refine Eq.trans ?_ (project_apply_none hv₁ hv).symm
    by_cases hv₂ : v ∈ ds₂.map Def.var
    · obtain ⟨e, he, rfl⟩ := List.mem_map.mp hv₂
      exact (project_apply_some hn (List.mem_append_right _ (List.mem_filter.mpr ⟨he, hv⟩)) hv).trans
        (project_apply_some hn₂ he hshown).symm
    · refine (project_apply_none (fun hmem => ?_) hv).trans (project_apply_none hv₂ hshown).symm
      rw [List.map_append, hvars, List.mem_append] at hmem
      exact hmem.elim hv₁ fun h => hv₂ (hsub.subset h)

end Nested

/-! ### Distincts -/

theorem projected_nil (hv : v ∈ outputs) (env : Row) : (projected I db m [] outputs env r).read v = r.read v :=
  Row.read_congr (project_apply_none List.not_mem_nil hv)

theorem preservesOver_of_keys {known : VarSet} (hi : x.analysis = .ok i) (hknown : i.keys = some known)
    (hsub : ∀ v ∈ known, v ∈ keys) :
    PreservesOver .empty (node n (.distinct keys) [x]) (node n' (.project keys) [x, defs m' []]) := by
  refine preservesOver_of_map rfl fun I db outer htrue => ⟨(·), _, ?_, rows_projected, fun r _ v hv => .inl ?_⟩
  · have hapart : (x.rows I db outer).Pairwise fun r s => r.marks I.mark keys.toList ≠ s.marks I.mark keys.toList :=
      (htrue.keys i known hi hknown).imp fun hne heq =>
        hne (Row.marks_eq_iff.mpr fun v hv => Row.marks_eq_iff.mp heq v (hsub v hv))
    rw [rows_distinct, Row.firsts_of_pairwise hapart, List.map_id']
  · have hv : v ∈ keys := by simpa [defines_node] using hv
    exact projected_nil hv _

end Tree

/-- What the rule makes of a tree has the rows of the tree, read under the names that the rule records. -/
def Rule.PreservesOver (rule : Rule) : Prop :=
  ∀ {k : Nat} {c : Context} {p : Plan} {t : Tree} (settle : NodeId → RuleM NodeId), Standing p t → Valid k (·) t →
    rule.pattern.holds p t.id = true → EndsIn (rule.apply settle t.id) c p fun out c' p' =>
      ∀ n, out = some n → ∃ t' m, p'.tree? n = some t' ∧ (∀ v, c'.mappings.get? v = (m.get? v).or (c.mappings.get? v)) ∧
        t.PreservesOver m t'

theorem Rule.Makes.preservesOver {rule : Rule} {P : Context → Plan → Tree → List VarId → VarMap → Tree → Prop} (h : rule.Makes P)
    (hP : ∀ {k c p t vs mm t'}, Valid k (·) t → P c p t vs mm t' →
      ∃ m : VarMap, (∀ v, mm.get? v = (m.get? v).or (c.mappings.get? v)) ∧ t.PreservesOver m t') : rule.PreservesOver := by
  intro k c p t settle hs ht hmatch
  refine (h.mono settle hs hmatch fun vs c' p' t' hr hmade => ?_).ends
  obtain ⟨m, hm, hrows⟩ := hP ht hmade
  exact ⟨t', m, hr.holds.tree?, hm, hrows⟩

namespace Rules

variable {n : NodeId}

theorem projectOverProject_preserves : projectOverProject.PreservesOver :=
  projectOverProject_makes.preservesOver fun ht hmade => by
    obtain ⟨-, rfl, n, outer, n₂, inner, x, m₂, ds₂, m₁, ds₁, s, σ, moved, n', m', rfl, hσ, hs₁, hmoved, rfl⟩ := hmade
    obtain rfl := hσ.all (nodup_vars ht.first (i := 1) rfl) fun _ _ => rfl
    exact ⟨.empty, fun _ => rfl, preservesOver_of_eq fun I db outer => rows_project_project ht hs₁ hσ.scalar hmoved⟩

theorem projectWithNoLocalDefinitions_preserves : projectWithNoLocalDefinitions.PreservesOver :=
  projectWithNoLocalDefinitions_makes.preservesOver fun ht hmade => by
    obtain ⟨-, rfl, n, outputs, m, rfl⟩ := hmade
    refine ⟨.empty, fun _ => rfl, preservesOver_of_map rfl fun I db outer _ =>
      ⟨_, id, rows_projected, (List.map_id _).symm, fun r _ v hv => .inl ?_⟩⟩
    have hv : v ∈ outputs := by simpa [defines_node] using hv
    exact (projected_nil hv _).symm

theorem projectWithSimpleVarRedefinitions_preserves : projectWithSimpleVarRedefinitions.PreservesOver :=
  projectWithSimpleVarRedefinitions_makes.preservesOver fun ht hmade => by
    obtain ⟨-, n, outputs, x, m, ds, i, rfl, hi, hdrops⟩ := hmade
    exact preservesOver_of_references ht hi hdrops

theorem projectOpWithNullSentinel_preserves : projectOpWithNullSentinel.PreservesOver :=
  projectOpWithNullSentinel_makes.preservesOver fun ht hmade => by
    obtain ⟨-, n, outputs, x, m, ds, i, chosen, rfl, hi, hchosen, hdrops⟩ := hmade
    exact preservesOver_of_sentinels ht hi hchosen hdrops

theorem distinctOpOfKeys_preserves : distinctOpOfKeys.PreservesOver :=
  distinctOpOfKeys_makes.preservesOver fun _ hmade => by
    obtain ⟨-, rfl, n, keys, x, i, known, n', m', rfl, hi, hknown, hsub, rfl⟩ := hmade
    exact ⟨.empty, fun _ => rfl, preservesOver_of_keys hi hknown hsub⟩

theorem projectRules_preserve : ∀ rule ∈ projectRules ++ distinctRules, rule.PreservesOver := by
  simp only [projectRules, distinctRules, List.cons_append, List.nil_append, List.forall_mem_cons]
  exact ⟨projectOverProject_preserves, projectWithNoLocalDefinitions_preserves, projectWithSimpleVarRedefinitions_preserves,
    projectOpWithNullSentinel_preserves, distinctOpOfKeys_preserves, List.forall_mem_nil _⟩

/-- A rule on projections or distincts preserves meaning: where it fires on a well-scoped tree and the analysis is right about
    the keys of the input and its columns that are never null, what it makes has row by row the columns of the tree. A column is
    read under the name that the rule recorded for it, and of one that is defined as a null sentinel only whether it is null is
    kept. -/
theorem projectRules_rows {rule : Rule} (hrule : rule ∈ projectRules ++ distinctRules) {settle : NodeId → RuleM NodeId} {k : Nat}
    {p p' : Plan} {c c' : Context} {t : Tree} (hp : p.Holds t) (hids : t.ids.Nodup) (ht : Valid k (·) t)
    (hmatch : rule.pattern.holds p t.id = true) (hrun : rule.apply settle t.id c p = .ok ((some n, c'), p')) :
    ∃ (t' : Tree) (m : VarMap), p'.tree? n = some t' ∧ (∀ v, c'.mappings.get? v = (m.get? v).or (c.mappings.get? v)) ∧
      ∀ (I : Interpretation) (db : Database) (outer : Row), (∀ x ∈ t.children.head?, Described I db x outer) →
        List.Forall₂ (fun r' r => ∀ v, Defines (·) t v → r'.read ((m.get? v).getD v) = r.read v ∨
          DefinesSentinel t v ∧ (r'.read ((m.get? v).getD v)).isNull = (r.read v).isNull)
          (t'.rows I db outer) (t.rows I db outer) :=
  projectRules_preserve rule hrule settle ⟨hp, hids, ht.wellFormed⟩ ht hmatch (some n) c' p' hrun n rfl

/-- `Project(t, [b := a, s := sentinel], [b, s])`, where `a` is never null. -/
def markedTree : Tree :=
  .node 6 (.project (.ofList [1, 2])) [.node 0 (.scanTable ⟨0, "t", [0], .ofList [0], none⟩) [],
    .node 5 .varDefList [.node 2 (.varDef 1) [.node 1 (.varRef 0 .int32) []], .node 4 (.varDef 2) [.node 3 .nullSentinel []]]]

def marked : Plan := markedTree.plan 1 [⟨.column, "t.a", .int32⟩, ⟨.computed, "", .int32⟩, ⟨.computed, "", .int32⟩]

theorem marked_valid : Valid 3 (·) markedTree := by
  refine .of_closed rfl ?_ (by decide) (by decide) (by decide +kernel)
  simp [markedTree, scoped_node, defines_node]
  grind

theorem projectRules_rows_marked :
    ∃ n c' p' t', ∃ m : VarMap, projectOpWithNullSentinel.apply pure 6 (.start .standard) marked = .ok ((some n, c'), p') ∧
      p'.tree? n = some t' ∧ (∀ v, c'.mappings.get? v = (m.get? v).or none) ∧
      ∀ (I : Interpretation) (db : Database) (outer : Row), (∀ values ∈ db "t", (values.getD 0 .null).isNull = false) →
        List.Forall₂ (fun r' r => ∀ v, Defines (·) markedTree v → r'.read ((m.get? v).getD v) = r.read v ∨
          DefinesSentinel markedTree v ∧ (r'.read ((m.get? v).getD v)).isNull = (r.read v).isNull)
          (t'.rows I db outer) (markedTree.rows I db outer) := by
  have hview : marked.tree? 6 = some markedTree := rfl
  have hmatch : projectOpWithNullSentinel.pattern.holds marked 6 = true := by decide
  obtain ⟨n, c', p', hrun⟩ : ∃ n c' p', projectOpWithNullSentinel.apply pure 6 (.start .standard) marked = .ok ((some n, c'), p') :=
    exists_of_fires (by decide +kernel)
  obtain ⟨t', m, ht', hm, hrows⟩ := projectRules_rows (t := markedTree) (by simp [projectRules]) (holds_of_view (by decide) hview)
    (by decide) marked_valid hmatch hrun
  refine ⟨n, c', p', t', m, hrun, ht', hm, fun I db outer ht => hrows I db outer fun x hx => ?_⟩
  obtain rfl : Tree.node 0 (.scanTable ⟨0, "t", [0], .ofList [0], none⟩) [] = x := Option.some.inj hx
  refine ⟨fun i hi r hr v hv => ?_, fun i known hi hknown => ?_⟩
  · have hgives := gives_of_analysis (t := .node 0 (.scanTable ⟨0, "t", [0], .ofList [0], none⟩) []) rfl rfl
      (by simp [scoped_node]) (by decide) (by simp [Honest]) (by simpa [Table.Respected, Table.row, Row.read] using ht) hi hr
    exact (hgives v hv).read
  · cases hi
    cases hknown

end Rules

end Planwright
