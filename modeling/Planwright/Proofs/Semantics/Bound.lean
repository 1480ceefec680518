import Planwright.Proofs.Scope.Basic
import Planwright.Proofs.Semantics.Meaning

/-! What rows bind. A row of a relation binds all that the relation defines and nothing that is not brought into
    being in it; the bindings of a definition list are its definitions. -/

namespace Planwright

namespace Row

def Within (r : Row) (vs : List VarId) : Prop := ∀ v, r v ≠ none → v ∈ vs

variable {r s : Row} {v : VarId} {vs ws : List VarId}

theorem Within.mono (h : r.Within vs) (hsub : ∀ v ∈ vs, v ∈ ws) : r.Within ws := fun v hv => hsub v (h v hv)

theorem Within.eq_none (h : r.Within vs) (hv : v ∉ vs) : r v = none := by
  by_contra hne
  exact hv (h v hne)

theorem Within.merge (hr : r.Within vs) (hs : s.Within ws) : (r.merge s).Within (vs ++ ws) := by
  intro v hv
  rw [merge_apply] at hv
  rw [List.mem_append]
  cases hsv : s v with
  | none =>
    rw [hsv, Option.none_or] at hv
    exact .inl (hr v hv)
  | some x => exact .inr (hs v (by simp [hsv]))

theorem Within.nulls {columns : VarSet} (h : ∀ v ∈ columns, v ∈ vs) : (nulls columns).Within vs := by
  intro v hv
  by_cases hc : v ∈ columns
  · exact h v hc
  · simp [hc] at hv

theorem Within.only (h : r.Within vs) (outputs : VarSet) : (r.only outputs).Within vs := by
  intro v hv
  rw [only_apply] at hv
  split at hv
  · exact h v hv
  · exact absurd rfl hv

theorem Within.shown {outputs : VarSet} (h : ∀ v ∈ outputs, v ∈ vs) : (r.shown outputs).Within vs := by
  intro v hv
  rw [shown_apply] at hv
  split at hv
  · exact h v ‹_›
  · exact absurd rfl hv

theorem Within.renamed {outputs : VarSet} {m : VarMap} : (r.renamed outputs m).Within outputs.toList := by
  intro v hv
  rw [renamed_apply] at hv
  split at hv
  · exact VarSet.mem_toList.mpr ‹_›
  · exact absurd rfl hv

theorem merge_ne_none : r.merge s v ≠ none ↔ s v ≠ none ∨ r v ≠ none := by
  rw [merge_apply]
  cases s v <;> simp

end Row

namespace Op

def pairs : Op → Bool
  | crossJoin | innerJoin | leftOuterJoin | crossApply | outerApply => true
  | _ => false

theorem isRelational_of_pairs {op : Op} (h : op.pairs) : op.kind.isRelational := by
  cases op <;> first | rfl | cases h

def keepsLeft : Op → Bool
  | leftOuterJoin | outerApply => true
  | _ => false

end Op

namespace Tree

variable {t : Tree} {v : VarId} {outer r : Row}
variable {C : Reading} {I : Interpretation} {db : Database} {M : Tree → Meaning}

theorem defs_meaning [Evaluation C I db M] (ht : t.wellFormed) (hk : t.kind = .varDefList) :
    (M t).defs = t.definitions.map fun x => (x.1, (M x.2).value) := by
  obtain ⟨hop, hdefs⟩ := definitions_spec ht hk
  obtain ⟨id, op, cs⟩ := t
  obtain rfl : op = .varDefList := hop
  simp only [Evaluation.node, Op.meaningUnder, Op.meaning, List.flatMap_map]
  generalize (node id .varDefList cs).definitions = ds at hdefs
  rw [children_node] at hdefs
  clear ht hk
  induction hdefs with
  | nil => rfl
  | cons hc _ ih =>
    obtain ⟨_, rfl, -⟩ := hc
    rw [List.flatMap_cons, ih, List.map_cons, Evaluation.node (M := M)]
    rfl

theorem binds_definitions (ht : t.wellFormed) (hk : t.kind = .varDefList) :
    t.binds = t.definitions.flatMap fun x => x.1 :: x.2.binds := by
  obtain ⟨hop, hdefs⟩ := definitions_spec ht hk
  obtain ⟨id, op, cs⟩ := t
  obtain rfl : op = .varDefList := hop
  rw [binds_node]
  generalize (node id .varDefList cs).definitions = ds at hdefs
  rw [children_node] at hdefs
  clear ht hk
  induction hdefs with
  | nil => rfl
  | cons hc _ ih =>
    obtain ⟨_, rfl, -⟩ := hc
    simpa using ih

theorem mem_binds_of_mem_definitions (ht : t.wellFormed) (hk : t.kind = .varDefList)
    {e : Tree} (h : (v, e) ∈ t.definitions) : v ∈ t.binds := by
  rw [binds_definitions ht hk]
  exact List.mem_flatMap.mpr ⟨(v, e), h, List.mem_cons_self⟩

theorem nodup_definitions (ht : t.wellFormed) (hk : t.kind = .varDefList) (hd : t.binds.Nodup) :
    (t.definitions.map Prod.fst).Nodup := by
  rw [binds_definitions ht hk] at hd
  generalize t.definitions = ds at hd
  induction ds with
  | nil => exact List.nodup_nil
  | cons d ds ih =>
    rw [List.flatMap_cons, List.nodup_append] at hd
    obtain ⟨-, hds, hne⟩ := hd
    rw [List.map_cons, List.nodup_cons]
    refine ⟨fun hmem => ?_, ih hds⟩
    obtain ⟨x, hx, heq⟩ := List.mem_map.mp hmem
    exact hne d.1 List.mem_cons_self x.1 (List.mem_flatMap.mpr ⟨x, hx, List.mem_cons_self⟩) heq.symm

theorem lookup_eq_some {β : Type} {ds : List (VarId × β)} (hd : (ds.map Prod.fst).Nodup) {b : β}
    (h : (v, b) ∈ ds) : ds.lookup v = some b := by
  induction ds with
  | nil => cases h
  | cons d ds ih =>
    obtain ⟨w, b'⟩ := d
    rw [List.map_cons, List.nodup_cons] at hd
    rcases List.mem_cons.mp h with heq | hmem
    · cases heq
      exact List.lookup_cons_self
    · have hne : (v == w) = false := by
        rw [beq_eq_false_iff_ne]
        rintro rfl
        exact hd.1 (List.mem_map.mpr ⟨_, hmem, rfl⟩)
      rw [List.lookup_cons, hne]
      exact ih hd.2 hmem

theorem within_bindings [Evaluation C I db M] (ht : t.wellFormed) (hk : t.kind = .varDefList) (env : Row)
    (group : List Row) : ((M t).bindings env group).Within t.binds := by
  intro v hv
  rw [Meaning.bindings, defs_meaning ht hk, ← List.map_reverse, ne_eq, Option.map_eq_none_iff,
    List.lookup_eq_none_iff] at hv
  obtain ⟨p, hp, hv⟩ : ∃ p ∈ _, _ := by simpa only [not_forall, exists_prop] using hv
  obtain ⟨⟨w, e⟩, hx, rfl⟩ := List.mem_map.mp hp
  obtain rfl : v = w := by simpa using hv
  exact mem_binds_of_mem_definitions ht hk (List.mem_reverse.mp hx)

theorem bindings_apply [Evaluation C I db M] (ht : t.wellFormed) (hk : t.kind = .varDefList) (hd : t.binds.Nodup)
    {e : Tree} (h : (v, e) ∈ t.definitions) (env : Row) (group : List Row) :
    (M t).bindings env group v = some ((M e).value env group) := by
  have hnodup : ((t.definitions.map fun x => (x.1, (M x.2).value)).reverse.map Prod.fst).Nodup := by
    rw [List.map_reverse, List.nodup_reverse, List.map_map]
    exact nodup_definitions ht hk hd
  rw [Meaning.bindings, defs_meaning ht hk,
    lookup_eq_some hnodup (List.mem_reverse.mpr (List.mem_map.mpr ⟨_, h, rfl⟩)), Option.map_some]

theorem mem_columns [Evaluation C I db M] (ht : t.wellFormed) (hrel : t.IsRelational) :
    v ∈ (M t).columns ↔ Defines (·) t v := by
  induction t using induct with
  | node id op cs ih =>
    obtain ⟨hf, hcs⟩ := wellFormed_node.mp ht
    have child := fun c hc => ih c hc (hcs c hc)
    rw [Evaluation.node (M := M)]
    cases shape_of_fits hf with
    | scanTable | singleRowTable | project | combine | distinct | groupBy =>
      simp [defines_node, Op.meaningUnder, Op.meaning, Meaning.relation]
    | @filter input _ hi | @sort _ input hi | @constrainedSort _ input _ _ hi =>
      simp [defines_node, Op.meaningUnder, Op.meaning, Meaning.relation, child input (by simp) hi]
    | @crossJoin left right hl hr | @crossApply left right hl hr | @outerApply left right hl hr | @innerJoin left right _ hl hr
    | @leftOuterJoin left right _ hl hr =>
      simp [defines_node, Op.meaningUnder, Op.meaning, Meaning.relation, child left (by simp) hl, child right (by simp) hr]
    | varDefList | varDef | element => cases hrel
    | scalar hs => exact absurd hrel (not_isRelational_of_isScalar hs)

theorem columns_mem_binds [Evaluation C I db M] (ht : t.wellFormed) (hrel : t.IsRelational) (hs : Backed (·) t) :
    ∀ v ∈ (M t).columns, v ∈ t.binds :=
  fun _ hv => hs.mem_binds ((mem_columns ht hrel).mp hv)

section Children
variable {id : NodeId} {op : Op} {a b : Tree} {rest : List Tree}

theorem apart_of_nodup (h : (node id op (a :: b :: rest)).binds.Nodup) : ∀ v ∈ a.binds, v ∉ b.binds :=
  (List.pairwise_cons.mp (nodup_binds_node.mp h).2.2.1).1 b List.mem_cons_self

theorem binds_pair (h : v ∈ a.binds ++ b.binds) : v ∈ (node id op (a :: b :: rest)).binds :=
  (List.mem_append.mp h).elim (mem_binds_of_mem (by simp)) (mem_binds_of_mem (by simp))

end Children

theorem defines_iff_definitions (ht : t.wellFormed) (hk : t.kind = .varDefList) :
    Defines (·) t v ↔ ∃ e, (v, e) ∈ t.definitions := by
  obtain ⟨hop, hdefs⟩ := definitions_spec ht hk
  obtain ⟨id, op, cs⟩ := t
  obtain rfl : op = .varDefList := hop
  rw [defines_varDefList]
  generalize (node id .varDefList cs).definitions = ds at hdefs
  rw [children_node] at hdefs
  clear ht hk
  induction hdefs with
  | nil => simp
  | @cons c x cs ds hc _ ih =>
    obtain ⟨id, rfl, -⟩ := hc
    obtain ⟨w, e⟩ := x
    simp only [List.mem_cons, exists_eq_or_imp, ih, Prod.mk.injEq, exists_or]
    simp [defines_node]

theorem bindings_ne_none [Evaluation C I db M] (ht : t.wellFormed) (hk : t.kind = .varDefList)
    (hv : Defines (·) t v) (env : Row) (group : List Row) : (M t).bindings env group v ≠ none := by
  obtain ⟨e, he⟩ := (defines_iff_definitions ht hk).mp hv
  rw [Meaning.bindings, defs_meaning ht hk, ← List.map_reverse, ne_eq, Option.map_eq_none_iff,
    List.lookup_eq_none_iff]
  intro h
  simpa using h (v, (M e).value) (List.mem_map.mpr ⟨(v, e), List.mem_reverse.mpr he, rfl⟩)

theorem mem_of_mem_constrainedSort [Evaluation C I db M] {id : NodeId} {keys : List SortKey} {input skip limit : Tree}
    (hr : r ∈ (M (node id (.constrainedSort keys) [input, skip, limit])).rows outer) : r ∈ (M input).rows outer := by
  refine (I.arrange_perm keys _).mem_iff.mp ?_
  simp only [Evaluation.node, List.map_cons, List.map_nil, Op.meaningUnder, Op.meaning, Meaning.relation] at hr
  split at hr
  · exact List.mem_of_mem_drop (List.mem_of_mem_take hr)
  · exact List.mem_of_mem_drop hr

theorem mem_of_mem_combined {kind : SetKind} {outputs : VarSet} {left right : List Row}
    (hr : r ∈ Op.combined I kind outputs left right) : r ∈ left ∨ r ∈ right := by
  cases kind with
  | unionAll => exact List.mem_append.mp hr
  | intersect | except => exact .inl (List.mem_filter.mp (Row.mem_of_mem_firsts hr)).1

/-- The row of a join or an apply is a left row with a right one, or with nulls where the operator keeps left rows. -/
theorem exists_pair [Evaluation C I db M] {id : NodeId} {op : Op} {left right : Tree} {rest : List Tree}
    (hs : Shape op (left :: right :: rest)) (hop : op.pairs = true) (hr : r ∈ (M (node id op (left :: right :: rest))).rows outer) :
    ∃ l ∈ (M left).rows outer, ∃ s, r = l.merge s ∧
      ((∃ o, s ∈ (M right).rows o) ∨ op.keepsLeft = true ∧ s = .nulls (M right).columns) := by
  rw [Evaluation.node (M := M)] at hr
  cases hs with
  | crossJoin | crossApply =>
    obtain ⟨l, hl, hr⟩ := List.mem_flatMap.mp hr
    obtain ⟨s, hs, rfl⟩ := List.mem_map.mp hr
    exact ⟨l, hl, s, rfl, .inl ⟨_, hs⟩⟩
  | innerJoin =>
    obtain ⟨l, hl, hr⟩ := List.mem_flatMap.mp hr
    obtain ⟨s, hs, rfl⟩ := List.mem_map.mp (List.mem_filter.mp hr).1
    exact ⟨l, hl, s, rfl, .inl ⟨outer, hs⟩⟩
  | leftOuterJoin | outerApply =>
    obtain ⟨l, hl, hr⟩ := List.mem_flatMap.mp hr
    refine ⟨l, hl, ?_⟩
    rw [Row.orNulls] at hr
    split at hr
    · exact ⟨_, List.mem_singleton.mp hr, .inr ⟨rfl, rfl⟩⟩
    · obtain ⟨s, hs, rfl⟩ := List.mem_map.mp (by first | exact hr | exact (List.mem_filter.mp hr).1)
      exact ⟨s, rfl, .inl ⟨_, hs⟩⟩
  | scalar hs => exact absurd (Op.isRelational_of_pairs hop) (not_isRelational_of_isScalar hs)
  | _ => cases hop

theorem isRelational_of_mem_rows [Evaluation C I db M] (ht : t.wellFormed) (hr : r ∈ (M t).rows outer) : t.IsRelational := by
  obtain ⟨id, op, cs⟩ := t
  obtain ⟨hf, -⟩ := wellFormed_node.mp ht
  rw [Evaluation.node (M := M)] at hr
  cases shape_of_fits hf with
  | varDefList | varDef | element => cases hr
  | scalar hs =>
    cases op with
    | combine kind => cases kind <;> cases hs
    | varRef | constant | null | internalConstant | nullSentinel | constantPredicate | aggregate => cases hr
    | scalar kind type =>
      obtain ⟨value, hvalue⟩ := Op.meaningUnder_scalar C I db kind type (cs.map M)
      rw [hvalue] at hr
      cases hr
    | _ => cases hs
  | combine kind => cases kind <;> rfl
  | _ => rfl

theorem row_ne_none [Evaluation C I db M] (ht : t.wellFormed) (hs : Backed (·) t)
    (hr : r ∈ (M t).rows outer) (hv : Defines (·) t v) : r v ≠ none := by
  induction t using induct generalizing outer r v with
  | node id op cs ih =>
    obtain ⟨hf, hcs⟩ := wellFormed_node.mp ht
    obtain ⟨hshown, hbacked⟩ := backed_node.mp hs
    have child : ∀ c ∈ cs, ∀ o, ∀ r ∈ (M c).rows o, ∀ v, Defines (·) c v → r v ≠ none :=
      fun c hc o r hr v hv => ih c hc (hcs c hc) (hbacked c hc) hr hv
    have hrel := isRelational_of_mem_rows ht hr
    have hnode := hr
    rw [Evaluation.node (M := M)] at hr
    cases shape_of_fits hf with
    | scanTable table =>
      obtain ⟨values, -, rfl⟩ := List.mem_map.mp hr
      have hmem : v ∈ table.columns := by simpa [defines_node] using hv
      simp [Table.row, hmem]
    | singleRowTable => simp [defines_node] at hv
    | @filter input predicate hi hp =>
      exact child input (by simp) outer r (List.mem_filter.mp hr).1 v (by simpa [defines_node] using hv)
    | @project outputs input defs hi hk =>
      have hmem : v ∈ outputs := by simpa [defines_node] using hv
      obtain ⟨s, hs', rfl⟩ := List.mem_map.mp hr
      rw [Row.only_apply, if_pos hmem]
      have hdef : Defines (·) input v ∨ Defines (·) defs v := by simpa using hshown outputs rfl v hmem
      exact Row.merge_ne_none.mpr (hdef.symm.imp (fun h => bindings_ne_none (hcs defs (by simp)) hk h _ _)
        fun h => child input (by simp) outer s hs' v h)
    | @crossJoin left right hl hr' | @crossApply left right hl hr' | @outerApply left right hl hr' | @innerJoin left right _ hl hr'
    | @leftOuterJoin left right _ hl hr' =>
      have hv : Defines (·) left v ∨ Defines (·) right v := by simpa [defines_node] using hv
      obtain ⟨l, hl', s, rfl, hs'⟩ := exists_pair (shape_of_fits hf) rfl hnode
      refine Row.merge_ne_none.mpr (hv.symm.imp (fun h => ?_) (child left (by simp) outer l hl' v))
      rcases hs' with ⟨o, hs'⟩ | ⟨-, rfl⟩
      · exact child right (by simp) o s hs' v h
      · simp [mem_columns (hcs right (by simp)) hr', h]
    | @combine kind outputs lm rm left right hl hr' =>
      have hmem : v ∈ outputs := by simpa [defines_node] using hv
      rcases mem_of_mem_combined hr with hr | hr
      all_goals
        obtain ⟨s, -, rfl⟩ := List.mem_map.mp hr
        simp [hmem]
    | @distinct keys input hi =>
      have hmem : v ∈ keys := by simpa [defines_node] using hv
      have hdef : Defines (·) input v := by simpa using hshown keys rfl v hmem
      exact child input (by simp) outer r (Row.mem_of_mem_firsts hr) v hdef
    | @groupBy keys outputs input keyDefs aggregates hi hk ha =>
      have hmem : v ∈ outputs := by simpa [defines_node] using hv
      obtain ⟨group, -, rfl⟩ := List.mem_map.mp hr
      simp [Row.ofGroup, hmem]
    | @sort keys input hi => exact child input (by simp) outer r hr v (by simpa [defines_node] using hv)
    | @constrainedSort keys input skip limit hi =>
      exact child input (by simp) outer r (mem_of_mem_constrainedSort hnode) v (by simpa [defines_node] using hv)
    | varDefList | varDef | element => cases hrel
    | scalar hs => exact absurd hrel (not_isRelational_of_isScalar hs)

theorem row_within [Evaluation C I db M] (ht : t.wellFormed) (hs : Backed (·) t)
    (hr : r ∈ (M t).rows outer) : r.Within t.binds := by
  induction t using induct generalizing outer r with
  | node id op cs ih =>
    obtain ⟨hf, hcs⟩ := wellFormed_node.mp ht
    obtain ⟨-, hbacked⟩ := backed_node.mp hs
    have child : ∀ c ∈ cs, ∀ o, ∀ r ∈ (M c).rows o, r.Within c.binds :=
      fun c hc o r hr => ih c hc (hcs c hc) (hbacked c hc) hr
    have hrel := isRelational_of_mem_rows ht hr
    have hnode := hr
    rw [Evaluation.node (M := M)] at hr
    cases shape_of_fits hf with
    | scanTable table =>
      obtain ⟨values, -, rfl⟩ := List.mem_map.mp hr
      intro v hv
      rw [Table.row] at hv
      split at hv
      · simpa using ‹v ∈ table.columns›
      · exact absurd rfl hv
    | singleRowTable =>
      obtain rfl := List.mem_singleton.mp hr
      exact fun v hv => absurd rfl hv
    | @filter input predicate hi hp =>
      exact (child input (by simp) outer r (List.mem_filter.mp hr).1).mono fun v => mem_binds_of_mem (by simp)
    | @project outputs input defs hi hk =>
      obtain ⟨s, hs', rfl⟩ := List.mem_map.mp hr
      have hinput := child input (by simp) outer s hs'
      exact ((hinput.merge (within_bindings (hcs defs (by simp)) hk _ _)).only outputs).mono fun v => binds_pair
    | @crossJoin left right hl hr' | @crossApply left right hl hr' | @outerApply left right hl hr' | @innerJoin left right _ hl hr'
    | @leftOuterJoin left right _ hl hr' =>
      obtain ⟨l, hl', s, rfl, hs'⟩ := exists_pair (shape_of_fits hf) rfl hnode
      refine ((child left (by simp) outer l hl').merge (?_ : s.Within right.binds)).mono fun v => binds_pair
      rcases hs' with ⟨o, hs'⟩ | ⟨-, rfl⟩
      · exact child right (by simp) o s hs'
      · exact .nulls (columns_mem_binds (hcs right (by simp)) hr' (hbacked right (by simp)))
    | @combine kind outputs lm rm left right hl hr' =>
      have hown : ∀ s : Row, ∀ m, (s.renamed outputs m).Within (node id (.combine kind outputs lm rm) [left, right]).binds :=
        fun s m => Row.Within.renamed.mono fun v hv => mem_binds_of_own hv
      rcases mem_of_mem_combined hr with hr | hr
      all_goals
        obtain ⟨s, -, rfl⟩ := List.mem_map.mp hr
        exact hown s _
    | @distinct keys input hi =>
      exact (child input (by simp) outer r (Row.mem_of_mem_firsts hr)).mono fun v => mem_binds_of_mem (by simp)
    | @groupBy keys outputs input keyDefs aggregates hi hk ha =>
      obtain ⟨group, -, rfl⟩ := List.mem_map.mp hr
      exact .shown fun v hv => hs.mem_binds (defines_node.mpr ⟨v, hv, rfl⟩)
    | @sort keys input hi => exact (child input (by simp) outer r hr).mono fun v => mem_binds_of_mem (by simp)
    | @constrainedSort keys input skip limit hi =>
      exact (child input (by simp) outer r (mem_of_mem_constrainedSort hnode)).mono fun v => mem_binds_of_mem (by simp)
    | varDefList | varDef | element => cases hrel
    | scalar hs => exact absurd hrel (not_isRelational_of_isScalar hs)

end Tree

end Planwright
