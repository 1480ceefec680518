import Planwright.Proofs.Rule.Reduce
import Planwright.Proofs.Semantics.Apply
import Planwright.Proofs.Semantics.Copy

/-! What apply rules mean. The rule makes a tree with the rows of the apply, where the analysis is right about
    the columns that are never null. A column that an element takes the place of is read as the variable of the
    element, and of a null sentinel only whether it is null is kept. -/

namespace Planwright

open Run Planwright.Tree Plan

namespace Tree

/-! ### Where the analysis is right -/

/-- A relation that is evaluated on the way, with the outer row it is evaluated for: the whole, the inputs of an operator, the
    right side of an apply for every left row. -/
inductive Meets (I : Interpretation) (db : Database) (s : Tree) (o : Row) : Tree → Row → Prop
  | self : Meets I db s o s o
  | input {n : NodeId} {op : Op} {cs : List Tree} {c : Tree} {outer : Row} : op ≠ .crossApply → op ≠ .outerApply → c ∈ cs →
      c.IsRelational → Meets I db s o c outer → Meets I db s o (.node n op cs) outer
  | left {n : NodeId} {op : Op} {x y : Tree} {outer : Row} : op = .crossApply ∨ op = .outerApply → Meets I db s o x outer →
      Meets I db s o (.node n op [x, y]) outer
  | right {n : NodeId} {op : Op} {x y : Tree} {outer l : Row} : op = .crossApply ∨ op = .outerApply → l ∈ x.rows I db outer →
      Meets I db s o y (outer.merge l) → Meets I db s o (.node n op [x, y]) outer

/-- Wherever a relation is evaluated on the way, no column is null that is never null by its analysis. That the number of rows
    is within the bounds of the analysis need not be asked for. -/
def Truthful (I : Interpretation) (db : Database) (t : Tree) (outer : Row) : Prop :=
  ∀ s o, Meets I db s o t outer → ∀ i, s.analysis = .ok i → ∀ r ∈ s.rows I db o, ∀ v ∈ i.nonNullable, (r.read v).isNull = false

section Truthful
variable {I : Interpretation} {db : Database} {outer l : Row} {n : NodeId} {op : Op} {x y c : Tree} {cs : List Tree}

theorem Truthful.right (h : Truthful I db (.node n op [x, y]) outer) (hop : op = .crossApply ∨ op = .outerApply)
    (hl : l ∈ x.rows I db outer) : Truthful I db y (outer.merge l) := fun s o hs => h s o (.right hop hl hs)

theorem Truthful.input (h : Truthful I db (.node n op cs) outer) (hcross : op ≠ .crossApply) (houter : op ≠ .outerApply)
    (hc : c ∈ cs) (hrel : c.IsRelational) : Truthful I db c outer := fun s o hs => h s o (.input hcross houter hc hrel hs)

theorem Meets.spec {k : Nat} {s t : Tree} {o : Row} (h : Meets I db s o t outer) (ht : Valid k (·) t) (hrel : t.IsRelational) :
    (∀ u ∈ s.subtrees, u ∈ t.subtrees) ∧ Valid k (·) s ∧ s.IsRelational := by
  induction h with
  | self => exact ⟨fun _ hu => hu, ht, hrel⟩
  | input _ _ hc hrc _ ih =>
    obtain ⟨i, hi⟩ := List.mem_iff_getElem?.mp hc
    exact (ih (ht.child hi) hrc).imp_left fun h u hu => mem_subtrees_of_mem hc (h u hu)
  | @left _ op x y _ hop _ ih =>
    have hx : x.IsRelational := by
      rcases hop with rfl | rfl
      · exact (wellFormed_crossApply.mp ht.wellFormed).1.1
      · exact (wellFormed_outerApply.mp ht.wellFormed).1.1
    exact (ih ht.first hx).imp_left fun h u hu => mem_subtrees_of_mem (by simp) (h u hu)
  | @right _ op x y _ _ hop _ _ ih =>
    have hy : y.IsRelational := by
      rcases hop with rfl | rfl
      · exact (wellFormed_crossApply.mp ht.wellFormed).1.2
      · exact (wellFormed_outerApply.mp ht.wellFormed).1.2
    exact (ih ht.second hy).imp_left fun h u hu => mem_subtrees_of_mem (by simp) (h u hu)

theorem truthful_of_respected {k : Nat} {t : Tree} (ht : Valid k (·) t) (hrel : t.IsRelational) (honest : ∀ s ∈ t.subtrees, s.Honest)
    (hdb : ∀ s ∈ t.subtrees, ∀ table, s.op = .scanTable table → table.Respected db) : Truthful I db t outer := by
  intro s o hmeets i hi r hr v hv
  obtain ⟨hbelow, hs, hrels⟩ := hmeets.spec ht hrel
  exact (gives_of_analysis hs.wellFormed hrels hs.inScope hs.nodup (fun u hu => honest u (hbelow u hu))
    (fun u hu => hdb u (hbelow u hu)) hi hr v hv).read

end Truthful

/-! ### What is kept -/

/-- The variable is defined as a null sentinel. -/
def DefinesSentinel (t : Tree) (v : VarId) : Prop := ∃ n e, Tree.node n (.varDef v) [e] ∈ t.subtrees ∧ e.op = .nullSentinel

/-- The new tree has the rows of the old one, read under the renamings. -/
def Preserves (m : VarMap) (t t' : Tree) : Prop :=
  ∀ (I : Interpretation) (db : Database) (outer : Row), I.SortsByValue → Truthful I db t outer →
    List.Forall₂ (fun r' r => ∀ v, Defines (·) t v → r'.read ((m.get? v).getD v) = r.read v ∨
      DefinesSentinel t v ∧ (r'.read ((m.get? v).getD v)).isNull = (r.read v).isNull) (t'.rows I db outer) (t.rows I db outer)

/-- A tree that can be rewritten: it is valid, sorts by its own columns, reads elements of single columns, and no renaming is
    pending for what it names. -/
structure Rewritable (k : Nat) (m : VarMap) (t : Tree) : Prop where
  valid : Valid k (·) t
  sorted : t.Sorted
  singular : t.Singular
  clear : ∀ s ∈ t.subtrees, ∀ v ∈ s.op.names, m.get? v = none

section Preserves
variable {k : Nat} {m : VarMap} {t t' : Tree}

theorem get?_of_defines (ht : Valid k (·) t) (hclear : ∀ s ∈ t.subtrees, ∀ v ∈ s.op.names, m.get? v = none) {v : VarId}
    (hv : Defines (·) t v) : m.get? v = none := by
  obtain ⟨s, hs, hown⟩ := List.mem_flatMap.mp (mem_binds_of_defines ht.inScope hv)
  exact hclear s hs v (Op.own_subset_names hown)

theorem Rewritable.preserves (h : Rewritable k m t) (hrows : ∀ (I : Interpretation) (db : Database) (outer : Row), Truthful I db t outer →
    List.Forall₂ (Row.ReadsLike (Defines (·) t) (DefinesSentinel t)) (t'.rows I db outer) (t.rows I db outer)) : Preserves m t t' :=
  fun I db outer _ htrue => (hrows I db outer htrue).imp fun r' r hr v hv => by
    rw [get?_of_defines h.valid h.clear hv]
    exact hr v hv

theorem Rewritable.preserves_of_agree (h : Rewritable k m t) (hrows : ∀ (I : Interpretation) (db : Database) (outer : Row),
    List.Forall₂ (Row.Agree (Defines (·) t)) (t'.rows I db outer) (t.rows I db outer)) : Preserves m t t' :=
  h.preserves fun I db outer _ => (hrows I db outer).imp fun _ _ hr v hv => .inl (hr v hv)

theorem Rewritable.preserves_of_eq (h : Rewritable k m t) (hrows : ∀ (I : Interpretation) (db : Database) (outer : Row),
    t'.rows I db outer = t.rows I db outer) : Preserves m t t' :=
  h.preserves_of_agree fun I db outer => by
    rw [hrows]
    exact List.forall₂_same.mpr fun _ _ _ _ => rfl

end Preserves

end Tree

/-- What the rule makes of a tree has the rows of the tree, however it settles subtrees. -/
def Rule.Preserves (rule : Rule) : Prop :=
  ∀ {c : Context} {p : Plan} {t : Tree} (settle : NodeId → RuleM NodeId), Standing p t → Rewritable p.vars.size c.mappings t →
    rule.pattern.holds p t.id = true → EndsIn (rule.apply settle t.id) c p fun out c' p' =>
      ∀ n, out = some n → ∃ t', p'.tree? n = some t' ∧ t.Preserves c'.mappings t'

theorem Rule.Makes.preserves {rule : Rule} {P : Context → Plan → Tree → List VarId → VarMap → Tree → Prop} (h : rule.Makes P)
    (hP : ∀ {c p t k vs m t'}, Standing p t → Rewritable p.vars.size c.mappings t → Fresh p.vars.size k vs → P c p t vs m t' →
      t.Preserves m t') : rule.Preserves := by
  intro c p t settle hs hready hmatch
  refine (h.mono settle hs hmatch fun vs c' p' t' hr hmade => ?_).ends
  obtain ⟨fs, hg, -⟩ := hr.grows
  exact ⟨t', hr.holds.tree?, hP hs hready hg.vars hmade⟩

namespace Rules

variable {I : Interpretation} {db : Database} {x y q : Tree} {outer l : Row} {k : Nat} {n f : NodeId} {op : Op}

/-! ### Applies that become joins -/

theorem not_defines_of_apart (h : Apart y x) (hy : y.wellFormed) (hx : x.wellFormed) {u : VarId} (hu : Uses (·) y u) :
    ¬Defines (·) x u := by
  obtain ⟨i, j, hi, hj, hno⟩ := h
  exact fun hd => VarSet.overlaps_eq_false.mp hno u ((analysis_scope hy hi u).2.mpr hu) ((analysis_scope hx hj u).1.mpr hd)

theorem rows_eq_of_apart {z : Tree} (ht : Valid k (·) (.node n op [x, z])) (hop : op = .crossApply ∨ op = .outerApply)
    (hy : Valid k (·) y) (huses : ∀ u, Uses (·) y u → Uses (·) z u)
    (hapart : ∀ u, Uses (·) y u → ¬Defines (·) x u) (hl : l ∈ x.rows I db outer) : y.rows I db (outer.merge l) = y.rows I db outer := by
  exact rows_merge_of_apart hy.wellFormed hy.inScope (ht.first.row_within hl) fun u hu =>
    ht.not_mem_left hop (huses u hu) (hapart u hu)

theorem overFilter_preserves {name : String} (hop : op = .crossApply ∨ op = .outerApply) :
    (Rule.simple name (matching op.kind [.wildcard, matching .filter [.wildcard, .wildcard]]) overFilter).Preserves :=
  (overFilter_makes hop).preserves fun hs hready _ hmade => by
    obtain ⟨-, rfl, n, x, f, y, q, n', rfl, hapart, rfl⟩ := hmade
    obtain ⟨-, hwfx, -⟩ := (wellFormed_apply hop).mp hs.wellFormed
    have hy := hready.valid.second.first
    refine hready.preserves_of_eq fun I db outer => ?_
    have hrows : ∀ l ∈ x.rows I db outer, y.rows I db (outer.merge l) = y.rows I db outer := fun l hl =>
      rows_eq_of_apart hready.valid hop hy (fun u hu => by simp [uses_node, hu])
        (fun u => not_defines_of_apart hapart hy.wellFormed hwfx) hl
    rcases hop with rfl | rfl
    · exact rows_crossApply_filter hrows
    · exact rows_outerApply_apart hrows

theorem AlwaysRow.ne_nil (h : AlwaysRow y) (hwf : y.wellFormed) (hy : y.IsRelational) (o : Row) : y.rows I db o ≠ [] := by
  obtain ⟨i, hi, hmin⟩ := h
  have hbound : i.minRows.AtLeast (y.rows I db o).length := (bounds_of_analysis hwf hy hi o).1
  intro hnil
  rw [hnil] at hbound
  revert hmin hbound
  cases i.minRows <;> simp [RowCount.rank, RowCount.AtLeast]

theorem overAnything_preserves {name : String} (hop : op = .crossApply ∨ op = .outerApply) :
    (Rule.simple name (matching op.kind [.wildcard, .wildcard]) overAnything).Preserves :=
  (overAnything_makes hop).preserves fun hs hready _ hmade => by
    obtain ⟨-, rfl, n, x, y, rfl, hmade⟩ := hmade
    obtain ⟨⟨-, hy⟩, hwfx, hwfy⟩ := (wellFormed_apply hop).mp hs.wellFormed
    have hvy := hready.valid.second
    have hrows : Apart y x → ∀ (I : Interpretation) (db : Database) (outer : Row), ∀ l ∈ x.rows I db outer,
        y.rows I db (outer.merge l) = y.rows I db outer := fun hapart I db outer l hl =>
      rows_eq_of_apart hready.valid hop hvy (fun _ hu => hu) (fun u => not_defines_of_apart hapart hwfy hwfx) hl
    obtain ⟨rfl, hrow, n', rfl⟩ | ⟨hapart, ⟨hrow, n', rfl⟩ | ⟨rfl, n', b, rfl⟩⟩ := hmade
    · exact hready.preserves_of_eq fun I db outer => rows_outerApply_of_row fun l _ => hrow.ne_nil hwfy hy _
    · refine hready.preserves_of_eq fun I db outer => (rows_crossApply_apart (n := n) (hrows hapart I db outer)).trans ?_
      rcases hop with rfl | rfl
      · rfl
      · exact rows_outerApply_of_row fun l _ => (hrow rfl).ne_nil hwfy hy _
    · refine hready.preserves_of_eq fun I db outer => (rows_outerApply_apart (n := n) (f := n) (hrows hapart I db outer)).trans ?_
      rw [rows_outerApply, rows_outerApply, columns_filter]
      exact flatMap_congr rfl fun l _ => by rw [rows_filter_true]

theorem crossApplyOverLeftOuterJoinOverSingleRowTable_preserves : crossApplyOverLeftOuterJoinOverSingleRowTable.Preserves :=
  crossApplyOverLeftOuterJoinOverSingleRowTable_makes.preserves fun _ hready _ hmade => by
    obtain ⟨-, rfl, n, x, j, s, y, q, n', rfl, rfl⟩ := hmade
    exact hready.preserves_of_eq fun I db outer => rows_crossApply_single fun o r => by
      rw [meaning_node]
      rfl

/-! ### Projections that move above a cross apply -/

theorem crossApplyOverProject_preserves : crossApplyOverProject.Preserves :=
  crossApplyOverProject_makes.preserves fun hs hready _ hmade => by
    obtain ⟨-, rfl, n, x, g, outputs, y, d, i, n', a, rfl, hi, rfl⟩ := hmade
    refine hready.preserves_of_agree fun I db outer => rows_crossApply_project hready.valid fun v hv => ?_
    exact (analysis_scope hs.wellFormed hi v).1.mpr (by simp [defines_node, hv])

/-! ### Definitions that move above an outer apply -/

section Guards
variable {s : VarId} {standsIn : Prop} {e e' : Tree} {env : Row}

theorem value_of_guards (h : Guards s standsIn e e') (env : Row) :
    (e'.meaning I db).value env [] = (if (env.read s).isNull = true then .null else (e.meaning I db).value env []) ∨
      standsIn ∧ (e'.meaning I db).value env [] = env.read s := by
  cases h with
  | marker n type hstands =>
    refine .inr ⟨hstands, ?_⟩
    rw [meaning_node]
    rfl
  | test n a b r type type' =>
    refine .inl ?_
    simp only [meaning_node, List.map_cons, List.map_nil]
    rfl

variable {columns : VarSet} {wide : Row → Row} {loose : VarId → Prop} {g m h : NodeId} {outputs : VarSet} {ds : List Def} {d : Def}

/-- What is guarded by a column that is null for a left row without a match, and for no match, goes above the apply. -/
theorem lifts_of_guards (hg : Guards s standsIn d.expr e) (hp : Valid k (·) (.node g (.project outputs) [y, defs m ds])) (hd : d ∈ ds)
    (hwide : Widens I db k y columns wide) (hs : s ∈ columns)
    (hmark : ∀ l ∈ x.rows I db outer, ∀ r ∈ y.rows I db (outer.merge l), ∃ a, wide r s = some a ∧ a.isNull = false ∧
      (standsIn → a = (d.expr.meaning I db).value ((outer.merge l).merge r) [] ∨
        loose d.var ∧ ((d.expr.meaning I db).value ((outer.merge l).merge r) []).isNull = false)) :
    Lifts I db loose x y outer columns wide d ⟨h, d.var, e⟩ where
  var := rfl
  missing l _ := by
    have hread : (outer.merge (l.merge (Row.nulls columns))).read s = .null :=
      Row.read_of_eq_some (Row.merge_of_some (Row.merge_of_some (by simp [hs])))
    rcases value_of_guards hg (outer.merge (l.merge (Row.nulls columns))) with hvalue | ⟨-, hvalue⟩
    · rw [hvalue, hread]
      rfl
    · rw [hvalue, hread]
  found l hl r hr := by
    obtain ⟨a, ha, hnull, hstands⟩ := hmark l hl r hr
    have hread : (outer.merge (l.merge (wide r))).read s = a := Row.read_of_eq_some (Row.merge_of_some (Row.merge_of_some ha))
    rcases value_of_guards hg (outer.merge (l.merge (wide r))) with hvalue | ⟨hyes, hvalue⟩
    · refine .inl ?_
      rw [hvalue, hread, hnull]
      exact hwide.value_eq hp hd hr
    · rw [hvalue, hread]
      exact (hstands hyes).imp_right fun ⟨hloose, hvalue⟩ => ⟨hloose, hnull.trans hvalue.symm⟩

end Guards

section Outer
variable {g m : NodeId} {outputs : VarSet} {ds : List Def} {d : Def} {i : Info} {v : VarId}

theorem exists_of_nonNullable (hy : Valid k (·) y) (hrel : y.IsRelational) (hi : y.analysis = .ok i) (hv : v ∈ i.nonNullable) {o r : Row}
    (htrue : Truthful I db y o) (hr : r ∈ y.rows I db o) : ∃ a, r v = some a ∧ a.isNull = false := by
  have hdef : Defines (·) y v := (analysis_scope hy.wellFormed hi v).1.mp (nonNullable_defined hy.wellFormed hrel hy.inScope hi hv)
  obtain ⟨a, ha⟩ := Option.ne_none_iff_exists'.mp (hy.row_ne_none hr hdef)
  exact ⟨a, ha, Row.read_of_eq_some ha ▸ htrue y o .self i hi r hr v hv⟩

theorem definesSentinel_of_mem (hd : d ∈ ds) (h : d.expr.op = .nullSentinel) :
    DefinesSentinel (.node n op [x, .node g (.project outputs) [y, defs m ds]]) d.var := by
  refine ⟨d.node, d.expr, ?_, h⟩
  have hmem : d.tree ∈ (defs m ds).subtrees := mem_subtrees_of_mem (List.mem_map_of_mem hd) (by simp [Def.tree])
  exact mem_subtrees_of_mem (c := .node g (.project outputs) [y, defs m ds]) (by simp) (mem_subtrees_of_mem (by simp) hmem)

theorem rows_of_above {j : Info} {s : VarId} {e : Tree} {n' a m' h : NodeId}
    (ht : Valid k (·) (.node n .outerApply [x, .node g (.project outputs) [.node f .filter [y, q], defs m [d]]]))
    (hrows : ∀ l ∈ x.rows I db outer, y.rows I db (outer.merge l) = y.rows I db outer) (hi : y.analysis = .ok i)
    (hs : s ∈ i.nonNullable) (hguards : Guards s (d.expr.op = .nullSentinel) d.expr e)
    (hj : (Tree.node a .leftOuterJoin [x, y, q]).analysis = .ok j)
    (htrue : Truthful I db (.node n .outerApply [x, .node g (.project outputs) [.node f .filter [y, q], defs m [d]]]) outer) :
    List.Forall₂ (Row.ReadsLike
        (Defines (·) (.node n .outerApply [x, .node g (.project outputs) [.node f .filter [y, q], defs m [d]]]))
        (DefinesSentinel (.node n .outerApply [x, .node g (.project outputs) [.node f .filter [y, q], defs m [d]]])))
      ((Tree.node n' (.project (outputs ∪ j.definitions)) [.node a .leftOuterJoin [x, y, q], defs m' [⟨h, d.var, e⟩]]).rows I db outer)
      ((Tree.node n .outerApply [x, .node g (.project outputs) [.node f .filter [y, q], defs m [d]]]).rows I db outer) := by
  obtain ⟨⟨hx, -⟩, hwfx, hwfg⟩ := wellFormed_outerApply.mp ht.wellFormed
  obtain ⟨⟨hf, -⟩, hwff, -⟩ := wellFormed_project.mp hwfg
  obtain ⟨⟨hy, hq⟩, hwfy, hwfq⟩ := wellFormed_filter.mp hwff
  have hvg := ht.second
  have hvy := hvg.first.first
  have hdef : Defines (·) y s := (analysis_scope hwfy hi s).1.mp (nonNullable_defined hwfy hy hvy.inScope hi hs)
  refine rows_outerApply_project ht (fun v hv => ?_) (.refl hwff hf)
    (.cons (lifts_of_guards hguards hvg (by simp) (.refl hwff hf) ?_ ?_) .nil)
    ((rows_outerApply_apart (n := n) (f := f) hrows).trans rows_outerApply)
  · refine (analysis_scope (wellFormed_leftOuterJoin.mpr ⟨⟨hx, hy, hq⟩, hwfx, hwfy, hwfq⟩) hj v).1.mpr ?_
    simp [defines_node, hv]
  · rw [columns_filter]
    exact (mem_columns hwfy hy).mpr hdef
  · intro l hl r hr
    rw [rows_filter] at hr
    have htruey : Truthful I db y (outer.merge l) :=
      ((htrue.right (.inr rfl) hl).input nofun nofun (by simp) hf).input nofun nofun (by simp) hy
    obtain ⟨a, ha, hnull⟩ := exists_of_nonNullable hvy hy hi hs htruey (List.mem_filter.mp hr).1
    refine ⟨a, ha, hnull, fun hsentinel => .inr ⟨definesSentinel_of_mem (by simp) hsentinel, ?_⟩⟩
    rw [value_of_value? (congrArg Op.value? hsentinel)]
    rfl

theorem overConstantProject_preserves {name : String} {kind : OpKind} (hkind : kind = .internalConstant ∨ kind = .nullSentinel) :
    (Rule.simple name (constantProjectPattern kind) overConstantProject).Preserves :=
  overConstantProject_makes.preserves fun hs hready _ hmade => by
    obtain ⟨-, rfl, n, x, g, outputs, f, y, q, m, d, rfl, hd, hlifted⟩ := hmade
    obtain ⟨⟨hx, -⟩, hwfx, hwfg⟩ := wellFormed_outerApply.mp hs.wellFormed
    obtain ⟨⟨hf, -⟩, hwff, hwfd⟩ := wellFormed_project.mp hwfg
    obtain ⟨⟨hy, -⟩, hwfy, hwfq⟩ := wellFormed_filter.mp hwff
    have hvg := hready.valid.second
    have hvy := hvg.first.first
    have hconst : ∀ (I : Interpretation) (db : Database) (env env' : Row),
        (d.expr.meaning I db).value env [] = (d.expr.meaning I db).value env' [] := by
      have hwfe := (wellFormed_defs.mp hwfd d (by simp)).2
      intro I db env env'
      rcases hkind with rfl | rfl
      · obtain ⟨e, a, he⟩ := looks hwfe hd
        rw [he, value_of_value? rfl, value_of_value? rfl]
      · obtain ⟨e, he⟩ := looks hwfe hd
        rw [he, value_of_value? rfl, value_of_value? rfl]
    have hrows : (∃ i j, Movable x y outputs i j) → ∀ (I : Interpretation) (db : Database) (outer : Row), ∀ l ∈ x.rows I db outer,
        y.rows I db (outer.merge l) = y.rows I db outer := fun ⟨i, j, hmove⟩ I db outer l hl =>
      rows_eq_of_apart hready.valid (.inr rfl) hvy (fun u hu => by simp [uses_node, hu])
        (fun u => not_defines_of_apart ⟨i, j, hmove.input, hmove.left, hmove.apart⟩ hwfy hwfx) hl
    cases hlifted with
    | below hmove hk =>
      refine hready.preserves_of_agree fun I db outer => rows_outerApply_constant hready.valid (hconst I db)
        (hrows ⟨_, _, hmove⟩ I db outer) fun v => ?_
      rw [VarSet.mem_inter, (analysis_scope hwfq hk v).2, (analysis_scope hwfy hmove.input v).1]
    | above hmove hs hguards hj =>
      exact hready.preserves fun I db outer htrue =>
        rows_of_above hready.valid (hrows ⟨_, _, hmove⟩ I db outer) hmove.input hs hguards hj htrue

/-- The input of the new apply has the rows of the old one, with the marker added. -/
structure MarkedBy (I : Interpretation) (db : Database) (k : Nat) (x y : Tree) (outer : Row) (mark : Marker) (y' : Tree)
    (wide : Row → Row) : Prop where
  widens : Widens I db k y (y'.meaning I db).columns wide
  rows : ∀ o, y'.rows I db o = (y.rows I db o).map wide
  column : ∀ v, mark.sentinel = some v → v ∈ (y'.meaning I db).columns
  found : ∀ v, mark.sentinel = some v → ∀ l ∈ x.rows I db outer, ∀ r ∈ y.rows I db (outer.merge l),
    ∃ a, wide r v = some a ∧ a.isNull = false ∧ (mark.constant.isSome = true → a = .int32 1)

theorem bindings_marker (h : NodeId) (w : VarId) (c : NodeId) (env env' : Row) :
    ((defs m [⟨h, w, .node c (.internalConstant (.int32 1)) []⟩]).meaning I db).bindings env [] =
      ((defs m [⟨h, w, .node c (.internalConstant (.int32 1)) []⟩]).meaning I db).bindings env' [] := by
  have hwf : (defs m [⟨h, w, .node c (.internalConstant (.int32 1)) []⟩]).wellFormed :=
    wellFormed_defs.mpr (List.forall_mem_singleton.mpr ⟨rfl, wellFormed_leaf rfl⟩)
  have hscoped : Scoped (·) (defs m [⟨h, w, .node c (.internalConstant (.int32 1)) []⟩]) := by simp [scoped_node]
  refine (meaning_reads hwf hscoped.backed).bindings (fun u hu => ?_) .nil
  simp [uses_node] at hu

/-- Every marker marks: one that is made is a constant, another is a column that is never null. -/
theorem exists_markedBy {y' : Tree} {mark : Marker} (hvy : Valid k (·) y) (hy : y.IsRelational) (hi : y.analysis = .ok i)
    (hmarks : Marks k i y mark y') (htrue : ∀ l ∈ x.rows I db outer, Truthful I db y (outer.merge l)) :
    ∃ wide, MarkedBy I db k x y outer mark y' wide := by
  cases hmarks with
  | plain =>
    refine ⟨(·), .refl hvy.wellFormed hy, fun o => (List.map_id' _).symm, fun v hv => ?_, fun v hv l hl r hr => ?_⟩
    · have hdef := nonNullable_defined hvy.wellFormed hy hvy.inScope hi (VarSet.first?_eq_some hv)
      exact (mem_columns hvy.wellFormed hy).mpr ((analysis_scope hvy.wellFormed hi v).1.mp hdef)
    · obtain ⟨a, ha, hnull⟩ := exists_of_nonNullable hvy hy hi (VarSet.first?_eq_some hv) (htrue l hl) hr
      exact ⟨a, ha, hnull, nofun⟩
  | made w c g m h _ hw =>
    refine ⟨fun r => (r.merge (((defs m [⟨h, w, .node c (.internalConstant (.int32 1)) []⟩]).meaning I db).bindings .empty [])).only
      (VarSet.empty.insert w ∪ i.definitions), ⟨fun v hv => ?_, fun o r hr v hv hor => ?_⟩, fun o => ?_, ?_, ?_⟩
    · rw [columns_project]
      have hne : v ≠ w := fun heq => absurd hw (Nat.not_le.mpr (heq ▸ hv))
      simp [hne, (analysis_scope hvy.wellFormed hi v).1]
    · have hne : v ≠ w := fun heq => absurd hw (Nat.not_le.mpr (heq ▸ hv))
      by_cases hmem : v ∈ i.definitions
      · exact project_apply_none (by simpa using hne) (by simp [hmem])
      · have hnb := hor.resolve_left fun hdef => hmem ((analysis_scope hvy.wellFormed hi v).1.mpr hdef)
        rw [Row.only_apply, if_neg (by simp [hne, hmem]), (hvy.row_within hr).eq_none hnb]
    · rw [rows_project]
      exact List.map_congr_left fun r _ => by rw [bindings_marker h w c (o.merge r) .empty]
    · rintro v hv
      obtain rfl : w = v := Option.some.inj hv
      rw [columns_project]
      simp
    · rintro v hv l - r -
      obtain rfl : w = v := Option.some.inj hv
      exact ⟨.int32 1, project_apply_some (d := ⟨h, w, .node c (.internalConstant (.int32 1)) []⟩) (by simp) (by simp) (by simp),
        rfl, fun _ => rfl⟩

/-- A definition that is raised goes above the apply: a plain reference to the input is null there for a row of nulls, anything else is
    guarded. -/
theorem lifts_of_raised {y' : Tree} {mark : Marker} {wide : Row → Row} {loose : VarId → Prop} {d' : Def}
    (hp : Valid k (·) (.node g (.project outputs) [y, defs m ds])) (hi : y.analysis = .ok i) (hd : d ∈ ds)
    (hmarked : MarkedBy I db k x y outer mark y' wide) (h : Raised i.definitions mark d d') :
    Lifts I db loose x y outer (y'.meaning I db).columns wide d d' := by
  have hvy := hp.first
  cases h with
  | @stays v type hop hv =>
    have hdef := (analysis_scope hvy.wellFormed hi v).1.mp hv
    have hcol := (hmarked.widens.columns v (hvy.binds_lt v (mem_binds_of_defines hvy.inScope hdef))).mpr hdef
    refine ⟨rfl, fun l _ => ?_, fun l _ r hr => .inl (hmarked.widens.value_eq hp hd hr)⟩
    obtain ⟨_, _, _, op, cs⟩ := d
    obtain rfl : op = .varRef v type := hop
    rw [meaning_node]
    exact Row.read_of_eq_some (Row.merge_of_some (Row.merge_of_some (by simp [hcol])))
  | @guarded v _ e hs hguards =>
    refine lifts_of_guards hguards hp hd hmarked.widens (hmarked.column v hs) fun l hl r hr => ?_
    obtain ⟨a, ha, hnull, hmade⟩ := hmarked.found v hs l hl r hr
    refine ⟨a, ha, hnull, fun ⟨hconstant, hvalue⟩ => .inl ?_⟩
    rw [hmade hconstant, value_of_value? hvalue]

theorem outerApplyOverProject_preserves : outerApplyOverProject.Preserves :=
  outerApplyOverProject_makes.preserves fun hs hready _ hmade => by
    obtain ⟨rfl, n, x, g, outputs, y, m, ds, rfl, @⟨i, j, mark, y', ds', n', a, m', hi, hj, -, hmarks, hraised, -⟩⟩ := hmade
    obtain ⟨-, hwfx, hwfg⟩ := wellFormed_outerApply.mp hs.wellFormed
    obtain ⟨⟨hy, -⟩, -⟩ := wellFormed_project.mp hwfg
    have hvg := hready.valid.second
    have hvy := hvg.first
    refine hready.preserves fun I db outer htrue => ?_
    obtain ⟨wide, hmarked⟩ := exists_markedBy hvy hy hi hmarks fun l hl => (htrue.right (.inr rfl) hl).input nofun nofun (by simp) hy
    refine rows_outerApply_project hready.valid (fun v hv => (analysis_scope hwfx hj v).1.mpr hv) hmarked.widens
      (forall₂_imp_mem hraised fun d hd d' _ hr => lifts_of_raised hvg hi hd hmarked hr) ?_
    rw [rows_outerApply]
    exact flatMap_congr rfl fun l _ => by rw [hmarked.rows, List.map_map, Function.comp_def]

end Outer

/-! ### Applies that become elements -/

section Element
variable {i : Info} {old new : VarId} {vs : List VarId} {y' : Tree} {m : VarMap}

theorem defines_iff_of_single (hwf : y.wellFormed) (hi : y.analysis = .ok i) (hsize : i.definitions.size = 1)
    (hold : i.definitions.first? = some old) (v : VarId) : Defines (·) y v ↔ v = old := by
  obtain ⟨w, hw⟩ := List.length_eq_one_iff.mp hsize
  have hmem : ∀ u, u ∈ i.definitions ↔ u = w := fun u => by rw [← VarSet.mem_toList, hw, List.mem_singleton]
  rw [← (analysis_scope hwf hi v).1, hmem, (hmem old).mp (VarSet.first?_eq_some hold)]

theorem getD_renaming {v : VarId} (hne : old ≠ new) (hv : m.get? v = none) :
    ((m.renaming old new).get? v).getD v = if v = old then new else v := by
  rw [VarMap.renaming, if_neg hne, VarMap.get?_insert, hv]
  split <;> rfl

theorem intoElement_preserves {name : String} (hop : op = .crossApply ∨ op = .outerApply) :
    (Rule.simple name (matching op.kind [.wildcard, .wildcard]) intoElement).Preserves :=
  (intoElement_makes hop).preserves fun {_ _ _ size _ _ _} hs hready hfresh hmade => by
    obtain ⟨n, x, y, rfl, @⟨i, j, old, new, y₁, y₂, vs, n', d, e, l, type, hi, hj, hsingle, hold, hrenewed, hcopy⟩⟩ := hmade
    obtain ⟨⟨hx, hy⟩, hwfx, hwfy⟩ := (wellFormed_apply hop).mp hs.wellFormed
    have hvx := hready.valid.first
    have hvy := hready.valid.second
    have hsorted := (sorted_node.mp hready.sorted).2 y (by simp)
    obtain rfl := hrenewed.same fun s hs => hready.clear s (mem_subtrees_of_mem (by simp) hs)
    obtain ⟨μ, hmirrors, rfl, hfix⟩ := hcopy.mirrors _ hvy hsorted
    have hdef := defines_iff_of_single hwfy hi hsingle.size hold
    have hb : old ∈ y₁.binds := mem_binds_of_defines hvy.inScope ((hdef old).mpr rfl)
    have hnew := hfresh.ge new (by simp)
    have hne : old ≠ new := fun heq => absurd (hvy.binds_lt old hb) (Nat.not_lt.mpr (heq ▸ hnew))
    have hcopied : Fresh _ size (y₁.binds.map μ) := ⟨fun v hv => hfresh.ge v (List.mem_append_left _ hv),
      fun v hv => hfresh.lt v (List.mem_append_left _ hv), (List.nodup_append.mp hfresh.nodup).1⟩
    intro I db outer hsort _
    have hμ := distinguishes_of_copy hvy hcopied hfix
    have hsingular := (singular_node.mp hready.singular).2 y₁ (by simp)
    have hN : ∀ s ∈ y₁.subtrees, ∀ v ∈ s.op.names, v ∈ y₁.binds ∨ Uses (·) y₁ v := fun s hs v hv =>
      mem_binds_or_uses hvy.inScope hsorted hs hv
    have hmeaning : (y₁.meaning I db).Mirrors _ (Uses (·) y₁) μ (y₂.meaning I db) :=
      meaning_mirrors hμ hmirrors hwfy (fun _ _ _ => hsort) hvy.inScope hsingular hN
    have hcols : Op.IsImage μ (y₁.meaning I db).columns (y₂.meaning I db).columns :=
      columns_mirrors hμ hmirrors hwfy (fun _ _ _ => hsort) hvy.inScope hsingular hN hy
    refine (rows_apply_element hready.valid hop hdef (fun h => absurd (hvx.binds_lt new h) (Nat.not_lt.mpr hnew))
      (fun v hv => (analysis_scope hwfx hj v).1.mpr hv) (fun o => ?_) (fun hcross o => ?_)
      fun l _ => value_element_copy hmeaning hcols hwfy hy hdef (.inl hb) hfix).imp fun r' r hr v hv => .inl ?_
    · simpa [hsingle.maxRows, RowCount.AtMost] using (bounds_of_analysis hwfy hy hi o).2
    · have hrow : i.minRows.AtLeast (y₁.rows I db o).length := (bounds_of_analysis hwfy hy hi o).1
      rw [hsingle.minRows hcross] at hrow
      exact List.length_pos_iff.mp hrow
    · rw [getD_renaming hne (get?_of_defines hready.valid hready.clear hv)]
      exact hr v hv

end Element

theorem applyRules_preserve : ∀ rule ∈ applyRules, rule.Preserves := by
  simp only [applyRules, List.forall_mem_cons]
  exact ⟨overAnything_preserves (.inl rfl), overFilter_preserves (.inl rfl), crossApplyOverProject_preserves,
    overAnything_preserves (.inr rfl), overConstantProject_preserves (.inl rfl), overConstantProject_preserves (.inr rfl),
    outerApplyOverProject_preserves, overFilter_preserves (.inr rfl), crossApplyOverLeftOuterJoinOverSingleRowTable_preserves,
    intoElement_preserves (.inl rfl), intoElement_preserves (.inr rfl), List.forall_mem_nil _⟩

/-- An apply rule preserves meaning: where the rule fires on a well-scoped apply and the analysis is right about the columns that
    are never null, what it makes has row by row the columns of the apply. A column with a renaming is read under its new name,
    and of one that is defined as a null sentinel only whether it is null is kept. -/
theorem applyRules_rows {rule : Rule} (hrule : rule ∈ applyRules) {settle : NodeId → RuleM NodeId} {p p' : Plan} {c c' : Context}
    {t : Tree} (hp : p.Holds t) (hids : t.ids.Nodup) (ht : Valid p.vars.size (·) t) (hsorted : t.Sorted) (hsingular : t.Singular)
    (hclear : ∀ s ∈ t.subtrees, ∀ v ∈ s.op.names, c.mappings.get? v = none) (hmatch : rule.pattern.holds p t.id = true)
    (hrun : rule.apply settle t.id c p = .ok ((some n, c'), p')) :
    ∃ t', p'.tree? n = some t' ∧ ∀ (I : Interpretation) (db : Database) (outer : Row), I.SortsByValue → Truthful I db t outer →
      List.Forall₂ (fun r' r => ∀ v, Defines (·) t v → r'.read ((c'.mappings.get? v).getD v) = r.read v ∨
        DefinesSentinel t v ∧ (r'.read ((c'.mappings.get? v).getD v)).isNull = (r.read v).isNull)
        (t'.rows I db outer) (t.rows I db outer) :=
  applyRules_preserve rule hrule settle ⟨hp, hids, ht.wellFormed⟩ ⟨ht, hsorted, hsingular, hclear⟩ hmatch (some n) c' p' hrun n rfl

/-- `OuterApply(t, Project(Filter(u, a = b), [c := sentinel], [c]))`, where `b` is a column of `u` that is never null. -/
def flaggedTree : Tree :=
  .node 10 .outerApply [.node 0 (.scanTable ⟨0, "t", [0], .empty, none⟩) [],
    .node 9 (.project (.ofList [2])) [.node 5 .filter [.node 1 (.scanTable ⟨1, "u", [1], .ofList [1], none⟩) [],
        .node 4 (.scalar .eq .boolean) [.node 2 (.varRef 0 .int32) [], .node 3 (.varRef 1 .int32) []]],
      .node 8 .varDefList [.node 7 (.varDef 2) [.node 6 .nullSentinel []]]]]

def flagged : Plan := flaggedTree.plan 2 [⟨.column, "t.a", .int32⟩, ⟨.column, "u.b", .int32⟩, ⟨.computed, "", .int32⟩]

theorem flagged_valid : Valid 3 (·) flaggedTree :=
  .of_closed rfl (by simp [flaggedTree, scoped_node, defines_node]) (by decide) (by decide) (by decide +kernel)

theorem applyRules_rows_flagged :
    ∃ n c' p' t', outerApplyOverProjectNullSentinelOverFilter.apply pure 10 (.start .standard) flagged = .ok ((some n, c'), p') ∧
      p'.tree? n = some t' ∧ ∀ (I : Interpretation) (db : Database) (outer : Row) (le : List (Bool × Value) → List (Bool × Value) → Bool),
        (∀ keys rows, I.arrange keys rows = rows.mergeSort fun r s =>
          le (keys.map fun k => (k.ascending, r.read k.var)) (keys.map fun k => (k.ascending, s.read k.var))) →
        (∀ values ∈ db "u", (values.getD 0 .null).isNull = false) →
        List.Forall₂ (fun r' r => ∀ v, Defines (·) flaggedTree v → r'.read ((c'.mappings.get? v).getD v) = r.read v ∨
          DefinesSentinel flaggedTree v ∧ (r'.read ((c'.mappings.get? v).getD v)).isNull = (r.read v).isNull)
          (t'.rows I db outer) (flaggedTree.rows I db outer) := by
  have hview : flagged.tree? 10 = some flaggedTree := rfl
  have hmatch : outerApplyOverProjectNullSentinelOverFilter.pattern.holds flagged 10 = true := by decide
  obtain ⟨n, c', p', hrun⟩ : ∃ n c' p', outerApplyOverProjectNullSentinelOverFilter.apply pure 10 (.start .standard) flagged =
      .ok ((some n, c'), p') := exists_of_fires (by decide +kernel)
  have hkeys : ∀ s ∈ flaggedTree.subtrees, s.op.sortVars = [] := by decide
  have helements : ∀ s ∈ flaggedTree.subtrees, s.kind ≠ .element := by decide
  obtain ⟨t', ht', hrows⟩ := applyRules_rows (t := flaggedTree) (by simp [applyRules]) (holds_of_view (by decide) hview) (by decide)
    flagged_valid (fun s hs v hv => by rw [hkeys s hs] at hv; cases hv) (fun s hs hk => absurd hk (helements s hs)) (fun _ _ _ _ => rfl)
    hmatch hrun
  refine ⟨n, c', p', t', hrun, ht', fun I db outer _ hsort hu => hrows I db outer (Interpretation.sortsByValue_of_mergeSort hsort) ?_⟩
  refine truthful_of_respected flagged_valid rfl ?_ ?_
  · simp [flaggedTree, Honest, definitions]
  · simpa [flaggedTree, Table.Respected, Table.row, Row.read] using hu

end Rules

end Planwright
