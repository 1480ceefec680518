import Planwright.Proofs.Plan.Analysis
import Planwright.Proofs.Semantics.Meaning

/-! The bounds that the analysis gives on the number of rows hold of every evaluation. -/

namespace Planwright

namespace RowCount

/-- A number of rows that respects the count as a lower bound. Nothing is known to have more than one row. -/
def AtLeast : RowCount → Nat → Prop
  | zero, _ => True
  | one, n => 1 ≤ n
  | unbounded, _ => False

/-- A number of rows that respects the count as an upper bound. -/
def AtMost : RowCount → Nat → Prop
  | zero, n => n = 0
  | one, n => n ≤ 1
  | unbounded, _ => True

variable {b c : RowCount} {n m : Nat}

theorem AtLeast.of_nonempty (h : b.AtLeast n) (hm : 1 ≤ n → 1 ≤ m) : b.AtLeast m := by
  cases b with
  | zero => trivial
  | one => exact hm h
  | unbounded => exact h

theorem AtLeast.mono (h : b.AtLeast n) (hle : n ≤ m) : b.AtLeast m := h.of_nonempty fun h1 => Nat.le_trans h1 hle

theorem AtMost.mono (h : b.AtMost n) (hle : m ≤ n) : b.AtMost m := by
  cases b with
  | zero => exact Nat.le_zero.mp (Nat.le_trans hle (Nat.le_of_eq h))
  | one => exact Nat.le_trans hle h
  | unbounded => trivial

theorem AtLeast.min (hb : b.AtLeast n) (hc : c.AtLeast m) : (b.min c).AtLeast (n * m) := by
  cases b <;> cases c <;> simp_all [AtLeast, RowCount.min, rank]
  exact Nat.mul_pos hb hc

theorem AtLeast.max (hb : b.AtLeast n) (hc : c.AtLeast m) : (b.max c).AtLeast (n + m) := by
  cases b <;> cases c <;> simp_all [AtLeast, RowCount.max, rank] <;> omega

theorem AtMost.union (hb : b.AtMost n) (hc : c.AtMost m) :
    (if b == zero then c else if c == zero then b else unbounded).AtMost (n + m) := by
  split
  · rename_i hz
    rw [eq_of_beq hz] at hb
    obtain rfl : n = 0 := hb
    rwa [Nat.zero_add]
  · split
    · rename_i hz
      rw [eq_of_beq hz] at hc
      obtain rfl : m = 0 := hc
      exact hb
    · trivial

theorem AtMost.min (hb : b.AtMost n) (hc : c.AtMost n) : (b.min c).AtMost n := by
  unfold RowCount.min
  split
  · exact hb
  · exact hc

theorem AtMost.flatMap {α β : Type} {as : List α} {f : α → List β} (hb : b.AtMost as.length)
    (hc : ∀ a ∈ as, c.AtMost (f a).length) : (b.product c).AtMost (as.flatMap f).length := by
  cases b with
  | zero =>
    obtain rfl := List.length_eq_zero_iff.mp hb
    rfl
  | one =>
    match as, hb with
    | [], _ => cases c <;> simp [product, AtMost]
    | [a], _ =>
      have ha := hc a List.mem_cons_self
      rw [List.flatMap_singleton]
      cases c <;> exact ha
  | unbounded =>
    cases c with
    | zero =>
      have hnil : as.flatMap f = [] := List.flatMap_eq_nil_iff.mpr fun a ha => List.length_eq_zero_iff.mp (hc a ha)
      rw [hnil]
      rfl
    | one | unbounded => trivial

theorem AtMost.flatMap_one {α β : Type} {as : List α} {f : α → List β} (hb : b.AtMost as.length)
    (hf : ∀ a ∈ as, (f a).length ≤ 1) : b.AtMost (as.flatMap f).length := by
  have h : (b.product one).AtMost (as.flatMap f).length := AtMost.flatMap hb hf
  cases b <;> exact h

theorem length_le_flatMap {α β : Type} {as : List α} {f : α → List β} (hf : ∀ a ∈ as, 1 ≤ (f a).length) :
    as.length ≤ (as.flatMap f).length := by
  induction as with
  | nil => exact Nat.zero_le _
  | cons a as ih =>
    have ha := hf a List.mem_cons_self
    have has := ih fun a' ha' => hf a' (List.mem_cons_of_mem _ ha')
    rw [List.flatMap_cons, List.length_append, List.length_cons]
    omega

end RowCount

namespace Row

variable {mark : Value → Value} {rows : List Row}

theorem one_le_length_orNulls (columns : VarSet) (l : Row) (found : List Row) : 1 ≤ (l.orNulls columns found).length := by
  unfold orNulls
  split
  · exact Nat.le_refl _
  · rename_i h
    exact List.length_pos_iff.mpr fun hn => h (by simp [hn])

theorem length_orNulls_le (columns : VarSet) (l : Row) {found : List Row} (h : found.length ≤ 1) :
    (l.orNulls columns found).length ≤ 1 := by
  unfold orNulls
  split
  · exact Nat.le_refl _
  · exact h

theorem length_groups_le {keys : VarSet} (h : keys.isEmpty = false) (rows : List Row) :
    (groups mark keys rows).length ≤ rows.length := by
  simp only [groups, h, Bool.false_eq_true, if_false, List.length_map]
  exact length_firsts_le rows

theorem one_le_length_firsts {κ : Type} [DecidableEq κ] {key : Row → κ} (h : 1 ≤ rows.length) :
    1 ≤ (firsts key rows).length :=
  List.length_pos_iff.mpr fun hn => by simp [firsts_eq_nil.mp hn] at h

theorem one_le_length_groups (keys : VarSet) (h : 1 ≤ rows.length) :
    1 ≤ (groups mark keys rows).length := by
  unfold groups
  split
  · exact Nat.le_refl _
  · rw [List.length_map]
    exact one_le_length_firsts h

end Row

namespace Op

variable (outputs : VarSet) (left right : List Row)

theorem length_combined_unionAll : (combined I .unionAll outputs left right).length = left.length + right.length :=
  List.length_append

theorem length_intersect_le_left : (combined I .intersect outputs left right).length ≤ left.length :=
  Nat.le_trans (Row.length_firsts_le _) (List.length_filter_le _ _)

theorem length_intersect_le_right : (combined I .intersect outputs left right).length ≤ right.length := by
  refine Row.length_firsts_le_of_keys fun r hr => ?_
  exact List.contains_iff_mem.mp (List.mem_filter.mp hr).2

theorem length_except_le : (combined I .except outputs left right).length ≤ left.length :=
  Nat.le_trans (Row.length_firsts_le _) (List.length_filter_le _ _)

end Op

namespace Tree

variable (I : Interpretation) (db : Database)

theorem holds_of_isFalse {t : Tree} (h : t.op.isFalse) (outer r : Row) :
    (t.meaning I db).holds outer r = false := by
  have hfalse : t.op.value? = some (.boolean false) := by
    cases hop : t.op <;> simp_all [Op.isFalse, Op.value?]
  rw [Meaning.holds, value_of_value? hfalse]
  rfl

theorem length_filter_of_isFalse {t : Tree} (h : t.op.isFalse) (outer : Row) (rs : List Row) :
    (rs.filter ((t.meaning I db).holds outer)).length = 0 := by
  rw [List.length_eq_zero_iff, List.filter_eq_nil_iff]
  intro r _
  simp [holds_of_isFalse I db h]

theorem count?_of_limit? {t : Tree} {c : RowCount} (h : t.op.limit? = some c) (env : Row) :
    ∃ n, ((t.meaning I db).value env []).count? = some n ∧ c.AtMost n := by
  rw [Op.limit?] at h
  cases hl : t.op.literal? with
  | none => simp [hl] at h
  | some v =>
    rw [value_of_value? (Op.value?_of_literal? hl)]
    simp only [hl, Option.bind_some] at h
    split at h
    · rename_i hi
      cases h
      exact ⟨0, by simp [Value.count?, hi], rfl⟩
    · rename_i hi
      cases h
      exact ⟨1, by simp [Value.count?, hi], Nat.le_refl 1⟩
    · cases h

end Tree

/-- A number of rows within the bounds of an analysis. -/
def Info.Bounds (i : Info) (n : Nat) : Prop := i.minRows.AtLeast n ∧ i.maxRows.AtMost n

namespace Tree

variable {I : Interpretation} {db : Database}

theorem outer_bounds {il ir : Info} {columns : VarSet} {ls : List Row} {found : Row → List Row}
    (hmin : il.minRows.AtLeast ls.length) (hmax : il.maxRows.AtMost ls.length)
    (hf : ∀ l ∈ ls, ir.maxRows.AtMost (found l).length) :
    il.minRows.AtLeast (ls.flatMap fun l => l.orNulls columns (found l)).length ∧
      (Op.analyze.outerRows il ir).AtMost (ls.flatMap fun l => l.orNulls columns (found l)).length := by
  refine ⟨hmin.mono (RowCount.length_le_flatMap fun l _ => Row.one_le_length_orNulls ..), ?_⟩
  unfold Op.analyze.outerRows
  split
  · rename_i hr
    rw [eq_of_beq hr]
    exact RowCount.AtMost.flatMap hmax fun l _ => trivial
  · rename_i hr
    refine RowCount.AtMost.flatMap_one hmax fun l hl => Row.length_orNulls_le _ _ ?_
    have := hf l hl
    cases hm : ir.maxRows with
    | zero =>
      rw [hm] at this
      exact Nat.le_trans (Nat.le_of_eq this) (Nat.zero_le 1)
    | one => rwa [hm] at this
    | unbounded => simp [hm] at hr

/-- Grouping without keys gives one row, grouping with keys at most one for each row. -/
theorem groups_bounds {mark : Value → Value} {keys : VarSet} {input : Info} {rs : List Row} (hmin : input.minRows.AtLeast rs.length)
    (hmax : input.maxRows.AtMost rs.length) :
    (if keys.isEmpty || input.minRows == .one then RowCount.one else .zero).AtLeast (Row.groups mark keys rs).length ∧
      (if keys.isEmpty then RowCount.one else input.maxRows).AtMost (Row.groups mark keys rs).length := by
  cases hk : keys.isEmpty with
  | true => simp [Row.groups, hk, RowCount.AtLeast, RowCount.AtMost]
  | false =>
    refine ⟨?_, hmax.mono (Row.length_groups_le hk rs)⟩
    rw [Bool.false_or]
    split
    · rename_i hone
      rw [eq_of_beq hone] at hmin
      exact Row.one_le_length_groups keys hmin
    · trivial

theorem bounds_of_analysis {t : Tree} (ht : t.wellFormed) (hrel : t.IsRelational) {i : Info}
    (h : t.analysis = .ok i) (outer : Row) : i.Bounds (t.rows I db outer).length := by
  induction t using induct generalizing i outer with
  | node id op cs ih =>
    obtain ⟨hf, hcs⟩ := wellFormed_node.mp ht
    have child : ∀ c ∈ cs, c.IsRelational → ∀ j, c.analysis = .ok j → ∀ o, j.Bounds (c.rows I db o).length :=
      fun c hc hrc j hj o => ih c hc (hcs c hc) hrc hj o
    cases shape_of_fits hf with
    | scanTable t =>
      cases analysis_none.mp h
      exact ⟨trivial, trivial⟩
    | singleRowTable =>
      cases analysis_none.mp h
      exact ⟨Nat.le_refl 1, Nat.le_refl 1⟩
    | @filter input predicate hi hp =>
      obtain ⟨ii, ip, hii, -, ⟨⟩⟩ := analysis_two.mp h
      refine ⟨trivial, ?_⟩
      show (if predicate.op.isFalse then RowCount.zero else RowCount.unbounded).AtMost _
      split
      · rename_i hfalse
        exact length_filter_of_isFalse I db hfalse outer _
      · trivial
    | @project outputs input defs hi hd =>
      obtain ⟨ii, id, hii, -, h⟩ := analysis_two.mp h
      obtain ⟨known, -, ⟨⟩⟩ := Run.bind_ok.mp h
      obtain ⟨hmin, hmax⟩ := child input (by simp) hi ii hii outer
      simp only [rows, meaning_node, List.map_cons, List.map_nil, Op.meaning, Meaning.relation, List.length_map]
      exact ⟨hmin, hmax⟩
    | @crossJoin left right hl hr =>
      obtain ⟨il, ir, hil, hir, ⟨⟩⟩ := analysis_two.mp h
      obtain ⟨lmin, lmax⟩ := child left (by simp) hl il hil outer
      obtain ⟨rmin, rmax⟩ := child right (by simp) hr ir hir outer
      constructor
      · refine (lmin.min rmin).mono (Nat.le_of_eq ?_)
        simp [rows, Op.meaning, Meaning.relation, List.length_flatMap]
      · exact RowCount.AtMost.flatMap lmax fun l _ => by rwa [List.length_map]
    | @innerJoin left right predicate hl hr hp =>
      obtain ⟨il, ir, ip, hil, hir, -, ⟨⟩⟩ := analysis_three.mp h
      refine ⟨trivial, ?_⟩
      show (if predicate.op.isFalse then RowCount.zero else il.maxRows.product ir.maxRows).AtMost _
      split
      · rename_i hfalse
        refine List.length_eq_zero_iff.mpr (List.flatMap_eq_nil_iff.mpr fun l _ => ?_)
        exact List.length_eq_zero_iff.mp (length_filter_of_isFalse I db hfalse outer _)
      · refine RowCount.AtMost.flatMap (child left (by simp) hl il hil outer).2 fun l _ => ?_
        refine (child right (by simp) hr ir hir outer).2.mono ?_
        exact Nat.le_trans (List.length_filter_le _ _) (Nat.le_of_eq (List.length_map _))
    | @leftOuterJoin left right predicate hl hr hp =>
      obtain ⟨il, ir, ip, hil, hir, -, ⟨⟩⟩ := analysis_three.mp h
      obtain ⟨lmin, lmax⟩ := child left (by simp) hl il hil outer
      refine outer_bounds lmin lmax fun l _ => ?_
      refine (child right (by simp) hr ir hir outer).2.mono ?_
      exact Nat.le_trans (List.length_filter_le _ _) (Nat.le_of_eq (List.length_map _))
    | @crossApply left right hl hr =>
      obtain ⟨il, ir, hil, hir, ⟨⟩⟩ := analysis_two.mp h
      obtain ⟨lmin, lmax⟩ := child left (by simp) hl il hil outer
      have found := fun l => child right (by simp) hr ir hir (outer.merge l)
      constructor
      · show (if ir.minRows == .one then il.minRows else .zero).AtLeast _
        split
        · rename_i hone
          refine lmin.mono (RowCount.length_le_flatMap fun l _ => ?_)
          have := (found l).1
          rw [eq_of_beq hone] at this
          rwa [List.length_map]
        · trivial
      · exact RowCount.AtMost.flatMap lmax fun l _ => by rw [List.length_map]; exact (found l).2
    | @outerApply left right hl hr =>
      obtain ⟨il, ir, hil, hir, ⟨⟩⟩ := analysis_two.mp h
      obtain ⟨lmin, lmax⟩ := child left (by simp) hl il hil outer
      refine outer_bounds lmin lmax fun l _ => ?_
      rw [List.length_map]
      exact (child right (by simp) hr ir hir (outer.merge l)).2
    | @combine kind outputs lm rm left right hl hr =>
      obtain ⟨il, ir, hil, hir, h⟩ := analysis_two.mp h
      obtain ⟨known, -, h⟩ := Run.bind_ok.mp h
      obtain ⟨lmin, lmax⟩ := child left (by simp) hl il hil outer
      obtain ⟨rmin, rmax⟩ := child right (by simp) hr ir hir outer
      have hrows : (node id (.combine kind outputs lm rm) [left, right]).rows I db outer = Op.combined I kind outputs
        ((left.rows I db outer).map (Row.renamed outputs lm)) ((right.rows I db outer).map (Row.renamed outputs rm)) := rfl
      rw [← List.length_map (Row.renamed outputs lm)] at lmin lmax
      rw [← List.length_map (Row.renamed outputs rm)] at rmin rmax
      rw [hrows]
      cases kind with
      | unionAll =>
        cases h
        rw [Op.length_combined_unionAll]
        exact ⟨lmin.max rmin, lmax.union rmax⟩
      | intersect =>
        cases h
        exact ⟨trivial, (lmax.mono (Op.length_intersect_le_left ..)).min (rmax.mono (Op.length_intersect_le_right ..))⟩
      | except =>
        cases h
        exact ⟨trivial, lmax.mono (Op.length_except_le ..)⟩
    | @distinct keys input hi =>
      obtain ⟨ii, hii, ⟨⟩⟩ := analysis_one.mp h
      obtain ⟨hmin, hmax⟩ := child input (by simp) hi ii hii outer
      exact ⟨hmin.of_nonempty Row.one_le_length_firsts, hmax.mono (Row.length_firsts_le _)⟩
    | @groupBy keys outputs input keyDefs aggregates hi hk ha =>
      obtain ⟨ii, ik, ia, hii, -, -, h⟩ := analysis_three.mp h
      obtain ⟨known, -, ⟨⟩⟩ := Run.bind_ok.mp h
      obtain ⟨hmin, hmax⟩ := child input (by simp) hi ii hii outer
      simp only [rows, meaning_node, List.map_cons, List.map_nil, Op.meaning, Meaning.relation, List.length_map]
      exact groups_bounds (by rwa [List.length_map]) (by rwa [List.length_map])
    | @sort keys input hi =>
      obtain ⟨ii, hii, ⟨⟩⟩ := analysis_one.mp h
      exact child input (by simp) hi ii hii outer
    | @constrainedSort keys input skip limit hi hs hl =>
      obtain ⟨ii, is, il, hii, -, -, ⟨⟩⟩ := analysis_three.mp h
      refine ⟨trivial, ?_⟩
      have hkept : ((I.arrange keys (input.rows I db outer)).drop
          (((skip.meaning I db).value (outer.without (input.meaning I db).columns) []).count?.getD 0)).length ≤ (input.rows I db outer).length := by
        rw [List.length_drop, (I.arrange_perm keys _).length_eq]
        exact Nat.sub_le _ _
      show ((limit.op.limit?).getD ii.maxRows).AtMost _
      simp only [rows, meaning_node, List.map_cons, List.map_nil, Op.meaning, Meaning.relation]
      cases hc : limit.op.limit? with
      | some c =>
        obtain ⟨n, hn, hle⟩ := count?_of_limit? I db hc (outer.without (input.meaning I db).columns)
        rw [hn]
        exact hle.mono (List.length_take_le _ _)
      | none =>
        refine (child input (by simp) hi ii hii outer).2.mono ?_
        split
        · exact Nat.le_trans (List.length_take_le' _ _) hkept
        · exact hkept
    | varDefList | varDef | element => cases hrel
    | scalar hs => exact absurd hrel (not_isRelational_of_isScalar hs)

end Tree

namespace RowCount

variable {b c : RowCount} {n : Nat}

theorem AtLeast.ne_unbounded (h : b.AtLeast n) : b ≠ unbounded := by
  rintro rfl
  exact h

theorem rank_le_rank (hb : b.AtLeast n) (hc : c.AtMost n) : b.rank ≤ c.rank := by
  cases b with
  | zero => exact Nat.zero_le _
  | one =>
    cases c with
    | zero =>
      obtain rfl : n = 0 := hc
      cases hb
    | one | unbounded => decide
  | unbounded => exact hb.elim

end RowCount

/-- Asking a plan about a relation gives bounds that are in order and that hold of every evaluation. -/
theorem Plan.rowBounds_sound {p : Plan} {n : NodeId} {t : Tree} (hn : p.tree? n = some t) (hp : p.Holds t)
    (hwf : t.wellFormed = true) (hrel : t.IsRelational) :
    ∃ i p', relationInfo n p = .ok (i, p') ∧ i.minRows.rank ≤ i.maxRows.rank ∧ i.minRows ≠ .unbounded ∧
      ∀ (I : Interpretation) (db : Database) (outer : Row),
        (i.minRows = .one → 1 ≤ (t.rows I db outer).length) ∧
        (i.maxRows = .zero → (t.rows I db outer).length = 0) ∧
        (i.maxRows = .one → (t.rows I db outer).length ≤ 1) := by
  obtain rfl := id_view hn
  obtain ⟨i, p', hrun, -, hi⟩ := hp.relationInfo_reaches hwf hrel
  have sound : ∀ I db outer, i.Bounds (t.rows I db outer).length := fun I db outer =>
    Tree.bounds_of_analysis hwf hrel hi outer
  obtain ⟨hmin, hmax⟩ := sound ⟨fun _ _ _ => .null, fun _ _ _ => .null, fun _ rows => rows, fun _ _ => .refl _, id, fun _ => id⟩
    (fun _ => []) .empty
  refine ⟨i, p', hrun, RowCount.rank_le_rank hmin hmax, hmin.ne_unbounded, fun I db outer => ?_⟩
  obtain ⟨hmin, hmax⟩ := sound I db outer
  refine ⟨fun h => ?_, fun h => ?_, fun h => ?_⟩
  · rwa [h] at hmin
  · rwa [h] at hmax
  · rwa [h] at hmax

/-- `OuterApply(SingleRow, ConstrainedSort(t, 0, 1))`. -/
def limitedTree : Tree :=
  .node 5 .outerApply [.node 0 .singleRowTable [],
    .node 4 (.constrainedSort [⟨0, true⟩]) [.node 1 (.scanTable ⟨0, "t", [0], .empty, none⟩) [],
      .node 2 (.constant (.int32 0)) [], .node 3 (.constant (.int32 1)) []]]

def limited : Plan := limitedTree.plan 1 [⟨.column, "t.a", .int32⟩]

theorem Plan.rowBounds_sound_limited :
    ∃ i p', relationInfo 5 limited = .ok (i, p') ∧ i.minRows = .one ∧ i.maxRows = .one ∧
      ∀ (I : Interpretation) (db : Database) (outer : Row), (limitedTree.rows I db outer).length = 1 := by
  have hn : limited.tree? 5 = some limitedTree := rfl
  obtain ⟨i, p', hrun, -, -, hrows⟩ := rowBounds_sound hn (holds_of_view (by decide) hn) (by decide) (by rfl)
  have hinfo : (relationInfo 5 limited).toOption.map (fun a => (a.1.minRows, a.1.maxRows)) = some (.one, .one) := by decide +kernel
  obtain ⟨hone, hone'⟩ : i.minRows = .one ∧ i.maxRows = .one := by simpa [hrun, Except.toOption] using hinfo
  refine ⟨i, p', hrun, hone, hone', fun I db outer => ?_⟩
  obtain ⟨hmin, -, hmax⟩ := hrows I db outer
  exact le_antisymm (hmax hone') (hmin hone)

end Planwright
