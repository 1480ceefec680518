import Planwright.Proofs.Analysis.References
import Planwright.Proofs.Analysis.NonNull
import Planwright.Proofs.Plan.Defs
import Planwright.Proofs.Semantics.Predicate

/-! Filters below operators. A filter goes below an operator where the predicate tells no rows apart that the operator takes
    for the same, and where it reads below what it reads above. -/

namespace Planwright

/-! ### Lists of rows -/

namespace Row

variable {f left rest : Row → Bool} {ls rs : List Row}

section Firsts
variable {κ : Type} [DecidableEq κ] {key : Row → κ} {f : Row → Bool}

theorem firsts_filter (h : ∀ r ∈ rs, ∀ s ∈ rs, key r = key s → f r = f s) :
    firsts key (rs.filter f) = (firsts key rs).filter f := by
  induction rs with
  | nil => rfl
  | cons r rs ih =>
    have hrest := ih fun a ha b hb => h a (List.mem_cons_of_mem _ ha) b (List.mem_cons_of_mem _ hb)
    rw [firsts]
    by_cases hr : f r = true
    · rw [List.filter_cons_of_pos hr, firsts, List.filter_cons_of_pos hr, hrest, List.filter_filter, List.filter_filter]
      simp only [Bool.and_comm]
    · rw [List.filter_cons_of_neg hr, List.filter_cons_of_neg hr, hrest, List.filter_filter]
      refine List.filter_congr fun s hs => ?_
      -- A row of the key of the first is left out with it.
      by_cases heq : key s = key r
      · have := h s (List.mem_cons_of_mem _ (mem_of_mem_firsts hs)) r List.mem_cons_self heq
        simp [this, hr]
      · simp [heq]

end Firsts

theorem groups_filter {mark : Value → Value} {keys : VarSet} (hkeys : keys.isEmpty = false)
    (h : ∀ r ∈ rs, ∀ s ∈ rs, r.marks mark keys.toList = s.marks mark keys.toList → f r = f s) :
    groups mark keys (rs.filter f) = (groups mark keys rs).filter fun group => f (group.headD empty) := by
  have hfirst : ∀ r ∈ rs, f ((rs.filter fun s => s.marks mark keys.toList = r.marks mark keys.toList).headD empty) = f r := by
    intro r hr
    cases hg : rs.filter fun s => s.marks mark keys.toList = r.marks mark keys.toList with
    | nil => exact absurd hg (List.ne_nil_of_mem (List.mem_filter.mpr ⟨hr, by simp⟩))
    | cons s group =>
      have hs : s ∈ rs.filter fun s => s.marks mark keys.toList = r.marks mark keys.toList := hg ▸ List.mem_cons_self
      obtain ⟨hmem, heq⟩ := List.mem_filter.mp hs
      exact h s hmem r hr (by simpa using heq)
  rw [groups, groups, hkeys, if_neg (by decide), if_neg (by decide), firsts_filter h, List.filter_map]
  have hkept : (firsts (marks mark keys.toList) rs).filter f =
      (firsts (marks mark keys.toList) rs).filter
        ((fun group => f (group.headD empty)) ∘ fun r => rs.filter fun s => s.marks mark keys.toList = r.marks mark keys.toList) :=
    List.filter_congr fun r hr => (hfirst r (mem_of_mem_firsts hr)).symm
  rw [← hkept]
  refine List.map_congr_left fun r hr => ?_
  obtain ⟨hmem, hf⟩ := List.mem_filter.mp hr
  rw [List.filter_filter]
  refine List.filter_congr fun s hs => ?_
  by_cases heq : s.marks mark keys.toList = r.marks mark keys.toList
  · simp [heq, h s hs r (mem_of_mem_firsts hmem) heq, hf]
  · simp [heq]

/-- A filter over pairs of rows, taken apart: what goes to the left rows, to the right rows and to the pairs, and what is left. -/
theorem filter_pairs {g : Row → Bool} {right pair : Row → Bool}
    (h : ∀ l ∈ ls, ∀ r ∈ rs, f (l.merge r) = (left l && right r && pair (l.merge r) && rest (l.merge r))) :
    (ls.flatMap fun l => (rs.map l.merge).filter g).filter f =
      ((ls.filter left).flatMap fun l => ((rs.filter right).map l.merge).filter fun m => g m && pair m).filter rest := by
  induction ls with
  | nil => rfl
  | cons l ls ih =>
    have hl := h l List.mem_cons_self
    have hpairs : ((rs.map l.merge).filter g).filter f = if left l = true then
        (((rs.filter right).map l.merge).filter fun m => g m && pair m).filter rest else [] := by
      by_cases hleft : left l = true
      · rw [if_pos hleft]
        simp only [List.filter_map, List.filter_filter]
        refine congrArg (List.map l.merge) (List.filter_congr fun r hr => ?_)
        simp only [Function.comp_apply, hl r hr, hleft]
        cases g (l.merge r) <;> cases right r <;> cases pair (l.merge r) <;> cases rest (l.merge r) <;> rfl
      · rw [if_neg hleft, List.filter_eq_nil_iff]
        intro m hm
        obtain ⟨r, hr, rfl⟩ := List.mem_map.mp (List.mem_filter.mp hm).1
        simp [hl r hr, hleft]
    rw [List.flatMap_cons, List.filter_append, hpairs, ih fun l' hl' => h l' (List.mem_cons_of_mem _ hl')]
    by_cases hleft : left l = true
    · rw [if_pos hleft, List.filter_cons_of_pos hleft, List.flatMap_cons, List.filter_append]
    · rw [if_neg hleft, List.filter_cons_of_neg hleft, List.nil_append]

theorem filter_left {found : Row → List Row}
    (h : ∀ l ∈ ls, ∀ m ∈ found l, f m = (left l && rest m)) :
    (ls.flatMap found).filter f = ((ls.filter left).flatMap found).filter rest := by
  induction ls with
  | nil => rfl
  | cons l ls ih =>
    have hl := h l List.mem_cons_self
    rw [List.flatMap_cons, List.filter_append, ih fun l' hl' => h l' (List.mem_cons_of_mem _ hl')]
    by_cases hleft : left l = true
    · rw [List.filter_cons_of_pos hleft, List.flatMap_cons, List.filter_append]
      exact congrArg (· ++ _) (List.filter_congr fun m hm => by rw [hl m hm, hleft, Bool.true_and])
    · rw [List.filter_cons_of_neg hleft]
      have hnone : (found l).filter f = [] := List.filter_eq_nil_iff.mpr fun m hm => by simp [hl m hm, hleft]
      rw [hnone, List.nil_append]

theorem filter_orNulls {columns : VarSet} {l : Row} {found : List Row} (h : f (l.merge (nulls columns)) = false) :
    (l.orNulls columns found).filter f = found.filter f := by
  cases found with
  | nil => simp [orNulls, h]
  | cons m found => rfl

end Row

/-- A filter over a set operator goes into its branches if it tells no rows apart that have the same marks. The right branch
    of a difference is left alone. -/
theorem Op.combined_filter {I : Interpretation} {kind : SetKind} {outputs : VarSet} {left right : List Row} {f : Row → Bool}
    (h : kind ≠ .unionAll →
      ∀ r ∈ left ++ right, ∀ s ∈ left ++ right, r.marks I.mark outputs.toList = s.marks I.mark outputs.toList → f r = f s) :
    combined I kind outputs (left.filter f) (if kind = .except then right else right.filter f) =
      (combined I kind outputs left right).filter f := by
  have hleft (hk : kind ≠ .unionAll) : ∀ g : Row → Bool, ∀ r ∈ left.filter g, ∀ s ∈ left.filter g,
      r.marks I.mark outputs.toList = s.marks I.mark outputs.toList → f r = f s := fun g r hr s hs =>
    h hk r (List.mem_append_left _ (List.mem_filter.mp hr).1) s (List.mem_append_left _ (List.mem_filter.mp hs).1)
  cases kind with
  | unionAll => exact (List.filter_append ..).symm
  | intersect =>
    refine Eq.trans ?_ (Row.firsts_filter (hleft nofun _))
    refine congrArg (Row.firsts _) ?_
    rw [List.filter_filter, List.filter_filter]
    refine List.filter_congr fun r hr => ?_
    -- A row that is kept is found among all right rows if and only if it is among those that are kept.
    cases hf : f r with
    | false => simp
    | true =>
      rw [Bool.and_true, Bool.true_and, Bool.eq_iff_iff, List.contains_iff_mem, List.contains_iff_mem]
      constructor
      · intro hmem
        exact (List.filter_sublist.map _).subset hmem
      · intro hmem
        obtain ⟨s, hs, heq⟩ := List.mem_map.mp hmem
        refine List.mem_map.mpr ⟨s, List.mem_filter.mpr ⟨hs, ?_⟩, heq⟩
        rw [h nofun s (List.mem_append_right _ hs) r (List.mem_append_left _ hr) heq, hf]
  | except =>
    refine Eq.trans ?_ (Row.firsts_filter (hleft nofun _))
    refine congrArg (Row.firsts _) ?_
    rw [List.filter_filter, List.filter_filter]
    simp only [if_true, Bool.and_comm]

namespace Tree

variable {I : Interpretation} {db : Database} {x b : Tree} {outer r : Row}

/-! ### What predicates read -/

theorem holds_congr (hwf : b.wellFormed) (hs : Scoped (·) b) {outer' r' : Row}
    (h : ∀ v, Uses (·) b v → (outer.merge r).read v = (outer'.merge r').read v) :
    (b.meaning I db).holds outer r = (b.meaning I db).holds outer' r' := by
  rw [Meaning.holds, Meaning.holds, (meaning_reads hwf hs.backed).value h .nil]

theorem read_merge_of_defines (hwf : x.wellFormed) (hs : Scoped (·) x) {o : Row}
    (hr : r ∈ x.rows I db o) {v : VarId} (hv : Defines (·) x v) : (outer.merge r).read v = r.read v := by
  rw [Row.read_merge, if_neg (row_ne_none hwf hs.backed hr hv)]

theorem read_merge_congr {s : Row} {v : VarId} (h : r v = s v) : (outer.merge r).read v = (outer.merge s).read v := by
  rw [Row.read, Row.read, Row.merge_apply, Row.merge_apply, h]

/-! ### Rows that are compared -/

variable (I db outer) in
/-- The columns by which an operator compares rows with each other, and these rows. -/
def compared : Tree → VarSet × List Row
  | node _ (.distinct keys) [x] => (keys, x.rows I db outer)
  | node _ (.groupBy keys _) [x, ds, _] =>
    (keys, (x.rows I db outer).map fun r => r.merge ((ds.meaning I db).bindings (outer.merge r) []))
  | node _ (.combine .unionAll ..) _ => (.empty, [])
  | node _ (.combine _ outputs left right) [x, y] =>
    (outputs, (x.rows I db outer).map (Row.renamed outputs left) ++ (y.rows I db outer).map (Row.renamed outputs right))
  | _ => (.empty, [])

variable (I db outer) in
/-- The expression is as true of one row as of another that the operator takes for the same. -/
def Agrees (x d : Tree) : Prop :=
  ∀ r ∈ (x.compared I db outer).2, ∀ s ∈ (x.compared I db outer).2,
    r.marks I.mark (x.compared I db outer).1.toList = s.marks I.mark (x.compared I db outer).1.toList →
      (d.meaning I db).holds outer r = (d.meaning I db).holds outer s

variable (I db outer) in
/-- The operator below a filter takes no rows for the same that a part of the predicate tells apart by what they are compared by. -/
def Discerning : Tree → Prop
  | node _ .filter [x, q] => ∀ d ∈ q.conjuncts, (∀ u, Uses (·) d u → u ∈ (x.compared I db outer).1) → x.Agrees I db outer d
  | _ => True

theorem rows_distinct_filter {m l m' : NodeId} {keys : VarSet} (h : (node m (.distinct keys) [x]).Agrees I db outer b) :
    (node m' (.distinct keys) [node l .filter [x, b]]).rows I db outer =
      ((node m (.distinct keys) [x]).rows I db outer).filter ((b.meaning I db).holds outer) := by
  rw [rows_distinct, rows_distinct, rows_filter]
  exact Row.firsts_filter h

/-! ### Definitions -/

section Defs
variable {n : NodeId} {ds : List Def} {env : Row} {group : List Row}

theorem defs_defs : ((defs n ds).meaning I db).defs = ds.map fun d => (d.var, (d.expr.meaning I db).value) := by
  rw [defs, meaning_node]
  show (((ds.map Def.tree).map (meaning I db)).flatMap (·.defs)) = _
  rw [List.flatMap_map, List.flatMap_map, ← List.flatMap_singleton' (ds.map _), List.flatMap_map]
  refine congrArg (ds.flatMap ·) (funext fun d => ?_)
  rw [Def.tree, meaning_node]
  rfl

theorem bindings_defs_none {v : VarId} (h : v ∉ ds.map Def.var) : ((defs n ds).meaning I db).bindings env group v = none := by
  rw [Meaning.bindings, defs_defs, Option.map_eq_none_iff, List.lookup_eq_none_iff]
  intro e he
  obtain ⟨d, hd, rfl⟩ := List.mem_map.mp (List.mem_reverse.mp he)
  exact bne_iff_ne.mpr fun heq => h (List.mem_map.mpr ⟨d, hd, heq.symm⟩)

theorem bindings_defs_some (hn : (ds.map Def.var).Nodup) {d : Def} (hd : d ∈ ds) :
    ((defs n ds).meaning I db).bindings env group d.var = some ((d.expr.meaning I db).value env group) := by
  have hlookup : (ds.map fun d => (d.var, (d.expr.meaning I db).value)).reverse.lookup d.var = some (d.expr.meaning I db).value := by
    refine lookup_eq_some ?_ (List.mem_reverse.mpr (List.mem_map.mpr ⟨d, hd, rfl⟩))
    rw [List.map_reverse, List.nodup_reverse, List.map_map]
    exact hn
  rw [Meaning.bindings, defs_defs, hlookup, Option.map_some]

/-- A predicate holds for a row with definitions added if and only if, with the definitions put in, it holds for the row. -/
theorem holds_of_fills {b' : Tree} (hn : (ds.map Def.var).Nodup) (hds : ∀ d ∈ ds, d.expr.isScalar ∧ d.expr.wellFormed)
    (hs : b.isScalar) (hwf : b.wellFormed) (h : Fills (ds.map fun d => (d.var, d.expr)) b b') :
    (b'.meaning I db).holds outer r =
      (b.meaning I db).holds outer (r.merge (((defs n ds).meaning I db).bindings (outer.merge r) [])) := by
  have hvalue : (b'.meaning I db).value (outer.merge r) [] =
      (b.meaning I db).value (outer.merge (r.merge (((defs n ds).meaning I db).bindings (outer.merge r) []))) [] := by
    refine h.value_eq hs hwf (by simpa using hds) (fun v _ hv => ?_) fun v e _ hv => ?_
    · have hno : v ∉ ds.map Def.var := fun hmem => by
        obtain ⟨d, hd, rfl⟩ := List.mem_map.mp hmem
        exact bne_iff_ne.mp (List.lookup_eq_none_iff.mp hv (d.var, d.expr) (List.mem_map.mpr ⟨d, hd, rfl⟩)) rfl
      rw [Row.read, Row.read, Row.merge_apply, Row.merge_apply, Row.merge_apply, bindings_defs_none hno, Option.none_or]
    · obtain ⟨d, hd, heq⟩ := List.mem_map.mp (Plan.mem_of_lookup hv)
      cases heq
      rw [Row.read, Row.merge_apply, Row.merge_apply, bindings_defs_some hn hd, Option.some_or, Option.some_or, Option.getD_some]
  rw [Meaning.holds, Meaning.holds, hvalue]

end Defs

/-! ### Projections and groupings -/

section Projections
variable {v : VarId} {d : Tree}
variable {n g m l k' : NodeId} {k : Nat} {ds : List Def} {q q' y : Tree} {outputs keys : VarSet}

theorem Valid.row_within (h : Valid k (·) x) (hr : r ∈ x.rows I db outer) : r.Within x.binds :=
  Tree.row_within h.wellFormed h.inScope.backed hr

theorem Valid.row_ne_none (h : Valid k (·) x) (hr : r ∈ x.rows I db outer) (hv : Defines (·) x v) : r v ≠ none :=
  Tree.row_ne_none h.wellFormed h.inScope.backed hr hv

theorem nodup_vars {op : Op} {i : Nat} {cs : List Tree} (h : Valid k (·) (node n op cs)) (hds : cs[i]? = some (defs m ds)) :
    (ds.map Def.var).Nodup := by
  have hn := (h.child hds).nodup
  rw [binds_defs] at hn
  exact hn.sublist (vars_sublist ds)

/-- What a predicate over a relation uses is defined by the relation, or not brought into being in it. -/
theorem Valid.defines_or (h : Valid k (·) (node n .filter [x, q])) (hv : Uses (·) q v) :
    Defines (·) x v ∨ v ∉ x.binds := by
  by_cases hd : Defines (·) x v
  · exact .inl hd
  · refine .inr fun hb => h.closed v ?_ (mem_binds_of_mem (by simp) hb)
    simp [uses_node, hv, hd]

theorem rows_project_filter (ht : Valid k (·) (node n .filter [node g (.project outputs) [x, defs m ds], q]))
    (hds : ∀ d ∈ ds, d.expr.isScalar) (hs : q.isScalar) (h : Fills (ds.map fun d => (d.var, d.expr)) q q') :
    (node k' (.project outputs) [node l .filter [x, q'], defs m ds]).rows I db outer =
      (node n .filter [node g (.project outputs) [x, defs m ds], q]).rows I db outer := by
  obtain ⟨-, hwfg, hwfq⟩ := wellFormed_filter.mp ht.wellFormed
  obtain ⟨⟨hrel, -⟩, hwfx, hwfds⟩ := wellFormed_project.mp hwfg
  have hg := ht.first
  have hx := hg.first
  have hq := ht.second
  have hvars := nodup_vars hg (i := 1) rfl
  have hdefs : ∀ d ∈ ds, d.expr.isScalar ∧ d.expr.wellFormed := fun d hd =>
    ⟨hds d hd, (wellFormed_defs.mp hwfds d hd).2⟩
  rw [rows_project, rows_filter, rows_filter, rows_project, List.filter_map]
  refine congrArg (List.map _) (List.filter_congr fun r hr => ?_)
  rw [Function.comp_apply, holds_of_fills hvars hdefs hs hwfq h (n := m)]
  refine holds_congr hwfq hq.inScope fun v hv => read_merge_congr ?_
  rcases ht.defines_or hv with hd | hno
  · have hmem : v ∈ outputs := by simpa [defines_node] using hd
    rw [Row.only_apply, if_pos hmem]
  · -- What is not brought into being below is bound neither with nor without the projection.
    have hwithin : (r.merge (((defs m ds).meaning I db).bindings (outer.merge r) [])).Within (x.binds ++ (defs m ds).binds) :=
      (hx.row_within hr).merge (within_bindings hwfds kind_defs _ _)
    rw [hwithin.eq_none fun hmem => hno (binds_pair hmem), (hwithin.only outputs).eq_none fun hmem => hno (binds_pair hmem)]

theorem key_defined (hs : Scoped (·) (node g (.groupBy keys outputs) [x, d, y])) (hv : v ∈ keys) :
    Defines (·) x v ∨ Defines (·) d v := by
  obtain ⟨-, hneeds, -⟩ := scoped_node.mp hs
  simpa using hneeds (v, [0, 1]) (by simp [hv])

theorem key_mem_binds (hs : Scoped (·) (node g (.groupBy keys outputs) [x, d, y])) (hv : v ∈ keys) :
    v ∈ (node g (.groupBy keys outputs) [x, d, y]).binds := by
  obtain ⟨-, -, hscoped⟩ := scoped_node.mp hs
  rcases key_defined hs hv with hdef | hdef
  · exact mem_binds_of_mem (by simp) (mem_binds_of_defines (hscoped x (by simp)) hdef)
  · exact mem_binds_of_mem (by simp) (mem_binds_of_defines (hscoped d (by simp)) hdef)

theorem key_not_mem_binds (hg : Valid k (·) (node g (.groupBy keys outputs) [x, d, y])) (hv : v ∈ keys) :
    v ∉ y.binds := by
  obtain ⟨-, -, hscoped⟩ := scoped_node.mp hg.inScope
  obtain ⟨hx, hd⟩ := List.pairwise_cons.mp (nodup_binds_node.mp hg.nodup).2.2.1
  rcases key_defined hg.inScope hv with hdef | hdef
  · exact hx y (by simp) v (mem_binds_of_defines (hscoped x (by simp)) hdef)
  · exact (List.pairwise_cons.mp hd).1 y (by simp) v (mem_binds_of_defines (hscoped d (by simp)) hdef)

theorem key_bound (hg : Valid k (·) (node g (.groupBy keys outputs) [x, d, y])) (hv : v ∈ keys)
    (hr : r ∈ x.rows I db outer) (env : Row) : r.merge ((d.meaning I db).bindings env []) v ≠ none := by
  obtain ⟨⟨-, hkd, -⟩, -, hwfd, -⟩ := wellFormed_groupBy.mp hg.wellFormed
  exact Row.merge_ne_none.mpr ((key_defined hg.inScope hv).symm.imp (fun hdef => bindings_ne_none hwfd hkd hdef env [])
    fun hdef => hg.first.row_ne_none hr hdef)

theorem rows_groupBy_filter (hkeys : keys.isEmpty = false) (hg : Valid k (·) (node g (.groupBy keys outputs) [x, defs m ds, y]))
    (hI : (node g (.groupBy keys outputs) [x, defs m ds, y]).Agrees I db outer b) (hds : ∀ d ∈ ds, d.expr.isScalar)
    (hs : b.isScalar) (hwf : b.wellFormed) (huses : ∀ u, Uses (·) b u → u ∈ keys ∧ u ∈ outputs) {b' : Tree}
    (h : Fills (ds.map fun d => (d.var, d.expr)) b b') :
    (node k' (.groupBy keys outputs) [node l .filter [x, b'], defs m ds, y]).rows I db outer =
      ((node g (.groupBy keys outputs) [x, defs m ds, y]).rows I db outer).filter ((b.meaning I db).holds outer) := by
  obtain ⟨⟨-, -, hky⟩, -, hwfds, hwfy⟩ := wellFormed_groupBy.mp hg.wellFormed
  have hdefs : ∀ d ∈ ds, d.expr.isScalar ∧ d.expr.wellFormed := fun d hd =>
    ⟨hds d hd, (wellFormed_defs.mp hwfds d hd).2⟩
  let keyed (r : Row) : Row := r.merge (((defs m ds).meaning I db).bindings (outer.merge r) [])
  have hbound : ∀ s ∈ (x.rows I db outer).map keyed, ∀ v ∈ keys, (outer.merge s).read v = s.read v := by
    intro s hs v hv
    obtain ⟨r, hr, rfl⟩ := List.mem_map.mp hs
    rw [Row.read_merge, if_neg (key_bound hg hv hr _)]
  have hmove : ((x.rows I db outer).filter ((b'.meaning I db).holds outer)).map keyed =
      ((x.rows I db outer).map keyed).filter ((b.meaning I db).holds outer) := by
    rw [List.filter_map]
    refine congrArg (List.map _) (List.filter_congr fun r _ => ?_)
    exact holds_of_fills (nodup_vars hg (i := 1) rfl) hdefs hs hwf h
  rw [rows_groupBy, rows_groupBy, columns_filter, rows_filter, hmove, Row.groups_filter hkeys, List.filter_map]
  · refine congrArg (List.map _) (List.filter_congr fun group hgroup => ?_)
    -- A group shows the keys of its first row.
    refine holds_congr hwf (scoped_of_isScalar hs) fun v hv => ?_
    obtain ⟨hk, ho⟩ := huses v hv
    have hfirst := head_mem_of_groups hgroup hkeys
    have hno : ((y.meaning I db).bindings ((outer.without (x.meaning I db).columns).merge (group.headD .empty))
        (group.map (outer.without (x.meaning I db).columns).merge)) v = none :=
      (within_bindings hwfy hky _ _).eq_none (key_not_mem_binds hg hk)
    rw [hbound _ hfirst v hk, Row.read_merge, Row.ofGroup, Row.shown_apply, if_pos ho, if_neg (by simp)]
    simp only [Row.read, Row.shown_apply, if_pos ho, Option.getD_some, Row.merge_apply, hno, Option.none_or]
  · exact hI

end Projections

/-! ### Set operators -/

section SetOps
variable {n m : NodeId} {k : Nat} {kind : SetKind} {outputs : VarSet} {left right : VarMap} {y : Tree}

theorem lookup_references {es : List (VarId × VarId)} {σ : List (VarId × Tree)}
    (h : List.Forall₂ (fun e s => s.1 = e.1 ∧ ∃ n type, s.2 = node n (.varRef e.2 type) []) es σ) {v w : VarId}
    (hv : es.lookup v = some w) : ∃ n type, σ.lookup v = some (node n (.varRef w type) []) := by
  induction h with
  | nil => cases hv
  | @cons e s es σ hes _ ih =>
    obtain ⟨u, a⟩ := e
    obtain ⟨u', a'⟩ := s
    obtain ⟨hu, n, type, ha⟩ := hes
    cases hu
    cases ha
    rw [List.lookup_cons] at hv ⊢
    split
    · rename_i heq
      rw [heq] at hv
      cases hv
      exact ⟨n, type, rfl⟩
    · rename_i heq
      rw [heq] at hv
      exact ih hv

/-- A predicate holds for a row of a branch under the outputs if and only if it holds for the row with references to the
    variables of the branch put in. -/
theorem holds_of_references {es : VarMap} {σ : List (VarId × Tree)} {b' : Tree}
    (hσ : List.Forall₂ (fun e s => s.1 = e.1 ∧ ∃ n type, s.2 = node n (.varRef e.2 type) []) es.entries σ)
    (hs : b.isScalar) (hwf : b.wellFormed)
    (huses : ∀ u, Uses (·) b u → u ∈ outputs ∧ ∃ w, es.get? u = some w ∧ (outer.merge r).read w = r.read w) (h : Fills σ b b') :
    (b'.meaning I db).holds outer r = (b.meaning I db).holds outer (r.renamed outputs es) := by
  have hscalar : ∀ x ∈ σ, x.2.isScalar ∧ x.2.wellFormed := fun s hs => by
    obtain ⟨e, -, -, n, type, heq⟩ := Run.exists_of_forall₂_right hσ hs
    rw [heq]
    exact ⟨isScalar_node.mpr ⟨rfl, nofun⟩, wellFormed_leaf rfl⟩
  have hvalue : (b'.meaning I db).value (outer.merge r) [] = (b.meaning I db).value (outer.merge (r.renamed outputs es)) [] := by
    refine h.value_eq hs hwf hscalar (fun v hv hnone => ?_) fun v x hv hsome => ?_
    · obtain ⟨-, w, hw, -⟩ := huses v hv
      obtain ⟨n, type, hfound⟩ := lookup_references hσ hw
      rw [hnone] at hfound
      cases hfound
    · obtain ⟨ho, w, hw, hread⟩ := huses v hv
      obtain ⟨n, type, hfound⟩ := lookup_references hσ hw
      rw [hsome] at hfound
      cases hfound
      rw [Row.read, Row.merge_apply, Row.renamed_apply, if_pos ho, hw, Option.some_or, Option.getD_some]
      exact hread.symm
  rw [Meaning.holds, Meaning.holds, hvalue]

theorem rows_combine_filter (h : (node m (.combine kind outputs left right) [x, y]).Agrees I db outer b) {x' y' : Tree}
    (hx : x'.rows I db outer = (x.rows I db outer).filter fun s => (b.meaning I db).holds outer (s.renamed outputs left))
    (hy : y'.rows I db outer = if kind = .except then y.rows I db outer else
      (y.rows I db outer).filter fun s => (b.meaning I db).holds outer (s.renamed outputs right)) :
    (node n (.combine kind outputs left right) [x', y']).rows I db outer =
      ((node m (.combine kind outputs left right) [x, y]).rows I db outer).filter ((b.meaning I db).holds outer) := by
  rw [rows_combine, rows_combine, hx, hy, ← Op.combined_filter]
  · rw [List.filter_map]
    refine congrArg (Op.combined I kind outputs _) ?_
    split
    · rfl
    · rw [List.filter_map]
      rfl
  · intro hk
    cases kind with
    | unionAll => exact absurd rfl hk
    | _ => exact h

/-- A row that is compared has a value in each column that it is compared by. -/
theorem compared_bound {v : VarId} (hx : Valid k (·) x) (hr : r ∈ (x.compared I db outer).2) (hv : v ∈ (x.compared I db outer).1) :
    r v ≠ none := by
  unfold compared at hr hv
  split at hr
  case h_1 keys x =>
    exact hx.first.row_ne_none hr (by simpa using (scoped_node.mp hx.inScope).2.1 (v, [0]) (by simpa using hv))
  case h_2 keys outputs x ds y =>
    obtain ⟨s, hs, rfl⟩ := List.mem_map.mp hr
    exact key_bound hx hv hs _
  case h_4 outputs left right x y hkind =>
    simp only at hv
    rcases List.mem_append.mp hr with hr | hr
    all_goals
      obtain ⟨s, -, rfl⟩ := List.mem_map.mp hr
      simp [hv]
  all_goals cases hr

/-- Where rows are compared by their values, no predicate tells any apart that are taken for the same. -/
theorem Discerning.of_injective (hI : Function.Injective I.mark) (hx : Valid k (·) x) : x.Discerning I db outer := by
  fun_cases Discerning I db outer x with
  | case2 => trivial
  | case1 n x q =>
    intro d hd huses r hr s hs heq
    obtain ⟨⟨-, he⟩, -, hwf⟩ := wellFormed_filter.mp hx.wellFormed
    have hparts := PartsOf.conjuncts hwf he
    refine holds_congr (hparts.wellFormed d hd) (hparts.inScope hx.second.inScope d hd) fun v hv => ?_
    rw [Row.read_merge, Row.read_merge, if_neg (compared_bound hx.first hr (huses v hv)),
      if_neg (compared_bound hx.first hs (huses v hv)), hI (Row.marks_eq_iff.mp heq v (huses v hv))]

end SetOps

/-! ### Joins and applies -/

section Joins
variable {n n' : NodeId} {k : Nat} {op : Op} {cs ds : List Tree} {y q : Tree} {l : Row}

theorem allHold_congr {outer' r' : Row} (hds : ∀ d ∈ ds, d.wellFormed ∧ Scoped (·) d)
    (h : ∀ d ∈ ds, ∀ v, Uses (·) d v → (outer.merge r).read v = (outer'.merge r').read v) :
    allHold I db ds outer r = allHold I db ds outer' r' := by
  rw [allHold, allHold, Bool.eq_iff_iff, List.all_eq_true, List.all_eq_true]
  exact forall₂_congr fun d hd => by rw [holds_congr (hds d hd).1 (hds d hd).2 (h d hd)]

/-- The parts that use what the left side defines do not see right rows that bind none of it. -/
theorem allHold_left (hds : ∀ d ∈ ds, d.wellFormed ∧ Scoped (·) d)
    (huses : ∀ d ∈ ds, ∀ u, Uses (·) d u → Defines (·) x u) (hr : ∀ v, Defines (·) x v → r v = none) :
    allHold I db ds outer (l.merge r) = allHold I db ds outer l := by
  refine allHold_congr hds fun d hd v hv => read_merge_congr ?_
  rw [Row.merge_apply, hr v (huses d hd v hv), Option.none_or]

theorem allHold_right (hds : ∀ d ∈ ds, d.wellFormed ∧ Scoped (·) d)
    (huses : ∀ d ∈ ds, ∀ u, Uses (·) d u → Defines (·) y u) (hr : ∀ v, Defines (·) y v → r v ≠ none) :
    allHold I db ds outer (l.merge r) = allHold I db ds outer r := by
  refine allHold_congr hds fun d hd v hv => read_merge_congr ?_
  obtain ⟨a, ha⟩ := Option.ne_none_iff_exists'.mp (hr v (huses d hd v hv))
  rw [Row.merge_apply, ha, Option.some_or]

theorem filter_join {ds₁ ds₂ ds₃ es : List Tree} {g : Row → Bool} (hj : Valid k (·) (node n op (x :: y :: cs)))
    (hperm : (ds₁ ++ (ds₂ ++ (ds₃ ++ es))).Perm q.conjuncts)
    (hq : ∀ d ∈ q.conjuncts, d.wellFormed ∧ Scoped (·) d) (h₁ : ∀ d ∈ ds₁, ∀ u, Uses (·) d u → Defines (·) x u)
    (h₂ : ∀ d ∈ ds₂, ∀ u, Uses (·) d u → Defines (·) y u) :
    ((x.rows I db outer).flatMap fun l => ((y.rows I db outer).map l.merge).filter g).filter ((q.meaning I db).holds outer) =
      (((x.rows I db outer).filter (allHold I db ds₁ outer)).flatMap fun l =>
        (((y.rows I db outer).filter (allHold I db ds₂ outer)).map l.merge).filter fun m =>
          g m && allHold I db ds₃ outer m).filter (allHold I db es outer) := by
  have hvx := hj.first
  have hvy := hj.second
  refine Row.filter_pairs fun l _ r hr => ?_
  have hno : ∀ v, Defines (·) x v → r v = none := fun v hv => (hvy.row_within hr).eq_none
    (apart_of_nodup hj.nodup v (mem_binds_of_defines hvx.inScope hv))
  have hyes : ∀ v, Defines (·) y v → r v ≠ none := fun v => hvy.row_ne_none hr
  rw [holds_eq_conjuncts, ← allHold_perm hperm, allHold_append, allHold_append, allHold_append,
    allHold_left (fun d hd => hq d (hperm.subset (by simp [hd]))) h₁ hno,
    allHold_right (fun d hd => hq d (hperm.subset (by simp [hd]))) h₂ hyes, Bool.and_assoc, Bool.and_assoc]

theorem filter_leftOuterJoin {ds₁ es : List Tree} {g : Row → Bool} (hj : Valid k (·) (node n op (x :: y :: cs)))
    (hy : y.IsRelational) (hperm : (ds₁ ++ es).Perm q.conjuncts)
    (hq : ∀ d ∈ q.conjuncts, d.wellFormed ∧ Scoped (·) d) (h₁ : ∀ d ∈ ds₁, ∀ u, Uses (·) d u → Defines (·) x u) :
    ((x.rows I db outer).flatMap fun l => l.orNulls (y.meaning I db).columns (((y.rows I db outer).map l.merge).filter g)).filter
        ((q.meaning I db).holds outer) =
      (((x.rows I db outer).filter (allHold I db ds₁ outer)).flatMap fun l =>
        l.orNulls (y.meaning I db).columns (((y.rows I db outer).map l.merge).filter g)).filter (allHold I db es outer) := by
  have hvx := hj.first
  have hvy := hj.second
  have hapart : ∀ v, Defines (·) x v → v ∉ y.binds := fun v hv =>
    apart_of_nodup hj.nodup v (mem_binds_of_defines hvx.inScope hv)
  refine Row.filter_left fun l _ m hm => ?_
  obtain ⟨r, hwithin, rfl⟩ : ∃ r : Row, r.Within y.binds ∧ m = l.merge r := by
    rw [Row.orNulls] at hm
    split at hm
    · rw [List.mem_singleton] at hm
      exact ⟨_, .nulls (columns_mem_binds hvy.wellFormed hy hvy.inScope.backed), hm⟩
    · obtain ⟨r, hr, rfl⟩ := List.mem_map.mp (List.mem_filter.mp hm).1
      exact ⟨r, hvy.row_within hr, rfl⟩
  rw [holds_eq_conjuncts, ← allHold_perm hperm, allHold_append,
    allHold_left (fun d hd => hq d (hperm.subset (List.mem_append_left _ hd))) h₁ fun v hv => hwithin.eq_none (hapart v hv)]

theorem not_holds_nulls (hI : I.RejectsNull) {ansi : Bool} {i : Info} (hy : y.IsRelational) (hwfy : y.wellFormed)
    (hi : y.analysis = .ok i) (hwf : q.wellFormed)
    (h : (Predicate.ofTree q).preservesNulls i.definitions ansi = false) :
    (q.meaning I db).holds outer (l.merge (Row.nulls (y.meaning I db).columns)) = false := by
  refine not_holds_of_preservesNulls hI hwf h fun v hv => ?_
  have hmem : v ∈ (y.meaning I db).columns := (mem_columns hwfy hy).mpr ((analysis_scope hwfy hi v).1.mp hv)
  simp [Row.read, hmem]

theorem filter_flatMap_orNulls {columns : VarSet} {f : Row → Bool} {found : Row → List Row} {ls : List Row}
    (h : ∀ l ∈ ls, f (l.merge (Row.nulls columns)) = false) :
    (ls.flatMap fun l => l.orNulls columns (found l)).filter f = (ls.flatMap found).filter f := by
  rw [List.filter_flatMap, List.filter_flatMap]
  exact flatMap_congr rfl fun l hl => Row.filter_orNulls (h l hl)

end Joins

end Tree

end Planwright
