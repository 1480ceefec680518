import Planwright.Proofs.Plan.Analysis
import Planwright.Proofs.Semantics.Bound

/-! Keys. No two rows of a relation agree on all variables of a key that the analysis knows, where every variable of
    the key that comes into being in the relation is seen above it. -/

namespace Planwright

namespace Row

/-- The rows differ in some variable of the key. -/
def Apart (ks : VarSet) (r s : Row) : Prop := ∃ v ∈ ks, r.read v ≠ s.read v

variable {ks kl kr columns : VarSet} {v : VarId} {vs ws : List VarId} {r s : Row} {mark : Value → Value} {found : List Row}

theorem read_of_none (h : r v = none) : r.read v = .null := by rw [read, h, Option.getD_none]

theorem read_merge_left (h : s v = none) : (r.merge s).read v = r.read v := by simp [read, h]

theorem read_merge_right (h : r v = none) : (r.merge s).read v = s.read v := by simp [read, h]

theorem Apart.exists_mem (h : Apart ks r s) (hr : r.Within vs) (hs : s.Within vs) :
    ∃ v ∈ ks, v ∈ vs ∧ r.read v ≠ s.read v := by
  obtain ⟨v, hv, hne⟩ := h
  refine ⟨v, hv, ?_, hne⟩
  by_contra hmem
  exact hne ((read_of_none (hr.eq_none hmem)).trans (read_of_none (hs.eq_none hmem)).symm)

theorem Apart.symm (h : Apart ks r s) : Apart ks s r := by
  obtain ⟨v, hv, hne⟩ := h
  exact ⟨v, hv, hne.symm⟩

theorem length_le_one_of_apart {rs : List Row} (hks : ks.isEmpty) (h : rs.Pairwise (Apart ks)) :
    rs.length ≤ 1 := by
  match rs, h with
  | [], _ => exact Nat.zero_le 1
  | [_], _ => exact Nat.le_refl 1
  | r :: s :: rest, h =>
    obtain ⟨v, hv, -⟩ := (List.pairwise_cons.mp h).1 s List.mem_cons_self
    exact absurd hv (VarSet.isEmpty_iff.mp hks v)

theorem Apart.of_marks (h : r.marks mark ks.toList ≠ s.marks mark ks.toList) : Apart ks r s := by
  by_contra hno
  refine h (List.map_congr_left fun v hv => ?_)
  have heq : r.read v = s.read v := by
    by_contra hne
    exact hno ⟨v, VarSet.mem_toList.mp hv, hne⟩
  rw [heq]

theorem pairwise_marks (ks : VarSet) (rs : List Row) :
    (firsts (marks mark ks.toList) rs).Pairwise fun r s => r.marks mark ks.toList ≠ s.marks mark ks.toList :=
  List.pairwise_map.mp (nodup_map_firsts rs)

theorem pairwise_firsts (ks : VarSet) (rs : List Row) :
    (firsts (marks mark ks.toList) rs).Pairwise (Apart ks) :=
  (pairwise_marks ks rs).imp Apart.of_marks

/-- Pairs differ where their left rows do, and for one left row where their right rows do. -/
theorem pairwise_pairs {ls : List Row} {f : Row → List Row} (hl : ls.Pairwise (Apart kl))
    (hlw : ∀ l ∈ ls, l.Within vs) (hf : ∀ l ∈ ls, (f l).Pairwise (Apart kr)) (hfw : ∀ l ∈ ls, ∀ s ∈ f l, s.Within ws)
    (hd : ∀ v ∈ vs, v ∉ ws) : (ls.flatMap fun l => (f l).map l.merge).Pairwise (Apart (kl ∪ kr)) := by
  rw [List.pairwise_flatMap]
  constructor
  · intro l hl'
    rw [List.pairwise_map]
    refine (hf l hl').imp_of_mem fun {s s'} hs hs' hne => ?_
    obtain ⟨v, hv, hvw, hne⟩ := hne.exists_mem (hfw l hl' s hs) (hfw l hl' s' hs')
    have hnone : l v = none := (hlw l hl').eq_none fun hvl => hd v hvl hvw
    refine ⟨v, VarSet.mem_union.mpr (.inr hv), ?_⟩
    rwa [read_merge_right hnone, read_merge_right hnone]
  · refine hl.imp_of_mem fun {l l'} hl₁ hl₂ hne x hx y hy => ?_
    obtain ⟨s, hs, rfl⟩ := List.mem_map.mp hx
    obtain ⟨s', hs', rfl⟩ := List.mem_map.mp hy
    obtain ⟨v, hv, hvl, hne⟩ := hne.exists_mem (hlw l hl₁) (hlw l' hl₂)
    refine ⟨v, VarSet.mem_union.mpr (.inl hv), ?_⟩
    rwa [read_merge_left ((hfw l hl₁ s hs).eq_none (hd v hvl)), read_merge_left ((hfw l' hl₂ s' hs').eq_none (hd v hvl))]

/-- The right rows a left row is paired with when it is kept without a match. -/
def orMissing (columns : VarSet) (found : List Row) : List Row := if found.isEmpty then [nulls columns] else found

theorem orNulls_map (columns : VarSet) (l : Row) (found : List Row) :
    l.orNulls columns (found.map l.merge) = (orMissing columns found).map l.merge := by
  cases found <;> rfl

theorem pairwise_orMissing (h : found.Pairwise (Apart ks)) :
    (orMissing columns found).Pairwise (Apart ks) := by
  unfold orMissing
  split
  · exact List.pairwise_singleton _ _
  · exact h

theorem within_orMissing (hc : ∀ v ∈ columns, v ∈ vs)
    (h : ∀ s ∈ found, s.Within vs) : ∀ s ∈ orMissing columns found, s.Within vs := by
  intro s hs
  rw [orMissing] at hs
  split at hs
  · obtain rfl := List.mem_singleton.mp hs
    exact .nulls hc
  · exact h s hs

end Row

open Row

/-- The rows of the table differ on its key, if one is declared. -/
def Table.Keyed (t : Table) (db : Database) : Prop :=
  ∀ ks, t.keys = some ks → ((db t.name).map t.row).Pairwise (Apart ks)

namespace Tree

variable {I : Interpretation} {db : Database}

theorem defines_left {a b : Tree} {v : VarId} (hd : ∀ v ∈ a.binds, v ∉ b.binds) (hsb : Backed (·) b)
    (hv : v ∈ a.binds) (h : Defines (·) a v ∨ Defines (·) b v) : Defines (·) a v :=
  h.resolve_right fun hb => hd v hv (hsb.mem_binds hb)

theorem keys_pairUp {l r : Info} {ks : VarSet} (h : (Op.analyze.pairUp default l r).keys = some ks) :
    ∃ kl kr, l.keys = some kl ∧ r.keys = some kr ∧ ks = kl ∪ kr := by
  simp only [Op.analyze.pairUp] at h
  split at h
  · exact ⟨_, _, ‹_›, ‹_›, (Option.some.inj h).symm⟩
  · cases h

theorem pairwise_groups {mark : Value → Value} (vs : List VarId) {keys outputs : VarSet} {aggregates : Meaning} {rs : List Row} {env : Row}
    (hrs : ∀ r ∈ rs, r.Within vs) (hkeys : ∀ v ∈ keys, v ∈ vs → v ∈ outputs)
    (hagg : ∀ env group, ∀ v ∈ vs, aggregates.bindings env group v = none) :
    ((groups mark keys rs).map (ofGroup outputs aggregates env)).Pairwise (Apart keys) := by
  cases hempty : keys.isEmpty with
  | true =>
    simp only [groups, hempty, if_true, List.map_cons, List.map_nil]
    exact List.pairwise_singleton _ _
  | false =>
    simp only [groups, hempty, Bool.false_eq_true, if_false, List.map_map]
    -- The group of a row starts with a row of the same key.
    have first : ∀ r ∈ firsts (marks mark keys.toList) rs, ∃ f ∈ rs, f.marks mark keys.toList = r.marks mark keys.toList ∧
        (rs.filter fun s => s.marks mark keys.toList = r.marks mark keys.toList).headD Row.empty = f := by
      intro r hr
      have hmem : r ∈ rs.filter fun s => s.marks mark keys.toList = r.marks mark keys.toList := by
        simp [mem_of_mem_firsts hr]
      obtain ⟨f, rest, heq⟩ := List.exists_cons_of_ne_nil (List.ne_nil_of_mem hmem)
      obtain ⟨hf, hmarks⟩ := List.mem_filter.mp (heq ▸ List.mem_cons_self : f ∈ rs.filter _)
      exact ⟨f, hf, of_decide_eq_true hmarks, by rw [heq, List.headD_cons]⟩
    rw [List.pairwise_map]
    refine (pairwise_marks keys rs).imp_of_mem fun {r s} hr hs hne => ?_
    obtain ⟨f, hf, hfmarks, hfr⟩ := first r hr
    obtain ⟨g, hg, hgmarks, hgs⟩ := first s hs
    have hapart : Apart keys f g := .of_marks (by rwa [hfmarks, hgmarks])
    obtain ⟨v, hv, hvs, hne⟩ := hapart.exists_mem (hrs f hf) (hrs g hg)
    refine ⟨v, hv, ?_⟩
    simp only [Function.comp, ofGroup, hfr, hgs]
    simpa [Row.read, hkeys v hv hvs, hagg _ _ v hvs] using hne

theorem pairwise_of_keys {t : Tree} (ht : t.wellFormed) (hrel : t.IsRelational) (hs : Backed (·) t)
    (hd : t.binds.Nodup) (hdb : ∀ s ∈ t.subtrees, ∀ table, s.op = .scanTable table → table.Keyed db) {i : Info}
    (h : t.analysis = .ok i) {ks : VarSet} (hks : i.keys = some ks)
    (hseen : ∀ v ∈ ks, v ∈ t.binds → Defines (·) t v) (outer : Row) : (t.rows I db outer).Pairwise (Apart ks) := by
  induction t using induct generalizing i ks outer with
  | node id op cs ih =>
    obtain ⟨hf, hcs⟩ := wellFormed_node.mp ht
    obtain ⟨hshown, hbacked⟩ := backed_node.mp hs
    obtain ⟨-, hnodup, hpair, -⟩ := nodup_binds_node.mp hd
    have child : ∀ c ∈ cs, c.IsRelational → ∀ j, c.analysis = .ok j → ∀ ks, j.keys = some ks →
        (∀ v ∈ ks, v ∈ c.binds → Defines (·) c v) → ∀ o, (c.rows I db o).Pairwise (Apart ks) :=
      fun c hc hrc j hj ks hks hseen o => ih c hc (hcs c hc) hrc (hbacked c hc) (hnodup c hc)
        (fun s hs => hdb s (mem_subtrees_of_mem hc hs)) hj hks hseen o
    have within : ∀ c ∈ cs, ∀ o, ∀ r ∈ c.rows I db o, r.Within c.binds :=
      fun c hc o r hr => row_within (hcs c hc) (hbacked c hc) hr
    -- All joins and applies pair left rows with some of the right rows, or with nulls.
    have paired : ∀ left ∈ cs, ∀ right ∈ cs, (∀ v ∈ left.binds, v ∉ right.binds) → left.IsRelational →
        right.IsRelational → ∀ {il ir : Info}, left.analysis = .ok il → right.analysis = .ok ir →
          (Op.analyze.pairUp default il ir).keys = some ks →
            (∀ v, Defines (·) (node id op cs) v → Defines (·) left v ∨ Defines (·) right v) → ∀ f : Row → List Row,
              (∀ l, ∃ o found, found.Sublist (right.rows I db o) ∧
                (f l = found ∨ f l = orMissing (right.meaning I db).columns found)) →
                ((left.rows I db outer).flatMap fun l => (f l).map l.merge).Pairwise (Apart ks) := by
      intro left hlm right hrm hapart hl hr il ir hil hir hks hdef f hfound
      obtain ⟨kl, kr, hkl, hkr, rfl⟩ := keys_pairUp hks
      have hleft := child left hlm hl il hil kl hkl fun v hv hb =>
        defines_left hapart (hbacked right hrm) hb (hdef v (hseen v (by simp [hv]) (mem_binds_of_mem hlm hb)))
      have hright := child right hrm hr ir hir kr hkr fun v hv hb =>
        defines_left (fun w hw hw' => hapart w hw' hw) (hbacked left hlm) hb
          (hdef v (hseen v (by simp [hv]) (mem_binds_of_mem hrm hb))).symm
      have hcols : ∀ v ∈ (right.meaning I db).columns, v ∈ right.binds :=
        columns_mem_binds (hcs right hrm) hr (hbacked right hrm)
      refine pairwise_pairs (hleft outer) (within left hlm outer) (fun l _ => ?_) (fun l _ => ?_) hapart
      · obtain ⟨o, found, hsub, heq | heq⟩ := hfound l
        · exact heq ▸ (hright o).sublist hsub
        · exact heq ▸ pairwise_orMissing ((hright o).sublist hsub)
      · obtain ⟨o, found, hsub, hf⟩ := hfound l
        have hw : ∀ s ∈ found, s.Within right.binds := fun s hs => within right hrm o s (hsub.mem hs)
        rcases hf with hf | hf
        · exact hf ▸ hw
        · exact hf ▸ within_orMissing hcols hw
    cases shape_of_fits hf with
    | scanTable table =>
      cases analysis_none.mp h
      exact hdb (node id (.scanTable table) []) (by simp) table rfl ks hks
    | singleRowTable => exact List.pairwise_singleton _ _
    | @filter input predicate hi hp =>
      obtain ⟨ii, ip, hii, -, ⟨⟩⟩ := analysis_two.mp h
      refine (child input (by simp) hi ii hii ks hks (fun v hv hb => ?_) outer).sublist List.filter_sublist
      simpa [defines_node] using hseen v hv (mem_binds_of_mem (by simp) hb)
    | @project outputs input defs hi hk =>
      obtain ⟨ii, id', hii, -, h⟩ := analysis_two.mp h
      obtain ⟨known, -, ⟨⟩⟩ := Run.bind_ok.mp h
      obtain ⟨hks, hsub⟩ := Option.filter_eq_some_iff.mp hks
      have hout : ∀ v ∈ ks, v ∈ outputs := VarSet.isSubset_iff.mp hsub
      have hinput : ∀ v ∈ ks, v ∈ input.binds → Defines (·) input v := by
        intro v hv hb
        have hdef : Defines (·) input v ∨ Defines (·) defs v := by simpa using hshown outputs rfl v (hout v hv)
        exact defines_left (apart_of_nodup hd) (hbacked defs (by simp)) hb hdef
      show ((input.rows I db outer).map _).Pairwise _
      rw [List.pairwise_map]
      refine (child input (by simp) hi ii hii ks hks hinput outer).imp_of_mem fun {r s} hr hs' hne => ?_
      obtain ⟨v, hv, hb, hne⟩ :=
        hne.exists_mem (within input (by simp) outer r hr) (within input (by simp) outer s hs')
      have hnone : ∀ env, (defs.meaning I db).bindings env [] v = none := fun env =>
        (within_bindings (hcs defs (by simp)) hk env []).eq_none (apart_of_nodup hd v hb)
      refine ⟨v, hv, ?_⟩
      simpa [Row.read, hout v hv, hnone] using hne
    | @crossJoin left right hl hr =>
      obtain ⟨il, ir, hil, hir, ⟨⟩⟩ := analysis_two.mp h
      exact paired left (by simp) right (by simp) (apart_of_nodup hd) hl hr hil hir hks (by simp [defines_node]) _
        fun l => ⟨outer, _, .refl _, .inl rfl⟩
    | @innerJoin left right predicate hl hr hp =>
      obtain ⟨il, ir, ip, hil, hir, -, ⟨⟩⟩ := analysis_three.mp h
      have hjoined := paired left (by simp) right (by simp) (apart_of_nodup hd) hl hr hil hir hks
        (by simp [defines_node])
        (fun l => (right.rows I db outer).filter ((predicate.meaning I db).holds outer ∘ l.merge))
        fun l => ⟨outer, _, List.filter_sublist, .inl rfl⟩
      simp only [← List.filter_map] at hjoined
      exact hjoined
    | @leftOuterJoin left right predicate hl hr hp =>
      obtain ⟨il, ir, ip, hil, hir, -, ⟨⟩⟩ := analysis_three.mp h
      have hjoined := paired left (by simp) right (by simp) (apart_of_nodup hd) hl hr hil hir hks
        (by simp [defines_node])
        (fun l => orMissing (right.meaning I db).columns
          ((right.rows I db outer).filter ((predicate.meaning I db).holds outer ∘ l.merge)))
        fun l => ⟨outer, _, List.filter_sublist, .inr rfl⟩
      simp only [← orNulls_map, ← List.filter_map] at hjoined
      exact hjoined
    | @crossApply left right hl hr =>
      obtain ⟨il, ir, hil, hir, ⟨⟩⟩ := analysis_two.mp h
      exact paired left (by simp) right (by simp) (apart_of_nodup hd) hl hr hil hir hks (by simp [defines_node]) _
        fun l => ⟨outer.merge l, _, .refl _, .inl rfl⟩
    | @outerApply left right hl hr =>
      obtain ⟨il, ir, hil, hir, ⟨⟩⟩ := analysis_two.mp h
      have hjoined := paired left (by simp) right (by simp) (apart_of_nodup hd) hl hr hil hir hks
        (by simp [defines_node]) (fun l => orMissing (right.meaning I db).columns (right.rows I db (outer.merge l)))
        fun l => ⟨outer.merge l, _, .refl _, .inr rfl⟩
      simp only [← orNulls_map] at hjoined
      exact hjoined
    | @combine kind outputs lm rm left right hl hr =>
      obtain ⟨il, ir, -, -, h⟩ := analysis_two.mp h
      obtain ⟨known, -, h⟩ := Run.bind_ok.mp h
      cases kind with
      | unionAll =>
        cases h
        cases hks
      | intersect | except =>
        cases h
        cases hks
        exact pairwise_firsts _ _
    | @distinct keys input hi =>
      obtain ⟨ii, -, ⟨⟩⟩ := analysis_one.mp h
      cases hks
      exact pairwise_firsts _ _
    | @groupBy keys outputs input keyDefs aggregates hi hk ha =>
      obtain ⟨ii, ik, ia, -, -, -, h⟩ := analysis_three.mp h
      obtain ⟨known, -, ⟨⟩⟩ := Run.bind_ok.mp h
      obtain rfl : keys = ks := Option.some.inj hks
      simp only [List.pairwise_cons, List.mem_cons, List.not_mem_nil, or_false, forall_eq_or_imp, forall_eq] at hpair
      obtain ⟨⟨-, hia⟩, hka, -⟩ := hpair
      refine pairwise_groups (input.binds ++ keyDefs.binds) ?_ (fun v hv hb => ?_) fun env group v hb => ?_
      · intro r hr
        obtain ⟨s, hs', rfl⟩ := List.mem_map.mp hr
        exact (within input (by simp) outer s hs').merge (within_bindings (hcs keyDefs (by simp)) hk _ _)
      · simpa [defines_node] using hseen v hv (binds_pair hb)
      · exact (within_bindings (hcs aggregates (by simp)) ha env group).eq_none
          ((List.mem_append.mp hb).elim (hia v) (hka v))
    | @sort keys input hi =>
      obtain ⟨ii, hii, ⟨⟩⟩ := analysis_one.mp h
      refine child input (by simp) hi ii hii ks hks (fun v hv hb => ?_) outer
      simpa [defines_node] using hseen v hv (mem_binds_of_mem (by simp) hb)
    | @constrainedSort keys input skip limit hi hskip hlimit =>
      obtain ⟨ii, is, il, hii, -, -, ⟨⟩⟩ := analysis_three.mp h
      have hinput := child input (by simp) hi ii hii ks hks (fun v hv hb => by
        simpa [defines_node] using hseen v hv (mem_binds_of_mem (by simp) hb)) outer
      have harranged : (I.arrange keys (input.rows I db outer)).Pairwise (Apart ks) :=
        (I.arrange_perm keys _).symm.pairwise hinput fun h => h.symm
      simp only [rows, meaning_node, List.map_cons, List.map_nil, Op.meaning, Meaning.relation]
      split
      · exact (harranged.sublist (List.drop_sublist _ _)).sublist (List.take_sublist _ _)
      · exact harranged.sublist (List.drop_sublist _ _)
    | varDefList | varDef | element => cases hrel
    | scalar hs => exact absurd hrel (not_isRelational_of_isScalar hs)

end Tree

/-- Asking a plan about a relation gives a key, if one is known, on which no two rows agree, provided that the
    relation defines the variables of the key and the rows of the tables differ on theirs. -/
theorem Plan.keys_sound {p : Plan} {n : NodeId} {t : Tree} (hn : p.tree? n = some t) (hp : p.Holds t)
    (hwf : t.wellFormed = true) (hrel : t.IsRelational) (hs : t.Backed (·)) (hd : t.binds.Nodup) :
    ∃ i p', relationInfo n p = .ok (i, p') ∧ ∀ (I : Interpretation) (db : Database),
      (∀ s ∈ t.subtrees, ∀ table, s.op = .scanTable table → table.Keyed db) → ∀ ks, i.keys = some ks →
        (∀ v ∈ ks, v ∈ i.definitions) → ∀ outer,
          (t.rows I db outer).Pairwise (fun r s => ∃ v ∈ ks, r.read v ≠ s.read v) ∧
            (ks.isEmpty = true → (t.rows I db outer).length ≤ 1) := by
  obtain rfl := id_view hn
  obtain ⟨i, p', hrun, -, hi⟩ := hp.relationInfo_reaches hwf hrel
  refine ⟨i, p', hrun, fun I db hdb ks hks hdef outer => ?_⟩
  have hpairwise := Tree.pairwise_of_keys (I := I) hwf hrel hs hd hdb hi hks
    (fun v hv _ => (Tree.analysis_scope hwf hi v).1.mp (hdef v hv)) outer
  exact ⟨hpairwise, fun hempty => length_le_one_of_apart hempty hpairwise⟩

/-- `LeftOuterJoin(t, GroupBy(u, [], [c := count(u.b)], keys [u.b], outputs [u.b, c]), true)` with the key `t.a`. -/
def keyedJoinTree : Tree :=
  .node 9 .leftOuterJoin [.node 0 (.scanTable ⟨0, "t", [0], .empty, some (.ofList [0])⟩) [],
    .node 7 (.groupBy (.ofList [1]) (.ofList [1, 2])) [.node 1 (.scanTable ⟨1, "u", [1], .empty, none⟩) [],
      .node 2 .varDefList [],
      .node 6 .varDefList [.node 5 (.varDef 2) [.node 4 (.aggregate "count" .int64) [.node 3 (.varRef 1 .int64) []]]]],
    .node 8 (.constantPredicate true) []]

def keyedJoin : Plan := keyedJoinTree.plan 2 [⟨.column, "t.a", .int64⟩, ⟨.column, "u.b", .int64⟩, ⟨.computed, "", .int64⟩]

theorem Plan.keys_sound_keyedJoin :
    ∃ i p', relationInfo 9 keyedJoin = .ok (i, p') ∧ ∀ (I : Interpretation) (db : Database),
      (∀ s ∈ keyedJoinTree.subtrees, ∀ table, s.op = .scanTable table → table.Keyed db) → ∀ ks, i.keys = some ks →
        (∀ v ∈ ks, v ∈ i.definitions) → ∀ outer,
          (keyedJoinTree.rows I db outer).Pairwise (fun r s => ∃ v ∈ ks, r.read v ≠ s.read v) ∧
            (ks.isEmpty = true → (keyedJoinTree.rows I db outer).length ≤ 1) := by
  have hn : keyedJoin.tree? 9 = some keyedJoinTree := rfl
  refine keys_sound hn (holds_of_view (by decide) hn) (by decide) (by rfl) ?_ (by decide)
  simp [keyedJoinTree, Tree.backed_node, Tree.defines_node]

end Planwright
