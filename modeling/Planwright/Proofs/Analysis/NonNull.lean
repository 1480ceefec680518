import Planwright.Proofs.Plan.Analysis
import Planwright.Proofs.Semantics.Bound

/-! Variables that are never null. The analysis is right about them wherever the constants it takes to be values
    are values, and wherever a grouping without keys shows no value that it defines to group by. -/

namespace Planwright

namespace Row

/-- The row binds the variable to something other than null. -/
def Gives (r : Row) (v : VarId) : Prop := ∃ x, r v = some x ∧ x.isNull = false

variable {r s : Row} {v : VarId} {vs ws : List VarId} {outputs : VarSet}

theorem Gives.read (h : r.Gives v) : (r.read v).isNull = false := by
  obtain ⟨x, hx, hn⟩ := h
  rwa [Row.read, hx]

theorem Gives.mem (h : r.Gives v) (hr : r.Within vs) : v ∈ vs := by
  obtain ⟨x, hx, -⟩ := h
  exact hr v (by simp [hx])

theorem Gives.merge_right (h : s.Gives v) : (r.merge s).Gives v := by
  obtain ⟨x, hx, hn⟩ := h
  exact ⟨x, by simp [hx], hn⟩

theorem Gives.merge_left (h : r.Gives v) (hs : s v = none) : (r.merge s).Gives v := by
  obtain ⟨x, hx, hn⟩ := h
  exact ⟨x, by simp [hx, hs], hn⟩

theorem Gives.merge_apart (h : r.Gives v) (hr : r.Within vs) (hs : s.Within ws) (hd : ∀ v ∈ vs, v ∉ ws) :
    (r.merge s).Gives v :=
  h.merge_left (hs.eq_none (hd v (h.mem hr)))

theorem Gives.only (h : r.Gives v) (hv : v ∈ outputs) : (r.only outputs).Gives v := by
  obtain ⟨x, hx, hn⟩ := h
  exact ⟨x, by simp [hv, hx], hn⟩

theorem Gives.shown (h : r.Gives v) (hv : v ∈ outputs) : (r.shown outputs).Gives v :=
  ⟨r.read v, by simp [hv], h.read⟩

theorem Gives.renamed {m : VarMap} {w : VarId} (h : r.Gives w) (hv : v ∈ outputs)
    (hm : m.get? v = some w) : (r.renamed outputs m).Gives v :=
  ⟨r.read w, by simp [hv, hm], h.read⟩

theorem Gives.of_marks {I : Interpretation} (h : s.Gives v) (hrs : s.marks I.mark vs = r.marks I.mark vs) (hv : v ∈ vs)
    (hr : r v ≠ none) : r.Gives v := by
  have hmark : I.mark (s.read v) = I.mark (r.read v) := List.map_inj_left.mp hrs v hv
  obtain ⟨x, hx⟩ := Option.ne_none_iff_exists'.mp hr
  refine ⟨x, hx, ?_⟩
  have hread : r.read v = x := by rw [Row.read, hx, Option.getD_some]
  cases hn : x.isNull with
  | false => rfl
  | true =>
    rw [hread, Value.isNull_iff.mp hn] at hmark
    have hread' := h.read
    rw [I.mark_null _ hmark] at hread'
    cases hread'

end Row

/-- The rows of the table hold no null in the columns that are never null. -/
def Table.Respected (t : Table) (db : Database) : Prop :=
  ∀ values ∈ db t.name, ∀ v ∈ t.nonNullable, ((t.row values).read v).isNull = false

namespace Tree

variable {known outputs : VarSet} {i : Info} {outer r : Row} {group : List Row}
variable {I : Interpretation} {db : Database}
variable {env : Row} {i' : Info} {keys : VarSet} {rows : List Row}

/-! ### Where the analysis is right -/

/-- A constant of the optimizer that a projection or a grouping shows is a value, and a grouping without keys shows
    none of the variables it defines to group by that are counted as never null. -/
def Honest : Tree → Prop
  | node _ (.project outputs) [_, defs] => ∀ x ∈ defs.definitions, x.1 ∈ outputs → x.2.op ≠ .internalConstant .null
  | node _ (.groupBy keys outputs) [input, keyDefs, _] => ∀ x ∈ keyDefs.definitions, x.1 ∈ outputs →
      x.2.op ≠ .internalConstant .null ∧
        (keys.isEmpty = true → ∀ i, input.analysis = .ok i → x.2.op.isNeverNull i.nonNullable = false)
  | _ => True

/-- An expression that is never null has a value where the variables known not to be null have one. -/
theorem isNull_value {e : Tree} (he : e.op.isNeverNull known = true)
    (hne : e.op ≠ .internalConstant .null) (henv : ∀ v ∈ known, (env.read v).isNull = false)
    (group : List Row) : ((e.meaning I db).value env group).isNull = false := by
  obtain ⟨id, op, cs⟩ := e
  cases op with
  | constant x => simpa [Op.isNeverNull, Op.meaning, Meaning.expression, Op.value?] using he
  | internalConstant x => cases x <;> first | rfl | exact absurd rfl hne
  | nullSentinel | constantPredicate => rfl
  | varRef v type => exact henv v he
  | _ => cases he

theorem gives_of_definition {defs : Tree} (ht : defs.wellFormed) (hk : defs.kind = .varDefList)
    (hd : defs.binds.Nodup) {v : VarId} {e : Op} (hv : (.varDef v, some e) ∈ (defs.asChild i).inner)
    (he : e.isNeverNull known = true)
    (hne : ∀ x ∈ defs.definitions, x.1 = v → x.2.op ≠ .internalConstant .null)
    (hr : ∀ v ∈ known, r.Gives v) (group : List Row) :
    ((defs.meaning I db).bindings (outer.merge r) group).Gives v := by
  rw [inner_of_varDefList ht hk, List.mem_map] at hv
  obtain ⟨x, hx, heq⟩ := hv
  cases heq
  refine ⟨_, bindings_apply ht hk hd hx _ _, ?_⟩
  exact isNull_value he (hne x hx rfl) (fun w hw => (hr w hw).merge_right.read) group

theorem gives_project {id : NodeId} {input defs : Tree}
    (hd : (node id (.project outputs) [input, defs]).binds.Nodup) (hwf : defs.wellFormed)
    (hk : defs.kind = .varDefList) (honest : (node id (.project outputs) [input, defs]).Honest)
    (hknown : Op.neverNullDefs i.nonNullable i.nonNullable (defs.asChild i').inner = .ok known)
    (hr : r.Within input.binds) (hgives : ∀ v ∈ i.nonNullable, r.Gives v) :
    ∀ v ∈ known ∩ outputs, ((r.merge ((defs.meaning I db).bindings (outer.merge r) [])).only outputs).Gives v := by
  intro v hv
  obtain ⟨hvk, hvo⟩ := VarSet.mem_inter.mp hv
  refine Row.Gives.only ?_ hvo
  have hmem := (Run.exists_ok_iff hknown).mp (Op.neverNullDefs_ok (defines_of_varDefList hwf hk i') _)
  rcases (hmem v).mp hvk with hvi | ⟨e, he, hnn⟩
  · exact (hgives v hvi).merge_apart hr (within_bindings hwf hk _ _) (apart_of_nodup hd)
  · refine Row.Gives.merge_right (gives_of_definition hwf hk ?_ he hnn ?_ hgives [])
    · exact (nodup_binds_node.mp hd).2.1 defs (by simp)
    · intro x hx heq
      exact honest x hx (heq ▸ hvo)

theorem head_mem_of_groups {mark : Value → Value} (hg : group ∈ Row.groups mark keys rows)
    (hk : keys.isEmpty = false) : group.headD .empty ∈ rows := by
  simp only [Row.groups, hk, Bool.false_eq_true, if_false, List.mem_map] at hg
  obtain ⟨r, hr, rfl⟩ := hg
  have hmem : r ∈ rows.filter fun s => s.marks mark keys.toList = r.marks mark keys.toList := by
    simp [Row.mem_of_mem_firsts hr]
  obtain ⟨first, rest, heq⟩ := List.exists_cons_of_ne_nil (List.ne_nil_of_mem hmem)
  rw [heq, List.headD_cons]
  exact (List.mem_filter.mp (heq ▸ List.mem_cons_self)).1

theorem gives_groupBy {id : NodeId} {input keyDefs aggregates : Tree}
    (hd : (node id (.groupBy keys outputs) [input, keyDefs, aggregates]).binds.Nodup)
    (hwfk : keyDefs.wellFormed) (hk : keyDefs.kind = .varDefList) (hwfa : aggregates.wellFormed)
    (ha : aggregates.kind = .varDefList)
    (honest : (node id (.groupBy keys outputs) [input, keyDefs, aggregates]).Honest) (hi : input.analysis = .ok i)
    (hknown : Op.neverNullDefs i.nonNullable (keys ∩ i.nonNullable) (keyDefs.asChild i').inner = .ok known)
    (hrows : ∀ r ∈ rows, r.Within input.binds ∧ ∀ v ∈ i.nonNullable, r.Gives v)
    (hg : group ∈ Row.groups I.mark keys
      (rows.map fun r => r.merge ((keyDefs.meaning I db).bindings (outer.merge r) []))) :
    ∀ v ∈ known ∩ outputs, (Row.ofGroup outputs (aggregates.meaning I db) env group).Gives v := by
  intro v hv
  obtain ⟨hvk, hvo⟩ := VarSet.mem_inter.mp hv
  have hmem := (Run.exists_ok_iff hknown).mp (Op.neverNullDefs_ok (defines_of_varDefList hwfk hk i') _)
  have hkeys : keys.isEmpty = false := by
    rcases (hmem v).mp hvk with hvi | ⟨e, he, hnn⟩
    · rw [← Bool.not_eq_true, VarSet.isEmpty_iff]
      exact fun hno => hno v (VarSet.mem_inter.mp hvi).1
    · rw [inner_of_varDefList hwfk hk, List.mem_map] at he
      obtain ⟨x, hx, heq⟩ := he
      cases heq
      exact Bool.eq_false_iff.mpr fun hempty => by simp [(honest x hx hvo).2 hempty i hi] at hnn
  obtain ⟨-, hnodup, hpair, -⟩ := nodup_binds_node.mp hd
  simp only [List.pairwise_cons, List.mem_cons, List.not_mem_nil, or_false, forall_eq_or_imp, forall_eq] at hpair
  obtain ⟨⟨hik, hia⟩, hka, -⟩ := hpair
  obtain ⟨r, hr, hfirst⟩ := List.mem_map.mp (head_mem_of_groups hg hkeys)
  have hdesc := hrows r hr
  have hwithin : ((keyDefs.meaning I db).bindings (outer.merge r) []).Within keyDefs.binds := within_bindings hwfk hk _ _
  -- The first row of the group gives the variable, and no aggregate hides it.
  have hgives : (group.headD .empty).Gives v := by
    rw [← hfirst]
    rcases (hmem v).mp hvk with hvi | ⟨e, he, hnn⟩
    · exact (hdesc.2 v (VarSet.mem_inter.mp hvi).2).merge_apart hdesc.1 hwithin hik
    · refine Row.Gives.merge_right (gives_of_definition hwfk hk (hnodup _ (by simp)) he hnn ?_ hdesc.2 [])
      intro x hx heq
      exact (honest x hx (heq ▸ hvo)).1
  have hfirstWithin : (group.headD .empty).Within (input.binds ++ keyDefs.binds) := hfirst ▸ hdesc.1.merge hwithin
  refine Row.Gives.shown (hgives.merge_apart hfirstWithin (within_bindings hwfa ha _ _) fun w hw => ?_) hvo
  exact (List.mem_append.mp hw).elim (hia w) (hka w)

theorem gives_combine {kind : SetKind} {lm rm : VarMap} {il ir : Info}
    (hlm : ∀ v ∈ outputs, ∃ w, lm.get? v = some w) (hrm : ∀ v ∈ outputs, ∃ w, rm.get? v = some w)
    (hknown : Op.neverNullOutputs kind outputs lm rm il ir = .ok known) {left right : List Row}
    (hleft : ∀ l ∈ left, ∀ v ∈ il.nonNullable, l.Gives v) (hright : ∀ r ∈ right, ∀ v ∈ ir.nonNullable, r.Gives v)
    (hr : r ∈ Op.combined I kind outputs (left.map (Row.renamed outputs lm)) (right.map (Row.renamed outputs rm))) :
    ∀ v ∈ known, r.Gives v := by
  intro v hv
  have hmem := (Run.exists_ok_iff hknown).mp (Op.neverNullOutputs_ok hlm hrm)
  obtain ⟨hvo, w, x, hw, hx, hn⟩ := (hmem v).mp hv
  have fromLeft : ∀ l ∈ left, w ∈ il.nonNullable → (l.renamed outputs lm).Gives v := fun l hl hn => (hleft l hl w hn).renamed hvo hw
  have fromRight : ∀ r ∈ right, x ∈ ir.nonNullable → (r.renamed outputs rm).Gives v := fun r hr hn => (hright r hr x hn).renamed hvo hx
  cases kind with
  | unionAll =>
    rcases List.mem_append.mp hr with hr | hr
    · obtain ⟨l, hl, rfl⟩ := List.mem_map.mp hr
      exact fromLeft l hl (Bool.and_eq_true_iff.mp hn).1
    · obtain ⟨s, hs, rfl⟩ := List.mem_map.mp hr
      exact fromRight s hs (Bool.and_eq_true_iff.mp hn).2
  | intersect =>
    obtain ⟨hr, hfound⟩ := List.mem_filter.mp (Row.mem_of_mem_firsts hr)
    obtain ⟨l, hl, rfl⟩ := List.mem_map.mp hr
    rcases Bool.or_eq_true_iff.mp hn with hn | hn
    · exact fromLeft l hl hn
    · -- The row equals one of the right branch, which gives the variable.
      obtain ⟨r', hr', hmarks⟩ := List.mem_map.mp (List.contains_iff_mem.mp hfound)
      obtain ⟨s, hs, rfl⟩ := List.mem_map.mp hr'
      exact (fromRight s hs hn).of_marks hmarks (VarSet.mem_toList.mpr hvo) (by simp [hvo])
  | except =>
    obtain ⟨l, hl, rfl⟩ := List.mem_map.mp (List.mem_filter.mp (Row.mem_of_mem_firsts hr)).1
    exact fromLeft l hl hn

theorem gives_of_inherit {given : VarSet} (h : ∀ v ∈ given, r.Gives v) : ∀ v ∈ VarSet.empty ∪ given, r.Gives v :=
  fun v hv => h v ((VarSet.mem_union.mp hv).resolve_left (VarSet.not_mem_empty v))

theorem gives_of_analysis {t : Tree} (ht : t.wellFormed) (hrel : t.IsRelational) (hs : Scoped (·) t)
    (hd : t.binds.Nodup) (honest : ∀ s ∈ t.subtrees, s.Honest)
    (hdb : ∀ s ∈ t.subtrees, ∀ table, s.op = .scanTable table → table.Respected db)
    (h : t.analysis = .ok i) (hr : r ∈ t.rows I db outer) : ∀ v ∈ i.nonNullable, r.Gives v := by
  induction t using induct generalizing i outer r with
  | node id op cs ih =>
    obtain ⟨hf, hcs⟩ := wellFormed_node.mp ht
    obtain ⟨hregular, -, hscoped⟩ := scoped_node.mp hs
    obtain ⟨-, hnodup, -, -⟩ := nodup_binds_node.mp hd
    have child : ∀ c ∈ cs, c.IsRelational → ∀ j, c.analysis = .ok j → ∀ o, ∀ r ∈ c.rows I db o, ∀ v ∈ j.nonNullable, r.Gives v := by
      intro c hc hrc j hj o r hr
      exact ih c hc (hcs c hc) hrc (hscoped c hc) (hnodup c hc) (fun s hs => honest s (mem_subtrees_of_mem hc hs))
        (fun s hs => hdb s (mem_subtrees_of_mem hc hs)) hj hr
    have within : ∀ c ∈ cs, ∀ o, ∀ r ∈ c.rows I db o, r.Within c.binds := fun c hc o r hr =>
      row_within (hcs c hc) (hscoped c hc).backed hr
    -- Either side of a pair gives what is never null there, but for the right side where left rows are kept.
    have pair : ∀ {left right rest il ir}, cs = left :: right :: rest → left.IsRelational → right.IsRelational →
        left.analysis = .ok il → right.analysis = .ok ir → op.pairs = true →
          ∀ v, v ∈ il.nonNullable ∨ op.keepsLeft = false ∧ v ∈ ir.nonNullable → r.Gives v := by
      rintro left right rest il ir rfl hl hr' hil hir hop v hv
      obtain ⟨l, hl', s, rfl, hs'⟩ := exists_pair (shape_of_fits hf) hop hr
      rcases hv with hv | ⟨hno, hv⟩
      · refine (child left (by simp) hl il hil outer l hl' v hv).merge_apart (within left (by simp) outer l hl') ?_ (apart_of_nodup hd)
        rcases hs' with ⟨o, hs'⟩ | ⟨-, rfl⟩
        · exact within right (by simp) o s hs'
        · exact .nulls (columns_mem_binds (hcs right (by simp)) hr' (hscoped right (by simp)).backed)
      · rcases hs' with ⟨o, hs'⟩ | ⟨hyes, -⟩
        · exact (child right (by simp) hr' ir hir o s hs' v hv).merge_right
        · rw [hno] at hyes
          cases hyes
    have hself : (node id op cs).Honest := honest _ (by simp)
    cases shape_of_fits hf with
    | scanTable table =>
      cases analysis_none.mp h
      obtain ⟨values, hvalues, rfl⟩ := List.mem_map.mp hr
      intro v hv
      refine ⟨_, ?_, hdb (node id (.scanTable table) []) (by simp) table rfl values hvalues v hv⟩
      simp [Row.read, Table.row, hregular v hv]
    | singleRowTable =>
      cases analysis_none.mp h
      exact fun v hv => absurd hv (VarSet.not_mem_empty v)
    | @filter input predicate hi hp =>
      obtain ⟨ii, ip, hii, -, ⟨⟩⟩ := analysis_two.mp h
      exact gives_of_inherit (child input (by simp) hi ii hii outer r (List.mem_filter.mp hr).1)
    | @project outputs input defs hi hk =>
      obtain ⟨ii, id', hii, -, h⟩ := analysis_two.mp h
      obtain ⟨known, hknown, ⟨⟩⟩ := Run.bind_ok.mp h
      obtain ⟨s, hs', rfl⟩ := List.mem_map.mp hr
      exact gives_project hd (hcs defs (by simp)) hk hself hknown (within input (by simp) outer s hs')
        (child input (by simp) hi ii hii outer s hs')
    | @crossJoin left right hl hr' | @crossApply left right hl hr' =>
      obtain ⟨il, ir, hil, hir, ⟨⟩⟩ := analysis_two.mp h
      exact fun v hv => pair rfl hl hr' hil hir rfl v ((VarSet.mem_union.mp hv).imp_right fun hv => ⟨rfl, hv⟩)
    | @innerJoin left right predicate hl hr' hp =>
      obtain ⟨il, ir, ip, hil, hir, -, ⟨⟩⟩ := analysis_three.mp h
      exact fun v hv => pair rfl hl hr' hil hir rfl v ((VarSet.mem_union.mp hv).imp_right fun hv => ⟨rfl, hv⟩)
    | @leftOuterJoin left right predicate hl hr' hp =>
      obtain ⟨il, ir, ip, hil, hir, -, ⟨⟩⟩ := analysis_three.mp h
      exact fun v hv => pair rfl hl hr' hil hir rfl v (.inl hv)
    | @outerApply left right hl hr' =>
      obtain ⟨il, ir, hil, hir, ⟨⟩⟩ := analysis_two.mp h
      exact fun v hv => pair rfl hl hr' hil hir rfl v (.inl hv)
    | @combine kind outputs lm rm left right hl hr' hlm hrm =>
      obtain ⟨il, ir, hil, hir, h⟩ := analysis_two.mp h
      obtain ⟨known, hknown, h⟩ := Run.bind_ok.mp h
      have hgives := gives_combine hlm hrm hknown (child left (by simp) hl il hil outer) (child right (by simp) hr' ir hir outer) hr
      cases kind <;> cases h <;> exact hgives
    | @distinct keys input hi =>
      obtain ⟨ii, hii, ⟨⟩⟩ := analysis_one.mp h
      exact fun v hv => child input (by simp) hi ii hii outer r (Row.mem_of_mem_firsts hr) v (VarSet.mem_inter.mp hv).1
    | @groupBy keys outputs input keyDefs aggregates hi hk ha =>
      obtain ⟨ii, ik, ia, hii, -, -, h⟩ := analysis_three.mp h
      obtain ⟨known, hknown, ⟨⟩⟩ := Run.bind_ok.mp h
      obtain ⟨group, hgroup, rfl⟩ := List.mem_map.mp hr
      exact gives_groupBy hd (hcs keyDefs (by simp)) hk (hcs aggregates (by simp)) ha hself hii hknown
        (fun r hr => ⟨within input (by simp) outer r hr, child input (by simp) hi ii hii outer r hr⟩) hgroup
    | @sort keys input hi =>
      obtain ⟨ii, hii, ⟨⟩⟩ := analysis_one.mp h
      exact gives_of_inherit (child input (by simp) hi ii hii outer r hr)
    | @constrainedSort keys input skip limit hi _ hl =>
      obtain ⟨ii, is, il, hii, -, -, ⟨⟩⟩ := analysis_three.mp h
      exact gives_of_inherit (child input (by simp) hi ii hii outer r (mem_of_mem_constrainedSort hr))
    | varDefList | varDef | element => cases hrel
    | scalar hs => exact absurd hrel (not_isRelational_of_isScalar hs)

end Tree

/-- Asking a plan about a relation whose operators are honest gives variables that it defines and that have a value
    in every row, if the tables hold no null where none is expected. -/
theorem Plan.nonNullable_sound {p : Plan} {n : NodeId} {t : Tree} (hn : p.tree? n = some t) (hp : p.Holds t)
    (hwf : t.wellFormed = true) (hrel : t.IsRelational) (hs : t.Scoped (·)) (hd : t.binds.Nodup)
    (honest : ∀ s ∈ t.subtrees, s.Honest) :
    ∃ i p', relationInfo n p = .ok (i, p') ∧ (∀ v ∈ i.nonNullable, v ∈ i.definitions) ∧
      ∀ (I : Interpretation) (db : Database),
        (∀ s ∈ t.subtrees, ∀ table, s.op = .scanTable table → table.Respected db) →
          ∀ outer, ∀ r ∈ t.rows I db outer, ∀ v ∈ i.nonNullable, (r.read v).isNull = false := by
  obtain rfl := id_view hn
  obtain ⟨i, p', hrun, -, hi⟩ := hp.relationInfo_reaches hwf hrel
  refine ⟨i, p', hrun, fun v => Tree.nonNullable_defined hwf hrel hs hi, ?_⟩
  intro I db hdb outer r hr v hv
  exact (Tree.gives_of_analysis hwf hrel hs hd honest hdb hi hr v hv).read

/-- `LeftOuterJoin(Project(t, [c := 7], [a, c]), t, true)`, where `a` is never null. -/
def taggedTree : Tree :=
  .node 7 .leftOuterJoin [.node 4 (.project (.ofList [0, 2])) [.node 0 (.scanTable ⟨0, "t", [0, 1], .ofList [0], none⟩) [],
      .node 3 .varDefList [.node 2 (.varDef 2) [.node 1 (.internalConstant (.int32 7)) []]]],
    .node 5 (.scanTable ⟨1, "t", [3], .ofList [3], none⟩) [], .node 6 (.constantPredicate true) []]

def tagged : Plan :=
  taggedTree.plan 2 [⟨.column, "t.a", .int32⟩, ⟨.column, "t.b", .int32⟩, ⟨.computed, "", .int32⟩, ⟨.column, "t.a", .int32⟩]

theorem Plan.nonNullable_sound_tagged :
    ∃ i p', relationInfo 7 tagged = .ok (i, p') ∧ (∀ v ∈ i.nonNullable, v ∈ i.definitions) ∧
      ∀ (I : Interpretation) (db : Database),
        (∀ s ∈ taggedTree.subtrees, ∀ table, s.op = .scanTable table → table.Respected db) →
          ∀ outer, ∀ r ∈ taggedTree.rows I db outer, ∀ v ∈ i.nonNullable, (r.read v).isNull = false := by
  have hn : tagged.tree? 7 = some taggedTree := rfl
  refine nonNullable_sound hn (holds_of_view (by decide) hn) (by decide) (by rfl) ?_ (by decide) ?_
  · simp [taggedTree, Tree.scoped_node, Tree.defines_node, or_imp, forall_and]
  · simp [taggedTree, Tree.Honest, Tree.definitions]

/-- `Project(SingleRow, [v := NULL], [v])` with the null as a constant of the optimizer. -/
def nullConstant : Plan :=
  (Tree.node 4 (.project (.ofList [0])) [.node 0 .singleRowTable [],
    .node 3 .varDefList [.node 2 (.varDef 0) [.node 1 (.internalConstant .null) []]]]).plan 0 [⟨.computed, "", .null⟩]

/-- A null constant of the optimizer is taken for a value. -/
theorem Plan.nonNullable_nullConstant : ∃ t i p', nullConstant.tree? 4 = some t ∧
    relationInfo 4 nullConstant = .ok (i, p') ∧ 0 ∈ i.nonNullable ∧
      ∀ (I : Interpretation) (db : Database) (outer : Row), ∃ r ∈ t.rows I db outer, r.read 0 = .null := by
  refine ⟨_, _, _, rfl, rfl, by decide, fun I db outer => ⟨_, List.mem_singleton.mpr rfl, rfl⟩⟩

/-- `GroupBy(t, [v := 7], [], {}, [v])`, which has a row even where `t` has none. -/
def keylessTree : Tree :=
  .node 5 (.groupBy .empty (.ofList [1])) [.node 0 (.scanTable ⟨0, "t", [0], .empty, none⟩) [],
    .node 3 .varDefList [.node 2 (.varDef 1) [.node 1 (.constant (.int32 7)) []]], .node 4 .varDefList []]

def keyless : Plan := keylessTree.plan 1 [⟨.column, "t.a", .int32⟩, ⟨.computed, "", .int32⟩]

/-- A constant to group by is taken for a value where there is no row to read it from. -/
theorem Plan.nonNullable_keyless : ∃ i p', keyless.tree? 5 = some keylessTree ∧ relationInfo 5 keyless = .ok (i, p') ∧
    1 ∈ i.nonNullable ∧ ∀ (I : Interpretation) (db : Database) (outer : Row), db "t" = [] →
      ∃ r ∈ keylessTree.rows I db outer, r.read 1 = .null := by
  obtain ⟨i, p', hrun, hmem⟩ := Run.Reaches.of_run (x := relationInfo 5) (p := keyless) (f := fun r => decide (1 ∈ r.1.nonNullable))
    (b := true) (by decide +kernel)
  refine ⟨i, p', rfl, hrun, of_decide_eq_true hmem, fun I db outer ht => ?_⟩
  refine ⟨_, List.mem_map.mpr ⟨[], List.mem_singleton.mpr ?_, rfl⟩, rfl⟩
  simp [Op.meaning, Meaning.relation, ht]

end Planwright
