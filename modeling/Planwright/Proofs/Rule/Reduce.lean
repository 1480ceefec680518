import Planwright.Proofs.Engine.Lower
import Planwright.Proofs.Rule.Remake.Apply
import Planwright.Proofs.Rule.Remake.Filter

/-! Rules reduce what they are applied to. Those that settle nothing themselves do so by the tree that they make. -/

namespace Planwright

open Run Planwright.Tree Plan Outline

namespace Rules

variable {t t' : Tree} {outputs shown : VarSet} {m m' : NodeId} {ds ds' : List Def} {k : OpKind} {es : List Tree}
  {gs : List NodeId}
variable {n : NodeId} {x y q : Tree} {p : Plan}
variable {name : String}

theorem below_of_simplifies (h : Simplifies t t') (he : t.IsExpression) (hp : t.kind.isConstant = false) : Below t t' := by
  obtain ⟨n, op, cs⟩ := t
  have hlone : (Outline.node op.kind (cs.map outline)).isLone = false := by
    rw [← Bool.not_eq_true, isLone_scalar (k := op.kind) he]
    rintro (hk | hk) <;> rw [kind_node, hk] at hp <;> cases hp
  cases h with
  | part hparts hwithin =>
    have hd := hparts.isExpression t' (by simp)
    refine ⟨hparts.wellFormed t' (by simp), sameRole_of_scalar he hd, ?_⟩
    obtain ⟨m, op', es⟩ := t'
    rw [outline_node, outline_node] at *
    exact hwithin.falls_part he hd hlone
  | operator hop hne _ ha hparts hwithin hext =>
    refine ⟨wellFormed_iff.mpr ⟨.scalar hop hne ha hparts.isExpression, hparts.wellFormed⟩, sameRole_of_scalar he hop, ?_⟩
    rw [outline_node, outline_node] at *
    exact hwithin.falls_over he hop hlone hext

theorem scalarRules_reduce : ∀ rule ∈ scalarRules, rule.Reduces := by
  intro rule hrule
  obtain ⟨hk, hp, h⟩ := scalarRules_simplify rule hrule
  intro settle c p t hs _ hmatch
  refine ((h hs.holds hs.wellFormed hmatch).mono fun _ _ _ hout => .of_remade hs hout ?_).stabilizes
  rintro vs m t' ⟨-, -, hsimp⟩
  rw [Pattern.holds_eq_fits _ hs.holds] at hmatch
  obtain ⟨rfl, -⟩ := Pattern.fits_matching.mp hmatch
  exact below_of_simplifies hsimp hk hp

theorem outline_project : (Tree.node n (.project outputs) [x, defs m ds]).outline =
    .node .project [x.outline, .defs (ds.map fun d => d.expr.outline)] := by
  simp [Op.kind]

theorem outline_filter : (Tree.node n .filter [x, q]).outline = .node .filter [x.outline, q.outline] := by
  simp [Op.kind]

theorem scalar_defs (h : ∀ d ∈ ds, d.expr.isScalar) : ∀ e ∈ ds.map (fun d => d.expr.outline), e.Scalar :=
  List.forall_mem_map.mpr fun d hd => scalar_outline.mpr (h d hd)

theorem projectWithNoLocalDefinitions_reduces : projectWithNoLocalDefinitions.Reduces :=
  projectWithNoLocalDefinitions_makes.reduces fun hs hmade => by
    obtain ⟨-, -, n, outputs, m, rfl⟩ := hmade
    obtain ⟨⟨hx, -⟩, hwf, -⟩ := wellFormed_project.mp hs.wellFormed
    refine ⟨hwf, sameRole_of_relational rfl hx, ?_⟩
    rw [outline_project]
    exact falls_project_input (by rwa [kind_outline])

theorem below_of_drops {drop : Def → Option VarId} {hide : VarSet → VarId → VarId → VarSet} {mm mm' : VarMap}
    (h : Drops drop hide mm outputs x ds mm' t') (hs : Standing p (.node n (.project outputs) [x, defs m ds])) :
    Below (.node n (.project outputs) [x, defs m ds]) t' := by
  obtain ⟨n', m', hsome⟩ := h
  obtain ⟨⟨hx, -⟩, hwfx, hwfd⟩ := wellFormed_project.mp hs.wellFormed
  have hs := keptOf_sublist drop ds
  refine ⟨wellFormed_project.mpr ⟨⟨hx, rfl⟩, hwfx, wellFormed_defs.mpr fun d hd => ?_⟩, .refl _, ?_⟩
  · exact wellFormed_defs.mp hwfd d (hs.subset hd)
  · rw [outline_project, outline_project]
    exact falls_project_sublist (hs.map _) (by simpa using keptOf_length hsome)

theorem projectWithSimpleVarRedefinitions_reduces : projectWithSimpleVarRedefinitions.Reduces :=
  projectWithSimpleVarRedefinitions_makes.reduces fun hs hmade => by
    obtain ⟨-, n, outputs, x, m, ds, i, rfl, -, hdrops⟩ := hmade
    exact below_of_drops hdrops hs

theorem projectOpWithNullSentinel_reduces : projectOpWithNullSentinel.Reduces :=
  projectOpWithNullSentinel_makes.reduces fun hs hmade => by
    obtain ⟨-, n, outputs, x, m, ds, i, chosen, rfl, -, -, hdrops⟩ := hmade
    exact below_of_drops hdrops hs

theorem projectOverProject_reduces : projectOverProject.Reduces :=
  projectOverProject_makes.reduces fun hs hmade => by
    obtain ⟨-, -, n, outer, n₂, inner, x, m₂, ds₂, m₁, ds₁, s, σ, moved, n', m', rfl, hσ, hs₁, hmoved, rfl⟩ := hmade
    obtain ⟨-, hwf₂, hwfd₁⟩ := wellFormed_project.mp hs.wellFormed
    obtain ⟨⟨hx, -⟩, hwfx, hwfd₂⟩ := wellFormed_project.mp hwf₂
    have hnew : ∀ d ∈ moved ++ ds₂.filter (fun d => outer.has d.var), d.expr.isScalar ∧ d.expr.wellFormed := by
      intro d hd
      rcases List.mem_append.mp hd with hd | hd
      · obtain ⟨e, -, -, he⟩ := exists_of_forall₂_right hmoved hd
        exact ⟨he.scalar, he.wellFormed⟩
      · have hd := List.mem_of_mem_filter hd
        exact ⟨hσ.scalar d hd, (wellFormed_defs.mp hwfd₂ d hd).2⟩
    refine ⟨wellFormed_project.mpr ⟨⟨hx, rfl⟩, hwfx, wellFormed_defs.mpr fun d hd => ?_⟩, .refl _, ?_⟩
    · exact ⟨isExpression_of_isScalar (hnew d hd).1, (hnew d hd).2⟩
    · simp only [outline_project]
      refine falls_projectOverProject (scalar_defs hs₁) (scalar_defs hσ.scalar) (scalar_defs fun d hd => (hnew d hd).1) ?_
      simp only [List.forall_mem_map]
      intro hb₁ hb₂ d hd
      rcases List.mem_append.mp hd with hd | hd
      · obtain ⟨e, he, -, hsub⟩ := exists_of_forall₂_right hmoved hd
        refine (hsub.bulk fun y hy => ?_).trans (hb₁ e he)
        obtain ⟨d, hd, rfl⟩ := hσ.mem y hy
        exact hb₂ d hd
      · exact hb₂ d (List.mem_of_mem_filter hd)

theorem projectRules_reduce : ∀ rule ∈ projectRules, rule.Reduces := by
  simp only [projectRules, List.forall_mem_cons]
  exact ⟨projectOverProject_reduces, projectWithNoLocalDefinitions_reduces, projectWithSimpleVarRedefinitions_reduces,
    projectOpWithNullSentinel_reduces, List.forall_mem_nil _⟩

theorem distinctOpOfKeys_reduces : distinctOpOfKeys.Reduces :=
  distinctOpOfKeys_makes.reduces fun hs hmade => by
    obtain ⟨-, -, n, keys, x, i, known, n', m', rfl, -, -, -, rfl⟩ := hmade
    obtain ⟨hx, hwf⟩ := wellFormed_distinct.mp hs.wellFormed
    refine ⟨wellFormed_project.mpr ⟨⟨hx, rfl⟩, hwf, wellFormed_defs.mpr nofun⟩, sameRole_of_relational rfl rfl, .inl ?_⟩
    simp [Op.kind, opWeight, OpKind.isRelational]

theorem measures_of_guards {s : VarId} {standsIn : Prop} {e e' : Tree} (h : Guards s standsIn e e') : e'.outline.weight ≤ e.outline.weight ∧
    e'.outline.load ≤ e.outline.load ∧ e'.outline.lift ≤ e.outline.lift := by
  cases h with
  | marker => simp (disch := decide) [Op.kind, opWeight, OpKind.isRelational, lift_of_not_relational]
  | test => simp (disch := decide) [Op.kind, ScalarKind.kind, opWeight, OpKind.isRelational, lift_of_not_relational]

theorem overFilter_reduces {op : Op} (hop : op = .crossApply ∨ op = .outerApply) :
    (Rule.simple name (matching op.kind [.wildcard, matching .filter [.wildcard, .wildcard]]) overFilter).Reduces :=
  (overFilter_makes hop).reduces fun hs hmade => by
    obtain ⟨-, -, n, x, f, y, q, n', rfl, -, rfl⟩ := hmade
    obtain ⟨⟨hx, -⟩, hwfx, hwff⟩ := (wellFormed_apply hop).mp hs.wellFormed
    obtain ⟨⟨hy, hq⟩, hwfy, hwfq⟩ := wellFormed_filter.mp hwff
    rcases hop with rfl | rfl
    · refine ⟨wellFormed_innerJoin.mpr ⟨⟨hx, hy, hq⟩, hwfx, hwfy, hwfq⟩, sameRole_of_relational rfl rfl, .inl ?_⟩
      simp [Op.kind, opWeight, OpKind.isRelational]
    · refine ⟨wellFormed_leftOuterJoin.mpr ⟨⟨hx, hy, hq⟩, hwfx, hwfy, hwfq⟩, sameRole_of_relational rfl rfl, .inl ?_⟩
      simp [Op.kind, opWeight]

theorem overAnything_reduces {op : Op} (hop : op = .crossApply ∨ op = .outerApply) :
    (Rule.simple name (matching op.kind [.wildcard, .wildcard]) overAnything).Reduces :=
  (overAnything_makes hop).reduces fun hs hmade => by
    obtain ⟨-, -, n, x, y, rfl, hmade⟩ := hmade
    obtain ⟨⟨hx, hy⟩, hwfx, hwfy⟩ := (wellFormed_apply hop).mp hs.wellFormed
    have hrel : op.kind.isRelational := by rcases hop with rfl | rfl <;> rfl
    obtain ⟨rfl, -, n', rfl⟩ | ⟨-, ⟨-, n', rfl⟩ | ⟨rfl, n', b, rfl⟩⟩ := hmade
    · refine ⟨wellFormed_crossApply.mpr ⟨⟨hx, hy⟩, hwfx, hwfy⟩, sameRole_of_relational rfl rfl, .inl ?_⟩
      simp [Op.kind, opWeight]
    · refine ⟨wellFormed_crossJoin.mpr ⟨⟨hx, hy⟩, hwfx, hwfy⟩, sameRole_of_relational hrel rfl, .inl ?_⟩
      rcases hop with rfl | rfl <;> simp [Op.kind, opWeight]
    · refine ⟨wellFormed_leftOuterJoin.mpr ⟨⟨hx, hy, rfl⟩, hwfx, hwfy, ?_⟩, sameRole_of_relational rfl rfl, .inl ?_⟩
      · exact wellFormed_leaf rfl
      · simp [Op.kind, opWeight, OpKind.isRelational]

theorem intoElement_reduces {op : Op} (hop : op = .crossApply ∨ op = .outerApply) :
    (Rule.simple name (matching op.kind [.wildcard, .wildcard]) intoElement).Reduces :=
  (intoElement_makes hop).reduces fun hs hmade => by
    obtain ⟨n, x, y, rfl, -, -, -, -, hrenewed, hcopy⟩ := hmade
    obtain ⟨⟨hx, hy⟩, hwfx, hwfy⟩ := (wellFormed_apply hop).mp hs.wellFormed
    have hrel : op.kind.isRelational := by rcases hop with rfl | rfl <;> rfl
    have hwf₂ := hcopy.alike.wellFormed (hrenewed.alike.wellFormed hwfy)
    have hy₂ : IsRelational _ := (congrArg OpKind.isRelational (hcopy.alike.kind.trans hrenewed.alike.kind)).trans hy
    refine ⟨wellFormed_project.mpr ⟨⟨hx, rfl⟩, hwfx, wellFormed_defs.mpr ?_⟩, sameRole_of_relational hrel rfl, .inl ?_⟩
    · exact List.forall_mem_singleton.mpr ⟨rfl, wellFormed_element.mpr ⟨hy₂, hwf₂⟩⟩
    · have := hcopy.alike.outline.trans hrenewed.alike.outline
      rcases hop with rfl | rfl <;> simp [Op.kind, ScalarKind.kind, opWeight, OpKind.isRelational, this]

theorem crossApplyOverLeftOuterJoinOverSingleRowTable_reduces : crossApplyOverLeftOuterJoinOverSingleRowTable.Reduces :=
  crossApplyOverLeftOuterJoinOverSingleRowTable_makes.reduces fun hs hmade => by
    obtain ⟨-, -, n, x, j, s, y, q, n', rfl, rfl⟩ := hmade
    obtain ⟨⟨hx, -⟩, hwfx, hwfj⟩ := wellFormed_crossApply.mp hs.wellFormed
    obtain ⟨⟨-, hy, -⟩, -, hwfy, -⟩ := wellFormed_leftOuterJoin.mp hwfj
    refine ⟨wellFormed_outerApply.mpr ⟨⟨hx, hy⟩, hwfx, hwfy⟩, sameRole_of_relational rfl rfl, .inl ?_⟩
    simp [Op.kind, opWeight]
    omega

theorem overConstantProject_reduces :
    (Rule.simple name (constantProjectPattern k) overConstantProject).Reduces :=
  overConstantProject_makes.reduces fun hs hmade => by
    obtain ⟨-, -, n, x, g, outputs, f, y, q, m, d, rfl, -, hlifted⟩ := hmade
    obtain ⟨⟨hx, -⟩, hwfx, hwfg⟩ := wellFormed_outerApply.mp hs.wellFormed
    obtain ⟨-, hwff, hwfd⟩ := wellFormed_project.mp hwfg
    obtain ⟨⟨hy, hq⟩, hwfy, hwfq⟩ := wellFormed_filter.mp hwff
    obtain ⟨hde, hdwf⟩ := wellFormed_defs.mp hwfd d (by simp)
    cases hlifted with
    | below =>
      refine ⟨wellFormed_leftOuterJoin.mpr ⟨⟨hx, rfl, hq⟩, hwfx, wellFormed_project.mpr ⟨⟨hy, rfl⟩, hwfy, hwfd⟩, hwfq⟩,
        sameRole_of_relational rfl rfl, .inl ?_⟩
      simp [Op.kind, opWeight]
      omega
    | above _ _ hguards =>
      obtain ⟨hge, hgwf⟩ := hguards.wellFormed hde hdwf
      refine ⟨wellFormed_project.mpr ⟨⟨rfl, rfl⟩, wellFormed_leftOuterJoin.mpr ⟨⟨hx, hy, hq⟩, hwfx, hwfy, hwfq⟩,
        wellFormed_defs.mpr (List.forall_mem_singleton.mpr ⟨hge, hgwf⟩)⟩, sameRole_of_relational rfl rfl, .inl ?_⟩
      have := (measures_of_guards hguards).1
      simp [Op.kind, opWeight]
      omega

theorem crossApplyOverProject_reduces : crossApplyOverProject.Reduces :=
  crossApplyOverProject_makes.reduces fun hs hmade => by
    obtain ⟨-, -, n, x, g, outputs, y, d, i, n', a, rfl, -, rfl⟩ := hmade
    obtain ⟨⟨hx, -⟩, hwfx, hwfg⟩ := wellFormed_crossApply.mp hs.wellFormed
    obtain ⟨⟨hy, hd⟩, hwfy, hwfd⟩ := wellFormed_project.mp hwfg
    refine ⟨wellFormed_project.mpr ⟨⟨rfl, hd⟩, wellFormed_crossApply.mpr ⟨⟨hx, hy⟩, hwfx, hwfy⟩, hwfd⟩,
      sameRole_of_relational rfl rfl, ?_⟩
    simpa [Op.kind] using falls_crossOverProject

theorem measures_of_raised {k : Marker} (h : List.Forall₂ (Raised shown k) ds ds') :
    ((ds'.map fun d => d.expr.outline).map weight).sum ≤ ((ds.map fun d => d.expr.outline).map weight).sum ∧
    ((ds'.map fun d => d.expr.outline).map load).sum ≤ ((ds.map fun d => d.expr.outline).map load).sum ∧
    ((ds'.map fun d => d.expr.outline).map lift).sum ≤ ((ds.map fun d => d.expr.outline).map lift).sum := by
  induction h with
  | nil => exact ⟨le_rfl, le_rfl, le_rfl⟩
  | @cons d d' ds ds' hd _ ih =>
    have hone : d'.expr.outline.weight ≤ d.expr.outline.weight ∧ d'.expr.outline.load ≤ d.expr.outline.load ∧
        d'.expr.outline.lift ≤ d.expr.outline.lift := by
      cases hd with
      | stays => exact ⟨le_rfl, le_rfl, le_rfl⟩
      | guarded _ hguards => exact measures_of_guards hguards
    simp only [List.map_cons, List.sum_cons]
    exact ⟨add_le_add hone.1 ih.1, add_le_add hone.2.1 ih.2.1, add_le_add hone.2.2 ih.2.2⟩

theorem wellFormed_raised {k : Marker}
    (h : List.Forall₂ (Raised shown k) ds ds') (hwf : (Tree.defs m ds).wellFormed) : (Tree.defs m' ds').wellFormed := by
  refine wellFormed_defs.mpr fun d' hd' => ?_
  obtain ⟨d, hd, hraised⟩ := exists_of_forall₂_right h hd'
  obtain ⟨he, hwf⟩ := wellFormed_defs.mp hwf d hd
  cases hraised with
  | stays => exact ⟨he, hwf⟩
  | guarded _ hguards => exact hguards.wellFormed he hwf

theorem isLone_of_isMarkerAlone {i : Info} (hwf : (Tree.defs m ds).wellFormed)
    (hi : i.nonNullable.first? = none) (hne : ds ≠ []) (h : isMarkerAlone i ds = false) :
    (Outline.defs (ds.map fun d => d.expr.outline)).isLone = false := by
  rw [← Bool.not_eq_true, isLone_defs]
  rintro (hnil | ⟨e, he, hlone⟩)
  · exact hne (List.map_eq_nil_iff.mp hnil)
  · obtain ⟨d, rfl, rfl⟩ := List.map_eq_singleton_iff.mp he
    have hexpr : d.expr.IsExpression := (wellFormed_defs.mp hwf d (by simp)).1
    obtain ⟨n, v, e⟩ := d
    obtain ⟨k, op, cs⟩ := e
    rw [outline_node, isLone_scalar (k := op.kind) hexpr] at hlone
    simp [isMarkerAlone, hi] at h
    exact hlone.elim h.1 h.2

theorem outerApplyOverProject_reduces : outerApplyOverProject.Reduces :=
  outerApplyOverProject_makes.reduces fun hs hmade => by
    obtain ⟨-, n, x, g, outputs, y, m, ds, rfl, @⟨i, j, k, y', ds', n', a, m', -, -, halone, hmarks, hraised, hsame⟩⟩ := hmade
    obtain ⟨⟨hx, -⟩, hwfx, hwfg⟩ := wellFormed_outerApply.mp hs.wellFormed
    obtain ⟨⟨hy, -⟩, hwfy, hwfd⟩ := wellFormed_project.mp hwfg
    obtain ⟨hw, hload, hlift⟩ := measures_of_raised hraised
    have hwf' : (Tree.defs m' ds').wellFormed := wellFormed_raised hraised hwfd
    cases hmarks with
    | plain =>
      refine ⟨wellFormed_project.mpr ⟨⟨rfl, rfl⟩, wellFormed_outerApply.mpr ⟨⟨hx, hy⟩, hwfx, hwfy⟩, hwf'⟩,
        sameRole_of_relational rfl rfl, ?_⟩
      simpa [Op.kind] using falls_outerOverProject hw hload hlift
    | made v k g m h hnone =>
      have hne : ds ≠ [] := fun hnil => by
        have := congrArg sizeOf (hsame hnil)
        simp at this
        omega
      have hmarker : (Tree.defs m [⟨h, v, .node k (.internalConstant (.int32 1)) []⟩]).wellFormed :=
        wellFormed_defs.mpr (List.forall_mem_singleton.mpr ⟨rfl, wellFormed_leaf rfl⟩)
      refine ⟨wellFormed_project.mpr ⟨⟨rfl, rfl⟩, wellFormed_outerApply.mpr ⟨⟨hx, rfl⟩, hwfx,
        wellFormed_project.mpr ⟨⟨hy, rfl⟩, hwfy, hmarker⟩⟩, hwf'⟩, sameRole_of_relational rfl rfl, ?_⟩
      have hlone := isLone_of_isMarkerAlone hwfd hnone hne halone
      have hscalar : (Outline.node .internalConstant []).Scalar := .node rfl (List.forall_mem_nil _)
      simpa [Op.kind] using falls_outerOverProject_marked (k := .node .internalConstant []) rfl hscalar.weight hscalar.load
        hscalar.lift hlone hw hload hlift

theorem applyRules_reduce : ∀ rule ∈ applyRules, rule.Reduces := by
  simp only [applyRules, List.forall_mem_cons]
  exact ⟨overAnything_reduces (.inl rfl), overFilter_reduces (.inl rfl), crossApplyOverProject_reduces,
    overAnything_reduces (.inr rfl), overConstantProject_reduces, overConstantProject_reduces, outerApplyOverProject_reduces,
    overFilter_reduces (.inr rfl), crossApplyOverLeftOuterJoinOverSingleRowTable_reduces, intoElement_reduces (.inl rfl),
    intoElement_reduces (.inr rfl), List.forall_mem_nil _⟩

theorem conjunctive_weight : Conjunctive fun t => t.outline.weight := fun _ _ _ _ => by
  simp [Op.kind, ScalarKind.kind, opWeight, OpKind.isRelational]

theorem conjunctive_load : Conjunctive fun t => t.outline.load := fun _ _ _ _ => by
  simp [Op.kind, ScalarKind.kind]

theorem conjunctive_bulk : Conjunctive fun t => t.outline.bulk + 1 := fun _ _ _ _ => by
  dsimp only
  rw [bulk_of_isExpression rfl]
  simp
  omega

/-- What counts of the parts that are split off, and of the others. -/
structure Counts (q b : Tree) (es : List Tree) : Prop where
  weight : b.outline.weight + (es.map fun t => t.outline.weight).sum = q.outline.weight
  load : b.outline.load + (es.map fun t => t.outline.load).sum = q.outline.load
  bulk : (es.map fun t => t.outline.bulk + 1).sum ≤ q.outline.bulk

theorem counts_of_split {ds : List Tree} {b : Tree} {fs : List NodeId} (h : Split q ds es) (hb : Conjoins ds b fs) :
    Counts q b es where
  weight := by rw [hb.sums conjunctive_weight, h.sums conjunctive_weight]
  load := by rw [hb.sums conjunctive_load, h.sums conjunctive_load]
  bulk := by
    have := hb.sums conjunctive_bulk
    have := h.sums conjunctive_bulk
    omega

/-- A tree with what is left of a predicate above it. -/
structure RestOutline (es : List Tree) (t t' : Tree) (rest : Option Outline) : Prop where
  outline : t'.outline = t.outline.withRest rest
  weight : rest.elim 0 Outline.weight = (es.map fun t => t.outline.weight).sum
  load : rest.elim 0 Outline.load = (es.map fun t => t.outline.load).sum
  bulk : ∀ r ∈ rest, r.bulk + 1 = (es.map fun t => t.outline.bulk + 1).sum
  wellFormed : t'.wellFormed = true
  isRelational : t'.IsRelational

theorem outline_of_rests (h : Rests es gs t t') (hwf : t.wellFormed)
    (ht : t.IsRelational) : ∃ rest, RestOutline es t t' rest := by
  cases h with
  | nothing hes =>
    subst hes
    exact ⟨none, rfl, rfl, rfl, nofun, hwf, ht⟩
  | @filter n b hb =>
    refine ⟨some b.outline, outline_filter, hb.sums conjunctive_weight, hb.sums conjunctive_load, fun r hr => ?_,
      wellFormed_filter.mpr ⟨⟨ht, hb.isExpression⟩, hwf, hb.wellFormed⟩, rfl⟩
    obtain rfl : b.outline = r := Option.some.inj hr
    exact hb.sums conjunctive_bulk

/-- A part of a predicate has gone below a distinct or a grouping, and the others stay above. -/
theorem below_of_pushed {op : Op} {e : Tree} {cs : List Tree} {g l : NodeId} (hop : op.kind = .distinct ∨ op.kind = .groupBy)
    (hrests : Rests es gs (.node n op (.node l .filter [x, e] :: cs)) t')
    (hwf : (Tree.node n op (.node l .filter [x, e] :: cs)).wellFormed)
    (hw : e.outline.weight + (es.map fun t => t.outline.weight).sum ≤ q.outline.weight)
    (hload : e.outline.load + (es.map fun t => t.outline.load).sum ≤ q.outline.load)
    (hbulk : (es.map fun t => t.outline.bulk + 1).sum ≤ q.outline.bulk) : Below (.node m .filter [.node g op (x :: cs), q]) t' := by
  obtain ⟨hrel, hrow, hplain⟩ : op.kind.isRelational ∧ op.kind ≠ .singleRowTable ∧ ∀ ds, Plain op.kind ds := by
    rcases hop with h | h <;> exact h ▸ ⟨rfl, nofun, fun _ => plain_of_kind (by decide)⟩
  obtain ⟨rest, hrest⟩ := outline_of_rests hrests hwf hrel
  refine ⟨hrest.wellFormed, sameRole_of_relational rfl hrest.isRelational, ?_⟩
  rw [outline_filter, hrest.outline, outline_node, outline_node, List.map_cons, List.map_cons, outline_filter]
  refine falls_push (pressure x.outline.reach (e.outline.bulk + 2)) hrel ?_ ?_ ?_ ?_ ?_ (fun r hr => ?_) ?_ ?_
  · simpa [(hplain _).isRow] using hrow
  · simpa [(hplain _).isRow] using hrow
  · simp [(hplain _).reach]
  · simp [(hplain _).hoist]
  · rw [hrest.weight]
    simp [opWeight, OpKind.isRelational]
    omega
  · have := hrest.bulk r hr
    omega
  · refine ofColex_pressure_of_lt ?_
    simp [(hplain _).reach, hrel]
    omega
  · rw [hrest.load, (hplain _).load, (hplain _).load, List.map_cons, List.map_cons, List.sum_cons, List.sum_cons, load_filter]
    refine le_of_eq_of_le ?_ (add_le_add_left (add_le_add_right hload _) _)
    ac_rfl

theorem filterOverFilter_reduces : filterOverFilter.Reduces :=
  filterOverFilter_makes.reduces fun hs hmade => by
    obtain ⟨-, -, n, m, x, q', q, n', b, rfl, rfl⟩ := hmade
    obtain ⟨⟨-, hq⟩, hwfa, hwfq⟩ := wellFormed_filter.mp hs.wellFormed
    obtain ⟨⟨hx, hq'⟩, hwfx, hwfq'⟩ := wellFormed_filter.mp hwfa
    refine ⟨wellFormed_filter.mpr ⟨⟨hx, rfl⟩, hwfx, wellFormed_iff.mpr ⟨.scalar rfl nofun rfl ?_, ?_⟩⟩, .refl _, ?_⟩
    · simpa using ⟨hq', hq⟩
    · simpa using ⟨hwfq', hwfq⟩
    · simpa [Op.kind, ScalarKind.kind] using falls_filterFilter

theorem filterOverDistinct_reduces : filterOverDistinct.Reduces :=
  filterOverDistinct_makes.reduces fun hs hmade => by
    obtain ⟨-, -, n, m, keys, x, q, rfl, @⟨ds, es, fs, gs, b, t, t', hsplit, -, hb, ⟨k, l, rfl⟩, hrests⟩⟩ := hmade
    obtain ⟨hx, hwfx⟩ := wellFormed_distinct.mp (wellFormed_filter.mp hs.wellFormed).2.1
    have hcounts := counts_of_split hsplit hb
    refine below_of_pushed (.inl rfl) hrests ?_ hcounts.weight.le hcounts.load.le hcounts.bulk
    exact wellFormed_distinct.mpr ⟨rfl, wellFormed_filter.mpr ⟨⟨hx, hb.isExpression⟩, hwfx, hb.wellFormed⟩⟩

theorem filterOverGroupBy_reduces : filterOverGroupBy.Reduces :=
  filterOverGroupBy_makes.reduces fun hs hmade => by
    obtain ⟨-, -, n, g, keys, outputs, x, m, ds, y, q, rfl, -, hscalar, hpushed⟩ := hmade
    obtain @⟨us, es, fs, gs, b, t, t', hsplit, -, hb, ⟨s, σ, b', k, l, -, hsub, rfl⟩, hrests⟩ := hpushed
    obtain ⟨⟨hx, -, hy⟩, hwfx, hwfd, hwfy⟩ := wellFormed_groupBy.mp (wellFormed_filter.mp hs.wellFormed).2.1
    have hcounts := counts_of_split hsplit hb
    have hb' := scalar_outline.mpr hsub.scalar
    refine below_of_pushed (.inr rfl) hrests ?_ ?_ ?_ hcounts.bulk
    · refine wellFormed_groupBy.mpr ⟨⟨rfl, rfl, hy⟩, wellFormed_filter.mpr ⟨⟨hx, ?_⟩, hwfx, hsub.wellFormed⟩, hwfd, hwfy⟩
      exact isExpression_of_isScalar hsub.scalar
    · rw [hb'.weight, Nat.zero_add, ← hcounts.weight]
      exact Nat.le_add_left _ _
    · rw [hb'.load, zero_add, ← hcounts.load]
      exact le_add_of_nonneg_left bot_le

theorem filterOverProject_reduces : filterOverProject.Reduces :=
  filterOverProject_makes.reduces fun hs hmade => by
    obtain ⟨-, -, n, g, outputs, x, m, ds, q, s, σ, q', n', l, rfl, hscalar, hσ, hsub, rfl⟩ := hmade
    obtain ⟨⟨hx, -⟩, hwfx, hwfd⟩ := wellFormed_project.mp (wellFormed_filter.mp hs.wellFormed).2.1
    refine ⟨wellFormed_project.mpr ⟨⟨rfl, rfl⟩, wellFormed_filter.mpr ⟨⟨hx, ?_⟩, hwfx, hsub.wellFormed⟩, hwfd⟩,
      sameRole_of_relational rfl rfl, ?_⟩
    · exact isExpression_of_isScalar hsub.scalar
    · rw [outline_filter, outline_project, outline_project, outline_filter]
      refine falls_overProject (scalar_outline.mpr hscalar) (scalar_outline.mpr hsub.scalar) fun hes => hsub.bulk fun y hy => ?_
      obtain ⟨d, hd, rfl⟩ := hσ.mem y hy
      exact hes _ (List.mem_map_of_mem hd)

theorem filterOverOuterApply_reduces : filterOverOuterApply.Reduces :=
  filterOverOuterApply_makes.reduces fun hs hmade => by
    obtain ⟨-, -, n, a, x, y, q, n', a', rfl, -, rfl⟩ := hmade
    obtain ⟨⟨-, hq⟩, hwfa, hwfq⟩ := wellFormed_filter.mp hs.wellFormed
    refine ⟨wellFormed_filter.mpr ⟨⟨rfl, hq⟩, wellFormed_crossApply.mpr (wellFormed_outerApply.mp hwfa), hwfq⟩, .refl _, .inl ?_⟩
    simp [Op.kind, opWeight]

theorem filterWithConstantPredicate_reduces : filterWithConstantPredicate.Reduces :=
  filterWithConstantPredicate_makes.reduces fun hs hmade => by
    obtain ⟨n, x, q, rfl, -, hmade⟩ := hmade
    obtain ⟨⟨hx, hq⟩, hwfx, hwfq⟩ := wellFormed_filter.mp hs.wellFormed
    obtain _ | @⟨i, ds, es, n', l, k, s, -, hsrt, hproj, -, hnull, -⟩ := hmade
    · refine ⟨hwfx, sameRole_of_relational rfl hx, ?_⟩
      rw [outline_filter]
      exact falls_filter_input (by rwa [kind_outline])
    · have hrow : (Tree.node s .singleRowTable []).wellFormed := wellFormed_iff.mpr ⟨.singleRowTable, List.forall_mem_nil _⟩
      have hnulls : ∀ d ∈ ds, d.expr.outline = .node .null [] := fun d hd => by
        obtain ⟨m, type, he⟩ := hnull d hd
        simp [he, Op.kind]
      have hes : ∀ e ∈ ds.map (fun d => d.expr.outline), e.Scalar ∧ e.bulk ≤ 1 := List.forall_mem_map.mpr fun d hd => by
        rw [hnulls d hd]
        exact ⟨.node rfl (List.forall_mem_nil _), by rw [bulk_of_not_relational rfl]; rfl⟩
      refine ⟨wellFormed_project.mpr ⟨⟨rfl, rfl⟩, wellFormed_filter.mpr ⟨⟨rfl, hq⟩, hrow, hwfq⟩, wellFormed_defs.mpr fun d hd => ?_⟩,
        sameRole_of_relational rfl rfl, ?_⟩
      · obtain ⟨m, type, he⟩ := hnull d hd
        rw [he]
        exact ⟨rfl, wellFormed_leaf rfl⟩
      · rw [outline_filter, outline_project, outline_filter]
        rcases row_or_weight hwfx hx with ⟨hstack, hpos⟩ | hheavy
        · rw [outline_node]
          refine falls_filter_row hstack hpos (by rwa [kind_outline]) (fun y d hxy hy => ?_) hes
          obtain ⟨m, op, cs⟩ := x
          simp only [outline_node, Outline.node.injEq, List.map_eq_cons_iff] at hxy
          obtain ⟨hkind, z, zs, rfl, rfl, -⟩ := hxy
          exact hproj z hkind rfl (by rwa [← kind_outline])
        · have : ((ds.map fun d => d.expr.outline).map weight).sum = 0 := sum_map_eq_zero fun e he => (hes e he).1.weight
          refine .inl ?_
          simp [Op.kind, opWeight, OpKind.isRelational] at this ⊢
          omega

end Rules

end Planwright
