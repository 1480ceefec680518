import Planwright.Proofs.Analysis.Mirror
import Planwright.Proofs.Plan.Copy

/-! Copies as renamings. Copying a tree that is in scope does not fail. The copy is the tree under fresh names: it is analysed as the
    tree is, and means what the tree means, under these names. -/

namespace Planwright

open Run Planwright.Tree Op

namespace Plan

variable {p p' : Plan} {m : VarMap}

/-- The map gives a fresh variable for each of `vs` and for no other, a different one each time and each of the same kind, name and
    type. -/
structure Renews (m : VarMap) (vs : List VarId) (p p' : Plan) : Prop where
  domain : ∀ v, v ∈ vs ↔ ∃ w, m.get? v = some w
  injective : ∀ u v w, m.get? u = some w → m.get? v = some w → u = v
  fresh : ∀ v w, m.get? v = some w → p.vars.size ≤ w
  like : ∀ v w, m.get? v = some w → ∃ x, p.vars.get? v = some x ∧ p'.vars.get? w = some x

theorem renews_of_registers {vs : List VarId} {fs : List NodeId} {ws : List VarId} (h : Registers fs vs ws .empty m p p') (hfresh : Fresh p.vars.size p'.vars.size (vs.map m.apply))
    (hvs : ∀ v ∈ vs, v < p.vars.size) : Renews m vs p p' := by
  have hdomain : ∀ v, v ∈ vs ↔ ∃ w, m.get? v = some w := fun v => by
    constructor
    · intro hv
      obtain ⟨w, hw, -⟩ := h.fresh v hv (hvs v hv)
      exact ⟨w, hw⟩
    · rintro ⟨w, hw⟩
      by_contra hv
      rw [h.others v hv] at hw
      cases hw
  have hnamed : ∀ v w, m.get? v = some w → v ∈ vs ∧ m.apply v = w := fun v w hw =>
    ⟨(hdomain v).mpr ⟨w, hw⟩, by rw [VarMap.apply, hw, Option.getD_some]⟩
  refine ⟨hdomain, fun u v w hu hv => ?_, fun v w hw => ?_, fun v w hw => ?_⟩
  · obtain ⟨hmem, happly⟩ := hnamed u w hu
    obtain ⟨hmem', happly'⟩ := hnamed v w hv
    exact List.inj_on_of_nodup_map hfresh.nodup hmem hmem' (happly.trans happly'.symm)
  · obtain ⟨hmem, happly⟩ := hnamed v w hw
    exact happly ▸ hfresh.ge _ (List.mem_map_of_mem hmem)
  · obtain ⟨hmem, -⟩ := hnamed v w hw
    obtain ⟨w', hw', -, hlike⟩ := h.fresh v hmem (hvs v hmem)
    cases hw.symm.trans hw'
    obtain ⟨x, hx⟩ := exists_var (hvs v hmem)
    exact ⟨x, hx, hlike.trans hx⟩

end Plan

/-! ### What a copy says and means -/

/-- The second analysis is the first under other names, and refers to the same variables. -/
structure Info.RenamedBy (μ : VarId → VarId) (i i' : Info) : Prop where
  external : i'.external = i.external
  definitions : IsImage μ i.definitions i'.definitions
  nonNullable : IsImage μ i.nonNullable i'.nonNullable
  keys : Option.Rel (IsImage μ) i.keys i'.keys
  minRows : i'.minRows = i.minRows
  maxRows : i'.maxRows = i.maxRows

/-- The second row is the first under the names that the map gives. -/
structure Row.RenamedBy (m : VarMap) (r r' : Row) : Prop where
  named : ∀ v w, m.get? v = some w → r' w = r v
  others : ∀ v, m.get? v = none → r v = none
  fresh : ∀ w, (∀ v, m.get? v ≠ some w) → r' w = none

namespace Tree

/-- The names of a copy tell the variables of the tree apart: what it brings into being is fresh there, and what it uses is kept. -/
theorem distinguishes_of_copy {k size : Nat} {μ : VarId → VarId} {t : Tree} (ht : Valid k (·) t) (hfresh : Fresh k size (t.binds.map μ))
    (hfix : ∀ u, Uses (·) t u → μ u = u) : Distinguishes (fun v => v ∈ t.binds ∨ Uses (·) t v) μ := by
  have hne : ∀ u v, u ∈ t.binds → Uses (·) t v → μ u ≠ μ v := fun u v hu hv heq => by
    have hge := hfresh.ge (μ u) (List.mem_map_of_mem hu)
    rw [heq, hfix v hv] at hge
    exact absurd (ht.uses_lt v hv) (Nat.not_lt.mpr hge)
  rintro u v (hu | hu) (hv | hv) heq
  · exact List.inj_on_of_nodup_map hfresh.nodup hu hv heq
  · exact absurd heq (hne u v hu hv)
  · exact absurd heq.symm (hne v u hv hu)
  · rwa [hfix u hu, hfix v hv] at heq

variable {m : VarMap} {p p' : Plan} {t t' : Tree}

theorem rows_renamed {N : VarId → Prop} {U : VarId → Prop} {I : Interpretation} {db : Database} (hnames : Plan.Renews m t.binds p p')
    (hc : t.Copied m t') (ht : t.wellFormed) (ht' : t'.wellFormed) (hs : Scoped (·) t)
    (hm : (t.meaning I db).Mirrors N U m.apply (t'.meaning I db)) (hN : ∀ v ∈ t.binds, N v) (hU : ∀ u, U u → m.apply u = u)
    (outer : Row) : List.Forall₂ (Row.RenamedBy m) (t.rows I db outer) (t'.rows I db outer) := by
  refine forall₂_imp_mem (hm.rows fun u hu => by rw [hU u hu]) fun r hr r' hr' h => ⟨fun v w hw => ?_, fun v hv => ?_, fun w hw => ?_⟩
  · have := h v (hN v ((hnames.domain v).mpr ⟨w, hw⟩))
    rwa [VarMap.apply, hw, Option.getD_some] at this
  · refine (row_within ht hs.backed hr).eq_none fun hmem => ?_
    obtain ⟨w, hw⟩ := (hnames.domain v).mp hmem
    rw [hv] at hw
    cases hw
  · refine (row_within ht' (hc.covers.inScope hs).backed hr').eq_none fun hmem => ?_
    obtain ⟨v, hv, rfl⟩ := List.mem_map.mp (hc.binds.mem_iff.mp hmem)
    obtain ⟨w, hv⟩ := (hnames.domain v).mp hv
    exact hw v (by rw [VarMap.apply, hv, Option.getD_some])

theorem analysis_renamed {N : VarId → Prop} {i i' : Info} (h : i.Mirrors N m.apply i') (ht : t.wellFormed) (hi : t.analysis = .ok i)
    (hU : ∀ u, Uses (·) t u → m.apply u = u) : i.RenamedBy m.apply i' where
  external := by
    refine VarSet.ext_iff.mpr fun w => ?_
    rw [h.external.image w]
    constructor
    · rintro ⟨v, hv, rfl⟩
      rwa [hU v ((analysis_scope ht hi v).2.mp hv)]
    · exact fun hw => ⟨w, hw, hU w ((analysis_scope ht hi w).2.mp hw)⟩
  definitions := h.definitions.image
  nonNullable := h.nonNullable.image
  keys := rel_mono h.keys fun _ _ _ h => h.image
  minRows := h.minRows
  maxRows := h.maxRows

end Tree

/-- Copying a tree in scope gives the tree under fresh names. The copy has the shape of the tree and nodes of its own, and the map
    gives a fresh variable for each that the tree brings into being. The copy is analysed as the tree is, and has its rows or its
    value, under these names. -/
theorem Plan.copySubtree_renames {p : Plan} {n : NodeId} {t : Tree} (hn : p.tree? n = some t) (hp : p.Holds t)
    (ht : Valid p.vars.size (·) t) (hsorted : t.Sorted) (hsingle : t.Singular)
    (htables : ∀ s ∈ t.subtrees, ∀ table, s.op = .scanTable table → table.OnColumns) :
    ∃ (m : VarMap) (p' : Plan) (t' : Tree), copySubtree n p = .ok ((t'.id, m), p') ∧ p'.tree? t'.id = some t' ∧
      t.Mirrors m.apply t' ∧ t'.subtrees.map (·.op.type) = t.subtrees.map (·.op.type) ∧
      Fresh p.nodes.size p'.nodes.size t'.ids ∧ t'.binds.Perm (t.binds.map m.apply) ∧ Renews m t.binds p p' ∧
      (∃ i i' p₁ p₂, info n p' = .ok (i, p₁) ∧ info t'.id p₁ = .ok (i', p₂) ∧ i.RenamedBy m.apply i') ∧
      ∀ (I : Interpretation) (db : Database), I.SortsByValue →
        (t.IsRelational → ∀ outer, List.Forall₂ (Row.RenamedBy m) (t.rows I db outer) (t'.rows I db outer)) ∧
        ∀ env group, (t'.meaning I db).value env group = (t.meaning I db).value env group := by
  obtain rfl := id_view hn
  have hrun : tree t.id p = .ok (t, p) := by
    simp only [tree, bind, StateT.bind, Except.bind, get, getThe, MonadStateOf.get, StateT.get, pure, Except.pure, hn]
    rfl
  obtain ⟨n', m, p', hcopy, t', ws, rfl, h⟩ := (copyTree_works (m := .empty)).runsTo ⟨ht.wellFormed, ht.binds_lt⟩
  obtain rfl := h.registers.names ht.nodup
  have hgrows := h.registers.grows
  have hcopied := h.copied _ ht
  have hfix : ∀ u, Uses (·) t u → m.apply u = u := fun u hu => h.registers.agrees (ht.closed u hu)
  have hmirrors := hcopied.mirrors hsorted
  have hwf' := h.alike.wellFormed ht.wellFormed
  have hnames := renews_of_registers h.registers hgrows.vars ht.binds_lt
  have hμ := distinguishes_of_copy ht hgrows.vars hfix
  have hN : ∀ s ∈ t.subtrees, ∀ v ∈ s.op.names, v ∈ t.binds ∨ Uses (·) t v := fun s hs v hv =>
    mem_binds_or_uses ht.inScope hsorted hs hv
  obtain ⟨i, p₁, hi, hk, hanalysis⟩ := (hgrows.keeps.still hp).info_reaches ht.wellFormed
  obtain ⟨i', p₂, hi', -, hanalysis'⟩ := (hk.still h.holds).info_reaches hwf'
  refine ⟨m, p', t', bind_run_ok.mpr ⟨t, p, hrun, hcopy⟩, h.holds.tree?, hmirrors, hcopied.types, hgrows.nodes,
    hcopied.binds, hnames, ⟨i, i', p₁, p₂, hi, hi', ?_⟩, fun I db hI => ?_⟩
  · exact analysis_renamed (analysis_mirrors hμ hmirrors ht.wellFormed htables hN hanalysis hanalysis') ht.wellFormed hanalysis hfix
  · have hm : (t.meaning I db).Mirrors _ (Uses (·) t) m.apply (t'.meaning I db) :=
      meaning_mirrors hμ hmirrors ht.wellFormed (fun _ _ _ => hI) ht.inScope hsingle hN
    refine ⟨fun _ => rows_renamed hnames hcopied ht.wellFormed hwf' ht.inScope hm (fun v hv => .inl hv) hfix, fun env group => ?_⟩
    exact hm.value (fun u hu => by rw [hfix u hu]) (List.forall₂_same.mpr fun r _ u hu => by rw [hfix u hu])

/-- `CrossApply(t, Filter(u, u.b = t.a))`, where `t.a` is a key and never null. -/
def matchedTree : Tree :=
  .node 6 .crossApply [.node 0 (.scanTable ⟨0, "t", [0], .ofList [0], some (.ofList [0])⟩) [],
    .node 5 .filter [.node 1 (.scanTable ⟨1, "u", [1], .empty, none⟩) [],
      .node 4 (.scalar .eq .boolean) [.node 2 (.varRef 1 .int64) [], .node 3 (.varRef 0 .int64) []]]]

def matched : Plan := matchedTree.plan 2 [⟨.column, "t.a", .int64⟩, ⟨.column, "u.b", .int64⟩]

theorem matched_valid : Valid 2 (·) matchedTree :=
  .of_closed rfl (by simp [matchedTree, scoped_node, defines_node]) (by decide) (by decide) (by decide +kernel)

theorem Plan.copySubtree_renames_matched :
    ∃ (m : VarMap) (p' : Plan) (t' : Tree), copySubtree 6 matched = .ok ((t'.id, m), p') ∧ p'.tree? t'.id = some t' ∧
      matchedTree.Mirrors m.apply t' ∧ t'.subtrees.map (·.op.type) = matchedTree.subtrees.map (·.op.type) ∧
      Fresh 7 p'.nodes.size t'.ids ∧ t'.binds.Perm (matchedTree.binds.map m.apply) ∧ Renews m [0, 1] matched p' ∧
      (∃ i i' p₁ p₂, info 6 p' = .ok (i, p₁) ∧ info t'.id p₁ = .ok (i', p₂) ∧ i.RenamedBy m.apply i') ∧
      ∀ (I : Interpretation) (db : Database), I.SortsByValue →
        (matchedTree.IsRelational → ∀ outer, List.Forall₂ (Row.RenamedBy m) (matchedTree.rows I db outer) (t'.rows I db outer)) ∧
        ∀ env group, (t'.meaning I db).value env group = (matchedTree.meaning I db).value env group := by
  have hn : matched.tree? 6 = some matchedTree := rfl
  have hsorted : matchedTree.Sorted := by simp [matchedTree, sorted_node]
  have hsingle : matchedTree.Singular := fun s hs hk => absurd hk ((by decide : ∀ s ∈ matchedTree.subtrees, s.kind ≠ .element) s hs)
  have htables : ∀ s ∈ matchedTree.subtrees, ∀ table, s.op = .scanTable table → table.OnColumns := by
    simp [matchedTree]
    exact ⟨⟨by simp, by simp⟩, by simp, by simp⟩
  exact copySubtree_renames hn (holds_of_view (by decide) hn) matched_valid hsorted hsingle htables

/-- `CrossJoin(GroupBy(t, [], [], keys [u.b], outputs []), u)`, where `u.b` is a key of `u`. The grouping is by a variable of the other
    input. -/
def misgroupedTree : Tree :=
  .node 5 .crossJoin [.node 3 (.groupBy (.ofList [1]) .empty) [.node 0 (.scanTable ⟨0, "t", [0], .empty, none⟩) [],
      .node 1 .varDefList [], .node 2 .varDefList []],
    .node 4 (.scanTable ⟨1, "u", [1], .empty, some (.ofList [1])⟩) []]

def misgrouped : Plan := misgroupedTree.plan 2 [⟨.column, "t.a", .int64⟩, ⟨.column, "u.b", .int64⟩]

/-- A copy does not keep the keys of a tree that groups by a variable of another input: copied before it, the grouping still names the
    old variable. -/
theorem Plan.copySubtree_keys_misgrouped :
    misgrouped.tree? 5 = some misgroupedTree ∧ misgroupedTree.wellFormed = true ∧ misgroupedTree.binds.Nodup ∧
      (∀ u, ¬Uses (·) misgroupedTree u) ∧ misgroupedTree.Singular ∧
      ∃ n m p' i i' p₁ p₂, copySubtree 5 misgrouped = .ok ((n, m), p') ∧ info 5 p' = .ok (i, p₁) ∧ info n p₁ = .ok (i', p₂) ∧
        i.external = .empty ∧ i.keys = some (.ofList [1]) ∧ m.get? 1 = some 3 ∧ i'.keys = some (.ofList [1, 3]) ∧
        ¬Option.Rel (IsImage m.apply) i.keys i'.keys := by
  have hno : ∀ u, ¬Uses (·) misgroupedTree u := fun u hu => by simp [misgroupedTree, uses_node] at hu
  have hsingle : misgroupedTree.Singular := fun s hs hk => absurd hk ((by decide : ∀ s ∈ misgroupedTree.subtrees, s.kind ≠ .element) s hs)
  obtain ⟨r, p₂, hrun, hr⟩ := Run.Reaches.of_run (p := misgrouped) (f := Prod.fst)
    (b := (some 3, .empty, some (.ofList [1]), some (.ofList [1, 3]))) (x := do
      let copy ← copySubtree 5
      let i ← info 5
      let i' ← info copy.1
      return (copy.2.get? 1, i.external, i.keys, i'.keys)) (by decide +kernel)
  obtain ⟨⟨n, m⟩, p', hcopy, hrun⟩ := bind_run_ok.mp hrun
  obtain ⟨i, p₁, hi, hrun⟩ := bind_run_ok.mp hrun
  obtain ⟨i', p₃, hi', ⟨⟩⟩ := bind_run_ok.mp hrun
  obtain ⟨hm, hexternal, hkeys, hkeys'⟩ : m.get? 1 = some 3 ∧ i.external = .empty ∧ i.keys = some (.ofList [1]) ∧
      i'.keys = some (.ofList [1, 3]) := by simpa using hr
  refine ⟨rfl, by decide, by decide, hno, hsingle, n, m, p', i, i', p₁, p₂, hcopy, hi, hi', hexternal, hkeys, hm, hkeys', fun hrel => ?_⟩
  rw [hkeys, hkeys'] at hrel
  cases hrel with
  | some himage =>
    obtain ⟨v, hv, heq⟩ := (himage 1).mp (by decide)
    obtain rfl : v = 1 := by simpa using hv
    simp [VarMap.apply, hm] at heq

end Planwright
