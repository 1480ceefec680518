import Planwright.Proofs.Semantics.Predicate

/-! Substitution as a whole. What is put in for variables is not looked at again, even where it mentions the
    variables. The result has the value of the expression where the variables have theirs, refers to what is
    left and to what was put in, and shares no node with it. -/

namespace Planwright

open Run

namespace Tree

variable {σ : List (VarId × Tree)} {e e' : Tree} {u : VarId}

theorem Fills.uses_iff (h : Fills σ e e') (hs : e.isScalar) (hσ : ∀ x ∈ σ, x.2.isScalar) :
    Uses (·) e' u ↔ (Uses (·) e u ∧ σ.lookup u = none) ∨ ∃ v x, Uses (·) e v ∧ σ.lookup v = some x ∧ Uses (·) x u := by
  have reference : ∀ {n v type w}, Uses (·) (Tree.node n (.varRef v type) []) w ↔ w = v := by
    intro n v type w
    rw [uses_of_isScalar rfl]
    simp [eq_comm]
  induction e using induct generalizing e' with
  | node id op cs ih =>
    obtain ⟨hop, hcs⟩ := isScalar_node.mp hs
    cases h with
    | @kept _ v type hv =>
      rw [reference]
      constructor
      · rintro rfl
        exact .inl ⟨rfl, hv⟩
      · rintro (⟨rfl, -⟩ | ⟨w, x, hw, hx, -⟩)
        · rfl
        · rw [reference.mp hw, hv] at hx
          cases hx
    | @filled _ v type x x' hv hx =>
      rw [hx.uses_iff (hσ _ (Plan.mem_of_lookup hv))]
      constructor
      · exact fun hu => .inr ⟨v, x, reference.mpr rfl, hv, hu⟩
      · rintro (⟨hu, hnone⟩ | ⟨w, y, hw, hy, hu⟩)
        · rw [reference.mp hu, hv] at hnone
          cases hnone
        · rw [reference.mp hw, hv] at hy
          exact Option.some.inj hy ▸ hu
    | @node _ _ _ cs' ho hargs =>
      have below : ∀ {ds v}, Uses (·) (Tree.node id op ds) v ↔ ∃ d ∈ ds, Uses (·) d v := by
        intro ds v
        rw [uses_of_isScalar hop]
        exact or_iff_right fun ⟨w, type, heq, _⟩ => ho w type heq
      rw [below]
      constructor
      · rintro ⟨c', hc', hu⟩
        obtain ⟨c, hc, h⟩ := exists_of_forall₂_right hargs hc'
        rcases (ih c hc h (hcs c hc)).mp hu with ⟨hu, hnone⟩ | ⟨v, x, hv, hx, hu⟩
        · exact .inl ⟨below.mpr ⟨c, hc, hu⟩, hnone⟩
        · exact .inr ⟨v, x, below.mpr ⟨c, hc, hv⟩, hx, hu⟩
      · have lift : ∀ c ∈ cs, ((Uses (·) c u ∧ σ.lookup u = none) ∨ ∃ v x, Uses (·) c v ∧ σ.lookup v = some x ∧ Uses (·) x u) →
            ∃ c' ∈ cs', Uses (·) c' u := by
          intro c hc hor
          obtain ⟨c', hc', h⟩ := exists_of_forall₂_right hargs.flip hc
          exact ⟨c', hc', (ih c hc h (hcs c hc)).mpr hor⟩
        rintro (⟨hu, hnone⟩ | ⟨v, x, hv, hx, hu⟩)
        · obtain ⟨c, hc, hu⟩ := below.mp hu
          exact lift c hc (.inl ⟨hu, hnone⟩)
        · obtain ⟨c, hc, hv⟩ := below.mp hv
          exact lift c hc (.inr ⟨v, x, hv, hx, hu⟩)

end Tree

namespace Plan

open Planwright.Tree

theorem info_uses {p : Plan} {t : Tree} (ht : p.Holds t) (hwf : t.wellFormed) :
    ∃ i p', info t.id p = .ok (i, p') ∧ ∀ v, v ∈ i.external ↔ Uses (·) t v := by
  obtain ⟨i, p', hrun, -, hi⟩ := ht.info_reaches hwf
  exact ⟨i, p', hrun, fun v => (analysis_scope hwf hi v).2⟩

/-- Substituting in an expression that is scalar throughout, and shares no node with what is put in, does not fail. It puts in
    all the expressions at once: the result has the value that the expression has where their variables have theirs. The
    result refers to what the expression does, but for these variables, and to what those of them do that it refers to. It
    shares no node with what was put in, which is left as it was. -/
theorem substitute_simultaneous {p : Plan} {n : NodeId} {e : Tree} {σ : List (VarId × Tree)} (hn : p.tree? n = some e)
    (he : p.Holds e) (hids : e.ids.Nodup) (hs : e.isScalar = true) (hwf : e.wellFormed = true) (hσ : p.Offers σ)
    (hdis : ∀ x ∈ σ, ∀ y ∈ x.2.ids, y ∉ e.ids) :
    ∃ e' p', substitute (σ.map fun x => (x.1, x.2.id)) n p = .ok (e'.id, p') ∧ p'.tree? e'.id = some e' ∧
      (∀ (I : Interpretation) (db : Database) (env : Row) (group : List Row), (e'.meaning I db).value env group =
        (e.meaning I db).value (updated I db σ env group) (group.map fun r => updated I db σ r [])) ∧
      (∃ i i' p₁ p₂, info n p = .ok (i, p₁) ∧ info e'.id p' = .ok (i', p₂) ∧ ∀ u, u ∈ i'.external ↔
        (u ∈ i.external ∧ σ.lookup u = none) ∨
          ∃ v x j p₃, v ∈ i.external ∧ σ.lookup v = some x ∧ info x.id p = .ok (j, p₃) ∧ u ∈ j.external) ∧
      ∀ x ∈ σ, (∀ y ∈ e'.ids, y ∉ x.2.ids) ∧ p'.tree? x.2.id = some x.2 := by
  obtain rfl := id_view hn
  obtain ⟨_, p', hrun, e', fs, h⟩ := substitute_reaches hσ hdis he hids hs hwf
  obtain rfl := h.id
  refine ⟨e', p', hrun, h.holds.tree?, fun I db env group => ?_, ?_, fun x hx => ⟨fun y hy hyx => ?_, ?_⟩⟩
  · refine h.substituted.fills.value_of_updated hs hwf (fun x hx => (hσ x hx).2) (fun _ _ => rfl) ?_
    exact List.forall₂_map_left_iff.mpr (List.forall₂_same.mpr fun _ _ _ _ => rfl)
  · obtain ⟨i, p₁, hi, huses⟩ := info_uses he hwf
    obtain ⟨i', p₂, hi', huses'⟩ := info_uses h.holds h.substituted.wellFormed
    refine ⟨i, i', p₁, p₂, hi, hi', fun u => ?_⟩
    rw [huses', h.substituted.fills.uses_iff hs fun x hx => (hσ x hx).2.1, huses]
    refine or_congr_right (exists_congr fun v => exists_congr fun x => ?_)
    constructor
    · rintro ⟨hv, hx, hu⟩
      obtain ⟨hheld, -, hwfx⟩ := hσ _ (mem_of_lookup hx)
      obtain ⟨j, p₃, hj, husesx⟩ := info_uses hheld hwfx
      exact ⟨j, p₃, (huses v).mpr hv, hx, hj, (husesx u).mpr hu⟩
    · rintro ⟨j, p₃, hv, hx, hj, hu⟩
      obtain ⟨hheld, -, hwfx⟩ := hσ _ (mem_of_lookup hx)
      have hanalysis := ((info_halts _ p).ends j p₃ hj).2 x hheld rfl
      exact ⟨(huses v).mp hv, hx, (analysis_scope hwfx hanalysis u).2.mp hu⟩
  · -- A node of the result is new or one of the expression's.
    have hcount := h.ids y
    rcases List.mem_append.mp (List.count_pos_iff.mp
      (Nat.lt_of_lt_of_le (List.count_pos_iff.mpr hy) (by rwa [← List.count_append] at hcount))) with hf | hy
    · exact absurd ((hσ x hx).1.ids_lt y hyx) (Nat.not_lt.mpr (h.grows.nodes.ge y hf))
    · exact hdis x hx y hyx hy
  · exact (h.grows.keeps.holds x.2 (hσ x hx).1 (hdis x hx)).tree?

/-- `0 < 1`, with references to 1 and to 0 beside it. -/
def exchange : Plan :=
  { vars := ⟨#[⟨.column, "t.a", .int64⟩, ⟨.column, "t.b", .int64⟩]⟩
    nodes := #[⟨.varRef 0 .int64, [], none⟩, ⟨.varRef 1 .int64, [], none⟩, ⟨.scalar .lt .boolean, [0, 1], none⟩,
      ⟨.varRef 1 .int64, [], none⟩, ⟨.varRef 0 .int64, [], none⟩]
    tableCount := 0
    root := 2 }

theorem substitute_simultaneous_exchange :
    ∃ e' p', substitute [(0, 3), (1, 4)] 2 exchange = .ok (e'.id, p') ∧ p'.tree? e'.id = some e' ∧
      (∀ (I : Interpretation) (db : Database) (env : Row) (group : List Row),
        (e'.meaning I db).value env group = (env.read 1).compared .lt (env.read 0)) ∧
      p'.tree? 3 = some (.node 3 (.varRef 1 .int64) []) := by
  have hn : exchange.tree? 2 = some (.node 2 (.scalar .lt .boolean) [.node 0 (.varRef 0 .int64) [], .node 1 (.varRef 1 .int64) []]) := rfl
  have hp : ∀ r ∈ exchange.nodes, r.info = none := by decide
  have hoffers : exchange.Offers [(0, .node 3 (.varRef 1 .int64) []), (1, .node 4 (.varRef 0 .int64) [])] := by
    intro x hx
    rcases List.mem_pair.mp hx with rfl | rfl
    · exact ⟨holds_of_view (d := 1) (n := 3) hp rfl, by decide, by decide⟩
    · exact ⟨holds_of_view (d := 1) (n := 4) hp rfl, by decide, by decide⟩
  obtain ⟨e', p', hrun, htree, hvalue, -, hrest⟩ := substitute_simultaneous hn (holds_of_view hp hn) (by decide) (by decide) (by decide)
    hoffers (by decide)
  exact ⟨e', p', hrun, htree, hvalue, (hrest _ List.mem_cons_self).2⟩

/-- The expressions `1 AND 0` and `TRUE`. -/
def intertwined : Plan :=
  { vars := ⟨#[⟨.computed, "", .boolean⟩, ⟨.computed, "", .boolean⟩]⟩
    nodes := #[⟨.varRef 1 .boolean, [], none⟩, ⟨.varRef 0 .boolean, [], none⟩, ⟨.scalar .and .boolean, [0, 1], none⟩,
      ⟨.constantPredicate true, [], none⟩]
    tableCount := 0
    root := 2 }

def intertwinedTree : Tree := .node 2 (.scalar .and .boolean) [.node 0 (.varRef 1 .boolean) [], .node 1 (.varRef 0 .boolean) []]

/-- Both expressions, to be put in for 0 and for 1. -/
def intertwinedDefs : List (VarId × Tree) := [(0, intertwinedTree), (1, .node 3 (.constantPredicate true) [])]

/-- Substituting in an expression that is itself put in does not put in all at once: what has changed in it is copied with it. -/
theorem substitute_intertwined : (∀ x ∈ intertwinedDefs, intertwined.tree? x.2.id = some x.2) ∧
    ∃ n p' e', substitute (intertwinedDefs.map fun x => (x.1, x.2.id)) 2 intertwined = .ok (n, p') ∧ p'.tree? n = some e' ∧
      ∀ (I : Interpretation) (db : Database), ∃ env, (e'.meaning I db).value env [] ≠
        (intertwinedTree.meaning I db).value (updated I db intertwinedDefs env []) [] := by
  constructor
  · intro x hx
    rcases List.mem_pair.mp hx with rfl | rfl <;> rfl
  · -- Nothing is computed of the analysis: it changes no tree.
    obtain ⟨p₁, hwalk, hn, hp⟩ : ∃ p₁, ((List.range 2).forM (m := PlanM) fun i => do
        let c ← substituteWithin (intertwinedDefs.map fun x => (x.1, x.2.id)) 24 (← child 2 i)
        setChild 2 i c) intertwined = .ok ((), p₁) ∧
          p₁.tree? 2 = some (.node 2 (.scalar .and .boolean) [.node 4 (.constantPredicate true) [], .node 7 (.scalar .and .boolean)
            [.node 5 (.constantPredicate true) [], .node 6 (.varRef 0 .boolean) []]]) ∧ ∀ r ∈ p₁.nodes, r.info = none :=
      ⟨_, rfl, rfl, by decide⟩
    have hheld := holds_of_view hp hn
    obtain ⟨_, p₂, hrun, hsame⟩ := hheld.recompute_reaches (by decide)
    refine ⟨2, p₂, _, bind_run_ok.mpr ⟨intertwined, intertwined, rfl, ?_⟩, (hsame.keeps.still hheld).tree?, fun I db =>
      ⟨fun v => some (.boolean (v == 0)), ?_⟩⟩
    · refine bind_run_ok.mpr ⟨_, intertwined, rfl, ?_⟩
      exact bind_run_ok.mpr ⟨(), p₁, hwalk, bind_run_ok.mpr ⟨_, p₂, hrun, rfl⟩⟩
    · rintro ⟨⟩

end Plan

end Planwright
