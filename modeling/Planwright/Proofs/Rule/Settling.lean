import Mathlib.Tactic.Abel
import Planwright.Proofs.Rule.Reduce
import Planwright.Proofs.Rule.Remake.Join

/-! Rules that settle what they make. The sides of a join or set operator get filters and are settled, which
    ends since they stand below the whole. What is made of the settled sides stands no higher than what would
    have been made of them before. -/

namespace Planwright

open Run Planwright.Tree Plan Outline

namespace Rules

variable {c : Context} {p p₀ : Plan} {x y q : Tree} {xs : List NodeId}

/-- A side of an operator, with the filter it gets, once it is settled. -/
structure SideSettled (x : Tree) (b : Option Tree) (c : Context) (x' : Tree) (c' : Context) : Prop where
  wellFormed : x'.wellFormed = true
  isRelational : x'.IsRelational
  sinks : Sinks (x.outline.withRest (b.map outline)) x'.outline
  steps : c.steps ≤ c'.steps

theorem settleFilter_stabilizes {settle : Nat → NodeId → RuleM NodeId} {t b : Tree} {ts : List Tree} (hbelow : SettlesBelow settle t)
    (h : Derives xs p₀ p ([x, b] ++ ts)) (hx : x.IsRelational ∧ x.wellFormed) (hb : b.IsExpression ∧ b.wellFormed)
    (hw : x.outline.weight + b.outline.weight < t.outline.weight) :
    Stabilizes (fun k => do settle k (← filter x.id b.id)) c p fun n c' p' => ∃ x', x'.id = n ∧ Derives xs p₀ p' (x' :: ts) ∧
      SideSettled x (some b) c x' c' := by
  refine .step (create_halts [x, b] fun t ht => h.holds t (List.mem_append_left _ ht)) fun l p₁ hl => ?_
  have h₁ := h.create hl
  have hn : (Tree.node l .filter [x, b]).ids.Nodup := by
    have := h₁.ids
    rw [List.flatMap_cons] at this
    exact (List.nodup_append.mp this).1
  have hstanding : Standing p₁ (.node l .filter [x, b]) := ⟨hl.holds, hn, wellFormed_filter.mpr ⟨⟨hx.1, hb.1⟩, hx.2, hb.2⟩⟩
  have hlt : (Tree.node l .filter [x, b]).outline.weight < t.outline.weight := by
    rw [outline_filter]
    simpa [opWeight] using hw
  refine (hbelow hstanding (Falls.rank_lt (.inl hlt))).mono ?_
  rintro n c' p' ⟨x', hid, hlow⟩
  refine ⟨x', hid, h₁.change hlow.keeps hlow.holds hlow.parts, hlow.wellFormed, hlow.role.1.symm.trans rfl, ?_, hlow.steps⟩
  have := hlow.sinks
  rwa [outline_filter] at this

theorem filterSide_stabilizes {settle : Nat → NodeId → RuleM NodeId} {t : Tree} {b : Option Tree} {ts : List Tree}
    (hbelow : SettlesBelow settle t) (h : Derives xs p₀ p ([x] ++ (b.toList ++ ts))) (hx : x.IsRelational ∧ x.wellFormed)
    (hb : ∀ e ∈ b, e.IsExpression ∧ e.wellFormed)
    (hw : x.outline.weight + (b.map outline).elim 0 weight < t.outline.weight) :
    Stabilizes (fun k => filterSide (settle k) x.id (b.map Tree.id)) c p fun n c' p' => (∃ x', x'.id = n ∧ Derives xs p₀ p' (x' :: ts) ∧
      SideSettled x b c x' c') ∧ (b = none → c' = c ∧ p' = p) := by
  cases b with
  | none => exact (HaltsIn.pure ⟨⟨x, rfl, h, hx.2, hx.1, .refl _, Nat.le_refl _⟩, fun _ => ⟨rfl, rfl⟩⟩).stabilizes
  | some b => exact (settleFilter_stabilizes hbelow h hx (hb b rfl) hw).mono fun _ _ _ h => ⟨h, nofun⟩

theorem reduced_of_derives {t t' : Tree} {c' : Context} {p' : Plan} (h : Derives t.ids p p' [t']) (hb : Below t t')
    (hsteps : c.steps ≤ c'.steps) : Reduced c p t (some t'.id) c' p' :=
  ⟨t', rfl, ⟨⟨hb.wellFormed, hb.role, h.keeps, by simpa using h.parts, hb.falls.sinks, hsteps, fun _ => hb.falls⟩, h.holds t' (by simp)⟩,
    hb.falls⟩

/-- The operators that join two relations, with or without a condition. -/
def IsJoin (op : Op) (condition : Option Tree) : Prop :=
  op = .crossJoin ∧ condition = none ∨ (op = .innerJoin ∨ op = .leftOuterJoin) ∧ ∃ e, condition = some e

section Join
variable {j : NodeId} {s : JoinSplit} {ds₁ ds₂ ds₃ es : List Tree} {fs₁ fs₂ fs₃ : List NodeId} {b₁ b₂ b₃ : Option Tree}
  {k : OpKind}
variable {op : Op} {condition equal : Option Tree}

theorem wellFormed_join (h : IsJoin op condition) : (Tree.node j op ([x, y] ++ condition.toList)).wellFormed ↔
    (x.IsRelational ∧ x.wellFormed) ∧ (y.IsRelational ∧ y.wellFormed) ∧
      ∀ e ∈ condition, e.IsExpression ∧ e.wellFormed := by
  rcases h with ⟨rfl, rfl⟩ | ⟨rfl | rfl, e, rfl⟩
  · simp
    tauto
  · simp
    tauto
  · simp
    tauto

theorem exists_join {a : Tree} (hwf : a.wellFormed) (hk : a.kind = .crossJoin ∨ a.kind = .innerJoin ∨ a.kind = .leftOuterJoin) :
    ∃ j op x y condition, a = .node j op ([x, y] ++ Option.toList condition) ∧ IsJoin op condition := by
  rcases hk with hk | hk | hk
  · obtain ⟨j, x, y, rfl⟩ := looks hwf hk
    exact ⟨j, _, x, y, none, rfl, .inl ⟨rfl, rfl⟩⟩
  · obtain ⟨j, x, y, e, rfl⟩ := looks hwf hk
    exact ⟨j, _, x, y, some e, rfl, .inr ⟨.inl rfl, e, rfl⟩⟩
  · obtain ⟨j, x, y, e, rfl⟩ := looks hwf hk
    exact ⟨j, _, x, y, some e, rfl, .inr ⟨.inr rfl, e, rfl⟩⟩

/-- A join over new sides, by what counts. -/
structure JoinOutline (op : Op) (condition equal : Option Tree) (x y t : Tree) (k : OpKind) (zs : List Outline) : Prop where
  outline : t.outline = .node k (x.outline :: y.outline :: zs)
  wellFormed : t.wellFormed = true
  isRelational : t.IsRelational
  kind : k = op.kind ∨ opWeight k < opWeight op.kind
  reach : ∀ z ∈ zs, z.reach = 0
  weight : (zs.map Outline.weight).sum = (condition.toList.map fun t => t.outline.weight).sum + (equal.toList.map fun t => t.outline.weight).sum
  load : (zs.map Outline.load).sum = (condition.toList.map fun t => t.outline.load).sum + (equal.toList.map fun t => t.outline.load).sum

theorem reach_of_isExpression {e : Tree} (he : e.IsExpression) : e.outline.reach = 0 := by
  obtain ⟨n, op, cs⟩ := e
  rw [outline_node]
  exact reach_of_not_relational (not_relational_of_isScalar he)

theorem outline_of_joins {t : Tree} (hop : IsJoin op condition) (h : Joins op condition equal x y t)
    (hx : x.IsRelational ∧ x.wellFormed) (hy : y.IsRelational ∧ y.wellFormed)
    (hc : ∀ e ∈ condition, e.IsExpression ∧ e.wellFormed) (he : ∀ e ∈ equal, e.IsExpression ∧ e.wellFormed) :
    ∃ k zs, JoinOutline op condition equal x y t k zs := by
  have made : ∀ {op' : Op} {k : NodeId} {e : Tree}, op' = .innerJoin ∨ op' = .leftOuterJoin → e.IsExpression ∧ e.wellFormed →
      op'.kind = op.kind ∨ opWeight op'.kind < opWeight op.kind →
      e.outline.weight = (condition.toList.map fun t => t.outline.weight).sum + (equal.toList.map fun t => t.outline.weight).sum →
      e.outline.load = (condition.toList.map fun t => t.outline.load).sum + (equal.toList.map fun t => t.outline.load).sum →
      JoinOutline op condition equal x y (.node k op' [x, y, e]) op'.kind [e.outline] := fun {op' k e} hop' hexpr hkind hw hload => by
    have hwf : (Tree.node k op' ([x, y] ++ (some e).toList)).wellFormed :=
      (wellFormed_join (.inr ⟨hop', e, rfl⟩)).mpr ⟨hx, hy, fun d hd => Option.some.inj hd ▸ hexpr⟩
    refine ⟨by simp, hwf, ?_, hkind, List.forall_mem_singleton.mpr (reach_of_isExpression hexpr.1), by simpa using hw, by simpa using hload⟩
    rcases hop' with rfl | rfl <;> rfl
  have hop' : ∀ e, condition = some e → op = .innerJoin ∨ op = .leftOuterJoin := by
    rintro e rfl
    exact hop.elim (fun h => absurd h.2 (by simp)) And.left
  cases h with
  | cross hcross hnone =>
    subst hcross hnone
    obtain rfl : condition = none := hop.elim And.right fun h => by rcases h.1 with h | h <;> cases h
    exact ⟨.crossJoin, [], by simp [Op.kind], wellFormed_crossJoin.mpr ⟨⟨hx.1, hy.1⟩, hx.2, hy.2⟩, rfl, .inl rfl, List.forall_mem_nil _, rfl, rfl⟩
  | @equal k b hcross hsome =>
    subst hcross hsome
    obtain rfl : condition = none := hop.elim And.right fun h => by rcases h.1 with h | h <;> cases h
    exact ⟨_, _, made (.inl rfl) (he b rfl) (.inr (by decide)) (by simp) (by simp)⟩
  | @same k e hcond hnone =>
    subst hcond hnone
    exact ⟨_, _, made (hop' e rfl) (hc e rfl) (.inl rfl) (by simp) (by simp)⟩
  | @both k a e b hcond hsome =>
    subst hcond hsome
    have hand : (Tree.node a (.scalar .and .boolean) [e, b]).wellFormed := by
      refine wellFormed_iff.mpr ⟨.scalar rfl (by decide) rfl ?_, ?_⟩
      · simpa using ⟨(hc e rfl).1, (he b rfl).1⟩
      · simpa using ⟨(hc e rfl).2, (he b rfl).2⟩
    refine ⟨_, _, made (hop' e rfl) ⟨rfl, hand⟩ (.inl rfl) ?_ ?_⟩
    · simpa using conjunctive_weight a .boolean e b
    · simpa using conjunctive_load a .boolean e b

theorem sums_of_splits {op' : Op} {p' : Plan}
    (h : Splits j op op' x y q p p' s ds₁ ds₂ ds₃ es fs₁ fs₂ fs₃) (h₁ : Conjunction ds₁ fs₁ b₁)
    (h₂ : Conjunction ds₂ fs₂ b₂) (h₃ : Conjunction ds₃ fs₃ b₃) {M : Type} [AddCommMonoid M] {f : Tree → M} (hf : Conjunctive f) :
    (b₁.toList.map f).sum + ((b₂.toList.map f).sum + ((b₃.toList.map f).sum + (es.map f).sum)) = f q := by
  rw [h₁.sums hf, h₂.sums hf, h₃.sums hf, ← hf.conjuncts (q := q), ← (h.perm.map f).sum_eq]
  simp only [List.map_append, List.sum_append]

theorem elim_map {M : Type} [AddCommMonoid M] (b : Option Tree) (f : Outline → M) :
    (b.map outline).elim 0 f = (b.toList.map fun t => f t.outline).sum := by
  cases b <;> simp

theorem falls_overJoin {n : NodeId} {op' : Op} {p' : Plan}
    (h : Splits j op op' x y q p p' s ds₁ ds₂ ds₃ es fs₁ fs₂ fs₃)
    (h₁ : Conjunction ds₁ fs₁ b₁) (h₂ : Conjunction ds₂ fs₂ b₂) (h₃ : Conjunction ds₃ fs₃ b₃)
    (hparts : s.leftPart = b₁.map Tree.id ∧ s.rightPart = b₂.map Tree.id ∧ s.joinPart = b₃.map Tree.id) (hchanged : s.changed)
    (hop : IsJoin op condition) {x' y' t t' : Tree} {zs : List Outline} {rest : Option Outline}
    (hx : Sinks (x.outline.withRest (b₁.map outline)) x'.outline) (hy : Sinks (y.outline.withRest (b₂.map outline)) y'.outline)
    (hjoin : JoinOutline op' condition b₃ x' y' t k zs) (hrest : RestOutline es t t' rest) :
    Falls (Tree.node n .filter [.node j op ([x, y] ++ condition.toList), q]).outline t'.outline := by
  have hw := sums_of_splits h h₁ h₂ h₃ conjunctive_weight
  have hload := sums_of_splits h h₁ h₂ h₃ conjunctive_load
  have hbulk := sums_of_splits h h₁ h₂ h₃ conjunctive_bulk
  have hsink : Sinks ((Outline.node k (x.outline.withRest (b₁.map outline) :: y.outline.withRest (b₂.map outline) :: zs)).withRest rest)
      t'.outline := by
    rw [hrest.outline, hjoin.outline]
    exact (hx.sides hy).withRest rest
  refine Falls.sinking ?_ hsink
  simp only [outline_node, List.map_cons, List.map_nil, List.cons_append, List.nil_append]
  have hweight : (zs.map weight).sum + (b₁.map outline).elim 0 weight + (b₂.map outline).elim 0 weight + rest.elim 0 weight =
      ((condition.toList.map outline).map weight).sum + q.outline.weight := by
    rw [hjoin.weight, elim_map, elim_map, hrest.weight, ← hw, List.map_map]
    simp only [Function.comp_def]
    omega
  have hlight : opWeight k < opWeight op.kind → Falls (.node .filter [.node op.kind (x.outline :: y.outline :: condition.toList.map outline), q.outline])
      ((Outline.node k (x.outline.withRest (b₁.map outline) :: y.outline.withRest (b₂.map outline) :: zs)).withRest rest) := by
    intro hlt
    refine .inl ?_
    simp only [weight_withRest, weight_node, List.map_cons, List.map_nil, List.sum_cons, List.sum_nil]
    omega
  rcases h.rejects with ⟨rfl, hno⟩ | ⟨hlo, rfl, -⟩
  · rcases hjoin.kind with rfl | hk
    · have hrel : op'.kind.isRelational ∧ (op'.kind ≠ .filter ∧ op'.kind ≠ .project ∧ op'.kind ≠ .crossApply ∧ op'.kind ≠ .outerApply) ∧
          op'.kind ≠ .singleRowTable := by
        rcases hop with ⟨rfl, -⟩ | ⟨rfl | rfl, -⟩ <;> decide
      refine falls_sides hrel.1 hrel.2.1 hrel.2.2 hjoin.reach hweight.le ?_ fun r hr => ?_
      · rw [hjoin.load, elim_map, elim_map, hrest.load, ← hload, List.map_map]
        refine le_of_eq ?_
        simp only [Function.comp_def]
        abel
      · have := hrest.bulk r hr
        have hone : 0 < (b₁.toList.map fun t => t.outline.bulk + 1).sum + ((b₂.toList.map fun t => t.outline.bulk + 1).sum +
            (b₃.toList.map fun t => t.outline.bulk + 1).sum) := by
          rw [JoinSplit.changed, hno, hparts.1, hparts.2.1, hparts.2.2] at hchanged
          cases b₁ <;> cases b₂ <;> cases b₃ <;> simp_all
        omega
    · exact hlight hk
  · refine hlight ?_
    rw [hlo]
    rcases hjoin.kind with rfl | hk
    · decide
    · exact hk.trans (by decide)

section Pieces
variable {n j : NodeId} {op' : Op} {p' : Plan} {s : JoinSplit} {ds₁ ds₂ ds₃ es : List Tree} {fs₁ fs₂ fs₃ : List NodeId}
  {b₁ b₂ b₃ : Option Tree}

theorem nodup_pieces (h : (Tree.node n .filter [.node j op ([x, y] ++ condition.toList), q]).ids.Nodup) :
    (([x, y] ++ condition.toList ++ [q]).flatMap Tree.ids).Nodup ∧ j ∉ ([x, y] ++ condition.toList ++ [q]).flatMap Tree.ids := by
  simp only [ids_node, List.flatMap_cons, List.flatMap_nil, List.append_nil] at h
  have h := (List.nodup_cons.mp h).2
  rw [List.cons_append] at h
  obtain ⟨hj, hn⟩ := List.nodup_cons.mp h
  have heq : ([x, y] ++ condition.toList ++ [q]).flatMap Tree.ids = ([x, y] ++ condition.toList).flatMap Tree.ids ++ q.ids := by
    simp
  rw [heq]
  exact ⟨hn, hj⟩

theorem isJoin_of_splits (hop : IsJoin op condition) (h : Splits j op op' x y q p p' s ds₁ ds₂ ds₃ es fs₁ fs₂ fs₃) :
    IsJoin op' condition := by
  rcases h.rejects with ⟨rfl, -⟩ | ⟨hk, rfl, -⟩
  · exact hop
  · rcases hop with ⟨rfl, -⟩ | ⟨-, he⟩
    · cases hk
    · exact .inr ⟨.inl rfl, he⟩

theorem conditioned_of_keeps {S : Set NodeId} (hop : IsJoin op condition) (hj : p.Holds (.node j op' ([x, y] ++ condition.toList)))
    (hk : Keeps S p p') (hS : j ∉ S) : Conditioned p' j op condition := by
  rcases hop with h | ⟨hop, e, rfl⟩
  · exact .inl h
  · obtain ⟨⟨r, hr, -, hch⟩, -⟩ := hj.shows
    obtain ⟨r', hr', -, hch'⟩ := hk.node j r hr hS
    refine .inr ⟨hop, e, rfl, child_of_found hr' ?_⟩
    rw [hch', hch]
    rfl

theorem derives_of_splits (hs : Standing p (.node n .filter [.node j op ([x, y] ++ condition.toList), q]))
    (h : Splits j op op' x y q p p' s ds₁ ds₂ ds₃ es fs₁ fs₂ fs₃) (h₁ : Conjunction ds₁ fs₁ b₁) (h₂ : Conjunction ds₂ fs₂ b₂)
    (h₃ : Conjunction ds₃ fs₃ b₃) (hheld₁ : ∀ t ∈ b₁, p'.Holds t) (hheld₂ : ∀ t ∈ b₂, p'.Holds t) (hheld₃ : ∀ t ∈ b₃, p'.Holds t) :
    Derives (([x, y] ++ condition.toList ++ [q]).flatMap Tree.ids) p p'
      ([x] ++ (b₁.toList ++ ([y] ++ (b₂.toList ++ (condition.toList ++ (b₃.toList ++ es)))))) := by
  obtain ⟨⟨-, hq⟩, -, hwfq⟩ := wellFormed_filter.mp hs.wellFormed
  have hheld : ∀ t ∈ [x, y] ++ condition.toList ++ [q], p.Holds t := fun t ht => by
    rcases List.mem_append.mp ht with ht | ht
    · exact Holds.of_mem (t := .node j op ([x, y] ++ condition.toList)) (hs.holds.of_mem (by simp)) ht
    · obtain rfl := List.mem_singleton.mp ht
      exact hs.holds.of_mem (by simp)
  have hmem : ∀ d ∈ es, d ∈ q.conjuncts := fun d hd => h.perm.mem_iff.mp (by simp [hd])
  refine (Derives.start hheld (nodup_pieces hs.ids).1).grow h.grows (fun _ h => h.elim) (fun t ht => ?_) fun x => ?_
  · have hstill : ∀ t ∈ [x, y] ++ condition.toList ++ [q], p'.Holds t := fun t ht => h.grows.keeps.still (hheld t ht)
    simp only [List.mem_append, List.mem_singleton, Option.mem_toList] at ht
    rcases ht with rfl | ht | rfl | ht | ht | ht | ht
    · exact hstill t (by simp)
    · exact hheld₁ t ht
    · exact hstill t (by simp)
    · exact hheld₂ t ht
    · exact hstill t (by simp [ht])
    · exact hheld₃ t ht
    · exact (hstill q (by simp)).conjuncts t (hmem t ht)
  · have := h₁.ids x
    have := h₂.ids x
    have := h₃.ids x
    have := (PartsOf.conjuncts hwfq hq).ids x
    have := (h.perm.flatMap_right Tree.ids).count_eq x
    simp only [List.flatMap_append, List.flatMap_cons, List.flatMap_nil, List.count_append, List.append_nil] at *
    omega

end Pieces

theorem overJoin_reduces {name : String} {count : Nat} (hk : k = .crossJoin ∨ k = .innerJoin ∨ k = .leftOuterJoin) :
    (⟨name, filterPattern k count, overJoin⟩ : Rule).Reduces := by
  intro settle c p t hs hbelow hmatch
  rw [Pattern.holds_eq_fits _ hs.holds] at hmatch
  obtain ⟨n, a, q, rfl, rfl, hwfa, hq, hwfq⟩ := exists_filter hs.wellFormed hmatch
  obtain ⟨j, op, x, y, condition, rfl, hop⟩ := exists_join hwfa hk
  obtain ⟨hx, hy, hc⟩ := (wellFormed_join hop).mp hwfa
  refine .after (splitJoin_halts hs.holds hs.wellFormed) ?_
  rintro out c p₁ ⟨rfl, hk₁, hout⟩
  cases out with
  | none => exact (HaltsIn.pure ⟨rfl, hk₁⟩).stabilizes
  | some s =>
    obtain ⟨op', ds₁, ds₂, ds₃, es, fs₁, fs₂, fs₃, hsp⟩ := hout s rfl
    obtain ⟨b₁, hid₁, hheld₁, h₁⟩ := hsp.leftPart.exists_tree
    obtain ⟨b₂, hid₂, hheld₂, h₂⟩ := hsp.rightPart.exists_tree
    obtain ⟨b₃, hid₃, hheld₃, h₃⟩ := hsp.joinPart.exists_tree
    have hw := sums_of_splits hsp h₁ h₂ h₃ conjunctive_weight
    have hsides := derives_of_splits hs hsp h₁ h₂ h₃ hheld₁ hheld₂ hheld₃
    have hcounts : ∀ z, (([x, y] ++ condition.toList ++ [q]).flatMap Tree.ids).count z ≤
        (Tree.node n .filter [.node j op ([x, y] ++ condition.toList), q]).ids.count z := fun z => by
      simp only [ids_node, List.flatMap_append, List.flatMap_cons, List.flatMap_nil, List.count_append, List.count_cons]
      omega
    have hop' := isJoin_of_splits hop hsp
    have hes : PartsOf q es := ((PartsOf.conjuncts hwfq hq).perm hsp.perm.symm).right.right.right
    have hwx := weight_pos hx.2 hx.1
    have hwy := weight_pos hy.2 hy.1
    have hwt : x.outline.weight + y.outline.weight + q.outline.weight ≤
        (Tree.node n .filter [.node j op ([x, y] ++ condition.toList), q]).outline.weight := by
      simp [opWeight]
      omega
    dsimp only
    rw [hsp.left, hsp.right, hid₁, hid₂]
    refine .bind (filterSide_stabilizes hbelow hsides hx h₁.wellFormed ?_) ?_
    · rw [elim_map]
      omega
    · rintro _ c₂ p₂ ⟨⟨x', rfl, hd₂, hsx⟩, hsame₂⟩
      have hd₂ := hd₂.perm (List.perm_append_comm_assoc [x'] ([y] ++ b₂.toList) (condition.toList ++ (b₃.toList ++ es)))
      refine .bind (filterSide_stabilizes hbelow hd₂ hy h₂.wellFormed ?_) ?_
      · rw [elim_map]
        omega
      · rintro _ c₃ p₃ ⟨⟨y', rfl, hd₃, hsy⟩, hsame₃⟩
        have hd₃ := hd₃.perm (List.Perm.swap x' y' (condition.toList ++ (b₃.toList ++ es)))
        have hcond := conditioned_of_keeps hop' (hs.holds.of_mem (List.mem_cons_self ..)) hd₃.keeps (nodup_pieces hs.ids).2
        refine ((joinAgain_halts hsp.join hsp.kind hsp.rest hid₃ hcond hes hd₃).mono ?_).stabilizes
        intro out c₄ p₄ hagain
        cases out with
        | none =>
          obtain ⟨hno, hk₄⟩ := hagain.none rfl
          obtain ⟨rfl, rfl⟩ : b₁ = none ∧ b₂ = none := by
            rw [JoinSplit.changed, hid₁, hid₂] at hno
            cases b₁ <;> cases b₂ <;> simp_all
          obtain ⟨rfl, rfl⟩ := hsame₂ rfl
          obtain ⟨rfl, rfl⟩ := hsame₃ rfl
          exact ⟨hagain.steps, hk₁.and_then hk₄⟩
        | some m =>
          obtain ⟨hyes, t, t', gs, rfl, hJ, hrests, hd₄⟩ := hagain.some m rfl
          obtain ⟨k, zs, hjoin⟩ := outline_of_joins hop' hJ ⟨hsx.isRelational, hsx.wellFormed⟩ ⟨hsy.isRelational, hsy.wellFormed⟩ hc
            h₃.wellFormed
          obtain ⟨rest, hrest⟩ := outline_of_rests hrests hjoin.wellFormed hjoin.isRelational
          refine reduced_of_derives (hd₄.within hcounts) ⟨hrest.wellFormed, sameRole_of_relational rfl hrest.isRelational, ?_⟩ ?_
          · exact falls_overJoin hsp h₁ h₂ h₃ ⟨hid₁, hid₂, hid₃⟩ hyes hop hsx.sinks hsy.sinks hjoin hrest
          · rw [hagain.steps]
            exact hsx.steps.trans hsy.steps

end Join

section SetOp
variable {b : Tree} {es ts : List Tree} {σ : List (VarId × Tree)} {gs : List NodeId} {rest : Option Tree}
variable {n m : NodeId} {kind : SetKind} {outputs : VarSet} {l r : VarMap}

/-- References to the variables of a branch. -/
def Refers (k : Nat) (e : VarId × VarId) (s : VarId × Tree) : Prop :=
  s.1 = e.1 ∧ ∃ n type, s.2 = .node n (.varRef e.2 type) [] ∧ k ≤ n

theorem references_halts (m : VarMap) : HaltsIn (overSetOp.references m) c p fun out c' p' => c' = c ∧ ∃ σ,
    out = σ.map (fun x => (x.1, x.2.id)) ∧ List.Forall₂ (Refers p.nodes.size) m.entries σ ∧ p'.Offers σ ∧ Keeps ∅ p p' := by
  rw [overSetOp.references]
  generalize m.entries = es
  induction es generalizing p with
  | nil => exact .pure ⟨rfl, [], rfl, .nil, nofun, .refl _ _⟩
  | cons e es ih =>
    rw [List.mapM_cons, bind_assoc]
    refine .step varRef_halts fun k p₁ ⟨type, hk⟩ => ?_
    rw [pure_bind]
    refine .bind ih ?_
    rintro _ c p₂ ⟨rfl, σ, rfl, hrefers, hoffers, h₂⟩
    refine .pure ⟨rfl, (e.1, .node k (.varRef e.2 type) []) :: σ, rfl, .cons ⟨rfl, k, type, rfl, hk.fresh.ge⟩ (hrefers.imp fun _ _ h => ?_),
      List.forall_mem_cons.mpr ⟨⟨h₂.still hk.holds, ?_⟩, hoffers⟩, hk.keeps.and_then h₂⟩
    · obtain ⟨heq, n, type, ht, hle⟩ := h
      exact ⟨heq, n, type, ht, hk.keeps.size.trans hle⟩
    · exact ⟨isScalar_node.mpr ⟨rfl, nofun⟩, wellFormed_leaf rfl⟩

theorem Refers.disjoint {k : Nat} {es : List (VarId × VarId)} (h : List.Forall₂ (Refers k) es σ)
    (hb : ∀ z ∈ b.ids, z < k) : ∀ x ∈ σ, ∀ y ∈ x.2.ids, y ∉ b.ids := fun s hs y hy hyb => by
  obtain ⟨e, -, -, n, type, heq, hle⟩ := exists_of_forall₂_right h hs
  rw [heq, ids_node, List.flatMap_nil, List.mem_singleton] at hy
  subst hy
  exact absurd (hb _ hyb) (Nat.not_lt.mpr hle)

theorem substitute_derives (h : Derives xs p₀ p ([x, b] ++ ts))
    (hσ : p.Offers σ) (hdis : ∀ x ∈ σ, ∀ y ∈ x.2.ids, y ∉ b.ids) (hb : b.isScalar ∧ b.wellFormed) :
    Halts (substitute (σ.map fun x => (x.1, x.2.id)) b.id) p fun n p' =>
      ∃ b', b'.id = n ∧ b.Substituted σ b' ∧ Derives xs p₀ p' ([x, b'] ++ ts) := by
  have hnb : b.ids.Nodup := by
    have := h.ids
    simp only [List.flatMap_append, List.flatMap_cons, List.flatMap_nil, List.nodup_append] at this
    exact this.1.2.1.1
  refine (substitute_halts hσ hdis (h.holds b (by simp)) hnb hb.1 hb.2).mono ?_
  rintro _ p₁ ⟨b', fs, hsub⟩
  refine ⟨b', hsub.id, hsub.substituted, Derives.perm ?_ (.swap x b' ts)⟩
  refine (h.perm (.swap b x ts)).change hsub.grows.keeps hsub.holds (hsub.grows.nodes.parts ?_ hsub.ids)
  exact (h.holds b (by simp)).ids_lt

theorem moveFilter_stabilizes {β : Type} {settle : Nat → NodeId → RuleM NodeId} {t : Tree}
    {g : Nat → NodeId → RuleM β} {Q : β → Context → Plan → Prop}
    (hbelow : SettlesBelow settle t) (h : Derives xs p₀ p ([x, b] ++ ts)) (hσ : p.Offers σ)
    (hdis : ∀ x ∈ σ, ∀ y ∈ x.2.ids, y ∉ b.ids) (hx : x.IsRelational ∧ x.wellFormed)
    (hb : b.isScalar ∧ b.wellFormed) (hw : x.outline.weight < t.outline.weight)
    (hg : ∀ x' b' c' p', Derives xs p₀ p' (x' :: ts) → b.Substituted σ b' → SideSettled x (some b') c x' c' →
      Stabilizes (fun k => g k x'.id) c' p' Q) :
    Stabilizes (fun k => do
      let predicate ← (substitute (σ.map fun x => (x.1, x.2.id)) b.id : RuleM NodeId)
      let filtered ← (filter x.id predicate : RuleM NodeId)
      let out ← settle k filtered
      g k out) c p Q := by
  refine .step (substitute_derives h hσ hdis hb) ?_
  rintro _ p₁ ⟨b', rfl, hb', h₁⟩
  simp only [← bind_assoc]
  refine .bind (settleFilter_stabilizes hbelow h₁ hx ⟨isExpression_of_isScalar hb'.scalar, hb'.wellFormed⟩ ?_) ?_
  · rwa [(scalar_outline.mpr hb'.scalar).weight, Nat.add_zero]
  · rintro _ c' p' ⟨x', rfl, hd, hside⟩
    exact hg x' b' c' p' hd hb' hside

theorem withRest_derives {t : Tree} (hr : Conjunction es gs rest)
    (h : Derives xs p₀ p ([t] ++ (rest.toList ++ ts))) : Halts (withRest t.id (rest.map Tree.id)) p fun n p' =>
      ∃ t', t'.id = n ∧ Rests es gs t t' ∧ Derives xs p₀ p' (t' :: ts) := by
  cases rest with
  | none => exact .pure ⟨t, rfl, .nothing hr, h⟩
  | some b =>
    have hpair : Derives xs p₀ p ([t, b] ++ ts) := h
    refine (create_halts [t, b] fun s hs => hpair.holds s (List.mem_append_left _ hs)).mono fun n p₁ h₁ => ?_
    exact ⟨_, rfl, .filter hr, hpair.create h₁⟩

theorem exists_setOp {a : Tree} (hwf : a.wellFormed) (hk : a.kind = .unionAll ∨ a.kind = .intersect ∨ a.kind = .except) :
    ∃ m kind outputs l r x y, a = .node m (.combine kind outputs l r) [x, y] := by
  rcases hk with hk | hk | hk
  all_goals
    obtain ⟨m, outputs, l, r, x, y, rfl⟩ := looks hwf hk
    exact ⟨m, _, outputs, l, r, x, y, rfl⟩

theorem wellFormed_setOp : (Tree.node m (.combine kind outputs l r) [x, y]).wellFormed ↔
    ((x.IsRelational ∧ x.wellFormed) ∧ y.IsRelational ∧ y.wellFormed) ∧
      (∀ v ∈ outputs, ∃ w, l.get? v = some w) ∧ ∀ v ∈ outputs, ∃ w, r.get? v = some w := by
  rw [wellFormed_iff]
  constructor
  · rintro ⟨hshape, hwf⟩
    have hx := hwf x (by simp)
    have hy := hwf y (by simp)
    generalize hop : Op.combine kind outputs l r = op at hshape
    cases hshape with
    | combine _ h₁ h₂ hl hr =>
      cases hop
      exact ⟨⟨⟨h₁, hx⟩, h₂, hy⟩, hl, hr⟩
    | scalar hs =>
      subst hop
      cases kind <;> cases hs
    | _ => cases hop
  · rintro ⟨⟨⟨h₁, hx⟩, h₂, hy⟩, hl, hr⟩
    exact ⟨.combine kind h₁ h₂ hl hr, by simpa using ⟨hx, hy⟩⟩

theorem combineRest_halts {x' y' : Tree} (hrest : Conjunction es gs rest)
    (h : Derives xs p₀ p ([x', y'] ++ rest.toList)) : HaltsIn (do
      let out ← (create (.combine kind outputs l r) [x'.id, y'.id] : RuleM NodeId)
      return some (← withRest out (rest.map Tree.id))) c p fun out c' p' => c' = c ∧ ∃ k t', out = some t'.id ∧
        Rests es gs (.node k (.combine kind outputs l r) [x', y']) t' ∧ Derives xs p₀ p' [t'] := by
  refine .step (create_halts [x', y'] fun t ht => h.holds t (List.mem_append_left _ ht)) fun k p₁ hk => ?_
  have h₁ : Derives xs p₀ p₁ ([.node k (.combine kind outputs l r) [x', y']] ++ (rest.toList ++ [])) := by
    simpa using h.create hk
  refine .step (withRest_derives hrest h₁) ?_
  rintro _ p₂ ⟨t', rfl, hrests, hd⟩
  exact .pure ⟨rfl, k, t', rfl, hrests, hd⟩

theorem combineAgain_halts {c₀ c₁ : Context} {x' y' : Tree} {bx by' : Option Tree}
    (hwf : (Tree.node m (.combine kind outputs l r) [x, y]).wellFormed) (hcounts : Counts q b es) (hrest : Conjunction es gs rest)
    (hbx : ∀ e ∈ bx, e.isScalar) (hby : ∀ e ∈ by', e.isScalar) (hsx : SideSettled x bx c₀ x' c₁)
    (hsy : SideSettled y by' c₁ y' c)
    (h : Derives (Tree.node n .filter [.node m (.combine kind outputs l r) [x, y], q]).ids p₀ p ([x', y'] ++ rest.toList)) :
    HaltsIn (do
      let out ← (create (.combine kind outputs l r) [x'.id, y'.id] : RuleM NodeId)
      return some (← withRest out (rest.map Tree.id))) c p
      (Reduced c₀ p₀ (.node n .filter [.node m (.combine kind outputs l r) [x, y], q])) := by
  refine (combineRest_halts hrest h).mono ?_
  rintro _ c p₂ ⟨rfl, k, t', rfl, hrests, hd⟩
  have hwf' : (Tree.node k (.combine kind outputs l r) [x', y']).wellFormed :=
    wellFormed_setOp.mpr ⟨⟨⟨hsx.isRelational, hsx.wellFormed⟩, hsy.isRelational, hsy.wellFormed⟩, (wellFormed_setOp.mp hwf).2⟩
  have hrel : (Tree.node k (.combine kind outputs l r) [x', y']).IsRelational := by cases kind <;> rfl
  obtain ⟨rest, hro⟩ := outline_of_rests hrests hwf' hrel
  refine reduced_of_derives hd ⟨hro.wellFormed, sameRole_of_relational rfl hro.isRelational, ?_⟩ (hsx.steps.trans hsy.steps)
  have hsink : Sinks ((Outline.node (Op.combine kind outputs l r).kind
      [x.outline.withRest (bx.map outline), y.outline.withRest (by'.map outline)]).withRest rest) t'.outline := by
    rw [hro.outline, outline_node]
    exact (hsx.sinks.sides hsy.sinks).withRest rest
  have hzero : ∀ {b : Option Tree}, (∀ e ∈ b, e.isScalar) → (b.map outline).elim 0 weight = 0 ∧ (b.map outline).elim 0 load = 0 := by
    rintro (_ | e) he
    · exact ⟨rfl, rfl⟩
    · have := scalar_outline.mpr (he e rfl)
      exact ⟨this.weight, this.load⟩
  refine Falls.sinking ?_ hsink
  simp only [outline_node, List.map_cons, List.map_nil]
  have hkind : (Op.combine kind outputs l r).kind.isRelational ∧ ((Op.combine kind outputs l r).kind ≠ .filter ∧
      (Op.combine kind outputs l r).kind ≠ .project ∧ (Op.combine kind outputs l r).kind ≠ .crossApply ∧
        (Op.combine kind outputs l r).kind ≠ .outerApply) ∧ (Op.combine kind outputs l r).kind ≠ .singleRowTable := by
    cases kind <;> simp [Op.kind, SetKind.kind, OpKind.isRelational]
  have hw := hcounts.weight
  refine falls_sides hkind.1 hkind.2.1 hkind.2.2 (by simp) ?_ ?_ fun r hr => ?_
  · rw [(hzero hbx).1, (hzero hby).1, hro.weight]
    simp
    omega
  · rw [(hzero hbx).2, (hzero hby).2, hro.load, ← hcounts.load]
    simp
  · have := hro.bulk r hr
    have := hcounts.bulk
    omega

theorem derives_of_pushed {ds : List Tree} {fs : List NodeId} {p₁ : Plan}
    (hs : Standing p (.node n .filter [.node m (.combine kind outputs l r) [x, y], q])) (hsplit : Split q ds es)
    (h₁ : Grows ∅ (fs ++ gs) [] p p₁) (hb : p₁.Holds b) (hc : Conjoins ds b fs) (hheld : ∀ t ∈ rest, p₁.Holds t)
    (hrest : Conjunction es gs rest) :
    Derives (Tree.node n .filter [.node m (.combine kind outputs l r) [x, y], q]).ids p p₁ ([x, b] ++ (y :: rest.toList)) := by
  have ha : p₁.Holds (.node m (.combine kind outputs l r) [x, y]) := (h₁.keeps.still hs.holds).of_mem (by simp)
  refine (Derives.self hs.holds hs.ids).grow h₁ (fun _ h => h.elim) (fun t ht => ?_) fun z => ?_
  · simp only [List.mem_append, List.mem_cons, List.not_mem_nil, or_false, Option.mem_toList] at ht
    rcases ht with (rfl | rfl) | rfl | ht
    · exact ha.of_mem (by simp)
    · exact hb
    · exact ha.of_mem (by simp)
    · exact hheld t ht
  · have := hc.ids z
    have := hrest.ids z
    have := hsplit.parts.ids z
    simp only [ids_node, List.flatMap_append, List.flatMap_cons, List.flatMap_nil, List.count_append, List.count_cons, List.append_nil]
      at *
    omega

theorem copyExpr_derives (h : Derives xs p₀ p ([x, b] ++ (y :: ts))) (hs : b.isScalar)
    (hwf : b.wellFormed) : Halts (copyExpr b.id) p fun n p' => ∃ e, e.id = n ∧ Derives xs p₀ p' ([x, e] ++ (y :: b :: ts)) ∧
      e.isScalar ∧ e.wellFormed ∧ Mirrors (·) b e ∧
      Keeps ∅ p p' ∧ ∀ z ∈ e.ids, p.nodes.size ≤ z := by
  refine (copyExpr_halts (h.holds b (by simp)) hs hwf).mono ?_
  rintro _ p₁ ⟨e, hid, he, h₁, halike, hmirrors⟩
  refine ⟨e, hid, ?_, halike.isScalar.mpr hs, halike.wellFormed hwf, hmirrors, h₁.keeps, h₁.nodes.ge⟩
  refine h.grow h₁ (fun _ h => h.elim) (fun t ht => ?_) fun z => ?_
  · simp only [List.mem_append, List.mem_cons, List.not_mem_nil, or_false] at ht
    rcases ht with (rfl | rfl) | rfl | rfl | ht
    · exact h₁.keeps.still (h.holds t (by simp))
    · exact he
    · exact h₁.keeps.still (h.holds t (by simp))
    · exact h₁.keeps.still (h.holds t (by simp))
    · exact h₁.keeps.still (h.holds t (by simp [ht]))
  · simp only [List.flatMap_append, List.flatMap_cons, List.flatMap_nil, List.count_append, List.append_nil]
    omega

theorem overSetOp_reduces {name : String} {k : OpKind} {count : Nat} (hk : k = .unionAll ∨ k = .intersect ∨ k = .except) :
    (⟨name, filterPattern k count, overSetOp⟩ : Rule).Reduces := by
  intro settle c p t hs hbelow hmatch
  rw [Pattern.holds_eq_fits _ hs.holds] at hmatch
  obtain ⟨n, a, q, rfl, rfl, hwfa, hq, hwfq⟩ := exists_filter hs.wellFormed hmatch
  obtain ⟨m, kind, outputs, l, r, x, y, rfl⟩ := exists_setOp hwfa hk
  refine .after (splitPredicate_halts hs.holds hs.wellFormed) ?_
  rintro ⟨pushed, rest⟩ c p₁ ⟨rfl, ds, es, fs, gs, hsplit, -, h₁, hb₁, hb₂⟩
  cases pushed with
  | none => exact (HaltsIn.pure ⟨rfl, h₁.keeps⟩).stabilizes
  | some b =>
    obtain ⟨b, rfl, hb, hc⟩ := hb₁
    obtain ⟨rest, rfl, hheld, hrest⟩ := hb₂.exists_tree
    have ht₁ := h₁.keeps.still hs.holds
    have ha : p₁.Holds (.node m (.combine kind outputs l r) [x, y]) := ht₁.of_mem (by simp)
    have hcounts := counts_of_split hsplit hc
    have hpieces := derives_of_pushed hs hsplit h₁ hb hc hheld hrest
    obtain ⟨⟨hx, hy⟩, -⟩ := wellFormed_setOp.mp hwfa
    have hwx := weight_pos hx.2 hx.1
    have hwy := weight_pos hy.2 hy.1
    have hwt : x.outline.weight + y.outline.weight ≤
        (Tree.node n .filter [.node m (.combine kind outputs l r) [x, y], q]).outline.weight := by
      simp [opWeight]
      omega
    refine .step hb.tree_halts ?_
    rintro b p₁ ⟨rfl, rfl⟩
    refine .ite (fun _ => (HaltsIn.pure ⟨rfl, h₁.keeps⟩).stabilizes) fun hscalar => ?_
    have hscalar : b.isScalar := by simpa using hscalar
    refine .read (ht₁.child_run rfl) (.read ha.op_run (.read (ha.child_run rfl) (.read (ha.child_run rfl) ?_)))
    refine .after (references_halts l) ?_
    rintro _ c p₂ ⟨rfl, σ, rfl, hrefers, hoffers, h₂⟩
    by_cases hexc : kind = .except
    · subst hexc
      simp only [if_true, pure_bind]
      refine moveFilter_stabilizes hbelow (hpieces.still h₂) hoffers (Refers.disjoint hrefers hb.ids_lt) hx ⟨hscalar, hc.wellFormed⟩
        (by omega) fun x' b' c₃ p₃ hd hsub hside => ?_
      have hkept : SideSettled y none c₃ y c₃ := ⟨hy.2, hy.1, .refl _, Nat.le_refl _⟩
      exact (combineAgain_halts hwfa hcounts hrest (fun e he => Option.some.inj he ▸ hsub.scalar) (fun _ he => by cases he)
        hside hkept hd).stabilizes
    · simp only [hexc, if_false]
      refine .step (copyExpr_derives (hpieces.still h₂) hscalar hc.wellFormed) ?_
      rintro _ p₃ ⟨e, rfl, hd₃, hse, hwfe, -, h₃, hge⟩
      have hoffers₃ : p₃.Offers σ := fun s hs => ⟨h₃.still (hoffers s hs).1, (hoffers s hs).2⟩
      refine moveFilter_stabilizes hbelow hd₃ hoffers₃ (fun s hs z hz hze => ?_) hx ⟨hse, hwfe⟩ (by omega)
        fun x' e' c₄ p₄ hd₄ hsub hside => ?_
      · exact Nat.not_lt.mpr (hge z hze) ((hoffers s hs).1.ids_lt z hz)
      refine .after (references_halts r) ?_
      rintro _ c₄ p₅ ⟨rfl, σ', rfl, hrefers', hoffers', h₅⟩
      have hd₅ := (hd₄.still h₅).perm ((show ([x'] ++ [y, b]).Perm ([y, b] ++ [x']) from List.perm_append_comm).append_right rest.toList)
      refine moveFilter_stabilizes hbelow hd₅ hoffers' (Refers.disjoint hrefers' (hd₄.holds b (by simp)).ids_lt) hy
        ⟨hscalar, hc.wellFormed⟩ (by omega) fun y' b' c₆ p₆ hd₆ hsub' hside' => ?_
      have hd₆ := hd₆.perm (List.Perm.swap x' y' rest.toList)
      exact (combineAgain_halts hwfa hcounts hrest (fun e he => Option.some.inj he ▸ hsub.scalar)
        (fun e he => Option.some.inj he ▸ hsub'.scalar) hside hside' hd₆).stabilizes

end SetOp

theorem filterRules_reduce : ∀ rule ∈ filterRules, rule.Reduces := by
  simp only [filterRules, List.forall_mem_cons]
  exact ⟨filterWithConstantPredicate_reduces, overJoin_reduces (.inl rfl), filterOverDistinct_reduces,
    overSetOp_reduces (.inr (.inr rfl)), filterOverFilter_reduces, filterOverGroupBy_reduces, overJoin_reduces (.inr (.inl rfl)),
    overSetOp_reduces (.inr (.inl rfl)), overJoin_reduces (.inr (.inr rfl)), filterOverProject_reduces, overSetOp_reduces (.inl rfl),
    filterOverOuterApply_reduces, List.forall_mem_nil _⟩

end Rules

open Rules in
theorem RuleGroup.rules_reduce (group : RuleGroup) : ∀ rule ∈ group.rules, rule.Reduces := by
  have hdistinct : ∀ rule ∈ distinctRules, rule.Reduces := List.forall_mem_singleton.mpr distinctOpOfKeys_reduces
  intro rule hr
  rcases RuleGroup.mem_rules hr with hr | hr | hr | hr | hr
  · exact applyRules_reduce rule hr
  · exact filterRules_reduce rule hr
  · exact projectRules_reduce rule hr
  · exact scalarRules_reduce rule hr
  · exact hdistinct rule hr

end Planwright
