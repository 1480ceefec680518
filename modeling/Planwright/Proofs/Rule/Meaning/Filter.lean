import Planwright.Proofs.Rule.Settling
import Planwright.Proofs.Semantics.Like
import Planwright.Proofs.Semantics.Pushdown

/-! What filter rules mean. With the sides of joins and set operators left as they are put together, what a filter rule
    makes of a tree has the rows of the tree, under SQL's logic of three values and however nulls are compared. -/

namespace Planwright

open Run Planwright.Tree Plan

/-- What is made of a tree has its rows wherever no null matches a pattern and no rows are taken for the same that the filter
    tells apart. -/
def Tree.SameRows (t t' : Tree) : Prop :=
  ∀ (I : Interpretation) (db : Database) (outer : Row), t.Discerning I db outer → I.RejectsNull →
    t'.rows I db outer = t.rows I db outer

/-- What the rule makes of a tree, if it changes anything, has the rows of the tree. -/
def Rule.KeepsRows (rule : Rule) : Prop :=
  ∀ {k : Nat} {c : Context} {p : Plan} {t : Tree}, Standing p t → Valid k (·) t → rule.pattern.holds p t.id = true →
    EndsIn (rule.apply pure t.id) c p fun out _ p' => ∀ n, out = some n → ∃ t', p'.tree? n = some t' ∧ t.SameRows t'

theorem Plan.Derives.tree? {p p' : Plan} {t' : Tree} {xs : List NodeId} (h : Derives xs p p' [t']) : p'.tree? t'.id = some t' :=
  (h.holds t' (by simp)).tree?

theorem Rule.Makes.keepsRows {rule : Rule} {P : Context → Plan → Tree → List VarId → VarMap → Tree → Prop} (h : rule.Makes P)
    (hP : ∀ {k c p t vs m t'}, Standing p t → Valid k (·) t → P c p t vs m t' → t.SameRows t') : rule.KeepsRows :=
  fun hs ht hmatch => (h.mono pure hs hmatch fun _ _ _ t' hr hmade => ⟨t', hr.holds.tree?, hP hs ht hmade⟩).ends

namespace Tree

variable {I : Interpretation} {db : Database} {q t t' : Tree} {ds es : List Tree} {gs : List NodeId} {outer r : Row}

theorem Split.holds (h : Split q ds es) :
    (q.meaning I db).holds outer r = (allHold I db ds outer r && allHold I db es outer r) := by
  rw [Bool.eq_iff_iff, Bool.and_eq_true, holds_iff_failing, allHold_iff_failing, allHold_iff_failing,
    ← h.sums (failing_conjunctive outer r), Nat.add_eq_zero_iff]

/-- The conjuncts of what is split off are conjuncts of the whole. -/
theorem Split.mem_conjuncts {b d : Tree} {fs : List NodeId} (h : Split q ds es) (hb : Conjoins ds b fs) (hd : d ∈ b.conjuncts) :
    d ∈ q.conjuncts := by
  classical
  have hcount : Conjunctive fun t : Tree => t.conjuncts.count d := fun _ _ _ _ => by
    simp only [conjuncts, List.count_append]
  have hsum := h.sums hcount
  rw [← hb.sums hcount] at hsum
  exact List.count_pos_iff.mp (Nat.lt_of_lt_of_le (List.count_pos_iff.mpr hd) (hsum ▸ Nat.le_add_right ..))

theorem Rests.rows (h : Rests es gs t t') : t'.rows I db outer = (t.rows I db outer).filter (allHold I db es outer) := by
  cases h with
  | nothing hes =>
    subst hes
    exact (List.filter_eq_self.mpr fun _ _ => rfl).symm
  | filter hb => rw [rows_filter, funext (hb.holds outer)]

theorem Rests.columns (h : Rests es gs t t') : (t'.meaning I db).columns = (t.meaning I db).columns := by
  cases h with
  | nothing => rfl
  | filter => exact columns_filter

end Tree

namespace Rules

variable {c : Context} {p : Plan} {n : NodeId} {x y q : Tree} {k : Nat} {I : Interpretation} {db : Database} {outer : Row}

/-- The part of a predicate that goes below an operator. -/
structure GoesBelow (q : Tree) (fits : VarId → Prop) (b : Tree) : Prop where
  wellFormed : b.wellFormed = true
  isExpression : b.IsExpression
  conjuncts : ∀ d ∈ b.conjuncts, d ∈ q.conjuncts
  scalar : q.isScalar = true → b.isScalar = true
  uses : ∀ u, Uses (·) b u → fits u ∧ Uses (·) q u

theorem goesBelow_of_split {fits : VarId → Prop} {ds es : List Tree} {fs : List NodeId} {b : Tree} (h : Split q ds es)
    (hfits : ∀ d ∈ ds, ∀ u, Uses (·) d u → fits u) (hb : Conjoins ds b fs) : GoesBelow q fits b where
  wellFormed := hb.wellFormed
  isExpression := hb.isExpression
  conjuncts d hd := h.mem_conjuncts hb hd
  scalar hs := hb.scalar (h.parts.left.scalar hs)
  uses u hu := by
    obtain ⟨d, hd, hu⟩ := hb.uses u hu
    exact ⟨hfits d hd u hu, h.parts.left.uses d hd u hu⟩

theorem GoesBelow.agrees {a b : Tree} {fits : VarId → Prop} (hb : GoesBelow q fits b)
    (h : (Tree.node n .filter [a, q]).Discerning I db outer)
    (hfits : ∀ u, fits u → u ∈ (a.compared I db outer).1) : a.Agrees I db outer b := by
  intro r hr s hs heq
  rw [holds_eq_conjuncts, holds_eq_conjuncts, Bool.eq_iff_iff, allHold, allHold, List.all_eq_true, List.all_eq_true]
  refine forall₂_congr fun d hd => ?_
  have huses : ∀ u, Uses (·) d u → u ∈ (a.compared I db outer).1 := fun u hu =>
    hfits u (hb.uses u ((PartsOf.conjuncts hb.wellFormed hb.isExpression).uses d hd u hu)).1
  rw [h d (hb.conjuncts d hd) huses r hr s hs heq]

/-- If an operator keeps the rows that hold of what is moved below it, the rest of the predicate keeps those of the whole. -/
theorem rows_of_rests {a t t' b : Tree} {ds es : List Tree} {fs gs : List NodeId} (h : Split q ds es) (hb : Conjoins ds b fs)
    (ht : t.rows I db outer = (a.rows I db outer).filter ((b.meaning I db).holds outer)) (hr : Rests es gs t t') :
    t'.rows I db outer = (Tree.node n .filter [a, q]).rows I db outer := by
  rw [hr.rows, ht, rows_filter, List.filter_filter]
  refine List.filter_congr fun r _ => ?_
  rw [h.holds, hb.holds, Bool.and_comm]

theorem Pushed.rows {a t' : Tree} {fits : VarId → Prop} {above : Tree → Tree → Prop} (h : Pushed q fits above t')
    (habove : ∀ b t, GoesBelow q fits b → above b t → t.rows I db outer = (a.rows I db outer).filter ((b.meaning I db).holds outer)) :
    t'.rows I db outer = (Tree.node n .filter [a, q]).rows I db outer := by
  obtain ⟨hsplit, hfits, hb, ht, hr⟩ := h
  exact rows_of_rests hsplit hb (habove _ _ (goesBelow_of_split hsplit hfits hb) ht) hr

/-! ### Rules that settle nothing -/

theorem filterOverFilter_keepsRows : filterOverFilter.KeepsRows :=
  filterOverFilter_makes.keepsRows fun _ _ hmade I db outer _ _ => by
    obtain ⟨-, -, n, m, x, q', q, n', b, rfl, rfl⟩ := hmade
    rw [rows_filter, rows_filter, rows_filter, List.filter_filter]
    exact List.filter_congr fun r _ => by rw [holds_and, Bool.and_comm]

theorem filterOverDistinct_keepsRows : filterOverDistinct.KeepsRows :=
  filterOverDistinct_makes.keepsRows fun _ _ hmade I db outer hI _ => by
    obtain ⟨-, -, n, m, keys, x, q, rfl, hpushed⟩ := hmade
    refine hpushed.rows ?_
    rintro b t hb ⟨k, l, rfl⟩
    exact rows_distinct_filter (hb.agrees hI fun u hu => by simpa [defines_node, compared] using hu)

theorem filterOverProject_keepsRows : filterOverProject.KeepsRows :=
  filterOverProject_makes.keepsRows fun _ ht hmade I db outer _ _ => by
    obtain ⟨-, -, n, g, outputs, x, m, ds, q, s, σ, q', n', l, rfl, hscalar, hσ, hsub, rfl⟩ := hmade
    have hg := ht.first
    obtain rfl := hσ.all (nodup_vars hg (i := 1) rfl) fun _ _ => rfl
    exact rows_project_filter ht hσ.scalar hscalar hsub.fills

theorem filterOverGroupBy_keepsRows : filterOverGroupBy.KeepsRows :=
  filterOverGroupBy_makes.keepsRows fun _ ht hmade I db outer hI _ => by
    obtain ⟨-, -, n, g, keys, outputs, x, m, ds, y, q, rfl, hkeys, hscalar, hpushed⟩ := hmade
    have hg := ht.first
    refine hpushed.rows ?_
    rintro b t hb ⟨s, σ, b', k, l, hσ, hsub, rfl⟩
    obtain rfl := hσ.all (nodup_vars hg (i := 1) rfl) fun _ _ => rfl
    refine rows_groupBy_filter hkeys hg (hb.agrees hI fun u hu => hu) hσ.scalar (hb.scalar hscalar) hb.wellFormed (fun u hu => ?_) hsub.fills
    obtain ⟨hkey, huse⟩ := hb.uses u hu
    -- A key that is not shown is brought into being below and cannot be used above.
    rcases ht.defines_or huse with hdef | hno
    · exact ⟨hkey, by simpa [defines_node] using hdef⟩
    · exact absurd (key_mem_binds hg.inScope hkey) hno

theorem filterOverOuterApply_keepsRows : filterOverOuterApply.KeepsRows :=
  filterOverOuterApply_makes.keepsRows fun hs _ hmade I db outer _ hI => by
    obtain ⟨-, -, n, a, x, y, q, n', a', rfl, ⟨i, ansi, hi, hno⟩, rfl⟩ := hmade
    obtain ⟨-, hwfa, hwfq⟩ := wellFormed_filter.mp hs.wellFormed
    obtain ⟨⟨-, hy⟩, -, hwfy⟩ := wellFormed_outerApply.mp hwfa
    rw [rows_filter, rows_filter, rows_crossApply, rows_outerApply]
    exact (filter_flatMap_orNulls fun l _ => not_holds_nulls hI hy hwfy hi hwfq hno).symm

theorem filterWithConstantPredicate_keepsRows : filterWithConstantPredicate.KeepsRows :=
  filterWithConstantPredicate_makes.keepsRows fun hs _ hmade I db outer _ _ => by
    obtain ⟨n, x, q, rfl, hconstant, hmade⟩ := hmade
    obtain ⟨m, b, rfl⟩ := looks (wellFormed_filter.mp hs.wellFormed).2.2 hconstant
    have hholds : ∀ I db outer r, ((Tree.node m (.constantPredicate b) []).meaning I db).holds outer r = b := fun I db outer r => by
      rw [meaning_node]
      rfl
    obtain htrue | @⟨i, ds, es, n', l, k, s, hfalse, -, -, -, -, -⟩ := hmade
    · obtain rfl : b = true := htrue
      rw [rows_filter, List.filter_eq_self.mpr fun r _ => hholds I db outer r]
    · obtain rfl : b = false := hfalse
      have hnone : ∀ {a : Tree} {n : NodeId}, (Tree.node n .filter [a, .node m (.constantPredicate false) []]).rows I db outer = [] :=
        fun {a n} => by
          rw [rows_filter, List.filter_eq_nil_iff]
          exact fun r _ => by simp only [hholds, Bool.false_eq_true, not_false_eq_true]
      rw [rows_project, hnone, hnone, List.map_nil]

/-! ### Joins -/

theorem filterSide_pure (n : NodeId) (part : Option NodeId) : filterSide pure n part = liftM (withRest n part) := by
  cases part with
  | none => rfl
  | some b => exact bind_pure _

section Join
variable {j : NodeId} {op : Op} {condition equal : Option Tree} {x' y' t : Tree} {ds₃ : List Tree} {fs₃ : List NodeId}

theorem rows_join (h : IsJoin op condition) (hin : op ≠ .leftOuterJoin) :
    (Tree.node j op ([x, y] ++ condition.toList)).rows I db outer = (x.rows I db outer).flatMap fun l =>
      ((y.rows I db outer).map l.merge).filter (allHold I db condition.toList outer) := by
  rcases h with ⟨rfl, rfl⟩ | ⟨rfl | rfl, e, rfl⟩
  · refine rows_crossJoin.trans (flatMap_congr rfl fun l _ => ?_)
    exact (List.filter_eq_self.mpr fun _ _ => rfl).symm
  · rw [Option.toList_some, funext (allHold_singleton e outer)]
    exact rows_innerJoin
  · exact absurd rfl hin

theorem rows_outerJoin (h : IsJoin .leftOuterJoin condition) :
    (Tree.node j .leftOuterJoin ([x, y] ++ condition.toList)).rows I db outer = (x.rows I db outer).flatMap fun l =>
      l.orNulls (y.meaning I db).columns (((y.rows I db outer).map l.merge).filter (allHold I db condition.toList outer)) := by
  rcases h with ⟨hno, -⟩ | ⟨-, e, rfl⟩
  · cases hno
  · rw [Option.toList_some, funext (allHold_singleton e outer)]
    exact rows_leftOuterJoin

/-- The new join is outer if the old one is, and its condition is the old one and what was split off. -/
theorem Joins.exists_condition (h : Joins op condition equal x y t) (hop : IsJoin op condition) (h₃ : Conjunction ds₃ fs₃ equal) :
    ∃ k op' condition', t = .node k op' ([x, y] ++ Option.toList condition') ∧ IsJoin op' condition' ∧
      (op' = .leftOuterJoin ↔ op = .leftOuterJoin) ∧ ∀ I db outer r, allHold I db condition'.toList outer r =
        (allHold I db condition.toList outer r && allHold I db ds₃ outer r) := by
  have hnone : op = .crossJoin → condition = none := by
    rintro rfl
    obtain ⟨-, hnone⟩ | ⟨hop | hop, -⟩ := hop
    · exact hnone
    · cases hop
    · cases hop
  cases h with
  | @cross k hcross hequal =>
    subst hequal
    obtain rfl := hnone hcross
    obtain rfl : ds₃ = [] := h₃
    exact ⟨k, _, none, rfl, .inl ⟨rfl, rfl⟩, by rw [hcross], fun _ _ _ _ => rfl⟩
  | @equal k b hcross hequal =>
    subst hequal
    obtain rfl := hnone hcross
    refine ⟨k, _, some b, rfl, .inr ⟨.inl rfl, b, rfl⟩, by simp [hcross], fun I db outer r => ?_⟩
    exact (allHold_singleton b outer r).trans (Conjoins.holds h₃ outer r)
  | @same k e hcond hequal =>
    subst hcond hequal
    obtain rfl : ds₃ = [] := h₃
    exact ⟨k, op, some e, rfl, hop, .rfl, fun I db outer r => (Bool.and_true _).symm⟩
  | @both k a e b hcond hequal =>
    subst hcond hequal
    have hop' : op = .innerJoin ∨ op = .leftOuterJoin := by
      rcases hop with ⟨-, hno⟩ | ⟨hop, -⟩
      · cases hno
      · exact hop
    refine ⟨k, op, some (.node a (.scalar .and .boolean) [e, b]), rfl, .inr ⟨hop', _, rfl⟩, .rfl, fun I db outer r => ?_⟩
    rw [Option.toList_some, Option.toList_some, allHold_singleton, allHold_singleton, holds_and, Conjoins.holds h₃]

variable {op' : Op} {p' : Plan} {s : JoinSplit} {ds₁ ds₂ es : List Tree} {fs₁ fs₂ gs : List NodeId} {t' : Tree}

theorem rows_of_splits (hnull : I.RejectsNull) (hsp : Splits j op op' x y q p p' s ds₁ ds₂ ds₃ es fs₁ fs₂ fs₃)
    (ht : Valid k (·) (.node n .filter [.node j op ([x, y] ++ condition.toList), q])) (hop : IsJoin op condition)
    (hx : Rests ds₁ fs₁ x x') (hy : Rests ds₂ fs₂ y y') (h₃ : Conjunction ds₃ fs₃ equal) (hJ : Joins op' condition equal x' y' t)
    (hr : Rests es gs t t') :
    t'.rows I db outer = (Tree.node n .filter [.node j op ([x, y] ++ condition.toList), q]).rows I db outer := by
  obtain ⟨⟨-, hq⟩, hwfj, hwfq⟩ := wellFormed_filter.mp ht.wellFormed
  obtain ⟨-, ⟨hrel, hwfy⟩, -⟩ := (wellFormed_join hop).mp hwfj
  have hvq := ht.second
  have hvj := ht.first
  have hparts : ∀ d ∈ q.conjuncts, d.wellFormed ∧ Scoped (·) d := fun d hd =>
    ⟨(wellFormed_conjuncts hwfq hq d hd).1, (PartsOf.conjuncts hwfq hq).inScope hvq.inScope d hd⟩
  obtain ⟨m, op'', condition', rfl, hop'', houter, hboth⟩ := hJ.exists_condition (isJoin_of_splits hop hsp) h₃
  -- The pairs of the sides as they were, whatever becomes of left rows without a match.
  have pairs (hin : op'' ≠ .leftOuterJoin) : t'.rows I db outer = ((x.rows I db outer).flatMap fun l =>
      ((y.rows I db outer).map l.merge).filter (allHold I db condition.toList outer)).filter ((q.meaning I db).holds outer) := by
    rw [filter_join hvj hsp.perm hparts hsp.leftUses hsp.rightUses, hr.rows, rows_join hop'' hin, hx.rows, hy.rows,
      funext (hboth I db outer)]
  rw [rows_filter]
  rcases hsp.rejects with ⟨rfl, -⟩ | ⟨hlo, rfl, -, i, ansi, hi, hno⟩
  · by_cases hin : op' = .leftOuterJoin
    · subst hin
      obtain ⟨rfl, rfl⟩ := hsp.outer rfl
      obtain rfl := houter.mpr rfl
      have hy' : y'.rows I db outer = y.rows I db outer := by
        rw [hy.rows]
        exact List.filter_eq_self.mpr fun _ _ => rfl
      have hsame : ∀ r, allHold I db condition'.toList outer r = allHold I db condition.toList outer r := fun r =>
        (hboth I db outer r).trans (Bool.and_true _)
      rw [rows_outerJoin hop, filter_leftOuterJoin hvj hrel (by simpa using hsp.perm) hparts hsp.leftUses, hr.rows,
        rows_outerJoin hop'', hx.rows, hy', hy.columns, funext hsame]
    · rw [pairs (mt houter.mp hin), rows_join hop hin]
  · obtain rfl : op = .leftOuterJoin := by
      rcases hop with ⟨rfl, -⟩ | ⟨rfl | rfl, -⟩
      · cases hlo
      · cases hlo
      · rfl
    rw [pairs (mt houter.mp nofun), rows_outerJoin hop]
    exact (filter_flatMap_orNulls fun l _ => not_holds_nulls hnull hrel hwfy hi hwfq hno).symm

end Join

theorem overJoin_keepsRows {name : String} {k : OpKind} {count : Nat} (hk : k = .crossJoin ∨ k = .innerJoin ∨ k = .leftOuterJoin) :
    (⟨name, filterPattern k count, overJoin⟩ : Rule).KeepsRows := by
  intro k' c p t hs ht hmatch
  rw [Pattern.holds_eq_fits _ hs.holds] at hmatch
  obtain ⟨n, a, q, rfl, rfl, hwfa, hq, hwfq⟩ := exists_filter hs.wellFormed hmatch
  obtain ⟨j, op, x, y, condition, rfl, hop⟩ := exists_join hwfa hk
  refine HaltsIn.ends (P := False) ?_
  show HaltsIn (overJoin pure n) c p _
  refine .bind (splitJoin_halts hs.holds hs.wellFormed) ?_
  rintro out c p₁ ⟨rfl, hk₁, hout⟩
  cases out with
  | none => exact .pure nofun
  | some s =>
    obtain ⟨op', ds₁, ds₂, ds₃, es, fs₁, fs₂, fs₃, hsp⟩ := hout s rfl
    obtain ⟨b₁, hid₁, hheld₁, h₁⟩ := hsp.leftPart.exists_tree
    obtain ⟨b₂, hid₂, hheld₂, h₂⟩ := hsp.rightPart.exists_tree
    obtain ⟨b₃, hid₃, hheld₃, h₃⟩ := hsp.joinPart.exists_tree
    have hsides := derives_of_splits hs hsp h₁ h₂ h₃ hheld₁ hheld₂ hheld₃
    have hop' := isJoin_of_splits hop hsp
    have hes : PartsOf q es := ((PartsOf.conjuncts hwfq hq).perm hsp.perm.symm).right.right.right
    dsimp only
    rw [hsp.left, hsp.right, hid₁, hid₂, filterSide_pure, filterSide_pure]
    refine .step (withRest_derives h₁ hsides) ?_
    rintro _ p₂ ⟨x', rfl, hrx, hd₂⟩
    have hd₂ := hd₂.perm (List.perm_append_comm_assoc [x'] ([y] ++ b₂.toList) (condition.toList ++ (b₃.toList ++ es)))
    refine .step (withRest_derives h₂ hd₂) ?_
    rintro _ p₃ ⟨y', rfl, hry, hd₃⟩
    have hd₃ := hd₃.perm (List.Perm.swap x' y' (condition.toList ++ (b₃.toList ++ es)))
    have hcond := conditioned_of_keeps hop' (hs.holds.of_mem (List.mem_cons_self ..)) hd₃.keeps (nodup_pieces hs.ids).2
    refine (joinAgain_halts hsp.join hsp.kind hsp.rest hid₃ hcond hes hd₃).mono ?_
    rintro out c₄ p₄ hagain n' rfl
    obtain ⟨-, t, t', gs, rfl, hJ, hrests, hd₄⟩ := hagain.some n' rfl
    exact ⟨t', hd₄.tree?, fun I db outer _ hnull => rows_of_splits hnull hsp ht hop hrx hry h₃ hJ hrests⟩

/-! ### Set operators -/

section SetOp
variable {m l : NodeId} {kind : SetKind} {outputs : VarSet} {left right es : VarMap} {b e e' : Tree} {σ : List (VarId × Tree)}

theorem rows_branch (hx : Valid k (·) x) {size : Nat} (hσ : List.Forall₂ (Refers size) es.entries σ)
    (hs : e.isScalar) (hwf : e.wellFormed)
    (huses : ∀ u, Uses (·) e u → u ∈ outputs ∧ ∃ w, es.get? u = some w ∧ Defines (·) x w) (h : Fills σ e e')
    (hsame : ∀ outer r, (e.meaning I db).holds outer r = (b.meaning I db).holds outer r) :
    (Tree.node l .filter [x, e']).rows I db outer =
      (x.rows I db outer).filter fun s => (b.meaning I db).holds outer (s.renamed outputs es) := by
  have hrefers : List.Forall₂ (fun e s => s.1 = e.1 ∧ ∃ n type, s.2 = Tree.node n (.varRef e.2 type) []) es.entries σ :=
    hσ.imp fun _ _ ⟨heq, n, type, ht, _⟩ => ⟨heq, n, type, ht⟩
  rw [rows_filter]
  refine List.filter_congr fun r hr => ?_
  rw [holds_of_references hrefers hs hwf (fun u hu => ?_) h, hsame]
  obtain ⟨ho, w, hw, hdef⟩ := huses u hu
  exact ⟨ho, w, hw, read_merge_of_defines hx.wellFormed hx.inScope hr hdef⟩

theorem defines_branches (ha : Valid k (·) (.node m (.combine kind outputs left right) [x, y])) {u : VarId} (hu : u ∈ outputs) :
    (∃ w, left.get? u = some w ∧ Defines (·) x w) ∧ ∃ w, right.get? u = some w ∧ Defines (·) y w := by
  obtain ⟨-, hl, hr⟩ := wellFormed_setOp.mp ha.wellFormed
  obtain ⟨-, hneeds, -⟩ := scoped_node.mp ha.inScope
  obtain ⟨w, hw⟩ := hl u hu
  obtain ⟨w', hw'⟩ := hr u hu
  refine ⟨⟨w, hw, ?_⟩, w', hw', ?_⟩
  · simpa using hneeds (w, [0]) (List.mem_append_left _ (List.mem_map.mpr ⟨(u, w), VarMap.mem_entries_of_get? hw, rfl⟩))
  · simpa using hneeds (w', [1]) (List.mem_append_right _ (List.mem_map.mpr ⟨(u, w'), VarMap.mem_entries_of_get? hw', rfl⟩))

theorem overSetOp_keepsRows {name : String} {k : OpKind} {count : Nat} (hk : k = .unionAll ∨ k = .intersect ∨ k = .except) :
    (⟨name, filterPattern k count, overSetOp⟩ : Rule).KeepsRows := by
  intro k' c p t hs ht hmatch
  rw [Pattern.holds_eq_fits _ hs.holds] at hmatch
  obtain ⟨n, a, q, rfl, rfl, hwfa, hq, hwfq⟩ := exists_filter hs.wellFormed hmatch
  obtain ⟨m, kind, outputs, left, right, x, y, rfl⟩ := exists_setOp hwfa hk
  have hvq := ht.second
  have hva := ht.first
  have hvx := hva.first
  have hvy := hva.second
  obtain ⟨⟨⟨hx, -⟩, hy, -⟩, -⟩ := wellFormed_setOp.mp hwfa
  refine HaltsIn.ends (P := False) ?_
  refine .bind (splitPredicate_halts hs.holds hs.wellFormed) ?_
  rintro ⟨pushed, rest⟩ c p₁ ⟨rfl, ds, es, fs, gs, hsplit, hfits, h₁, hb₁, hb₂⟩
  cases pushed with
  | none => exact .pure nofun
  | some b =>
    obtain ⟨b, rfl, hb, hc⟩ := hb₁
    obtain ⟨rest, rfl, hheld, hrest⟩ := hb₂.exists_tree
    have hbelow := goesBelow_of_split hsplit hfits hc
    have huses : ∀ u, Uses (·) b u → u ∈ outputs := fun u hu => by simpa [Fits, defines_node] using (hbelow.uses u hu).1
    have hagrees {I : Interpretation} {db : Database} {outer : Row}
        (hI : (Tree.node n .filter [.node m (.combine kind outputs left right) [x, y], q]).Discerning I db outer) :
        (Tree.node m (.combine kind outputs left right) [x, y]).Agrees I db outer b := by
      cases kind with
      | unionAll => nofun
      | _ => exact hbelow.agrees hI fun u hu => by simpa [Fits, defines_node, compared] using hu
    have ht₁ := h₁.keeps.still hs.holds
    have ha : p₁.Holds (.node m (.combine kind outputs left right) [x, y]) := ht₁.of_mem (by simp)
    have hpieces := derives_of_pushed hs hsplit h₁ hb hc hheld hrest
    refine .tree hb (.ite (fun _ => .pure nofun) fun hscalar => ?_)
    have hscalar : b.isScalar := by simpa using hscalar
    refine .read (ht₁.child_run rfl) (.read ha.op_run (.read (ha.child_run rfl) (.read (ha.child_run rfl) ?_)))
    refine .bind (references_halts left) ?_
    rintro _ c p₂ ⟨rfl, σ, rfl, hrefers, hoffers, h₂⟩
    by_cases hexc : kind = .except
    · subst hexc
      simp only [if_true, pure_bind]
      refine .step (substitute_derives (hpieces.still h₂) hoffers (Refers.disjoint hrefers hb.ids_lt) ⟨hscalar, hc.wellFormed⟩) ?_
      rintro _ p₃ ⟨b', rfl, hsub, h₃⟩
      refine .step (create_halts [x, b'] fun t ht => h₃.holds t (List.mem_append_left _ ht)) fun l p₄ h₄ => ?_
      refine (combineRest_halts hrest (h₃.create h₄)).mono ?_
      rintro _ _ p₅ ⟨rfl, k, t', rfl, hrests, hd⟩ n' ⟨⟩
      refine ⟨t', hd.tree?, fun I db outer hI _ => rows_of_rests hsplit hc ?_ hrests⟩
      refine rows_combine_filter (hagrees hI) ?_ (if_pos rfl).symm
      exact rows_branch hvx hrefers hscalar hc.wellFormed (fun u hu => ⟨huses u hu, (defines_branches hva (huses u hu)).1⟩) hsub.fills
        fun _ _ => rfl
    · simp only [hexc, if_false]
      refine .step (copyExpr_derives (hpieces.still h₂) hscalar hc.wellFormed) ?_
      rintro _ p₃ ⟨e, rfl, hd₃, hse, hwfe, hmirrors, h₃, hge⟩
      have hoffers₃ : p₃.Offers σ := fun s hs => ⟨h₃.still (hoffers s hs).1, (hoffers s hs).2⟩
      have hdis : ∀ s ∈ σ, ∀ z ∈ s.2.ids, z ∉ e.ids := fun s hs z hz hze =>
        Nat.not_lt.mpr (hge z hze) ((hoffers s hs).1.ids_lt z hz)
      refine .step (substitute_derives hd₃ hoffers₃ hdis ⟨hse, hwfe⟩) ?_
      rintro _ p₄ ⟨e', rfl, hsub, h₄⟩
      refine .step (create_halts [x, e'] fun t ht => h₄.holds t (List.mem_append_left _ ht)) fun l p₅ h₅ => ?_
      simp only [pure_bind]
      refine .bind (references_halts right) ?_
      rintro _ c p₆ ⟨rfl, σ', rfl, hrefers', hoffers', h₆⟩
      have hd₅ := h₄.create h₅
      have hd₆ := (hd₅.still h₆).perm
        ((show ([Tree.node l .filter [x, e']] ++ [y, b]).Perm ([y, b] ++ [_]) from List.perm_append_comm).append_right rest.toList)
      refine .step (substitute_derives hd₆ hoffers' (Refers.disjoint hrefers' (hd₅.holds b (by simp)).ids_lt) ⟨hscalar, hc.wellFormed⟩) ?_
      rintro _ p₇ ⟨b', rfl, hsub', h₇⟩
      refine .step (create_halts [y, b'] fun t ht => h₇.holds t (List.mem_append_left _ ht)) fun l' p₈ h₈ => ?_
      refine (combineRest_halts hrest ((h₇.create h₈).perm (List.Perm.swap _ _ _))).mono ?_
      rintro _ _ p₉ ⟨rfl, k, t', rfl, hrests, hd⟩ n' ⟨⟩
      refine ⟨t', hd.tree?, fun I db outer hI _ => rows_of_rests hsplit hc ?_ hrests⟩
      refine rows_combine_filter (hagrees hI) ?_ (.trans ?_ (if_neg hexc).symm)
      · refine rows_branch hvx hrefers hse hwfe (fun u hu => ?_) hsub.fills fun outer r => ?_
        · have hu := huses u ((hmirrors.uses_iff hscalar).mp hu)
          exact ⟨hu, (defines_branches hva hu).1⟩
        · rw [Meaning.holds, Meaning.holds, hmirrors.value_eq hscalar hc.wellFormed]
      · exact rows_branch hvy hrefers' hscalar hc.wellFormed (fun u hu => ⟨huses u hu, (defines_branches hva (huses u hu)).2⟩)
          hsub'.fills fun _ _ => rfl

end SetOp

/-! ### All of them -/

theorem filterRules_keepRows : ∀ rule ∈ filterRules, rule.KeepsRows := by
  simp only [filterRules, List.forall_mem_cons]
  exact ⟨filterWithConstantPredicate_keepsRows, overJoin_keepsRows (.inl rfl), filterOverDistinct_keepsRows,
    overSetOp_keepsRows (.inr (.inr rfl)), filterOverFilter_keepsRows, filterOverGroupBy_keepsRows, overJoin_keepsRows (.inr (.inl rfl)),
    overSetOp_keepsRows (.inr (.inl rfl)), overJoin_keepsRows (.inr (.inr rfl)), filterOverProject_keepsRows,
    overSetOp_keepsRows (.inl rfl), filterOverOuterApply_keepsRows, List.forall_mem_nil _⟩

/-- What a filter rule makes of a filter has the rows of the filter for every database and outer row, whatever the run's
    options say of nulls, if no null matches a pattern. Over an operator that compares rows, which are the intersection, the
    difference, `Distinct` and `GroupBy`, no rows may be taken for the same that a part of the predicate tells apart. -/
theorem filterRules_rows {rule : Rule} (hrule : rule ∈ filterRules) {p p' : Plan} {c c' : Context} {t : Tree}
    (hp : p.Holds t) (hids : t.ids.Nodup) (ht : Valid k (·) t) (hmatch : rule.pattern.holds p t.id = true)
    (hrun : rule.apply pure t.id c p = .ok ((some n, c'), p')) :
    ∃ t', p'.tree? n = some t' ∧ ∀ (I : Interpretation) (db : Database) (outer : Row), t.Discerning I db outer → I.RejectsNull →
      t'.rows I db outer = t.rows I db outer :=
  filterRules_keepRows rule hrule ⟨hp, hids, ht.wellFormed⟩ ht hmatch (some n) c' p' hrun n rfl

/-- `Filter(Distinct(UnionAll(t, u), o), o = 1.0)`, where `o` is an integer of `t` or a float of `u`. -/
def mergedTree : Tree :=
  .node 7 .filter [.node 3 (.distinct (.ofList [2])) [.node 2 (.combine .unionAll (.ofList [2]) (.ofList [(2, 0)]) (.ofList [(2, 1)]))
      [.node 0 (.scanTable ⟨0, "t", [0], .empty, none⟩) [], .node 1 (.scanTable ⟨1, "u", [1], .empty, none⟩) []]],
    .node 6 (.scalar .eq .boolean) [.node 4 (.varRef 2 .float) [], .node 5 (.constant (.float ⟨0x3ff0000000000000⟩)) []]]

def merged : Plan := mergedTree.plan 2 [⟨.column, "t.a", .int64⟩, ⟨.column, "u.b", .float⟩, ⟨.setOp, "", .float⟩]

theorem merged_valid : Valid 3 (·) mergedTree := by
  have hentries (w : VarId) : (VarMap.ofList [(2, w)]).entries = [(2, w)] := rfl
  exact .of_closed rfl (by simp [mergedTree, scoped_node, defines_node, hentries]) (by decide) (by decide) (by decide +kernel)

theorem filterRules_rows_merged :
    ∃ n c' p' t', filterOverDistinct.apply pure 7 (.start .standard) merged = .ok ((some n, c'), p') ∧ p'.tree? n = some t' ∧
      ∀ (I : Interpretation) (db : Database) (outer : Row), Function.Injective I.mark → I.RejectsNull →
        t'.rows I db outer = mergedTree.rows I db outer := by
  have hview : merged.tree? 7 = some mergedTree := rfl
  have hmatch : filterOverDistinct.pattern.holds merged 7 = true := by decide
  obtain ⟨n, c', p', hrun⟩ : ∃ n c' p', filterOverDistinct.apply pure 7 (.start .standard) merged = .ok ((some n, c'), p') :=
    exists_of_fires (by decide +kernel)
  obtain ⟨t', ht', hrows⟩ := filterRules_rows (t := mergedTree) (by simp [filterRules]) (holds_of_view (by decide) hview) (by decide)
    merged_valid hmatch hrun
  exact ⟨n, c', p', t', hrun, ht', fun I db outer hI => hrows I db outer (.of_injective hI merged_valid)⟩

/-- Values are told apart by their texts. -/
def texts : Interpretation :=
  { Interpretation.plain with
    mark := fun v => if v.isNull then .null else .string v.text
    mark_null := fun v h => by cases v <;> first | rfl | cases h }

/-- The integer 1 of `t` has the text of the float 1.0 of `u`, comes first, and does not pass the filter above. -/
theorem filterOverDistinct_coarse : Valid 3 (·) mergedTree ∧ texts.RejectsNull ∧
    ∃ n c' p' t', filterOverDistinct.apply pure 7 (.start .standard) merged = .ok ((some n, c'), p') ∧ p'.tree? n = some t' ∧
      ∃ db : Database, (mergedTree.rows texts db .empty).length = 0 ∧ (t'.rows texts db .empty).length = 1 := by
  let db : Database := fun name => if name = "t" then [[.int64 1]] else [[.float ⟨0x3ff0000000000000⟩]]
  have hmade : ((filterOverDistinct.apply pure 7 (.start .standard) merged).toOption.bind fun x => x.1.1.bind fun n =>
      (x.2.tree? n).map fun t' => (t'.rows texts db .empty).length) = some 1 := by decide +kernel
  obtain ⟨n, c', p', hrun⟩ : ∃ n c' p', filterOverDistinct.apply pure 7 (.start .standard) merged = .ok ((some n, c'), p') :=
    exists_of_fires (by decide +kernel)
  rw [hrun] at hmade
  obtain ⟨t', ht', hlength⟩ := Option.map_eq_some_iff.mp hmade
  exact ⟨merged_valid, fun _ _ => rfl, n, c', p', t', hrun, ht', db, by decide +kernel, hlength⟩

end Rules

end Planwright
