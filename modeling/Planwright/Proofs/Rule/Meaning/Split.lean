import Planwright.Proofs.Rule.Meaning.Scalar
import Planwright.Proofs.Rule.Remake.Filter
import Planwright.Proofs.Semantics.Reading

/-! Predicates taken apart and built again have their value in three-valued logic: the conjunction is associative and commutative,
    so its value is read off the parts, and they are kept. -/

namespace Planwright

open Run Planwright.Tree Plan

namespace Value

theorem connected_assoc (decides : Bool) (a b c : Value) :
    (a.connected decides b).connected decides c = a.connected decides (b.connected decides c) := by
  unfold connected
  cases decides <;> cases a.isNull <;> cases a.holds <;> cases b.isNull <;> cases b.holds <;> cases c.isNull <;> cases c.holds <;> rfl

def allOf (vs : List Value) : Value := vs.foldr (connected false) (.boolean true)

theorem isLogical_connected (decides : Bool) (a b : Value) : (a.connected decides b).isLogical := by
  unfold connected
  split
  · rfl
  · split <;> rfl

theorem isLogical_allOf (vs : List Value) : (allOf vs).isLogical := by
  cases vs with
  | nil => rfl
  | cons v vs => exact isLogical_connected ..

theorem allOf_singleton {v : Value} (h : v.isLogical) : allOf [v] = v := connected_boolean h

theorem allOf_append (vs ws : List Value) : allOf (vs ++ ws) = (allOf vs).connected false (allOf ws) := by
  induction vs with
  | nil =>
    rw [List.nil_append, connected_comm]
    exact (@connected_boolean false true _ (isLogical_allOf ws)).symm
  | cons v vs ih =>
    show v.connected false (allOf (vs ++ ws)) = _
    rw [ih, ← connected_assoc]
    rfl

theorem allOf_perm {vs ws : List Value} (h : vs.Perm ws) : allOf vs = allOf ws :=
  haveI : Std.Commutative (connected false) := ⟨connected_comm false⟩
  haveI : Std.Associative (connected false) := ⟨connected_assoc false⟩
  h.foldr_op_eq

end Value

namespace Tree

variable {q : Tree} {ds : List Tree} {fs : List NodeId} {out : Option NodeId}

theorem conjuncts_of_mem (q : Tree) : ∀ d ∈ q.conjuncts, d.conjuncts = [d] := by
  fun_induction conjuncts q with
  | case1 id type a b iha ihb => exact List.forall_mem_append.mpr ⟨iha, ihb⟩
  | case2 q hq =>
    intro d hd
    rw [List.mem_singleton] at hd
    rw [hd, conjuncts]
    exact hq

theorem flatMap_conjuncts (h : ∀ d ∈ ds, ∃ q : Tree, d ∈ q.conjuncts) : ds.flatMap conjuncts = ds := by
  rw [List.flatMap_congr fun d hd => (h d hd).elim fun q hq => conjuncts_of_mem q d hq]
  exact List.flatMap_singleton' ds

/-- An equality between a variable of each side. -/
def EquatesSides (left right : VarSet) (d : Tree) : Prop :=
  ∃ id type i a ta j b tb, d = node id (.scalar .eq type) [node i (.varRef a ta) [], node j (.varRef b tb) []] ∧
    (a ∈ left ∧ b ∈ right ∨ b ∈ left ∧ a ∈ right)

theorem isSome_equiJoin? {left right : VarSet} {d : Tree} (hwf : d.wellFormed) :
    (d.equiJoin? left right).isSome ↔ EquatesSides left right d := by
  constructor
  · intro h
    unfold equiJoin? at h
    split at h
    · rename_i id type i a ta as j b tb bs rest
      obtain ⟨-, hwfs⟩ := wellFormed_node.mp hwf
      obtain rfl : rest = [] := by simpa using length_of_wellFormed hwf rfl
      have leaf {i v tv vs} (h : (node i (.varRef v tv) vs).wellFormed) : vs = [] :=
        List.eq_nil_of_length_eq_zero (length_eq_of_admits rfl (admits_of_wellFormed h))
      obtain rfl := leaf (hwfs (node i (.varRef a ta) as) (by simp))
      obtain rfl := leaf (hwfs (node j (.varRef b tb) bs) (by simp))
      refine ⟨id, type, i, a, ta, j, b, tb, rfl, ?_⟩
      split at h
      · rename_i hab
        exact .inl (Bool.and_eq_true_iff.mp hab)
      · split at h
        · rename_i hba
          exact .inr (Bool.and_eq_true_iff.mp hba)
        · cases h
    · cases h
  · rintro ⟨id, type, i, a, ta, j, b, tb, rfl, h⟩
    rw [equiJoin?]
    split
    · rfl
    · rename_i hab
      rw [if_pos (Bool.and_eq_true_iff.mpr (h.resolve_left fun h => hab (Bool.and_eq_true_iff.mpr h)))]
      rfl

def partsOf (t : Option Tree) : List Tree := t.elim [] conjuncts

variable (I : Interpretation) (db : Database) in
/-- The value of a predicate that may be missing, and then holds. -/
def valueOf (t : Option Tree) (env : Row) (group : List Row) : Value :=
  t.elim (.boolean true) fun t => (t.meaning I db).value env group

section Value
variable {I : Interpretation} {db : Database} {env : Row} {group : List Row}

theorem value_eq_allOf (h : ∀ d ∈ q.conjuncts, ((d.meaning I db).value env group).isLogical) :
    (q.meaning I db).value env group = .allOf (q.conjuncts.map fun d => (d.meaning I db).value env group) := by
  fun_induction conjuncts q with
  | case1 id type a b iha ihb =>
    obtain ⟨ha, hb⟩ := List.forall_mem_append.mp h
    rw [List.map_append, Value.allOf_append, ← iha ha, ← ihb hb, value_scalar]
    rfl
  | case2 q => exact (Value.allOf_singleton (h q (by simp))).symm

theorem valueOf_eq_allOf {t : Option Tree} (h : ∀ d ∈ partsOf t, ((d.meaning I db).value env group).isLogical) :
    valueOf I db t env group = .allOf ((partsOf t).map fun d => (d.meaning I db).value env group) := by
  cases t with
  | none => rfl
  | some t => exact value_eq_allOf h

end Value

/-- A predicate in two halves: the parts with a property and the others, each in order, as trees with the value of the whole
    between them. -/
structure InHalves (q : Tree) (P : Tree → Prop) (out : Predicate × Predicate) (a b : Option Tree) : Prop where
  partition : ∃ test : Tree → Bool, (∀ d ∈ q.conjuncts, test d = true ↔ P d) ∧
    out.1.parts = q.conjuncts.filter test ∧ out.2.parts = q.conjuncts.filter (!test ·)
  first : partsOf a = out.1.parts
  second : partsOf b = out.2.parts
  value : ∀ I db env group, (∀ d ∈ q.conjuncts, ((d.meaning I db).value env group).isLogical = true) →
    (valueOf I db a env group).connected false (valueOf I db b env group) = (q.meaning I db).value env group

theorem InHalves.of_halves {P : Tree → Prop} {test : Tree → Bool} {a b : Option Tree}
    (htest : ∀ d ∈ q.conjuncts, test d = true ↔ P d) (ha : partsOf a = q.conjuncts.filter test)
    (hb : partsOf b = q.conjuncts.filter (!test ·)) : InHalves q P (halves test q.conjuncts) a b where
  partition := ⟨test, htest, rfl, rfl⟩
  first := ha
  second := hb
  value I db env group h := by
    have hhalf (f : Tree → Bool) {t} (ht : partsOf t = q.conjuncts.filter f) : valueOf I db t env group =
        .allOf ((partsOf t).map fun d => (d.meaning I db).value env group) :=
      valueOf_eq_allOf fun d hd => h d (List.mem_filter.mp (ht ▸ hd)).1
    rw [hhalf test ha, hhalf _ hb, ← Value.allOf_append, ← List.map_append, ha, hb, value_eq_allOf h]
    exact Value.allOf_perm ((halves_perm test q.conjuncts).map _)

end Tree

namespace Plan

variable {p : Plan} {q : Tree} {ds : List Tree}

/-- The plan holds the expression that was built, if any was. -/
def HoldsBuilt (p : Plan) (out : Option NodeId) (t : Option Tree) : Prop :=
  out = t.map Tree.id ∧ ∀ b ∈ t, p.Holds b ∧ b.IsExpression ∧ b.wellFormed = true

theorem HoldsBuilt.still {p' : Plan} {out : Option NodeId} {t : Option Tree} (h : p.HoldsBuilt out t) (hk : Keeps ∅ p p') :
    p'.HoldsBuilt out t := ⟨h.1, fun b hb => ⟨hk.still (h.2 b hb).1, (h.2 b hb).2⟩⟩

theorem build_conjuncts (h : ∀ d ∈ ds, p.Holds d ∧ d.wellFormed ∧ d.IsExpression) :
    Reaches (Predicate.build ⟨ds⟩) p fun out p' => Keeps ∅ p p' ∧ ∃ t, p'.HoldsBuilt out t ∧ partsOf t = ds.flatMap conjuncts := by
  refine (build_reaches h).mono fun out p' ⟨fs, hg, hb⟩ => ⟨hg.keeps, ?_⟩
  obtain ⟨t, hout, hheld, hc⟩ := hb.exists_tree
  refine ⟨t, ⟨hout, fun b hb => ⟨hheld b hb, hc.wellFormed b hb⟩⟩, ?_⟩
  cases t with
  | none => rw [show ds = [] from hc]; rfl
  | some t => exact Conjoins.conjuncts hc

theorem buildHalves_reaches {P : Tree → Prop} {test : Tree → Bool} (hq : p.Holds q) (hwf : q.wellFormed) (he : q.IsExpression)
    (htest : ∀ d ∈ q.conjuncts, test d = true ↔ P d) : ∃ out₁ p₁ out₂ p₂ a b,
      (halves test q.conjuncts).1.build p = .ok (out₁, p₁) ∧ (halves test q.conjuncts).2.build p₁ = .ok (out₂, p₂) ∧
      p₂.HoldsBuilt out₁ a ∧ p₂.HoldsBuilt out₂ b ∧ InHalves q P (halves test q.conjuncts) a b := by
  have hparts (d) (hd : d ∈ q.conjuncts) := And.intro (hq.conjuncts d hd) (wellFormed_conjuncts hwf he d hd)
  have hfilter (f : Tree → Bool) : q.conjuncts.filter f ⊆ q.conjuncts := List.filter_subset_self _
  obtain ⟨out₁, p₁, hrun₁, hk₁, a, ha, hpa⟩ := build_conjuncts fun d hd => hparts d (hfilter test hd)
  obtain ⟨out₂, p₂, hrun₂, hk₂, b, hb, hpb⟩ := build_conjuncts (p := p₁) fun d hd =>
    ⟨hk₁.still (hparts d (hfilter (!test ·) hd)).1, (hparts d (hfilter _ hd)).2⟩
  rw [flatMap_conjuncts fun d hd => ⟨q, hfilter _ hd⟩] at hpa hpb
  exact ⟨out₁, p₁, out₂, p₂, a, b, hrun₁, hrun₂, ha.still hk₂, hb, .of_halves htest hpa hpb⟩

/-- A predicate loses nothing when it is split, by the variables of a table or by equalities between two sides, and both halves
    are built again; and what is built of parts of predicates has these parts. -/
theorem split_lossless (hq : p.Holds q) (hwf : q.wellFormed = true) (he : q.IsExpression) :
    (∀ table : VarSet, ∃ out p₁ out₁ p₂ out₂ p₃ a b, (Predicate.ofTree q).splitByTable table p = .ok (out, p₁) ∧
      out.1.build p₁ = .ok (out₁, p₂) ∧ out.2.build p₂ = .ok (out₂, p₃) ∧ p₃.HoldsBuilt out₁ a ∧ p₃.HoldsBuilt out₂ b ∧
      InHalves q (fun d => ∀ u, Uses (·) d u → u ∈ table) out a b) ∧
    (∀ left right : VarSet, ∃ out₁ p₁ out₂ p₂ a b, ((Predicate.ofTree q).splitByJoin left right).1.build p = .ok (out₁, p₁) ∧
      ((Predicate.ofTree q).splitByJoin left right).2.build p₁ = .ok (out₂, p₂) ∧ p₂.HoldsBuilt out₁ a ∧ p₂.HoldsBuilt out₂ b ∧
      InHalves q (EquatesSides left right) ((Predicate.ofTree q).splitByJoin left right) a b) ∧
    ∀ ts : List Tree, (∀ t ∈ ts, p.Holds t ∧ t.wellFormed = true ∧ t.IsExpression) → ∃ out p' b,
      (ts.foldl Predicate.addPart .empty).build p = .ok (out, p') ∧ p'.HoldsBuilt out b ∧
      partsOf b = (ts.foldl Predicate.addPart .empty).parts := by
  refine ⟨fun table => ?_, fun left right => ?_, fun ts hts => ?_⟩
  · obtain ⟨_, p₁, hrun, hk, test, rfl, htest⟩ : Reaches (Predicate.splitByTable table ⟨q.conjuncts⟩) p _ :=
      splitByTable_reaches hq.conjuncts fun d hd => (wellFormed_conjuncts hwf he d hd).1
    obtain ⟨out₁, p₂, out₂, p₃, a, b, h⟩ := buildHalves_reaches (hk.still hq) hwf he htest
    exact ⟨_, p₁, out₁, p₂, out₂, p₃, a, b, hrun, h⟩
  · rw [Predicate.ofTree, splitByJoin_eq]
    exact buildHalves_reaches hq hwf he fun d hd => isSome_equiJoin? (wellFormed_conjuncts hwf he d hd).1
  · have heq : ts.foldl Predicate.addPart .empty = ⟨ts.flatMap conjuncts⟩ := congrArg Predicate.mk (Predicate.parts_foldl_addPart ts .empty)
    rw [heq]
    obtain ⟨out, p', hrun, -, b, hb, hparts⟩ : Reaches (Predicate.build ⟨ts.flatMap conjuncts⟩) p _ := build_conjuncts fun d hd => by
      obtain ⟨t, ht, hd⟩ := List.mem_flatMap.mp hd
      obtain ⟨hheld, hwf, he⟩ := hts t ht
      exact ⟨hheld.conjuncts d hd, wellFormed_conjuncts hwf he d hd⟩
    refine ⟨out, p', b, hrun, hb, hparts.trans (flatMap_conjuncts fun d hd => ?_)⟩
    obtain ⟨t, -, hd⟩ := List.mem_flatMap.mp hd
    exact ⟨t, hd⟩

/-- `2 AND (0 = 1 AND NULL)`. -/
def joinedTree : Tree :=
  .node 6 (.scalar .and .boolean) [.node 0 (.varRef 2 .boolean) [], .node 5 (.scalar .and .boolean)
    [.node 3 (.scalar .eq .boolean) [.node 1 (.varRef 0 .int64) [], .node 2 (.varRef 1 .int64) []], .node 4 (.null .boolean) []]]

def joined : Plan := joinedTree.plan 0 [⟨.column, "t.a", .int64⟩, ⟨.column, "u.b", .int64⟩, ⟨.column, "t.c", .boolean⟩]

theorem split_lossless_joined : ∃ out₁ p₁ out₂ p₂ a b,
    ((Predicate.ofTree joinedTree).splitByJoin (.ofList [0, 2]) (.ofList [1])).1.build joined = .ok (out₁, p₁) ∧
    ((Predicate.ofTree joinedTree).splitByJoin (.ofList [0, 2]) (.ofList [1])).2.build p₁ = .ok (out₂, p₂) ∧
    (partsOf a).map Tree.id = [3] ∧ (partsOf b).map Tree.id = [0, 4] ∧
    ∀ I db env group, (env.read 2).isLogical = true →
      (valueOf I db a env group).connected false (valueOf I db b env group) = (joinedTree.meaning I db).value env group := by
  have hheld : joined.Holds joinedTree := holds_of_view (by decide) (show joined.tree? 6 = some joinedTree from rfl)
  obtain ⟨out₁, p₁, out₂, p₂, a, b, hrun₁, hrun₂, -, -, h⟩ :=
    (split_lossless hheld (by decide) rfl).2.1 (.ofList [0, 2]) (.ofList [1])
  refine ⟨out₁, p₁, out₂, p₂, a, b, hrun₁, hrun₂, by rw [h.first]; rfl, by rw [h.second]; rfl, fun I db env group hlogical => ?_⟩
  refine h.value I db env group fun d hd => ?_
  rcases List.mem_cons.mp hd with rfl | hd
  · exact hlogical
  · rcases List.mem_pair.mp hd with rfl | rfl
    · show (Value.compared .eq (env.read 0) (env.read 1)).isLogical = true
      unfold Value.compared
      split <;> rfl
    · rfl

end Plan

end Planwright
