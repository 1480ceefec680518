import Planwright.Rule.Group
import Planwright.Proofs.Plan.Holds
import Planwright.Proofs.Tree.Shape

/-! Matching. A pattern that holds of a node fits the tree below it, and what fits a pattern is well formed down to the
    wildcards, so that the operators a rule takes apart are known. -/

namespace Planwright

variable {k : OpKind} {t : Tree}

def Pattern.fits : Pattern → Tree → Bool
  | wildcard, _ => true
  | node k ps, t => t.kind == k && (ps.isEmpty || (ps.length == t.children.length && each ps t.children))
where
  each : List Pattern → List Tree → Bool
    | q :: qs, c :: cs => fits q c && each qs cs
    | _, _ => true

mutual

theorem Pattern.holds_eq_fits {p : Plan} : ∀ (pattern : Pattern) {t : Tree}, p.Holds t →
    pattern.holds p t.id = pattern.fits t
  | .wildcard, t, _ => by rw [holds, fits]
  | .node k ps, t, h => by
    obtain ⟨r, hr⟩ := h.has
    rw [holds, fits, hr.found]
    simp only [hr.op, hr.children, List.length_map]
    rw [each_eq_fits ps fun c hc => h.of_mem hc]
    rfl

theorem Pattern.each_eq_fits {p : Plan} : ∀ (ps : List Pattern) {cs : List Tree}, (∀ c ∈ cs, p.Holds c) →
    Pattern.holds.each p ps (cs.map Tree.id) = Pattern.fits.each ps cs
  | [], cs, _ => by rw [holds.each, fits.each] <;> simp
  | q :: qs, [], _ => by rw [List.map_nil, holds.each, fits.each] <;> simp
  | q :: qs, c :: cs, h => by
    rw [List.map_cons, holds.each, fits.each, Pattern.holds_eq_fits q (h c List.mem_cons_self),
      each_eq_fits qs fun d hd => h d (List.mem_cons_of_mem _ hd)]

end

theorem Pattern.each_iff {ps : List Pattern} {cs : List Tree} (hlen : ps.length = cs.length) :
    Pattern.fits.each ps cs = true ↔ List.Forall₂ (fun q c => q.fits c) ps cs := by
  induction ps generalizing cs with
  | nil =>
    obtain rfl : cs = [] := List.length_eq_zero_iff.mp hlen.symm
    simp [Pattern.fits.each]
  | cons q ps ih =>
    cases cs with
    | nil => cases hlen
    | cons c cs => rw [Pattern.fits.each, Bool.and_eq_true, List.forall₂_cons, ih (Nat.succ.inj hlen)]

theorem Pattern.fits_matching {ps : List Pattern} : (matching k ps).fits t ↔
    t.kind = k ∧ (ps = [] ∨ List.Forall₂ (fun q c => q.fits c) ps t.children) := by
  rw [Pattern.fits, Bool.and_eq_true, beq_iff_eq, Bool.or_eq_true, List.isEmpty_iff, Bool.and_eq_true, beq_iff_eq]
  refine and_congr_right' (or_congr_right ⟨fun ⟨hlen, h⟩ => (each_iff hlen).mp h, fun h => ?_⟩)
  exact ⟨h.length_eq, (each_iff h.length_eq).mpr h⟩

theorem Pattern.fits_two {r s : Pattern} {n : NodeId} {op : Op} {a b : Tree}
    (h : (matching k [r, s]).fits (.node n op [a, b]) = true) : r.fits a ∧ s.fits b := by
  simpa using (fits_matching.mp h).2

theorem kind_of_fits {ps : List Pattern} (h : (matching k ps).fits t) : t.kind = k :=
  (Pattern.fits_matching.mp h).1

theorem kind_of_matches {p : Plan} {ps : List Pattern} (ht : p.Holds t)
    (h : (matching k ps).holds p t.id) : t.kind = k :=
  kind_of_fits ((Pattern.holds_eq_fits _ ht).symm.trans h)

namespace Tree

theorem wellFormed_iff {id : NodeId} {op : Op} {cs : List Tree} :
    (node id op cs).wellFormed ↔ Shape op cs ∧ ∀ c ∈ cs, c.wellFormed :=
  wellFormed_node.trans (and_congr_left' ⟨shape_of_fits, fits_of_shape⟩)

theorem wellFormed_leaf {id : NodeId} {op : Op} (h : (op.kind.isScalar && op.kind != .element && op.kind.admits 0) = true) :
    (node id op []).wellFormed = true := by
  simp only [Bool.and_eq_true, bne_iff_ne] at h
  exact wellFormed_iff.mpr ⟨.scalar h.1.1 h.1.2 h.2 (List.forall_mem_nil _), List.forall_mem_nil _⟩

/-! ### Well-formed trees, operator by operator -/

section WellFormed
variable {n : NodeId} {x y q d e : Tree} {op : Op} {P : Prop}

theorem wellFormed_one (h : Shape op [x] ↔ P) : (node n op [x]).wellFormed ↔ P ∧ x.wellFormed := by
  rw [wellFormed_iff, List.forall_mem_singleton, h]

theorem wellFormed_two (h : Shape op [x, y] ↔ P) : (node n op [x, y]).wellFormed ↔ P ∧ x.wellFormed ∧ y.wellFormed := by
  rw [wellFormed_iff, List.forall_mem_cons, List.forall_mem_singleton, h]

theorem wellFormed_three (h : Shape op [x, y, q] ↔ P) : (node n op [x, y, q]).wellFormed ↔
    P ∧ x.wellFormed ∧ y.wellFormed ∧ q.wellFormed := by
  rw [wellFormed_iff, List.forall_mem_cons, List.forall_mem_cons, List.forall_mem_singleton, h]

@[simp] theorem wellFormed_filter : (node n .filter [x, q]).wellFormed ↔
    (x.IsRelational ∧ q.IsExpression) ∧ x.wellFormed ∧ q.wellFormed :=
  wellFormed_two ⟨fun | .filter hx hq => ⟨hx, hq⟩ | .scalar h _ _ _ => (nomatch h), fun h => .filter h.1 h.2⟩

@[simp] theorem wellFormed_project {outputs : VarSet} : (node n (.project outputs) [x, d]).wellFormed ↔
    (x.IsRelational ∧ d.kind = .varDefList) ∧ x.wellFormed ∧ d.wellFormed :=
  wellFormed_two ⟨fun | .project _ hx hd => ⟨hx, hd⟩ | .scalar h _ _ _ => (nomatch h), fun h => .project _ h.1 h.2⟩

@[simp] theorem wellFormed_crossJoin : (node n .crossJoin [x, y]).wellFormed ↔
    (x.IsRelational ∧ y.IsRelational) ∧ x.wellFormed ∧ y.wellFormed :=
  wellFormed_two ⟨fun | .crossJoin hx hy => ⟨hx, hy⟩ | .scalar h _ _ _ => (nomatch h), fun h => .crossJoin h.1 h.2⟩

@[simp] theorem wellFormed_crossApply : (node n .crossApply [x, y]).wellFormed ↔
    (x.IsRelational ∧ y.IsRelational) ∧ x.wellFormed ∧ y.wellFormed :=
  wellFormed_two ⟨fun | .crossApply hx hy => ⟨hx, hy⟩ | .scalar h _ _ _ => (nomatch h), fun h => .crossApply h.1 h.2⟩

@[simp] theorem wellFormed_outerApply : (node n .outerApply [x, y]).wellFormed ↔
    (x.IsRelational ∧ y.IsRelational) ∧ x.wellFormed ∧ y.wellFormed :=
  wellFormed_two ⟨fun | .outerApply hx hy => ⟨hx, hy⟩ | .scalar h _ _ _ => (nomatch h), fun h => .outerApply h.1 h.2⟩

@[simp] theorem wellFormed_innerJoin : (node n .innerJoin [x, y, q]).wellFormed ↔
    (x.IsRelational ∧ y.IsRelational ∧ q.IsExpression) ∧ x.wellFormed ∧ y.wellFormed ∧
      q.wellFormed :=
  wellFormed_three ⟨fun | .innerJoin hx hy hq => ⟨hx, hy, hq⟩ | .scalar h _ _ _ => (nomatch h),
    fun h => .innerJoin h.1 h.2.1 h.2.2⟩

@[simp] theorem wellFormed_leftOuterJoin : (node n .leftOuterJoin [x, y, q]).wellFormed ↔
    (x.IsRelational ∧ y.IsRelational ∧ q.IsExpression) ∧ x.wellFormed ∧ y.wellFormed ∧
      q.wellFormed :=
  wellFormed_three ⟨fun | .leftOuterJoin hx hy hq => ⟨hx, hy, hq⟩ | .scalar h _ _ _ => (nomatch h),
    fun h => .leftOuterJoin h.1 h.2.1 h.2.2⟩

@[simp] theorem wellFormed_distinct {keys : VarSet} : (node n (.distinct keys) [x]).wellFormed ↔
    x.IsRelational ∧ x.wellFormed :=
  wellFormed_one ⟨fun | .distinct _ hx => hx | .scalar h _ _ _ => (nomatch h), fun h => .distinct _ h⟩

@[simp] theorem wellFormed_groupBy {keys outputs : VarSet} :
    (node n (.groupBy keys outputs) [x, d, e]).wellFormed ↔ (x.IsRelational ∧ d.kind = .varDefList ∧
      e.kind = .varDefList) ∧ x.wellFormed ∧ d.wellFormed ∧ e.wellFormed :=
  wellFormed_three ⟨fun | .groupBy _ _ hx hd he => ⟨hx, hd, he⟩ | .scalar h _ _ _ => (nomatch h),
    fun h => .groupBy _ _ h.1 h.2.1 h.2.2⟩

@[simp] theorem wellFormed_varDefList {ds : List Tree} : (node n .varDefList ds).wellFormed ↔
    (∀ d ∈ ds, d.kind = .varDef) ∧ ∀ d ∈ ds, d.wellFormed := by
  rw [wellFormed_iff]
  exact and_congr_left' ⟨fun | .varDefList h => h | .scalar h _ _ _ => (nomatch h), .varDefList⟩

@[simp] theorem wellFormed_varDef {v : VarId} : (node n (.varDef v) [e]).wellFormed ↔
    e.IsExpression ∧ e.wellFormed :=
  wellFormed_one ⟨fun | .varDef _ he => he | .scalar h _ _ _ => (nomatch h), fun h => .varDef _ h⟩

@[simp] theorem wellFormed_element {type : ScalarType} : (node n (.scalar .element type) [x]).wellFormed ↔
    x.IsRelational ∧ x.wellFormed :=
  wellFormed_one ⟨fun | .element _ hx => hx | .scalar _ h _ _ => absurd rfl h, fun h => .element _ h⟩

@[simp] theorem isRelational_node {cs : List Tree} :
    (node n op cs).IsRelational ↔ op.kind.isRelational := Iff.rfl

@[simp] theorem isExpression_node {cs : List Tree} :
    (node n op cs).IsExpression ↔ op.kind.isScalar := Iff.rfl

end WellFormed

/-- What a well-formed tree with an operator of a kind on top looks like, for the kinds that rules take apart. -/
def Looks (t : Tree) : OpKind → Prop
  | .filter => ∃ n input predicate, t = .node n .filter [input, predicate]
  | .project => ∃ n outputs input defs, t = .node n (.project outputs) [input, defs]
  | .crossJoin => ∃ n left right, t = .node n .crossJoin [left, right]
  | .innerJoin => ∃ n left right predicate, t = .node n .innerJoin [left, right, predicate]
  | .leftOuterJoin => ∃ n left right predicate, t = .node n .leftOuterJoin [left, right, predicate]
  | .crossApply => ∃ n left right, t = .node n .crossApply [left, right]
  | .outerApply => ∃ n left right, t = .node n .outerApply [left, right]
  | .unionAll => ∃ n outputs l r left right, t = .node n (.combine .unionAll outputs l r) [left, right]
  | .intersect => ∃ n outputs l r left right, t = .node n (.combine .intersect outputs l r) [left, right]
  | .except => ∃ n outputs l r left right, t = .node n (.combine .except outputs l r) [left, right]
  | .distinct => ∃ n keys input, t = .node n (.distinct keys) [input]
  | .groupBy => ∃ n keys outputs input keyDefs aggregates,
      t = .node n (.groupBy keys outputs) [input, keyDefs, aggregates]
  | .singleRowTable => ∃ n, t = .node n .singleRowTable []
  | .varDefList => ∃ n defs, t = .node n .varDefList defs
  | .varDef => ∃ n v expr, t = .node n (.varDef v) [expr]
  | .varRef => ∃ n v type, t = .node n (.varRef v type) []
  | .internalConstant => ∃ n value, t = .node n (.internalConstant value) []
  | .nullSentinel => ∃ n, t = .node n .nullSentinel []
  | .constantPredicate => ∃ n holds, t = .node n (.constantPredicate holds) []
  | _ => True

theorem looks {t : Tree} (ht : t.wellFormed) {k : OpKind} (hk : t.kind = k) : t.Looks k := by
  subst hk
  obtain ⟨n, op, cs⟩ := t
  have none : op.kind.arity? = some 0 → op.kind.admits cs.length → cs = [] := fun h0 ha =>
    List.length_eq_zero_iff.mp (length_eq_of_admits h0 ha)
  cases (wellFormed_iff.mp ht).1 with
  | scalar hs hne ha =>
    cases op with
    | varRef v type =>
      obtain rfl := none rfl ha
      exact ⟨n, v, type, rfl⟩
    | internalConstant value =>
      obtain rfl := none rfl ha
      exact ⟨n, value, rfl⟩
    | nullSentinel =>
      obtain rfl := none rfl ha
      exact ⟨n, rfl⟩
    | constantPredicate holds =>
      obtain rfl := none rfl ha
      exact ⟨n, holds, rfl⟩
    | scalar kind => cases kind <;> trivial
    | combine kind => cases kind <;> cases hs
    | constant | null | aggregate => trivial
    | _ => cases hs
  | combine kind => cases kind <;> exact ⟨n, _, _, _, _, _, rfl⟩
  | scanTable | sort | constrainedSort | element => trivial
  | singleRowTable => exact ⟨n, rfl⟩
  | varDefList => exact ⟨n, _, rfl⟩
  | varDef | distinct | filter | crossJoin | crossApply | outerApply => exact ⟨n, _, _, rfl⟩
  | project | innerJoin | leftOuterJoin => exact ⟨n, _, _, _, rfl⟩
  | groupBy => exact ⟨n, _, _, _, _, _, rfl⟩

end Tree

open Rules in
theorem RuleGroup.mem_rules {group : RuleGroup} {rule : Rule} (h : rule ∈ group.rules) : rule ∈ applyRules ∨ rule ∈ filterRules ∨
    rule ∈ projectRules ∨ rule ∈ scalarRules ∨ rule ∈ distinctRules := by
  have hpost : ∀ rule ∈ postJoinFilterRules, rule ∈ filterRules := by
    simp [postJoinFilterRules, filterRules]
  have hnull : ∀ rule ∈ nullabilityRules, rule ∈ filterRules ∨ rule ∈ scalarRules := by
    simp [nullabilityRules, scalarRules, filterRules]
  cases group with
  | all =>
    simp only [rules, List.mem_append] at h
    tauto
  | project => exact .inr (.inr (.inl h))
  | postJoinElimination =>
    simp only [rules, List.mem_append] at h
    have := hpost rule
    tauto
  | nullability =>
    have := hnull rule h
    tauto

end Planwright
