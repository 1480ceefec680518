import Mathlib.Data.Finsupp.WellFounded
import Planwright.Proofs.Tree.Shape

/-! Outlines and their measures. Whether a rule may be applied to a tree again and again depends on the kinds of
    its operators, and on how large its predicates are. The measures are those that rules bring down, each as
    long as the ones before it stay as they are. -/

namespace Planwright

/-- A tree with nothing but the kinds of its operators. -/
inductive Outline
  | node (kind : OpKind) (children : List Outline)

/-- How many filters press on how many operators below them: for each number of operators that a filter may still be
    pushed through, the size of the predicates. Many small ones weigh less than one that has farther to go. -/
abbrev Load := Colex (ℕ →₀ ℕ)

namespace Outline

def kind : Outline → OpKind
  | node k _ => k

/-- Operators that rules remove, or put cheaper ones in the place of. Filters and projections are not counted, since
    rules also make them. -/
def opWeight : OpKind → Nat
  | .outerApply => 4
  | .crossApply => 3
  | .leftOuterJoin | .crossJoin | .scanTable => 2
  | .filter | .project => 0
  | k => if k.isRelational then 1 else 0

def weight : Outline → Nat
  | node k cs => opWeight k + (cs.map weight).sum

/-- The size of an expression, up to the relations in it. -/
def bulk : Outline → Nat
  | node k cs => if k.isRelational then 0 else 1 + (cs.map bulk).sum

/-- A single row with nothing but filters and projections above it. -/
def isRow : Outline → Bool
  | node .singleRowTable _ => true
  | node .filter [x, _] => isRow x
  | node .project [x, _] => isRow x
  | _ => false

/-- Definitions that are all of one node, so that putting them in for their variables makes nothing larger. -/
def isSlim : Outline → Bool
  | node .varDefList ds => ds.all fun d => decide (d.bulk ≤ 2)
  | _ => true

/-- No definition, or a marker alone: what an outer apply may leave below it when it moves a projection up. -/
def isLone : Outline → Bool
  | node .varDefList [] => true
  | node .varDefList [d] => isLone d
  | node .varDef [e] => isLone e
  | node .internalConstant _ => true
  | node .nullSentinel _ => true
  | _ => false

/-- What a projection weighs by its definitions. -/
def projectCost (ds : Outline) : Nat := if ds.isLone then 2 else 3

/-- How many projections may come out of the right side of an apply. -/
def hoist : Outline → Nat
  | node .filter [x, _] => hoist x + if isRow x then 3 else 0
  | node .project [x, ds] => hoist x + projectCost ds
  | node .crossApply [_, y] => 3 * hoist y
  | node .outerApply [_, y] => 3 * hoist y
  | _ => 0

/-- How many operators a filter over the relation may still be pushed through. -/
def reach : Outline → Nat
  | node .filter [x, _] => reach x
  | node .project [x, ds] => reach x + if isRow x && isSlim ds then 0 else 1
  | node .crossApply [_, y] => 1 + hoist y
  | node .outerApply [_, y] => 1 + hoist y
  | node k cs => if k.isRelational then 1 + (cs.map reach).foldr max 0 else 0

/-- The load of one filter. -/
noncomputable def pressure (reach size : Nat) : Load := toColex (Finsupp.single reach size)

noncomputable def load : Outline → Load
  | node .filter [x, p] => load x + load p + pressure (reach x) (bulk p + 2)
  | node _ cs => (cs.map load).sum

/-- What the projections weigh, those on the right side of an apply more than those above it. -/
def lift : Outline → Nat
  | node .project [x, ds] => lift x + lift ds + projectCost ds
  | node .crossApply [x, y] => lift x + 4 * lift y
  | node .outerApply [x, y] => lift x + 4 * lift y
  | node _ cs => (cs.map lift).sum

/-- The number of nodes, those below filters counted twice for each filter. -/
def extent : Outline → Nat
  | node .filter [x, p] => 2 * extent x + extent p + 1
  | node _ cs => (cs.map extent).sum + 1

/-! ### Operator by operator -/

section Equations
variable (x y p ds : Outline)

@[simp] theorem weight_node (k : OpKind) (cs : List Outline) : (node k cs).weight = opWeight k + (cs.map weight).sum := by
  rw [weight]

@[simp] theorem isRow_filter : (node .filter [x, p]).isRow = x.isRow := rfl

@[simp] theorem isRow_project : (node .project [x, ds]).isRow = x.isRow := rfl

@[simp] theorem isRow_crossApply : (node .crossApply [x, y]).isRow = false := rfl

@[simp] theorem isRow_outerApply : (node .outerApply [x, y]).isRow = false := rfl

@[simp] theorem hoist_filter : (node .filter [x, p]).hoist = x.hoist + if x.isRow then 3 else 0 := rfl

@[simp] theorem hoist_project : (node .project [x, ds]).hoist = x.hoist + ds.projectCost := rfl

@[simp] theorem hoist_crossApply : (node .crossApply [x, y]).hoist = 3 * y.hoist := rfl

@[simp] theorem hoist_outerApply : (node .outerApply [x, y]).hoist = 3 * y.hoist := rfl

@[simp] theorem reach_filter : (node .filter [x, p]).reach = x.reach := by rw [reach]

@[simp] theorem reach_project : (node .project [x, ds]).reach = x.reach + if x.isRow && ds.isSlim then 0 else 1 := by
  rw [reach]

@[simp] theorem reach_crossApply : (node .crossApply [x, y]).reach = 1 + y.hoist := by rw [reach]

@[simp] theorem reach_outerApply : (node .outerApply [x, y]).reach = 1 + y.hoist := by rw [reach]

@[simp] theorem load_filter :
    (node .filter [x, p]).load = x.load + p.load + pressure x.reach (p.bulk + 2) := by
  rw [load]

@[simp] theorem lift_project : (node .project [x, ds]).lift = x.lift + ds.lift + ds.projectCost := by rw [lift]

@[simp] theorem lift_crossApply : (node .crossApply [x, y]).lift = x.lift + 4 * y.lift := by rw [lift]

@[simp] theorem lift_filter : (node .filter [x, p]).lift = x.lift + p.lift := by
  rw [lift]
  · simp
  all_goals simp

@[simp] theorem lift_outerApply : (node .outerApply [x, y]).lift = x.lift + 4 * y.lift := by rw [lift]

@[simp] theorem extent_filter : (node .filter [x, p]).extent = 2 * x.extent + p.extent + 1 := by rw [extent]

end Equations

/-! ### Operators that all measures treat alike -/

def Plain (k : OpKind) (cs : List Outline) : Prop :=
  ∀ x y, cs = [x, y] → k ≠ .filter ∧ k ≠ .project ∧ k ≠ .crossApply ∧ k ≠ .outerApply

theorem plain_or (k : OpKind) (cs : List Outline) : Plain k cs ∨ ∃ x y, cs = [x, y] ∧
    (k = .filter ∨ k = .project ∨ k = .crossApply ∨ k = .outerApply) := by
  by_cases h : Plain k cs
  · exact .inl h
  · simp only [Plain, not_forall] at h
    obtain ⟨x, y, hcs, hk⟩ := h
    exact .inr ⟨x, y, hcs, by tauto⟩

section Plain
variable {k : OpKind} {cs : List Outline}

theorem plain_of_kind (h : k ≠ .filter ∧ k ≠ .project ∧ k ≠ .crossApply ∧ k ≠ .outerApply) : Plain k cs := fun _ _ _ => h

theorem plain_of_length (h : cs.length ≠ 2) : Plain k cs := by
  rintro x y rfl
  exact absurd rfl h

theorem Plain.isRow (h : Plain k cs) : (node k cs).isRow = (k == .singleRowTable) := by
  unfold Outline.isRow
  split
  · rename_i heq
    cases heq
    rfl
  · rename_i heq
    cases heq
    exact absurd rfl (h _ _ rfl).1
  · rename_i heq
    cases heq
    exact absurd rfl (h _ _ rfl).2.1
  · rename_i hno _ _
    exact (beq_false_of_ne fun hk : k = .singleRowTable => hno cs (by rw [hk])).symm

theorem Plain.hoist (h : Plain k cs) : (node k cs).hoist = 0 := by
  unfold Outline.hoist
  split
  · rename_i heq
    cases heq
    exact absurd rfl (h _ _ rfl).1
  · rename_i heq
    cases heq
    exact absurd rfl (h _ _ rfl).2.1
  · rename_i heq
    cases heq
    exact absurd rfl (h _ _ rfl).2.2.1
  · rename_i heq
    cases heq
    exact absurd rfl (h _ _ rfl).2.2.2
  · rfl

theorem Plain.reach (h : Plain k cs) :
    (node k cs).reach = if k.isRelational then 1 + (cs.map Outline.reach).foldr max 0 else 0 := by
  rw [Outline.reach] <;> rintro x y rfl rfl
  · exact (h _ _ rfl).1 rfl
  · exact (h _ _ rfl).2.1 rfl
  · exact (h _ _ rfl).2.2.1 rfl
  · exact (h _ _ rfl).2.2.2 rfl

@[simp] theorem load_node (h : k ≠ .filter) : (node k cs).load = (cs.map Outline.load).sum := by
  rw [Outline.load]
  rintro x y rfl rfl
  exact h rfl

@[simp] theorem extent_node (h : k ≠ .filter) : (node k cs).extent = (cs.map Outline.extent).sum + 1 := by
  rw [Outline.extent]
  rintro x y rfl rfl
  exact h rfl

theorem Plain.load (h : Plain k cs) : (node k cs).load = (cs.map Outline.load).sum := by
  rw [Outline.load]
  rintro x y rfl rfl
  exact (h _ _ rfl).1 rfl

theorem Plain.lift (h : Plain k cs) : (node k cs).lift = (cs.map Outline.lift).sum := by
  rw [Outline.lift] <;> rintro x y rfl rfl
  · exact (h _ _ rfl).2.1 rfl
  · exact (h _ _ rfl).2.2.1 rfl
  · exact (h _ _ rfl).2.2.2 rfl

theorem Plain.extent (h : Plain k cs) : (node k cs).extent = (cs.map Outline.extent).sum + 1 := by
  rw [Outline.extent]
  rintro x y rfl rfl
  exact (h _ _ rfl).1 rfl

end Plain

/-! ### Relations, expressions and definitions -/

section Kinds
variable {k : OpKind} {cs : List Outline}

theorem plain_of_not_relational (h : k.isRelational = false) : Plain k cs := by
  refine plain_of_kind ⟨?_, ?_, ?_, ?_⟩
  all_goals
    rintro rfl
    cases h

theorem isRow_of_not_relational (h : k.isRelational = false) : (node k cs).isRow = false := by
  rw [(plain_of_not_relational h).isRow]
  cases k <;> first | rfl | cases h

theorem hoist_of_not_relational (h : k.isRelational = false) : (node k cs).hoist = 0 := (plain_of_not_relational h).hoist

theorem reach_of_not_relational (h : k.isRelational = false) : (node k cs).reach = 0 := by
  rw [(plain_of_not_relational h).reach, h]
  rfl

theorem lift_of_not_relational (h : k.isRelational = false) : (node k cs).lift = (cs.map lift).sum :=
  (plain_of_not_relational h).lift

theorem bulk_of_relational (h : k.isRelational) : (node k cs).bulk = 0 := by
  rw [bulk, if_pos h]

theorem bulk_of_not_relational (h : k.isRelational = false) : (node k cs).bulk = 1 + (cs.map bulk).sum := by
  rw [bulk, h]
  rfl

theorem isSlim_of_ne (h : k ≠ .varDefList) : (node k cs).isSlim := by
  unfold isSlim
  split
  · rename_i heq
    cases heq
    exact absurd rfl h
  · rfl

theorem isLone_of_relational (h : k.isRelational) : (node k cs).isLone = false := by
  unfold isLone
  split <;> first | rfl | (rename_i heq; cases heq; cases h)

end Kinds

/-- Nothing but scalar operators. -/
inductive Scalar : Outline → Prop
  | node {k : OpKind} {cs : List Outline} : k.isScalar = true → (∀ c ∈ cs, Scalar c) → Scalar (.node k cs)

theorem sum_map_eq_zero {M : Type} [AddCommMonoid M] {f : Outline → M} {cs : List Outline} (h : ∀ c ∈ cs, f c = 0) :
    (cs.map f).sum = 0 := by
  rw [List.map_congr_left h]
  simp

section Scalar
variable {a : Outline}

theorem not_relational_of_isScalar {k : OpKind} (h : k.isScalar) : k.isRelational = false := by
  cases hk : k.isRelational with
  | false => rfl
  | true => exact absurd hk (Tree.not_isRelational_of_isScalar h)

theorem opWeight_of_not_relational {k : OpKind} (h : k.isRelational = false) : opWeight k = 0 := by
  cases k <;> first | rfl | cases h

theorem Scalar.weight (h : a.Scalar) : a.weight = 0 := by
  induction h with
  | node hk _ ih => rw [Outline.weight, opWeight_of_not_relational (not_relational_of_isScalar hk), sum_map_eq_zero ih,
    Nat.add_zero]

theorem Scalar.load (h : a.Scalar) : a.load = 0 := by
  induction h with
  | node hk _ ih => rw [(plain_of_not_relational (not_relational_of_isScalar hk)).load, sum_map_eq_zero ih]

theorem Scalar.lift (h : a.Scalar) : a.lift = 0 := by
  induction h with
  | node hk _ ih => rw [(plain_of_not_relational (not_relational_of_isScalar hk)).lift, sum_map_eq_zero ih]

theorem Scalar.extent (h : a.Scalar) : a.extent = a.bulk := by
  induction h with
  | node hk _ ih =>
    have hr := not_relational_of_isScalar hk
    rw [(plain_of_not_relational hr).extent, bulk_of_not_relational hr, List.map_congr_left ih, Nat.add_comm]

end Scalar

end Outline

/-! ### Trees -/

namespace Tree

def outline : Tree → Outline
  | node _ op children => .node op.kind (children.map outline)

@[simp] theorem outline_node (id : NodeId) (op : Op) (cs : List Tree) :
    (node id op cs).outline = .node op.kind (cs.map outline) := by
  rw [outline]

theorem scalar_outline {t : Tree} : t.outline.Scalar ↔ t.isScalar := by
  induction t using induct with
  | node id op cs ih =>
    rw [outline_node, isScalar_node]
    constructor
    · rintro ⟨hk, hcs⟩
      exact ⟨hk, fun c hc => (ih c hc).mp (hcs _ (List.mem_map_of_mem hc))⟩
    · rintro ⟨hk, hcs⟩
      refine .node hk fun c hc => ?_
      obtain ⟨d, hd, rfl⟩ := List.mem_map.mp hc
      exact (ih d hd).mpr (hcs d hd)

/-- The second tree has operators of the same kinds in the same places, and is well formed if the first is. -/
structure Alike (t t' : Tree) : Prop where
  outline : t'.outline = t.outline
  wellFormed : t.wellFormed = true → t'.wellFormed = true

section Alike
variable {t t' : Tree}

theorem Alike.refl (t : Tree) : Alike t t := ⟨rfl, fun h => h⟩

theorem kind_outline (t : Tree) : t.outline.kind = t.kind := by
  cases t
  rw [outline_node]
  rfl

theorem Alike.kind (h : Alike t t') : t'.kind = t.kind := by rw [← kind_outline, ← kind_outline, h.outline]

theorem Alike.isScalar (h : Alike t t') : t'.isScalar ↔ t.isScalar := by
  rw [← scalar_outline, ← scalar_outline, h.outline]

theorem Alike.node {id id' : NodeId} {op op' : Op} {cs cs' : List Tree} (hk : op'.kind = op.kind)
    (hf : ∀ ks, op.fits ks → op'.fits ks) (h : List.Forall₂ Alike cs cs') :
    Alike (.node id op cs) (.node id' op' cs') where
  outline := by
    rw [outline_node, outline_node, hk, Run.map_eq_map_of_forall₂ (h.flip.imp fun _ _ h => h.outline)]
  wellFormed hwf := by
    obtain ⟨hfits, hwfs⟩ := wellFormed_node.mp hwf
    have hkinds : cs'.map Tree.kind = cs.map Tree.kind := Run.map_eq_map_of_forall₂ (h.flip.imp fun _ _ h => h.kind)
    refine wellFormed_node.mpr ⟨hkinds ▸ hf _ hfits, fun c' hc' => ?_⟩
    obtain ⟨c, hc, h⟩ := Run.exists_of_forall₂_right h hc'
    exact h.wellFormed (hwfs c hc)

end Alike

end Tree

end Planwright
