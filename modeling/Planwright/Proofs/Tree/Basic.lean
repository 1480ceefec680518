import Mathlib.Algebra.GroupWithZero.Nat
import Mathlib.Algebra.Order.BigOperators.Group.List
import Mathlib.Algebra.Order.Group.Nat
import Planwright.Proofs.Run

/-! Trees by themselves: induction over them, and the analysis computed from the leaves up with nothing
    remembered. -/

namespace Planwright.Tree

variable {cs : List Tree} {a c : Tree} {i : Info}
variable {b s : Tree}

/-- A property of a node that follows from the same property of its children holds of every tree. -/
theorem induct {motive : Tree → Prop}
    (node : ∀ id op children, (∀ c ∈ children, motive c) → motive (.node id op children)) (t : Tree) : motive t :=
  @Tree.rec motive (fun cs => ∀ c ∈ cs, motive c) node (fun _ h => nomatch h)
    (fun c cs hc hcs d hd => by
      rcases List.mem_cons.mp hd with rfl | hd
      · exact hc
      · exact hcs d hd) t

@[simp] theorem id_node (i : NodeId) (op : Op) (cs : List Tree) : (node i op cs).id = i := rfl

@[simp] theorem op_node (i : NodeId) (op : Op) (cs : List Tree) : (node i op cs).op = op := rfl

@[simp] theorem children_node (i : NodeId) (op : Op) (cs : List Tree) : (node i op cs).children = cs := rfl

@[simp] theorem kind_node (i : NodeId) (op : Op) (cs : List Tree) : (node i op cs).kind = op.kind := rfl

/-! ### Nodes and depth -/

/-- A tree and everything below it, parents first. -/
def subtrees : Tree → List Tree
  | node id op children => node id op children :: below children
where
  below : List Tree → List Tree
    | [] => []
    | c :: cs => subtrees c ++ below cs

@[simp] theorem subtrees_node (id : NodeId) (op : Op) (cs : List Tree) :
    (node id op cs).subtrees = node id op cs :: cs.flatMap subtrees := by
  have hbelow : ∀ cs, subtrees.below cs = cs.flatMap subtrees := by
    intro cs
    induction cs with
    | nil => rfl
    | cons c cs ih => rw [subtrees.below, ih, List.flatMap_cons]
  rw [subtrees, hbelow]

theorem mem_subtrees_of_mem {id : NodeId} {op : Op} (hc : c ∈ cs) (hs : s ∈ c.subtrees) :
    s ∈ (node id op cs).subtrees := by
  rw [subtrees_node]
  exact List.mem_cons_of_mem _ (List.mem_flatMap.mpr ⟨c, hc, hs⟩)

theorem mem_subtrees_node {id : NodeId} {op : Op} :
    s ∈ (node id op cs).subtrees ↔ s = node id op cs ∨ ∃ c ∈ cs, s ∈ c.subtrees := by
  rw [subtrees_node, List.mem_cons, List.mem_flatMap]

theorem forall_subtrees_node {id : NodeId} {op : Op} {P : Tree → Prop} :
    (∀ s ∈ (node id op cs).subtrees, P s) ↔ P (node id op cs) ∧ ∀ c ∈ cs, ∀ s ∈ c.subtrees, P s := by
  rw [subtrees_node, List.forall_mem_cons, List.forall_mem_flatMap]

theorem of_mem_subtrees {P : Tree → Prop} (hP : ∀ id op cs, P (node id op cs) → ∀ c ∈ cs, P c) {s t : Tree} (hs : s ∈ t.subtrees)
    (ht : P t) : P s := by
  induction t using induct with
  | node id op cs ih =>
    rcases mem_subtrees_node.mp hs with rfl | ⟨c, hc, hs⟩
    · exact ht
    · exact ih c hc hs (hP id op cs ht c hc)

def ids (t : Tree) : List NodeId := t.subtrees.map id

@[simp] theorem ids_node (id : NodeId) (op : Op) (cs : List Tree) : (node id op cs).ids = id :: cs.flatMap ids := by
  rw [ids, subtrees_node, List.map_cons, List.map_flatMap]
  rfl

theorem id_mem_ids (t : Tree) : t.id ∈ t.ids := by
  cases t
  simp

def depth : Tree → Nat
  | node _ _ children => depthOf children + 1
where
  depthOf : List Tree → Nat
    | [] => 0
    | c :: cs => max (depth c) (depthOf cs)

theorem depth_node_le {id : NodeId} {op : Op} {n : Nat} :
    (node id op cs).depth ≤ n + 1 ↔ ∀ c ∈ cs, c.depth ≤ n := by
  rw [depth, Nat.add_le_add_iff_right]
  induction cs with
  | nil => simp [depth.depthOf]
  | cons c cs ih => rw [depth.depthOf, Nat.max_le, ih, List.forall_mem_cons]

theorem depth_lt_of_mem {id : NodeId} {op : Op} (hc : c ∈ cs) : c.depth < (node id op cs).depth := by
  have hle : (node id op cs).depth ≤ depth.depthOf cs + 1 := Nat.le_of_eq (by rw [depth])
  rw [depth]
  exact Nat.lt_succ_of_le (depth_node_le.mp hle c hc)

theorem depth_le_of_mem_subtrees {s t : Tree} (h : s ∈ t.subtrees) : s.depth ≤ t.depth :=
  of_mem_subtrees (P := fun s => s.depth ≤ t.depth) (fun _ _ _ h _ hc => (depth_lt_of_mem hc).le.trans h) h (Nat.le_refl _)

theorem size_node (id : NodeId) (op : Op) (cs : List Tree) : (node id op cs).size = 1 + (cs.map size).sum := by
  rw [size]
  congr 1
  induction cs with
  | nil => rfl
  | cons c cs ih => rw [size.total, ih, List.map_cons, List.sum_cons]

theorem size_pos (t : Tree) : 0 < t.size := by
  obtain ⟨id, op, cs⟩ := t
  rw [size_node]
  omega

theorem size_lt_of_mem {t d : Tree} (hd : d ∈ t.children) : d.size < t.size := by
  obtain ⟨id, op, cs⟩ := t
  have hle : d.size ≤ (cs.map size).sum := List.le_sum_of_mem (List.mem_map_of_mem hd)
  rw [size_node]
  omega

theorem sum_size_lt_of_sublist {ds : List Tree} (h : ds.Sublist cs) (hlen : ds.length < cs.length) :
    (ds.map size).sum < (cs.map size).sum := by
  induction h with
  | slnil => exact absurd hlen (Nat.lt_irrefl _)
  | @cons ds cs c hsub ih =>
    have hle : (ds.map size).sum ≤ (cs.map size).sum := (hsub.map size).sum_le_sum fun _ _ => Nat.zero_le _
    have hpos := size_pos c
    rw [List.map_cons, List.sum_cons]
    omega
  | @cons_cons ds cs c hsub ih =>
    have hlt := ih (Nat.lt_of_succ_lt_succ hlen)
    rw [List.map_cons, List.map_cons, List.sum_cons, List.sum_cons]
    omega

/-! ### Scalar trees -/

theorem isScalar_node {id : NodeId} {op : Op} :
    (node id op cs).isScalar ↔ op.kind.isScalar ∧ ∀ c ∈ cs, c.isScalar := by
  have hall : (scan.scanAll cs).1.isSome ↔ ∀ c ∈ cs, c.isScalar := by
    induction cs with
    | nil => simp [scan.scanAll]
    | cons c cs ih =>
      rw [List.forall_mem_cons, ← ih, scan.scanAll, isScalar]
      rcases c.scan with ⟨_ | n, refs⟩ <;> simp
  rw [← hall, isScalar]
  unfold scan
  cases op.kind.isScalar <;> simp

/-! ### The analysis from the leaves up -/

/-- A tree with its analysis, as the analysis of its parent sees it. -/
def asChild (t : Tree) (i : Info) : Child :=
  ⟨t.op, i, t.children.map fun c => (c.op, c.children.head?.map op)⟩

/-- The analysis of a tree, computed from the leaves up. -/
def analysis : Tree → Except Fault Info
  | node _ op children => do op.analyze (← analyses children)
where
  analyses : List Tree → Except Fault (List Child)
    | [] => pure []
    | c :: cs => do
      let i ← analysis c
      let rest ← analyses cs
      return c.asChild i :: rest

/-- The trees are analysed as the list says, one by one. -/
def Analyzed (cs : List Tree) (is : List Info) : Prop := List.Forall₂ (fun c i => c.analysis = .ok i) cs is

theorem analyses_eq_ok {ch : List Child} :
    analysis.analyses cs = .ok ch ↔ ∃ is, Analyzed cs is ∧ ch = List.zipWith asChild cs is := by
  induction cs generalizing ch with
  | nil =>
    constructor
    · intro h
      cases h
      exact ⟨[], .nil, rfl⟩
    · rintro ⟨is, h, rfl⟩
      cases h
      rfl
  | cons c cs ih =>
    simp only [analysis.analyses, Run.bind_ok, Run.pure_ok, ih]
    constructor
    · rintro ⟨i, hi, rest, ⟨is, his, rfl⟩, rfl⟩
      exact ⟨i :: is, .cons hi his, rfl⟩
    · rintro ⟨is, h, rfl⟩
      cases h with
      | cons hi his => exact ⟨_, hi, _, ⟨_, his, rfl⟩, rfl⟩

theorem analyzed_of_forall₂ {chs : List Child}
    (h : List.Forall₂ (fun c ch => ∃ i, c.analysis = .ok i ∧ ch = c.asChild i) cs chs) :
    ∃ is, Analyzed cs is ∧ chs = List.zipWith asChild cs is := by
  induction h with
  | nil => exact ⟨[], .nil, rfl⟩
  | cons hc _ ih =>
    obtain ⟨i, hi, rfl⟩ := hc
    obtain ⟨is, his, rfl⟩ := ih
    exact ⟨i :: is, .cons hi his, rfl⟩

theorem analysis_eq_ok {id : NodeId} {op : Op} :
    (node id op cs).analysis = .ok i ↔ ∃ is, Analyzed cs is ∧ op.analyze (List.zipWith asChild cs is) = .ok i := by
  simp only [analysis, Run.bind_ok, analyses_eq_ok]
  constructor
  · rintro ⟨ch, ⟨is, his, rfl⟩, h⟩
    exact ⟨is, his, h⟩
  · rintro ⟨is, his, h⟩
    exact ⟨_, ⟨is, his, rfl⟩, h⟩

theorem analysis_none {id : NodeId} {op : Op} :
    (node id op []).analysis = .ok i ↔ op.analyze [] = .ok i := by
  simp [analysis_eq_ok, Analyzed]

theorem analysis_one {id : NodeId} {op : Op} :
    (node id op [a]).analysis = .ok i ↔ ∃ ia, a.analysis = .ok ia ∧ op.analyze [a.asChild ia] = .ok i := by
  rw [analysis_eq_ok]
  constructor
  · rintro ⟨_, _ | ⟨ha, _ | _⟩, h⟩
    exact ⟨_, ha, h⟩
  · rintro ⟨ia, ha, h⟩
    exact ⟨[ia], .cons ha .nil, h⟩

theorem analysis_two {id : NodeId} {op : Op} :
    (node id op [a, b]).analysis = .ok i ↔
      ∃ ia ib, a.analysis = .ok ia ∧ b.analysis = .ok ib ∧ op.analyze [a.asChild ia, b.asChild ib] = .ok i := by
  rw [analysis_eq_ok]
  constructor
  · rintro ⟨_, _ | ⟨ha, _ | ⟨hb, _ | _⟩⟩, h⟩
    exact ⟨_, _, ha, hb, h⟩
  · rintro ⟨ia, ib, ha, hb, h⟩
    exact ⟨[ia, ib], .cons ha (.cons hb .nil), h⟩

theorem analysis_three {id : NodeId} {op : Op} :
    (node id op [a, b, c]).analysis = .ok i ↔ ∃ ia ib ic, a.analysis = .ok ia ∧ b.analysis = .ok ib ∧
      c.analysis = .ok ic ∧ op.analyze [a.asChild ia, b.asChild ib, c.asChild ic] = .ok i := by
  rw [analysis_eq_ok]
  constructor
  · rintro ⟨_, _ | ⟨ha, _ | ⟨hb, _ | ⟨hc, _ | _⟩⟩⟩, h⟩
    exact ⟨_, _, _, ha, hb, hc, h⟩
  · rintro ⟨ia, ib, ic, ha, hb, hc, h⟩
    exact ⟨[ia, ib, ic], .cons ha (.cons hb (.cons hc .nil)), h⟩

end Planwright.Tree
