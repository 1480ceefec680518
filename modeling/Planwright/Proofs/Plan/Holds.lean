import Mathlib.Data.Finset.Card
import Mathlib.Data.Set.Basic
import Planwright.Proofs.Tree.Basic

/-! Trees in plans. A plan holds a tree when its nodes are those of the tree and whatever a node remembers is the
    analysis of the tree below it. `Keeps` is the frame of a run: what it may have changed, and that all else is
    still held. -/

namespace Planwright

/-- The nodes of a tree, children first. -/
def Tree.records : Tree → List Node
  | node _ op children => all children ++ [⟨op, children.map Tree.id, none⟩]
where
  all : List Tree → List Node
    | [] => []
    | t :: ts => records t ++ all ts

/-- The plan that holds nothing but a tree, whose nodes are numbered children first. -/
def Tree.plan (t : Tree) (tableCount : Nat) (vars : List Variable) : Plan := ⟨⟨vars.toArray⟩, t.records.toArray, tableCount, t.id⟩

namespace Plan

open Planwright.Tree

variable {p : Plan} {t : Tree} {n : NodeId} {cs : List Tree} {i : Nat}

/-- A node of the plan is the top of a tree. -/
structure Has (p : Plan) (t : Tree) (r : Node) : Prop where
  found : p.nodes[t.id]? = some r
  op : r.op = t.op
  children : r.children = t.children.map Tree.id
  info : ∀ i, r.info = some i → t.analysis = .ok i

/-- The plan holds a tree. -/
inductive Holds (p : Plan) : Tree → Prop
  | intro {id : NodeId} {op : Op} {cs : List Tree} {r : Node} :
      p.Has (.node id op cs) r → (∀ c ∈ cs, Holds p c) → Holds p (.node id op cs)

section Reading
variable {r : Node} {s : Tree} {n : NodeId} {d : Nat}
variable {p : Plan} {t : Tree}

theorem Holds.has (h : p.Holds t) : ∃ r, p.Has t r := by
  cases h with
  | intro hr _ => exact ⟨_, hr⟩

theorem Holds.has_found (h : p.Holds t) (hr : p.nodes[t.id]? = some r) : p.Has t r := by
  obtain ⟨r', hr'⟩ := h.has
  cases hr.symm.trans hr'.found
  exact hr'

theorem Holds.of_mem (h : p.Holds t) {c : Tree} (hc : c ∈ t.children) : p.Holds c := by
  cases h with
  | intro _ hcs => exact hcs c hc

section Children
variable {n : NodeId} {op : Op} {a b c : Tree}

theorem Holds.one (h : p.Holds (.node n op [a])) : p.Holds a := h.of_mem (by simp)

theorem Holds.two (h : p.Holds (.node n op [a, b])) : p.Holds a ∧ p.Holds b := ⟨h.of_mem (by simp), h.of_mem (by simp)⟩

theorem Holds.three (h : p.Holds (.node n op [a, b, c])) : p.Holds a ∧ p.Holds b ∧ p.Holds c :=
  ⟨h.of_mem (by simp), h.of_mem (by simp), h.of_mem (by simp)⟩

end Children

theorem Holds.lt (h : p.Holds t) : t.id < p.nodes.size := by
  obtain ⟨r, hr⟩ := h.has
  exact (Array.getElem?_eq_some_iff.mp hr.found).1

theorem Holds.of_mem_subtrees (h : p.Holds t) (hs : s ∈ t.subtrees) : p.Holds s :=
  Tree.of_mem_subtrees (fun _ _ _ h _ hc => h.of_mem hc) hs h

theorem Holds.ids_lt (h : p.Holds t) : ∀ x ∈ t.ids, x < p.nodes.size :=
  List.forall_mem_map.mpr fun _ hs => (h.of_mem_subtrees hs).lt

theorem Holds.unique (ht : p.Holds t) (hs : p.Holds s) (h : t.id = s.id) : t = s := by
  induction t using induct generalizing s with
  | node id op cs ih =>
    obtain ⟨id', op', ds⟩ := s
    obtain rfl : id = id' := h
    obtain ⟨r, hr⟩ := ht.has
    obtain ⟨r', hr'⟩ := hs.has
    obtain rfl : r = r' := Option.some.inj (hr.found.symm.trans hr'.found)
    obtain rfl : op = op' := hr.op.symm.trans hr'.op
    have hids : List.Forall₂ (fun c d => c.id = d.id) cs ds :=
      List.forall₂_map_left_iff.mp (List.forall₂_map_right_iff.mp
        (List.forall₂_eq_eq_eq ▸ (hr.children.symm.trans hr'.children)))
    congr 1
    exact List.forall₂_eq_eq_eq ▸ Run.forall₂_imp_mem hids fun c hc d hd => ih c hc (ht.of_mem hc) (hs.of_mem hd)

theorem Holds.id_notMem_ids {id : NodeId} {op : Op} (h : p.Holds (.node id op cs)) {c : Tree} (hc : c ∈ cs) :
    id ∉ c.ids := by
  intro hid
  obtain ⟨s, hs, hsid⟩ := List.mem_map.mp hid
  have heq := ((h.of_mem hc).of_mem_subtrees hs).unique h hsid
  have hlt : s.depth < (Tree.node id op cs).depth := (depth_le_of_mem_subtrees hs).trans_lt (depth_lt_of_mem hc)
  rw [heq] at hlt
  exact Nat.lt_irrefl _ hlt

theorem Holds.depth_le_card (h : p.Holds t) : t.depth ≤ t.ids.toFinset.card := by
  induction t using induct with
  | node id op cs ih =>
    obtain ⟨n, hn⟩ : ∃ n, (Tree.node id op cs).ids.toFinset.card = n + 1 :=
      Nat.exists_eq_succ_of_ne_zero (Finset.card_ne_zero_of_mem (List.mem_toFinset.mpr (id_mem_ids _)))
    rw [hn]
    refine depth_node_le.mpr fun c hc => ?_
    have hdepth := ih c hc (h.of_mem hc)
    have hsub : insert id c.ids.toFinset ⊆ (Tree.node id op cs).ids.toFinset := by
      intro x hx
      rw [Finset.mem_insert, List.mem_toFinset] at hx
      rw [List.mem_toFinset, ids_node, List.mem_cons, List.mem_flatMap]
      exact hx.imp_right fun hx => ⟨c, hc, hx⟩
    have hcard := Finset.card_le_card hsub
    rw [Finset.card_insert_of_notMem (mt List.mem_toFinset.mp (h.id_notMem_ids hc)), hn] at hcard
    omega

theorem Holds.depth_le (h : p.Holds t) : t.depth ≤ p.nodes.size := by
  refine h.depth_le_card.trans ?_
  have hsub : t.ids.toFinset ⊆ Finset.range p.nodes.size := fun x hx =>
    Finset.mem_range.mpr (h.ids_lt x (List.mem_toFinset.mp hx))
  simpa using Finset.card_le_card hsub

theorem node_of_found (h : p.nodes[n]? = some r) : Plan.node n p = .ok (r, p) := by
  unfold Plan.node
  rw [Run.bind_run_ok]
  refine ⟨p, p, rfl, ?_⟩
  rw [h]
  rfl

theorem found_of_node {p' : Plan} (h : Plan.node n p = .ok (r, p')) :
    p' = p ∧ p.nodes[n]? = some r := by
  cases hn : p.nodes[n]? with
  | some r' =>
    rw [node_of_found hn] at h
    cases h
    exact ⟨rfl, rfl⟩
  | none =>
    simp [Plan.node, bind, StateT.bind, Except.bind, get, getThe, MonadStateOf.get, StateT.get, pure,
      Except.pure, hn, throw, throwThe, MonadExceptOf.throw, StateT.lift] at h

theorem Holds.op_run (h : p.Holds t) : Plan.op t.id p = .ok (t.op, p) := by
  obtain ⟨r, hr⟩ := h.has
  rw [Plan.op, Run.bind_run, node_of_found hr.found, ← hr.op]
  rfl

theorem Holds.kind_run (h : p.Holds t) : Plan.kind t.id p = .ok (t.kind, p) := by
  rw [Plan.kind, Run.bind_run, h.op_run]
  rfl

theorem Holds.children_run (h : p.Holds t) : Plan.children t.id p = .ok (t.children.map Tree.id, p) := by
  obtain ⟨r, hr⟩ := h.has
  rw [Plan.children, Run.bind_run, node_of_found hr.found, ← hr.children]
  rfl

theorem view_succ (h : p.view (d + 1) n = some s) :
    ∃ r cs, p.nodes[n]? = some r ∧ s = .node n r.op cs ∧
      List.Forall₂ (fun m c => p.view d m = some c) r.children cs := by
  simp only [view, Option.bind_eq_bind, Option.bind_eq_some_iff, Option.pure_def, Option.some.injEq] at h
  obtain ⟨r, hr, cs, hcs, rfl⟩ := h
  exact ⟨r, cs, hr, rfl, Run.mapM_some hcs⟩

theorem id_view (h : p.view d n = some s) : s.id = n := by
  cases d with
  | zero => cases h
  | succ d =>
    obtain ⟨r, cs, -, rfl, -⟩ := view_succ h
    rfl

theorem Holds.view_eq (ht : p.Holds t) (h : p.view d t.id = some s) : s = t := by
  induction d generalizing t s with
  | zero => cases h
  | succ d ih =>
    obtain ⟨id, op, ts⟩ := t
    obtain ⟨r, cs, hr, rfl, hcs⟩ := view_succ h
    obtain ⟨r', hr'⟩ := ht.has
    obtain rfl : r = r' := Option.some.inj (hr.symm.trans hr'.found)
    rw [hr'.children] at hcs
    have heq : List.Forall₂ (fun t c => c = t) ts cs :=
      Run.forall₂_imp_mem (List.forall₂_map_left_iff.mp hcs) fun t hts c _ hc => ih (ht.of_mem hts) hc
    rw [Run.eq_map_of_forall₂ heq, List.map_id', hr'.op, id_node, op_node]

theorem Holds.view (h : p.Holds t) (hd : t.depth ≤ d) : p.view d t.id = some t := by
  induction t using induct generalizing d with
  | node id op cs ih =>
    obtain ⟨r, hr⟩ := h.has
    obtain ⟨d, rfl⟩ := Nat.exists_eq_succ_of_ne_zero (Nat.ne_of_gt (Nat.lt_of_lt_of_le (by rw [depth]; omega : 0 < _) hd))
    have hbelow : r.children.mapM (p.view d) = some cs := by
      rw [hr.children, children_node]
      refine Run.mapM_of_forall₂ (List.forall₂_map_left_iff.mpr (List.forall₂_same.mpr fun c hc => ?_))
      exact ih c hc (h.of_mem hc) (depth_node_le.mp hd c hc)
    have hfound : p.nodes[id]? = some r := hr.found
    simp [Plan.view, hfound, hbelow, hr.op]

theorem Holds.tree? (h : p.Holds t) : p.tree? t.id = some t := h.view h.depth_le

theorem Holds.tree_run (h : p.Holds t) : Plan.tree t.id p = .ok (t, p) := by
  refine Run.bind_run_ok.mpr ⟨p, p, rfl, ?_⟩
  rw [h.tree?]
  rfl

theorem holds_of_view (hp : ∀ r ∈ p.nodes, r.info = none)
    (h : p.view d n = some s) : p.Holds s := by
  induction d generalizing n s with
  | zero => cases h
  | succ d ih =>
    obtain ⟨r, cs, hr, rfl, hcs⟩ := view_succ h
    have hids : List.Forall₂ (fun m c => m = c.id) r.children cs := hcs.imp fun m c hc => (id_view hc).symm
    have hnone : r.info = none := hp r (Array.mem_of_getElem? hr)
    refine .intro ⟨hr, rfl, ?_, fun i hi => ?_⟩ fun c hc => ?_
    · exact Run.eq_map_of_forall₂ hids.flip
    · rw [hnone] at hi
      cases hi
    · obtain ⟨m, -, hm⟩ := Run.exists_of_forall₂_right hcs hc
      exact ih hm

end Reading

/-! ### Nodes out of date -/

/-- The plan has a node over trees that it holds, whatever the node remembers. -/
structure Shows (p : Plan) (n : NodeId) (op : Op) (cs : List Tree) : Prop where
  node : ∃ r, p.nodes[n]? = some r ∧ r.op = op ∧ r.children = cs.map Tree.id
  below : ∀ c ∈ cs, p.Holds c

theorem Holds.shows (h : p.Holds t) : p.Shows t.id t.op t.children := by
  obtain ⟨r, hr⟩ := h.has
  exact ⟨⟨r, hr.found, hr.op, hr.children⟩, fun c hc => h.of_mem hc⟩

theorem Shows.lt {op : Op} (h : p.Shows n op cs) : n < p.nodes.size := by
  obtain ⟨r, hr, -⟩ := h.node
  exact (Array.getElem?_eq_some_iff.mp hr).1

theorem child_of_found {m : NodeId} {r : Node} (hr : p.nodes[n]? = some r) (hi : r.children[i]? = some m) :
    Plan.child n i p = .ok (m, p) := by
  have hrun : Plan.children n p = .ok (r.children, p) := by
    rw [Plan.children, Run.bind_run, node_of_found hr]
    rfl
  refine Run.bind_run_ok.mpr ⟨r.children, p, hrun, ?_⟩
  rw [hi]
  rfl

theorem Shows.child_run {op : Op} (h : p.Shows n op cs) {c : Tree}
    (hc : cs[i]? = some c) : Plan.child n i p = .ok (c.id, p) := by
  obtain ⟨r, hr, -, hch⟩ := h.node
  refine child_of_found hr ?_
  rw [hch, List.getElem?_map, hc]
  rfl

theorem Holds.child_ends (h : p.Holds t) :
    Run.Ends (Plan.child t.id i) p fun n p' => p' = p ∧ ∃ c ∈ t.children, c.id = n := by
  refine .read h.children_run ?_
  rw [List.getElem?_map]
  cases hc : t.children[i]? with
  | none => exact .throw
  | some c => exact .pure ⟨rfl, c, List.mem_of_getElem? hc, rfl⟩

theorem Holds.child_run (h : p.Holds t) {c : Tree} (hc : t.children[i]? = some c) :
    Plan.child t.id i p = .ok (c.id, p) :=
  h.shows.child_run hc

/-! ### Ways down -/

def IsChild (p : Plan) (m n : NodeId) : Prop := ∃ r, p.nodes[n]? = some r ∧ m ∈ r.children

/-- Every way down in the plan ends. -/
def Acyclic (p : Plan) : Prop := WellFounded p.IsChild

theorem Holds.acc (h : p.Holds t) : Acc p.IsChild t.id := by
  induction t using induct with
  | node id op cs ih =>
    refine ⟨_, fun m ⟨r, hr, hm⟩ => ?_⟩
    obtain ⟨r', hr'⟩ := h.has
    obtain rfl : r = r' := Option.some.inj (hr.symm.trans hr'.found)
    rw [hr'.children] at hm
    obtain ⟨c, hc, rfl⟩ := List.mem_map.mp hm
    exact ih c hc (h.of_mem hc)

/-- Ways down still end when nodes keep their children or get trees for children. -/
theorem Acyclic.of_holds {p' : Plan} (h : p.Acyclic) (hp : ∀ n r', p'.nodes[n]? = some r' →
      (∃ r, p.nodes[n]? = some r ∧ r'.children = r.children) ∨ ∃ t, t.id = n ∧ p'.Holds t) : p'.Acyclic := by
  refine ⟨fun n => h.induction n fun n ih => ⟨_, fun m ⟨r', hr', hm⟩ => ?_⟩⟩
  rcases hp n r' hr' with ⟨r, hr, hc⟩ | ⟨t, rfl, ht⟩
  · exact ih m ⟨r, hr, hc ▸ hm⟩
  · exact ht.acc.inv ⟨r', hr', hm⟩

theorem Acyclic.setNode (h : p.Acyclic) {r : Node}
    (hn : (∃ r₀, p.nodes[n]? = some r₀ ∧ r.children = r₀.children) ∨
      ∃ t, t.id = n ∧ { p with nodes := p.nodes.setIfInBounds n r }.Holds t) :
    { p with nodes := p.nodes.setIfInBounds n r }.Acyclic := by
  refine h.of_holds fun m r' hr' => ?_
  by_cases hm : n = m
  · subst hm
    refine hn.imp_left fun ⟨r₀, hr₀, hc⟩ => ⟨r₀, hr₀, ?_⟩
    rw [Array.getElem?_setIfInBounds_self_of_lt (Array.getElem?_eq_some_iff.mp hr₀).1] at hr'
    rw [← Option.some.inj hr', hc]
  · exact .inl ⟨r', (Array.getElem?_setIfInBounds_ne hm).symm.trans hr', rfl⟩

/-! ### What a run keeps -/

/-- Between two states of a plan nothing went lost, and all but the nodes in `S` are as they were, but for what
    they remember. -/
structure Keeps (S : Set NodeId) (p p' : Plan) : Prop where
  acyclic : p.Acyclic → p'.Acyclic
  size : p.nodes.size ≤ p'.nodes.size
  vars : p.vars.size ≤ p'.vars.size
  node : ∀ n r, p.nodes[n]? = some r → n ∉ S → ∃ r', p'.nodes[n]? = some r' ∧ r'.op = r.op ∧ r'.children = r.children
  holds : ∀ t, p.Holds t → (∀ n ∈ t.ids, n ∉ S) → p'.Holds t

section Frame
variable {p p' p'' : Plan} {S T : Set NodeId}

theorem Keeps.refl (S : Set NodeId) (p : Plan) : Keeps S p p where
  acyclic h := h
  size := Nat.le_refl _
  vars := Nat.le_refl _
  node _ r h _ := ⟨r, h, rfl, rfl⟩
  holds _ h _ := h

/-- Later changes may also be made to nodes that are new since the first state. -/
theorem Keeps.trans (h₁ : Keeps S p p') (h₂ : Keeps T p' p'') (hT : ∀ n ∈ T, n < p.nodes.size → n ∈ S) :
    Keeps S p p'' where
  acyclic h := h₂.acyclic (h₁.acyclic h)
  size := Nat.le_trans h₁.size h₂.size
  vars := Nat.le_trans h₁.vars h₂.vars
  node n r hr hn := by
    obtain ⟨r₁, hr₁, ho₁, hc₁⟩ := h₁.node n r hr hn
    have hlt : n < p.nodes.size := (Array.getElem?_eq_some_iff.mp hr).1
    obtain ⟨r₂, hr₂, ho₂, hc₂⟩ := h₂.node n r₁ hr₁ fun hnT => hn (hT n hnT hlt)
    exact ⟨r₂, hr₂, ho₂.trans ho₁, hc₂.trans hc₁⟩
  holds t ht hS := h₂.holds t (h₁.holds t ht hS) fun n hn hnT => hS n hn (hT n hnT (ht.ids_lt n hn))

theorem Keeps.mono (h : Keeps S p p') (hST : ∀ n ∈ S, n < p.nodes.size → n ∈ T) : Keeps T p p' :=
  (Keeps.refl T p).trans h hST

theorem Keeps.still (h : Keeps ∅ p p') (ht : p.Holds t) : p'.Holds t := h.holds t ht fun _ _ => id

theorem Shows.keeps {op : Op} (h : p.Shows n op cs) (hk : Keeps S p p') (hn : n ∉ S)
    (hcs : ∀ c ∈ cs, ∀ x ∈ c.ids, x ∉ S) : p'.Shows n op cs := by
  obtain ⟨r, hr, ho, hc⟩ := h.node
  obtain ⟨r', hr', ho', hc'⟩ := hk.node n r hr hn
  exact ⟨⟨r', hr', ho'.trans ho, hc'.trans hc⟩, fun c hc => hk.holds c (h.below c hc) (hcs c hc)⟩

theorem Keeps.and_then (h₁ : Keeps S p p') (h₂ : Keeps ∅ p' p'') : Keeps S p p'' := h₁.trans h₂ fun _ h _ => h.elim

/-- The same plan, but for what nodes remember. -/
structure Same (p p' : Plan) : Prop where
  keeps : Keeps ∅ p p'
  size : p'.nodes.size = p.nodes.size
  vars : p'.vars = p.vars
  root : p'.root = p.root

theorem Same.refl (p : Plan) : Same p p := ⟨.refl _ p, rfl, rfl, rfl⟩

theorem Same.trans (h : Same p p') (h' : Same p' p'') : Same p p'' :=
  ⟨h.keeps.and_then h'.keeps, h'.size.trans h.size, h'.vars.trans h.vars, h'.root.trans h.root⟩

theorem Same.still (h : Same p p') (ht : p.Holds t) : p'.Holds t := h.keeps.still ht

end Frame

end Plan

end Planwright
