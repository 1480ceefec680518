import Planwright.Proofs.Plan.Analysis
import Planwright.Proofs.Tree.Parts

/-! Nodes made and changed. A new node stands over trees that the plan holds. A node that was changed, or below which
    something was, may remember what is no longer so until it is analysed anew. -/

namespace Planwright.Plan

open Planwright.Tree Run

variable {p p' : Plan} {n : NodeId} {op : Op} {cs : List Tree}
variable {v : VarId} {r : Node} {t : Tree} {i : Nat}

/-- Between two states of a plan the nodes `fs` and the variables `vs` were made, and no old nodes but those in `S`
    were changed. -/
structure Grows (S : Set NodeId) (fs vs : List Nat) (p p' : Plan) : Prop where
  keeps : Keeps S p p'
  nodes : Fresh p.nodes.size p'.nodes.size fs
  vars : Fresh p.vars.size p'.vars.size vs

section Grows
variable {S T : Set NodeId} {fs gs vs ws : List Nat} {p'' : Plan}

theorem Keeps.grows (h : Keeps S p p') : Grows S [] [] p p' := ⟨h, .nil, .nil⟩

theorem Grows.trans (h₁ : Grows S fs vs p p') (h₂ : Grows T gs ws p' p'') (hT : ∀ n ∈ T, n < p.nodes.size → n ∈ S) :
    Grows S (fs ++ gs) (vs ++ ws) p p'' where
  keeps := h₁.keeps.trans h₂.keeps hT
  nodes := h₁.nodes.append h₂.nodes h₁.keeps.size h₂.keeps.size
  vars := h₁.vars.append h₂.vars h₁.keeps.vars h₂.keeps.vars

theorem Grows.and_then (h₁ : Grows S fs vs p p') (h₂ : Grows ∅ gs ws p' p'') : Grows S (fs ++ gs) (vs ++ ws) p p'' :=
  h₁.trans h₂ fun _ h _ => h.elim

theorem Grows.perm (h : Grows S fs vs p p') (hfs : fs.Perm gs) (hvs : vs.Perm ws) : Grows S gs ws p p' :=
  ⟨h.keeps, h.nodes.perm hfs, h.vars.perm hvs⟩

theorem Grows.after (h : Grows S fs vs p p') (hk : Keeps T p' p'') (hT : ∀ n ∈ T, n < p.nodes.size → n ∈ S) :
    Grows S fs vs p p'' := by
  simpa using h.trans hk.grows hT

theorem Grows.still (h : Grows S fs vs p p') (hk : Keeps ∅ p' p'') : Grows S fs vs p p'' := h.after hk fun _ h _ => h.elim

theorem Grows.mono (h : Grows S fs vs p p') (hST : ∀ n ∈ S, n < p.nodes.size → n ∈ T) : Grows T fs vs p p' :=
  ⟨h.keeps.mono hST, h.nodes, h.vars⟩

end Grows

/-! ### New nodes and variables -/

theorem exists_var (h : v < p.vars.size) : ∃ x, p.vars.get? v = some x := ⟨_, Array.getElem?_eq_getElem h⟩

/-- A node was made over trees. -/
structure Created (p : Plan) (op : Op) (cs : List Tree) (n : NodeId) (p' : Plan) : Prop where
  keeps : Keeps ∅ p p'
  holds : p'.Holds (.node n op cs)
  fresh : n = p.nodes.size
  size : p'.nodes.size = n + 1
  vars : p'.vars = p.vars
  admits : op.kind.admits cs.length = true

theorem Created.grows (h : Created p op cs n p') : Grows ∅ [n] [] p p' := by
  refine ⟨h.keeps, ⟨?_, ?_, List.nodup_singleton n⟩, .nil⟩
  · intro x hx
    rw [List.mem_singleton.mp hx, h.fresh]
  · intro x hx
    rw [List.mem_singleton.mp hx, h.size]
    exact Nat.lt_succ_self n

theorem Holds.push (h : p.Holds t) : { p with nodes := p.nodes.push r }.Holds t := by
  induction t using induct with
  | node id op cs ih =>
    obtain ⟨r', hr'⟩ := h.has
    refine .intro ⟨?_, hr'.op, hr'.children, hr'.info⟩ fun c hc => ih c hc (h.of_mem hc)
    rw [Array.getElem?_push_lt (Array.getElem?_eq_some_iff.mp hr'.found).1]
    exact congrArg some (Array.getElem?_eq_some_iff.mp hr'.found).2

theorem create_run {ns : List NodeId} (h : op.kind.admits ns.length) :
    create op ns p = .ok (p.nodes.size, { p with nodes := p.nodes.push ⟨op, ns, none⟩ }) := by
  rw [create, checkCount, if_pos h]
  rfl

theorem checkCount_works {k : OpKind} {count : Nat} :
    Halts (checkCount k count) p (fun _ p' => p' = p ∧ k.admits count = true) (k.admits count = true) := by
  rw [checkCount]
  split
  · exact .pure ⟨rfl, ‹_›⟩
  · exact .throw nofun ‹_›

theorem create_works (cs : List Tree) (h : ∀ c ∈ cs, p.Holds c) :
    Halts (create op (cs.map Tree.id)) p (Created p op cs) (op.kind.admits cs.length) := by
  rw [← List.length_map (f := Tree.id)]
  refine .bind checkCount_works fun _ p' ⟨hp, ha⟩ => ?_
  subst hp
  have hheld : { p' with nodes := p'.nodes.push ⟨op, cs.map Tree.id, none⟩ }.Holds (.node p'.nodes.size op cs) :=
    .intro (r := ⟨op, cs.map Tree.id, none⟩) ⟨Array.getElem?_push_size, rfl, rfl, nofun⟩ fun c hc => (h c hc).push
  have hkeeps : Keeps ∅ p' { p' with nodes := p'.nodes.push ⟨op, cs.map Tree.id, none⟩ } := by
    refine ⟨fun hac => hac.of_holds fun m r' hr' => ?_, ?_, Nat.le_refl _, fun m r hr _ => ⟨r, ?_, rfl, rfl⟩, fun t ht _ => ht.push⟩
    · by_cases hm : m = p'.nodes.size
      · exact .inr ⟨.node p'.nodes.size op cs, hm.symm, hheld⟩
      · refine .inl ⟨r', ?_, rfl⟩
        rwa [Array.getElem?_push, if_neg hm] at hr'
    · simp
    · rw [Array.getElem?_push_lt (Array.getElem?_eq_some_iff.mp hr).1]
      exact congrArg some (Array.getElem?_eq_some_iff.mp hr).2
  exact .of_run rfl hkeeps.acyclic ⟨hkeeps, hheld, rfl, by simp, rfl, by simpa using ha⟩

theorem create_halts (cs : List Tree) (h : ∀ c ∈ cs, p.Holds c) : Halts (create op (cs.map Tree.id)) p (Created p op cs) :=
  (create_works cs h).when nofun

theorem varRef_halts : Halts (varRef v) p fun n p' => ∃ type, Created p (.varRef v type) [] n p' :=
  .get ((create_halts [] nofun).mono fun _ _ h => ⟨_, h⟩)

theorem Holds.of_nodes (h : p.Holds t) (hp : p'.nodes = p.nodes) : p'.Holds t := by
  induction t using induct with
  | node id op cs ih =>
    obtain ⟨r, hr⟩ := h.has
    exact .intro ⟨hp ▸ hr.found, hr.op, hr.children, hr.info⟩ fun c hc => ih c hc (h.of_mem hc)

theorem Keeps.of_nodes (hp : p'.nodes = p.nodes) (hv : p.vars.size ≤ p'.vars.size) : Keeps ∅ p p' where
  acyclic h := h.of_holds fun _ r hr => .inl ⟨r, hp ▸ hr, rfl⟩
  size := hp ▸ Nat.le_refl _
  vars := hv
  node _ r hr _ := ⟨r, hp ▸ hr, rfl, rfl⟩
  holds _ ht _ := ht.of_nodes hp

theorem newVar_works {v : Variable} {P : Prop} : Halts (newVar v) p (fun w p' => Grows ∅ [] [w] p p') P := by
  have hsize : ({ vars := p.vars.vars.push v } : Registry).size = p.vars.size + 1 := Array.size_push ..
  have hkeeps : Keeps ∅ p { p with vars := ⟨p.vars.vars.push v⟩ } := .of_nodes rfl (hsize ▸ Nat.le_succ _)
  refine .of_run rfl hkeeps.acyclic ⟨hkeeps, .nil, fun x hx => ?_, fun x hx => ?_, List.nodup_singleton _⟩
  · rw [List.mem_singleton.mp hx]
    exact Nat.le_refl _
  · rw [List.mem_singleton.mp hx]
    exact hsize ▸ Nat.lt_succ_self _

theorem computedVarDef_halts {e : Tree} (he : p.Holds e) : Halts (computedVarDef e.id) p fun out p' =>
    Grows ∅ [out.1] [out.2] p p' ∧ p'.Holds (.node out.1 (.varDef out.2) [e]) := by
  refine .read he.op_run (.bind newVar_works fun v p₁ hv => ?_)
  refine .bind (create_halts [e] (by simpa using hv.keeps.still he)) fun d p₂ hd => .pure ⟨?_, hd.holds⟩
  exact hv.and_then hd.grows

/-! ### Changed nodes -/

/-- A node was set anew. -/
structure Reset (p : Plan) (n : NodeId) (op : Op) (cs : List Tree) (p' : Plan) : Prop where
  keeps : Keeps {n} p p'
  holds : p'.Holds (.node n op cs)
  vars : p'.vars = p.vars

theorem setNode_works {P : Prop} (hlt : n < p.nodes.size) (hcs : ∀ c ∈ cs, p.Holds c) (hn : ∀ c ∈ cs, n ∉ c.ids) :
    Halts (setNode n ⟨op, cs.map Tree.id, none⟩) p (fun _ p' => Reset p n op cs p') P := by
  have hheld : { p with nodes := p.nodes.setIfInBounds n ⟨op, cs.map Tree.id, none⟩ }.Holds (.node n op cs) :=
    .intro (r := ⟨op, cs.map Tree.id, none⟩) ⟨Array.getElem?_setIfInBounds_self_of_lt hlt, rfl, rfl, nofun⟩
      fun c hc => (hcs c hc).setNode (hn c hc)
  have hkeeps : Keeps {n} p { p with nodes := p.nodes.setIfInBounds n ⟨op, cs.map Tree.id, none⟩ } := by
    refine ⟨fun h => h.setNode (.inr ⟨_, rfl, hheld⟩), ?_, Nat.le_refl _, fun m r hr hm => ⟨r, ?_, rfl, rfl⟩, fun t ht hdis => ?_⟩
    · simp
    · exact (Array.getElem?_setIfInBounds_ne (fun h => hm h.symm)).trans hr
    · exact ht.setNode fun hmem => hdis n hmem rfl
  exact .of_run rfl hkeeps.acyclic ⟨hkeeps, hheld, rfl⟩

theorem holds_set {d d' : Tree} (h : p.Shows n op cs) (hn : (Tree.node n op cs).ids.Nodup) (hd : cs[i]? = some d)
    (hk : Keeps {x | x ∈ d.ids} p p') (hh : p'.Holds d') : ∀ e ∈ cs.set i d', p'.Holds e := by
  intro e he
  obtain ⟨j, hj⟩ := List.mem_iff_getElem?.mp he
  rw [List.getElem?_set] at hj
  split at hj
  · split at hj
    · cases hj
      exact hh
    · cases hj
  · rename_i hne
    exact hk.holds e (h.below e (List.mem_of_getElem? hj)) fun x hx hxd => hne (eq_of_mem_ids hn hd hj hxd hx)

theorem setChild_works {c : NodeId} (hr : p.nodes[n]? = some r) (ho : r.op = op)
    (hch : r.children.set i c = cs.map Tree.id) (hcs : ∀ d ∈ cs, p.Holds d) (hn : ∀ d ∈ cs, n ∉ d.ids) :
    Halts (setChild n i c) p (fun _ p' => Reset p n op cs p') (i < cs.length) := by
  have hlength : r.children.length = cs.length := by simpa using congrArg List.length hch
  refine .read (node_of_found hr) ?_
  split
  · rw [ho, hch]
    exact setNode_works (Array.getElem?_eq_some_iff.mp hr).1 hcs hn
  · rename_i hi
    exact .throw nofun (hlength ▸ hi)

theorem setOp_works (h : p.Shows n op cs) {op' : Op} (hn : ∀ d ∈ cs, n ∉ d.ids) :
    Halts (setOp n op') p (fun _ p' => Reset p n op' cs p') (op'.kind.admits cs.length) := by
  obtain ⟨r, hr, ho, hch⟩ := h.node
  rw [← List.length_map (f := Tree.id), ← hch]
  refine .read (node_of_found hr) (.bind checkCount_works fun _ p' ⟨hp, _⟩ => ?_)
  subst hp
  rw [hch]
  exact setNode_works h.lt h.below hn

end Planwright.Plan
