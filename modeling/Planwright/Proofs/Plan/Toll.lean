import Mathlib.Algebra.BigOperators.Group.Multiset.Basic
import Planwright.Proofs.Plan.Same
import Planwright.Proofs.Plan.Spans

/-! The tolls of a place in a plan: how many projections and definitions are met on the way down. `Eases` is the
    frame of a run under which they do not grow anywhere, although nodes may be shared. -/

namespace Planwright

open Run

/-- Projections and definitions count. -/
def OpKind.toll : OpKind → Nat
  | .project | .varDef => 1
  | _ => 0

theorem OpKind.sum_toll (ks : List OpKind) : (ks.map toll).sum = ks.count .project + ks.count .varDef := by
  induction ks with
  | nil => rfl
  | cons k ks ih =>
    rw [List.map_cons, List.sum_cons, ih, List.count_cons, List.count_cons]
    cases k <;> simp [toll] <;> omega

theorem OpKind.toll_of_isScalar {k : OpKind} (h : k.isScalar) : k.toll = 0 := by
  cases k <;> first | rfl | cases h

namespace Tree

def kinds (t : Tree) : List OpKind := t.subtrees.map kind

theorem kinds_node {id : NodeId} {op : Op} {cs : List Tree} : (node id op cs).kinds = op.kind :: cs.flatMap kinds := by
  rw [kinds, subtrees_node, List.map_cons, List.map_flatMap]
  rfl

theorem isScalar_kinds {t : Tree} (h : t.isScalar) : ∀ k ∈ t.kinds, k.isScalar :=
  List.forall_mem_map.mpr fun _ hs => isScalar_of_mem_subtrees h hs

theorem kinds_of_outline {t t' : Tree} (h : t'.outline = t.outline) : t'.kinds = t.kinds := by
  induction t using induct generalizing t' with
  | node id op cs ih =>
    obtain ⟨id', op', cs'⟩ := t'
    rw [outline_node, outline_node] at h
    obtain ⟨hk, hcs⟩ := Outline.node.inj h
    have hcs : List.Forall₂ (fun c' c => c'.outline = c.outline) cs' cs := by
      rwa [← List.forall₂_eq_eq_eq, List.forall₂_map_left_iff, List.forall₂_map_right_iff] at hcs
    have hkinds := map_eq_map_of_forall₂ (forall₂_imp_mem hcs fun _ _ c hc h => ih c hc h)
    rw [kinds_node, kinds_node, hk, List.flatMap_def, List.flatMap_def, hkinds]

end Tree

namespace Plan

def toll (p : Plan) (n : NodeId) : Nat := (p.nodes[n]?.map fun r => r.op.kind.toll).getD 0

/-- The tolls of nodes, each paid as often as the node is met. -/
def tolls (p : Plan) (S : Multiset NodeId) : Nat := (S.map p.toll).sum

variable {p p' p'' : Plan} {n m c : NodeId} {r : Node} {i d d' : Nat} {ns : List NodeId} {S S' S'' T T' U U' : Multiset NodeId} {X Y : Set NodeId}

theorem toll_of_found (h : p.nodes[n]? = some r) : p.toll n = r.op.kind.toll := by simp [toll, h]

@[simp] theorem tolls_cons : p.tolls (n ::ₘ S) = p.toll n + p.tolls S := by simp [tolls]

@[simp] theorem tolls_add : p.tolls (S + T) = p.tolls S + p.tolls T := by simp [tolls]

theorem tolls_congr (h : ∀ x ∈ S, p'.toll x = p.toll x) : p'.tolls S = p.tolls S := by
  rw [tolls, tolls, Multiset.map_congr rfl h]

/-! ### Places that get lighter -/

/-- The nodes of a place in a later plan are nodes of one in an earlier plan or new, and their tolls are less by `d`. -/
structure Lighter (p p' : Plan) (d : Nat) (S S' : Multiset NodeId) : Prop where
  tolls : p'.tolls S' + d ≤ p.tolls S
  mem : ∀ x ∈ S', x ∈ S ∨ p.nodes.size ≤ x

theorem Lighter.refl (p : Plan) (S : Multiset NodeId) : Lighter p p 0 S S := ⟨le_rfl, fun _ => .inl⟩

theorem Lighter.trans (h : Lighter p p' d S S') (h' : Lighter p' p'' d' S' S'') (hs : p.nodes.size ≤ p'.nodes.size) :
    Lighter p p'' (d + d') S S'' where
  tolls := by
    have := h.tolls
    have := h'.tolls
    omega
  mem x hx := by
    rcases h'.mem x hx with hx | hx
    · exact h.mem x hx
    · exact .inr (hs.trans hx)

theorem Lighter.add (h : Lighter p p' d S S') (h' : Lighter p p' d' T T') : Lighter p p' (d + d') (S + T) (S' + T') where
  tolls := by
    have := h.tolls
    have := h'.tolls
    simp only [tolls_add]
    omega
  mem x hx := by
    rcases Multiset.mem_add.mp hx with hx | hx
    · exact (h.mem x hx).imp_left fun hx => Multiset.mem_add.mpr (.inl hx)
    · exact (h'.mem x hx).imp_left fun hx => Multiset.mem_add.mpr (.inr hx)

theorem Lighter.weaken (h : Lighter p p' d S S') (hd : d' ≤ d) : Lighter p p' d' S S' :=
  ⟨(Nat.add_le_add_left hd _).trans h.tolls, h.mem⟩

theorem Lighter.of_le (h : S' ≤ S) : Lighter p p 0 S S' where
  tolls := by
    obtain ⟨T, rfl⟩ := Multiset.le_iff_exists_add.mp h
    rw [tolls_add]
    omega
  mem _ hx := .inl (Multiset.mem_of_le h hx)

theorem Lighter.drop (h : Lighter p p' d S S') : Lighter p p' (d + p.toll n) (n ::ₘ S) S' where
  tolls := by
    have := h.tolls
    rw [tolls_cons]
    omega
  mem x hx := (h.mem x hx).imp_left Multiset.mem_cons_of_mem

theorem Lighter.cons (h : Lighter p p' d S S') (hn : p'.toll n = p.toll n) : Lighter p p' d (n ::ₘ S) (n ::ₘ S') where
  tolls := by
    have := h.tolls
    simp only [tolls_cons, hn]
    omega
  mem x hx := by
    rcases Multiset.mem_cons.mp hx with rfl | hx
    · exact .inl (Multiset.mem_cons_self ..)
    · exact (h.mem x hx).imp_left Multiset.mem_cons_of_mem

theorem Lighter.congr (h : Lighter p p' d S S') (heq : ∀ x ∈ S', p''.toll x = p'.toll x) : Lighter p p'' d S S' :=
  ⟨tolls_congr heq ▸ h.tolls, h.mem⟩

theorem Spans.lift (h : p.Spans ns S) (hns : ∀ x ∈ ns, ∀ T, p.Spans [x] T → ∃ T', p'.Spans [x] T' ∧ Lighter p p' 0 T T') :
    ∃ S', p'.Spans ns S' ∧ Lighter p p' 0 S S' := by
  induction ns generalizing S with
  | nil =>
    cases h
    exact ⟨0, .nil, le_rfl, nofun⟩
  | cons x ns ih =>
    obtain ⟨T, U, hT, hU, rfl⟩ := Spans.cons_iff.mp h
    obtain ⟨T', hT', hl⟩ := hns x (.head _) T hT
    obtain ⟨U', hU', hl'⟩ := ih hU fun y hy => hns y (.tail _ hy)
    exact ⟨T' + U', Spans.cons_iff.mpr ⟨T', U', hT', hU', rfl⟩, hl.add hl'⟩

theorem Spans.lift_set (h : p.Spans ns S) (hi : ns[i]? = some c)
    (hc : ∀ T, p.Spans [c] T → ∃ T', p'.Spans [m] T' ∧ Lighter p p' d T T')
    (hns : ∀ x ∈ ns, ∀ T, p.Spans [x] T → ∃ T', p'.Spans [x] T' ∧ Lighter p p' 0 T T') :
    ∃ S', p'.Spans (ns.set i m) S' ∧ Lighter p p' d S S' := by
  induction ns generalizing S i with
  | nil => cases hi
  | cons x ns ih =>
    obtain ⟨T, U, hT, hU, rfl⟩ := Spans.cons_iff.mp h
    have hrest : ∀ y ∈ ns, ∀ T, p.Spans [y] T → ∃ T', p'.Spans [y] T' ∧ Lighter p p' 0 T T' := fun y hy => hns y (.tail _ hy)
    cases i with
    | zero =>
      cases hi
      obtain ⟨T', hT', hl⟩ := hc T hT
      obtain ⟨U', hU', hl'⟩ := hU.lift hrest
      exact ⟨T' + U', Spans.cons_iff.mpr ⟨T', U', hT', hU', rfl⟩, hl.add hl'⟩
    | succ i =>
      obtain ⟨T', hT', hl⟩ := hns x (.head _) T hT
      obtain ⟨U', hU', hl'⟩ := ih hU hi hrest
      exact ⟨T' + U', Spans.cons_iff.mpr ⟨T', U', hT', hU', rfl⟩, by simpa using hl.add hl'⟩

/-! ### Runs that ease a plan -/

/-- Nodes keep their kinds, nodes that are not in `X` their children as well, and no place gets heavier. -/
structure Eases (X : Set NodeId) (p p' : Plan) : Prop where
  size : p.nodes.size ≤ p'.nodes.size
  node : ∀ (x : NodeId) (r : Node), p.nodes[x]? = some r →
    ∃ r', p'.nodes[x]? = some r' ∧ r'.op.kind = r.op.kind ∧ (x ∉ X → r'.children = r.children)
  spans : ∀ (x : NodeId) (S : Multiset NodeId), p.Spans [x] S → ∃ S', p'.Spans [x] S' ∧ Lighter p p' 0 S S'

theorem Eases.toll (h : Eases X p p') {x : NodeId} (hx : x < p.nodes.size) : p'.toll x = p.toll x := by
  have hr := Array.getElem?_eq_getElem hx
  obtain ⟨r', hr', hk, -⟩ := h.node x _ hr
  rw [toll_of_found hr, toll_of_found hr', hk]

theorem Eases.of_kept (hs : p.nodes.size ≤ p'.nodes.size) (hn : ∀ (x : NodeId) (r : Node), p.nodes[x]? = some r →
    ∃ r', p'.nodes[x]? = some r' ∧ r'.op.kind = r.op.kind ∧ r'.children = r.children) : Eases X p p' where
  size := hs
  node x r hr := by
    obtain ⟨r', hr', hk, hc⟩ := hn x r hr
    exact ⟨r', hr', hk, fun _ => hc⟩
  spans x S hS := by
    have htoll : ∀ y ∈ S, p'.toll y = p.toll y := fun y hy => by
      have hr := Array.getElem?_eq_getElem (hS.lt y hy)
      obtain ⟨r', hr', hk, -⟩ := hn y _ hr
      rw [toll_of_found hr, toll_of_found hr', hk]
    refine ⟨S, hS.frame fun y _ r hr => ?_, (tolls_congr htoll).le, fun _ => .inl⟩
    obtain ⟨r', hr', -, hc⟩ := hn y r hr
    exact ⟨r', hr', hc⟩

theorem Adds.eases (h : Adds p p') : Eases X p p' := .of_kept h.size fun x r hr => by
  obtain ⟨r', hr', ho, hc⟩ := h.node x r hr
  exact ⟨r', hr', by rw [ho], hc⟩

theorem Eases.refl (X : Set NodeId) (p : Plan) : Eases X p p := (Adds.refl p).eases

theorem Eases.trans (h : Eases X p p') (h' : Eases Y p' p'') (hY : ∀ x ∈ Y, x < p.nodes.size → x ∈ X) : Eases X p p'' where
  size := h.size.trans h'.size
  node x r hr := by
    obtain ⟨r₁, hr₁, hk₁, hc₁⟩ := h.node x r hr
    obtain ⟨r₂, hr₂, hk₂, hc₂⟩ := h'.node x r₁ hr₁
    refine ⟨r₂, hr₂, hk₂.trans hk₁, fun hx => ?_⟩
    rw [hc₂ fun hy => hx (hY x hy (Array.getElem?_eq_some_iff.mp hr).1), hc₁ hx]
  spans x S hS := by
    obtain ⟨S₁, hS₁, hl₁⟩ := h.spans x S hS
    obtain ⟨S₂, hS₂, hl₂⟩ := h'.spans x S₁ hS₁
    exact ⟨S₂, hS₂, hl₁.trans hl₂ h.size⟩

theorem Eases.mono (h : Eases X p p') (hX : X ⊆ Y) : Eases Y p p' where
  size := h.size
  node x r hr := by
    obtain ⟨r', hr', hk, hc⟩ := h.node x r hr
    exact ⟨r', hr', hk, fun hx => hc fun hx' => hx (hX hx')⟩
  spans := h.spans

/-! ### Children that are replaced -/

/-- A node gets another child in one place. -/
structure Puts (n : NodeId) (i : Nat) (m : NodeId) (p p' : Plan) : Prop where
  size : p'.nodes.size = p.nodes.size
  node : ∀ (x : NodeId) (r : Node), p.nodes[x]? = some r → ∃ r', p'.nodes[x]? = some r' ∧ r'.op.kind = r.op.kind ∧
    r'.children = if x = n then r.children.set i m else r.children

theorem setChild_puts : Ends (setChild n i m) p fun _ p' => Puts n i m p p' := by
  refine .bind node_ends fun r p₁ ⟨hp, hr⟩ => ?_
  subst hp
  split
  · refine .modify ⟨Array.size_setIfInBounds .., fun x s hs => ?_⟩
    by_cases hx : n = x
    · subst hx
      cases hr.symm.trans hs
      exact ⟨_, Array.getElem?_setIfInBounds_self_of_lt (Array.getElem?_eq_some_iff.mp hr).1, rfl, (if_pos rfl).symm⟩
    · exact ⟨s, (Array.getElem?_setIfInBounds_ne hx).trans hs, rfl, (if_neg (Ne.symm hx)).symm⟩
  · exact .throw

theorem Puts.refl (hr : p.nodes[n]? = some r) (hm : r.children[i]? = some m) : Puts n i m p p := by
  refine ⟨rfl, fun x s hs => ⟨s, hs, rfl, ?_⟩⟩
  split
  · rename_i hx
    subst hx
    cases hr.symm.trans hs
    obtain ⟨hi, rfl⟩ := List.getElem?_eq_some_iff.mp hm
    exact (List.set_getElem_self hi).symm
  · rfl

theorem Puts.toll (h : Puts n i m p p') {x : NodeId} (hx : x < p.nodes.size) : p'.toll x = p.toll x := by
  have hr := Array.getElem?_eq_getElem hx
  obtain ⟨r', hr', hk, -⟩ := h.node x _ hr
  rw [toll_of_found hr, toll_of_found hr', hk]

theorem Puts.spans (h : Puts n i m p p') (hS : p.Spans ns S) (hn : n ∉ S) : p'.Spans ns S := by
  refine hS.frame fun x hx r hr => ?_
  obtain ⟨r', hr', -, hc⟩ := h.node x r hr
  refine ⟨r', hr', hc.trans (if_neg ?_)⟩
  rintro rfl
  exact hn hx

section Puts
variable {p₁ p₂ : Plan} (hr : p.nodes[n]? = some r) (hc : r.children[i]? = some c) (hU : p.Spans [c] U) (hn : n ∉ U)
  (h : Eases X p p₁) (hX : ∀ x ∈ X, x ∈ U) (hU' : p₁.Spans [m] U') (hl : Lighter p p₁ d U U') (hp : Puts n i m p₁ p₂)
include hr hc hU hn h hX hU' hl hp

/-- Something is made of a child and takes its place: the node over it gets lighter by as much, if what is beside the child does not
    get heavier. -/
theorem Puts.lift {T : Multiset NodeId} (hT : p.Spans r.children T)
    (hns : ∀ x ∈ r.children, ∀ T, p.Spans [x] T → ∃ T', p₂.Spans [x] T' ∧ Lighter p p₂ 0 T T') :
    ∃ S', p₂.Spans [n] S' ∧ Lighter p p₂ d (n ::ₘ T) S' := by
  have hlt : n < p.nodes.size := (Array.getElem?_eq_some_iff.mp hr).1
  have hn' : n ∉ U' := fun hn' => (hl.mem n hn').elim hn fun hge => Nat.not_lt.mpr hge hlt
  have hput : ∀ V, p.Spans [c] V → ∃ V', p₂.Spans [m] V' ∧ Lighter p p₂ d V V' := fun V hV => by
    obtain rfl := hV.unique hU
    exact ⟨U', hp.spans hU' hn', hl.congr fun x hx => hp.toll (hU'.lt x hx)⟩
  obtain ⟨T', hT', hlT⟩ := hT.lift_set hc hput hns
  obtain ⟨r₁, hr₁, -, hc₁⟩ := h.node n r hr
  obtain ⟨r₂, hr₂, -, hc₂⟩ := hp.node n r₁ hr₁
  rw [if_pos rfl, hc₁ fun hmem => hn (hX n hmem)] at hc₂
  refine ⟨n ::ₘ T', Spans.single_iff.mpr ⟨r₂, T', hr₂, hc₂ ▸ hT', rfl⟩, hlT.cons ?_⟩
  rw [hp.toll (hlt.trans_le h.size), h.toll hlt]

theorem Puts.eases : Eases (insert n X) p p₂ where
  size := hp.size ▸ h.size
  node x s hs := by
    obtain ⟨s₁, hs₁, hk₁, hc₁⟩ := h.node x s hs
    obtain ⟨s₂, hs₂, hk₂, hc₂⟩ := hp.node x s₁ hs₁
    refine ⟨s₂, hs₂, hk₂.trans hk₁, fun hx => ?_⟩
    rw [hc₂, if_neg fun heq => hx (.inl heq), hc₁ fun hmem => hx (.inr hmem)]
  spans x S hS := by
    induction hcard : S.card using Nat.strong_induction_on generalizing x S with
    | _ k ih =>
      subst hcard
      obtain ⟨s, T, hs, hT, rfl⟩ := Spans.single_iff.mp hS
      have hbelow : ∀ y ∈ s.children, ∀ V, p.Spans [y] V → ∃ V', p₂.Spans [y] V' ∧ Lighter p p₂ 0 V V' := by
        intro y hy V hV
        obtain ⟨V', hV', hspans⟩ := hT.of_mem (hT.mem_of_mem hy)
        obtain rfl := hspans.unique hV
        refine ih _ ?_ y V' hV rfl
        rw [Multiset.card_cons]
        exact Nat.lt_succ_of_le (Multiset.card_le_card hV')
      by_cases hxn : x = n
      · subst hxn
        cases hr.symm.trans hs
        obtain ⟨S', hS', hlS⟩ := Puts.lift hr hc hU hn h hX hU' hl hp hT hbelow
        exact ⟨S', hS', hlS.weaken (Nat.zero_le _)⟩
      by_cases hxU : x ∈ U
      · -- Below the child nothing is changed any more.
        obtain ⟨S₁, hS₁, hlS⟩ := h.spans x _ hS
        obtain ⟨V, hV, hspans⟩ := hU.of_mem hxU
        obtain rfl := hspans.unique hS
        have hnS : n ∉ S₁ := fun hnS => (hlS.mem n hnS).elim (fun hmem => hn (Multiset.mem_of_le hV hmem))
          fun hge => Nat.not_lt.mpr hge (Array.getElem?_eq_some_iff.mp hr).1
        exact ⟨S₁, hp.spans hS₁ hnS, hlS.congr fun y hy => hp.toll (hS₁.lt y hy)⟩
      · obtain ⟨T', hT', hlT⟩ := hT.lift hbelow
        obtain ⟨s₁, hs₁, -, hc₁⟩ := h.node x s hs
        obtain ⟨s₂, hs₂, -, hc₂⟩ := hp.node x s₁ hs₁
        rw [if_neg hxn, hc₁ fun hmem => hxU (hX x hmem)] at hc₂
        refine ⟨x ::ₘ T', Spans.single_iff.mpr ⟨s₂, T', hs₂, hc₂ ▸ hT', rfl⟩, hlT.cons ?_⟩
        have hlt : x < p.nodes.size := (Array.getElem?_eq_some_iff.mp hs).1
        rw [hp.toll (hlt.trans_le h.size), h.toll hlt]

theorem Puts.lighter (hS : p.Spans [n] S) : ∃ S', p₂.Spans [n] S' ∧ Lighter p p₂ d S S' := by
  obtain ⟨s, T, hs, hT, rfl⟩ := Spans.single_iff.mp hS
  cases hr.symm.trans hs
  exact Puts.lift hr hc hU hn h hX hU' hl hp hT fun x _ => (Puts.eases hr hc hU hn h hX hU' hl hp).spans x

end Puts

/-! ### Trees and their copies -/

theorem tolls_view {t : Tree} {k : Nat} (h : p.view k n = some t) : p.tolls t.ids = (t.kinds.map OpKind.toll).sum := by
  induction k generalizing n t with
  | zero => cases h
  | succ k ih =>
    obtain ⟨r, ts, hr, rfl, hts⟩ := view_succ h
    have hall : ∀ {cs : List NodeId} {ts : List Tree}, List.Forall₂ (fun m c => p.view k m = some c) cs ts →
        p.tolls (ts.flatMap Tree.ids : List NodeId) = ((ts.flatMap Tree.kinds).map OpKind.toll).sum := by
      intro cs ts hts
      induction hts with
      | nil => rfl
      | cons hc _ ihs =>
        rw [List.flatMap_cons, ← Multiset.coe_add, tolls_add, ih hc, ihs, List.flatMap_cons, List.map_append, List.sum_append]
    rw [Tree.ids_node, ← Multiset.cons_coe, tolls_cons, hall hts, toll_of_found hr, Tree.kinds_node, List.map_cons, List.sum_cons]

/-- The place is free of tolls. -/
def Free (p : Plan) (n : NodeId) : Prop := ∃ S, p.Spans [n] S ∧ p.tolls S = 0

theorem Free.eases (h : p.Free n) (he : Eases X p p') : p'.Free n := by
  obtain ⟨S, hS, hz⟩ := h
  obtain ⟨S', hS', hl⟩ := he.spans n S hS
  have := hl.tolls
  exact ⟨S', hS', by omega⟩

theorem free_of_isScalar {t : Tree} (h : p.tree? n = some t) (hs : t.isScalar) : p.Free n := by
  refine ⟨t.ids, .of_view h, ?_⟩
  rw [tolls_view h]
  refine List.sum_eq_zero fun x hx => ?_
  obtain ⟨k, hk, rfl⟩ := List.mem_map.mp hx
  exact OpKind.toll_of_isScalar (t.isScalar_kinds hs k hk)

theorem copyExpr_free (h : p.Free n) : Ends (copyExpr n) p fun m p' =>
    Adds p p' ∧ ∃ S', p'.Spans [m] S' ∧ p'.tolls S' = 0 ∧ ∀ x ∈ S', p.nodes.size ≤ x := by
  obtain ⟨S, hS, hz⟩ := h
  refine .bind op_ends fun o p₁ ⟨hp, r, hr, ho⟩ => ?_
  subst hp ho
  split
  · refine .bind (typeOf_looks p₁).ends fun _ p₂ h₂ => create_adds.mono fun m p' ⟨ha, hm, hr', _⟩ => ?_
    have hnew : p₁.nodes.size ≤ m := h₂.size ▸ hm.ge
    refine ⟨h₂.unchanged.adds.trans ha, {m}, Spans.single_iff.mpr ⟨_, 0, hr', .nil, rfl⟩, ?_, fun x hx => ?_⟩
    · rw [← Multiset.cons_zero, tolls_cons, toll_of_found hr']
      rfl
    · rwa [Multiset.mem_singleton.mp hx]
  · refine .bind (R := fun out p' => Adds p₁ p' ∧ ∃ S', p'.Spans [out.1] S' ∧ p'.tolls S' = 0 ∧ ∀ x ∈ S', p₁.nodes.size ≤ x) ?_
      fun out p₂ h₂ => .pure h₂
    refine .bind tree_ends fun t p₂ ⟨hp, ht⟩ => ?_
    subst hp
    intro out p' hrun
    obtain ⟨t', vs, hid, hd⟩ := copyTree_works.ends out.1 out.2 p' hrun
    have hview := hd.holds.view le_rfl
    refine ⟨hd.registers.grows.keeps.adds, t'.ids, hid ▸ .of_view hview, ?_, hd.registers.grows.nodes.ge⟩
    obtain rfl := hS.unique (.of_view ht)
    rw [tolls_view hview, Tree.kinds_of_outline hd.alike.outline, ← tolls_view ht, hz]

/-! ### Substitutions -/

theorem child_ends : Ends (child n i) p fun c p' => p' = p ∧ ∃ r, p.nodes[n]? = some r ∧ r.children[i]? = some c := by
  refine .bind children_ends fun cs p₁ ⟨hp, r, hr, hcs⟩ => ?_
  subst hp hcs
  split
  · exact .pure ⟨rfl, r, hr, ‹_›⟩
  · exact .throw

theorem Spans.child (hS : p.Spans [n] S) (hr : p.nodes[n]? = some r) (hc : r.children[i]? = some c) :
    ∃ U, p.Spans [c] U ∧ U ≤ S ∧ n ∉ U := by
  obtain ⟨r', T, hr', hT, rfl⟩ := Spans.single_iff.mp hS
  cases hr.symm.trans hr'
  obtain ⟨U, hU, hspans⟩ := hT.of_mem (hT.mem_of_mem (List.mem_of_getElem? hc))
  exact ⟨U, hspans, hU.trans (Multiset.le_cons_self ..), fun hn => hT.not_mem hr (Multiset.mem_of_le hU hn)⟩

def IsScalar (p : Plan) (n : NodeId) : Prop := ∃ r, p.nodes[n]? = some r ∧ r.op.kind.isScalar = true

theorem Eases.isScalar (h : Eases X p p') (hn : n < p.nodes.size) (hs : p'.IsScalar n) : p.IsScalar n := by
  have hr := Array.getElem?_eq_getElem hn
  obtain ⟨r', hr', hk, -⟩ := h.node n _ hr
  obtain ⟨s, hs, hscalar⟩ := hs
  cases hr'.symm.trans hs
  exact ⟨_, hr, hk ▸ hscalar⟩

/-- Putting something free of tolls into the place of references changes scalar nodes only, and adds no toll. -/
theorem substituteWithin_eases {s : Substitution} {fuel : Nat} (hs : ∀ e ∈ s, p.Free e.2) (hS : p.Spans [n] S) :
    Ends (substituteWithin s fuel n) p fun m p' =>
      Eases {x | x ∈ S ∧ p.IsScalar x} p p' ∧ ∃ S', p'.Spans [m] S' ∧ Lighter p p' 0 S S' := by
  induction fuel generalizing p n S with
  | zero => exact .throw
  | succ fuel ih =>
    refine .bind node_ends fun r p₁ ⟨hp, hr⟩ => ?_
    subst hp
    dsimp only
    by_cases hk : r.op.kind.isScalar = true
    swap
    · rw [if_pos (by simpa using hk)]
      exact .bind (R := fun _ _ => False) .throw fun _ _ h => h.elim
    rw [if_neg (by simpa using hk)]
    have hscalar : p₁.IsScalar n := ⟨r, hr, hk⟩
    split
    · rename_i v type _
      split
      · rename_i e he
        obtain ⟨l₁, l₂, heq, -⟩ := List.lookup_eq_some_iff.mp he
        have hmem : (v, e) ∈ s := by
          rw [heq]
          simp
        refine (copyExpr_free (hs _ hmem)).mono fun m p' ⟨ha, S', hS', hz, hnew⟩ => ?_
        exact ⟨ha.eases, S', hS', by omega, fun x hx => .inr (hnew x hx)⟩
      · exact .pure ⟨.refl _ p₁, S, hS, .refl p₁ S⟩
    · -- One child after the other is replaced; what is there at each turn is no heavier than what was there at first.
      refine .bind (.forM (I := fun p' => Eases {x | x ∈ S ∧ p₁.IsScalar x} p₁ p' ∧ ∃ S', p'.Spans [n] S' ∧ Lighter p₁ p' 0 S S')
        (fun i p' ⟨he, S', hS', hl⟩ => ?_) ⟨.refl _ p₁, S, hS, .refl p₁ S⟩ _) fun _ p₂ ⟨he, S', hS', hl⟩ => ?_
      · refine .bind child_ends fun c p₂ ⟨hp, r', hr', hc⟩ => ?_
        subst hp
        obtain ⟨U, hU, hUS, hn⟩ := hS'.child hr' hc
        refine .bind (ih (fun e hmem => (hs e hmem).eases he) hU) fun m p₃ ⟨he₃, U', hU', hl₃⟩ => ?_
        refine setChild_puts.mono fun _ p₄ hp => ?_
        have hX : ∀ x ∈ {x | x ∈ U ∧ p₂.IsScalar x}, x ∈ U := fun _ hx => hx.1
        obtain ⟨S₄, hS₄, hl₄⟩ := Puts.lighter hr' hc hU hn he₃ hX hU' hl₃ hp hS'
        refine ⟨he.trans (Puts.eases hr' hc hU hn he₃ hX hU' hl₃ hp) fun x hx hlt => ?_, S₄, hS₄, hl.trans hl₄ he.size⟩
        rcases hx with rfl | ⟨hx, hscalar'⟩
        · exact ⟨hS.mem_of_mem (.head _), hscalar⟩
        · refine ⟨?_, he.isScalar hlt hscalar'⟩
          exact (hl.mem x (Multiset.mem_of_le hUS hx)).resolve_right (Nat.not_le.mpr hlt)
      · refine .bind (recompute_looks p₂).ends fun _ p₃ h₃ => .pure ?_
        have he₃ : Eases ∅ p₂ p₃ := h₃.unchanged.adds.eases
        obtain ⟨S₃, hS₃, hl₃⟩ := he₃.spans n S' hS'
        exact ⟨he.trans he₃ nofun, S₃, hS₃, hl.trans hl₃ he.size⟩

end Plan

end Planwright
