import Mathlib.Algebra.Order.Group.Multiset
import Planwright.Proofs.Plan.Nodes

/-! The nodes below a place in a plan. They are counted as often as they are met on the way down, so that nothing is asked of
    the plan but that the way down ends. -/

namespace Planwright

open Run Plan Planwright.Tree

inductive Plan.Spans (p : Plan) : List NodeId → Multiset NodeId → Prop
  | nil : Spans p [] 0
  | cons {n : NodeId} {r : Node} {ns : List NodeId} {S T : Multiset NodeId} :
      p.nodes[n]? = some r → Spans p r.children S → Spans p ns T → Spans p (n :: ns) (n ::ₘ (S + T))

namespace Plan.Spans

variable {p p' : Plan} {n : NodeId} {ns : List NodeId} {S T : Multiset NodeId}
variable {x : NodeId} {ms : List NodeId}

theorem lt (h : p.Spans ns S) : ∀ x ∈ S, x < p.nodes.size := by
  induction h with
  | nil => nofun
  | cons hr _ _ ihS ihT =>
    intro x hx
    rw [Multiset.mem_cons, Multiset.mem_add] at hx
    rcases hx with rfl | hx | hx
    · exact (Array.getElem?_eq_some_iff.mp hr).1
    · exact ihS x hx
    · exact ihT x hx

theorem frame (h : p.Spans ns S)
    (hkeep : ∀ x ∈ S, ∀ r, p.nodes[x]? = some r → ∃ r', p'.nodes[x]? = some r' ∧ r'.children = r.children) : p'.Spans ns S := by
  induction h with
  | nil => exact .nil
  | cons hr _ _ ihS ihT =>
    obtain ⟨r', hr', hc⟩ := hkeep _ (Multiset.mem_cons_self _ _) _ hr
    refine .cons hr' (hc ▸ ihS fun x hx => hkeep x ?_) (ihT fun x hx => hkeep x ?_)
    · exact Multiset.mem_cons_of_mem (Multiset.mem_add.mpr (.inl hx))
    · exact Multiset.mem_cons_of_mem (Multiset.mem_add.mpr (.inr hx))

theorem single_iff : p.Spans [n] S ↔ ∃ r T, p.nodes[n]? = some r ∧ p.Spans r.children T ∧ S = n ::ₘ T := by
  constructor
  · rintro (_ | ⟨hr, hS, _ | _⟩)
    exact ⟨_, _, hr, hS, by rw [add_zero]⟩
  · rintro ⟨r, T, hr, hT, rfl⟩
    have := Spans.cons hr hT .nil
    rwa [add_zero] at this

theorem cons_iff : p.Spans (n :: ns) S ↔ ∃ T U, p.Spans [n] T ∧ p.Spans ns U ∧ S = T + U := by
  constructor
  · rintro (_ | ⟨hr, hS, hT⟩)
    exact ⟨_, _, single_iff.mpr ⟨_, _, hr, hS, rfl⟩, hT, by rw [Multiset.cons_add]⟩
  · rintro ⟨T, U, hT, hU, rfl⟩
    obtain ⟨r, V, hr, hV, rfl⟩ := single_iff.mp hT
    rw [Multiset.cons_add]
    exact .cons hr hV hU

theorem of_view {d : Nat} {t : Tree} (h : p.view d n = some t) : p.Spans [n] t.ids := by
  induction d generalizing n t with
  | zero => cases h
  | succ d ih =>
    obtain ⟨r, ts, hr, rfl, hts⟩ := view_succ h
    have hall : ∀ {cs ts}, List.Forall₂ (fun m c => p.view d m = some c) cs ts → p.Spans cs (ts.flatMap Tree.ids : List NodeId) := by
      intro cs ts hts
      induction hts with
      | nil => exact .nil
      | cons hc _ ihs =>
        rw [List.flatMap_cons, ← Multiset.coe_add]
        exact cons_iff.mpr ⟨_, _, ih hc, ihs, rfl⟩
    exact single_iff.mpr ⟨r, _, hr, hall hts, by rw [ids_node, Multiset.cons_coe]⟩

theorem view (h : p.Spans ns S) : ∃ ts : List Tree, (∀ d, S.card ≤ d → List.Forall₂ (fun n t => p.view d n = some t) ns ts) ∧
    (ts.flatMap Tree.ids : Multiset NodeId) = S := by
  induction h with
  | nil => exact ⟨[], fun _ _ => .nil, rfl⟩
  | @cons n r ns S T hr _ _ ihS ihT =>
    obtain ⟨cs, hcs, rfl⟩ := ihS
    obtain ⟨ts, hts, rfl⟩ := ihT
    refine ⟨.node n r.op cs :: ts, fun d hd => ?_, ?_⟩
    · rw [Multiset.card_cons, Multiset.card_add] at hd
      obtain ⟨d, rfl⟩ := Nat.exists_eq_succ_of_ne_zero (by omega : d ≠ 0)
      refine .cons ?_ (hts _ (by omega))
      have hbelow : r.children.mapM (p.view d) = some cs := mapM_of_forall₂ (hcs d (by omega))
      simp [Plan.view, hr, hbelow]
    · rw [List.flatMap_cons, ids_node, List.cons_append, ← Multiset.cons_coe, ← Multiset.coe_add]

theorem tree? (h : p.Spans [n] S) (hS : S.Nodup) : ∃ t, p.tree? n = some t ∧ (t.ids : Multiset NodeId) = S := by
  obtain ⟨ts, hts, hids⟩ := h.view
  have hle : S ≤ Multiset.range p.nodes.size :=
    (Multiset.le_iff_subset hS).mpr fun x hx => Multiset.mem_range.mpr (h.lt x hx)
  have hcard : S.card ≤ p.nodes.size := Multiset.card_range p.nodes.size ▸ Multiset.card_le_card hle
  obtain _ | ⟨ht, _ | _⟩ := hts _ hcard
  exact ⟨_, ht, by simpa using hids⟩

theorem unique (h : p.Spans ns S) (h' : p.Spans ns T) : S = T := by
  induction h generalizing T with
  | nil =>
    cases h'
    rfl
  | cons hr _ _ ihS ihT =>
    obtain _ | ⟨hr', hS', hT'⟩ := h'
    cases hr.symm.trans hr'
    rw [ihS hS', ihT hT']

theorem of_mem (h : p.Spans ns S) (hx : x ∈ S) : ∃ T, T ≤ S ∧ p.Spans [x] T := by
  induction h with
  | nil => cases hx
  | @cons n r ns S U hr hS hU ihS ihU =>
    rw [Multiset.mem_cons, Multiset.mem_add] at hx
    rcases hx with rfl | hx | hx
    · refine ⟨x ::ₘ S, ?_, single_iff.mpr ⟨r, S, hr, hS, rfl⟩⟩
      exact Multiset.cons_le_cons _ (Multiset.le_add_right ..)
    · obtain ⟨T, hT, hspans⟩ := ihS hx
      exact ⟨T, (hT.trans (Multiset.le_add_right ..)).trans (Multiset.le_cons_self ..), hspans⟩
    · obtain ⟨T, hT, hspans⟩ := ihU hx
      exact ⟨T, (hT.trans (Multiset.le_add_left ..)).trans (Multiset.le_cons_self ..), hspans⟩

theorem not_mem {r : Node} (hr : p.nodes[n]? = some r) (h : p.Spans r.children S) : n ∉ S := by
  intro hn
  obtain ⟨T, hT, hspans⟩ := h.of_mem hn
  obtain rfl := hspans.unique (single_iff.mpr ⟨r, S, hr, h, rfl⟩)
  have := Multiset.card_le_card hT
  rw [Multiset.card_cons] at this
  omega

theorem mem_of_mem (h : p.Spans ns S) (hx : x ∈ ns) : x ∈ S := by
  induction h with
  | nil => cases hx
  | cons _ _ _ _ ihT =>
    rcases List.mem_cons.mp hx with rfl | hx
    · exact Multiset.mem_cons_self ..
    · exact Multiset.mem_cons_of_mem (Multiset.mem_add.mpr (.inr (ihT hx)))

theorem append (h : p.Spans ns S) (h' : p.Spans ms T) : p.Spans (ns ++ ms) (S + T) := by
  induction ns generalizing S with
  | nil =>
    cases h
    rwa [List.nil_append, zero_add]
  | cons n ns ih =>
    obtain ⟨A, B, hA, hB, rfl⟩ := cons_iff.mp h
    rw [add_assoc]
    exact cons_iff.mpr ⟨A, B + T, hA, ih hB, rfl⟩

theorem sublist (h : p.Spans ns S) (hms : ms.Sublist ns) : ∃ T, T ≤ S ∧ p.Spans ms T := by
  induction hms generalizing S with
  | slnil => exact ⟨S, le_rfl, h⟩
  | cons n _ ih =>
    obtain ⟨A, B, -, hB, rfl⟩ := cons_iff.mp h
    obtain ⟨T, hle, hT⟩ := ih hB
    exact ⟨T, hle.trans (Multiset.le_add_left ..), hT⟩
  | cons_cons n _ ih =>
    obtain ⟨A, B, hA, hB, rfl⟩ := cons_iff.mp h
    obtain ⟨T, hle, hT⟩ := ih hB
    exact ⟨A + T, by gcongr, cons_iff.mpr ⟨A, T, hA, hT, rfl⟩⟩

theorem adds (h : p.Spans ns S) (ha : Adds p p') : p'.Spans ns S := h.frame fun x _ r hr => by
  obtain ⟨r', hr', -, hc⟩ := ha.node x r hr
  exact ⟨r', hr', hc⟩

end Plan.Spans

theorem Plan.At.spans {p : Plan} {n : NodeId} {k : OpKind} {cs : List NodeId} {S : Multiset NodeId} (h : p.At n k cs)
    (hS : p.Spans [n] S) : ∃ T, p.Spans cs T ∧ S = n ::ₘ T := by
  obtain ⟨r, hr, -, rfl⟩ := h
  obtain ⟨r', T, hr', hT, rfl⟩ := Spans.single_iff.mp hS
  cases hr.symm.trans hr'
  exact ⟨T, hT, rfl⟩

end Planwright
