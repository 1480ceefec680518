import Planwright.Proofs.Plan.Substitute
import Planwright.Proofs.Rule.Remake

/-! Nodes as they stand in a plan, whatever they remember and whatever is below them. `Adds` is the frame of a run that
    changes no node: it looks around and makes new nodes. -/

namespace Planwright

open Run Planwright.Tree

namespace Plan

variable {p p' p'' : Plan} {n : NodeId} {k : OpKind} {cs : List NodeId}

def At (p : Plan) (n : NodeId) (k : OpKind) (cs : List NodeId) : Prop :=
  ∃ r, p.nodes[n]? = some r ∧ r.op.kind = k ∧ r.children = cs

theorem At.child_run (h : p.At n k cs) {i : Nat} {c : NodeId} (hc : cs[i]? = some c) : child n i p = .ok (c, p) := by
  obtain ⟨r, hr, -, rfl⟩ := h
  exact child_of_found hr hc

theorem At.children_run (h : p.At n k cs) : children n p = .ok (cs, p) := by
  obtain ⟨r, hr, -, rfl⟩ := h
  rw [children, bind_run, node_of_found hr]
  rfl

theorem At.kind_run (h : p.At n k cs) : kind n p = .ok (k, p) := by
  obtain ⟨r, hr, rfl, -⟩ := h
  rw [kind, bind_run, op, bind_run, node_of_found hr]
  rfl

/-- Nothing went lost, and all nodes are as they were, but for what they remember. -/
structure Adds (p p' : Plan) : Prop where
  size : p.nodes.size ≤ p'.nodes.size
  node : ∀ (n : NodeId) (r : Node), p.nodes[n]? = some r → ∃ r', p'.nodes[n]? = some r' ∧ r'.op = r.op ∧ r'.children = r.children

theorem Adds.refl (p : Plan) : Adds p p := ⟨Nat.le_refl _, fun _ r h => ⟨r, h, rfl, rfl⟩⟩

theorem Adds.trans (h : Adds p p') (h' : Adds p' p'') : Adds p p'' := by
  refine ⟨h.size.trans h'.size, fun n r hr => ?_⟩
  obtain ⟨r₁, hr₁, ho₁, hc₁⟩ := h.node n r hr
  obtain ⟨r₂, hr₂, ho₂, hc₂⟩ := h'.node n r₁ hr₁
  exact ⟨r₂, hr₂, ho₂.trans ho₁, hc₂.trans hc₁⟩

theorem Keeps.adds (h : Keeps ∅ p p') : Adds p p' := ⟨h.size, fun n r hr => h.node n r hr id⟩

theorem At.adds (h : p.At n k cs) (ha : Adds p p') : p'.At n k cs := by
  obtain ⟨r, hr, rfl, rfl⟩ := h
  obtain ⟨r', hr', ho, hc⟩ := ha.node n r hr
  exact ⟨r', hr', by rw [ho], hc⟩

theorem create_adds {op : Op} : Ends (create op cs) p fun n p' => Adds p p' ∧ n = p.nodes.size ∧
    p'.nodes[n]? = some ⟨op, cs, none⟩ ∧ op.kind.admits cs.length := by
  refine .bind (R := fun _ p' => p' = p ∧ op.kind.admits cs.length = true) ?_ fun _ p₁ ⟨hp, ha⟩ => ?_
  · rw [checkCount]
    split
    · exact .pure ⟨rfl, ‹_›⟩
    · exact .throw
  · subst hp
    intro n p' hrun
    cases hrun
    refine ⟨⟨by simp, fun m r hr => ⟨r, ?_, rfl, rfl⟩⟩, rfl, Array.getElem?_push_size, ha⟩
    rw [Array.getElem?_push_lt (Array.getElem?_eq_some_iff.mp hr).1]
    exact congrArg some (Array.getElem?_eq_some_iff.mp hr).2

theorem tree_ends : Ends (tree n) p fun t p' => p' = p ∧ p.tree? n = some t := by
  refine .get ?_
  split
  · exact .pure ⟨rfl, ‹_›⟩
  · exact .throw

end Plan

namespace Pattern

variable {p : Plan} {n : NodeId} {k : OpKind} {ps : List Pattern}

theorem forall₂_of_each {cs : List NodeId} (hlen : ps.length = cs.length) (h : holds.each p ps cs = true) :
    List.Forall₂ (fun q c => q.holds p c = true) ps cs := by
  induction ps generalizing cs with
  | nil =>
    obtain rfl : cs = [] := List.length_eq_zero_iff.mp hlen.symm
    exact .nil
  | cons q ps ih =>
    cases cs with
    | nil => cases hlen
    | cons c cs =>
      rw [holds.each, Bool.and_eq_true] at h
      exact .cons h.1 (ih (Nat.succ.inj hlen) h.2)

theorem holds_matching (h : (matching k ps).holds p n) :
    ∃ cs, p.At n k cs ∧ (ps = [] ∨ List.Forall₂ (fun q c => q.holds p c = true) ps cs) := by
  rw [holds] at h
  cases hr : p.nodes[n]? with
  | none => simp [hr] at h
  | some r =>
    simp only [hr, Bool.and_eq_true, beq_iff_eq, Bool.or_eq_true, List.isEmpty_iff] at h
    exact ⟨r.children, ⟨r, hr, h.1, rfl⟩, h.2.imp_right fun h => forall₂_of_each h.1 h.2⟩

theorem holds_ofKind (h : (ofKind k).holds p n) : ∃ cs, p.At n k cs :=
  (holds_matching h).imp fun _ h => h.1

theorem holds_one {q : Pattern} (h : (matching k [q]).holds p n) : ∃ a, p.At n k [a] ∧ q.holds p a = true := by
  obtain ⟨cs, ha, h | h⟩ := holds_matching h
  · cases h
  · obtain _ | ⟨hq, _ | _⟩ := h
    exact ⟨_, ha, hq⟩

theorem holds_two {q q' : Pattern} (h : (matching k [q, q']).holds p n) :
    ∃ a b, p.At n k [a, b] ∧ q.holds p a = true ∧ q'.holds p b = true := by
  obtain ⟨cs, ha, h | h⟩ := holds_matching h
  · cases h
  · obtain _ | ⟨hq, _ | ⟨hq', _ | _⟩⟩ := h
    exact ⟨_, _, ha, hq, hq'⟩

theorem holds_three {q q' q'' : Pattern} (h : (matching k [q, q', q'']).holds p n) :
    ∃ a b c, p.At n k [a, b, c] ∧ q.holds p a = true ∧ q'.holds p b = true ∧ q''.holds p c = true := by
  obtain ⟨cs, ha, h | h⟩ := holds_matching h
  · cases h
  · obtain _ | ⟨hq, _ | ⟨hq', _ | ⟨hq'', _ | _⟩⟩⟩ := h
    exact ⟨_, _, _, ha, hq, hq', hq''⟩

end Pattern

end Planwright
