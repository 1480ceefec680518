import Planwright.Proofs.Ledger.Engine
import Planwright.Proofs.Plan.Spans

/-! Trees that own their nodes. A tree owns its nodes when none of them is counted twice. What a run has at hand is then a
    multiset of nodes without repetitions. -/

namespace Planwright

open Run Plan Planwright.Tree

namespace Ledger

variable {ρ : Role} {r : Node}
variable {p p' : Plan} {a : Asset} {A B : Multiset Asset} {S T : Multiset NodeId} {n : NodeId} {k : OpKind} {cs : List NodeId} {i : Nat}

/-- The nodes that something at hand accounts for. -/
def Accounts (p : Plan) : Asset → Multiset NodeId → Prop
  | .tree _ n, S => p.Spans [n] S
  | .cell _ n cs, S => S = {n} ∧ ∃ r, p.nodes[n]? = some r ∧ r.children = cs
  | .view _ _, S => S = 0

def Tally (p : Plan) (A : Multiset Asset) (S : Multiset NodeId) : Prop :=
  ∃ Ss : Multiset (Multiset NodeId), Multiset.Rel (Accounts p) A Ss ∧ Ss.sum = S

theorem Accounts.lt (h : Accounts p a S) : ∀ x ∈ S, x < p.nodes.size := by
  cases a with
  | tree ρ n => exact Spans.lt h
  | cell k n cs =>
    obtain ⟨rfl, r, hr, -⟩ := h
    intro x hx
    rw [Multiset.mem_singleton.mp hx]
    exact (Array.getElem?_eq_some_iff.mp hr).1
  | view ρ n =>
    obtain rfl : S = 0 := h
    nofun

theorem Accounts.frame (h : Accounts p a S)
    (hkeep : ∀ x ∈ S, ∀ r, p.nodes[x]? = some r → ∃ r', p'.nodes[x]? = some r' ∧ r'.children = r.children) : Accounts p' a S := by
  cases a with
  | tree ρ n => exact Spans.frame h hkeep
  | cell k n cs =>
    obtain ⟨rfl, r, hr, hc⟩ := h
    obtain ⟨r', hr', hc'⟩ := hkeep n (Multiset.mem_singleton_self n) r hr
    exact ⟨rfl, r', hr', hc'.trans hc⟩
  | view ρ n => exact h

theorem tally_zero : Tally p 0 S ↔ S = 0 := by
  constructor
  · rintro ⟨Ss, hrel, rfl⟩
    rw [Multiset.rel_zero_left.mp hrel, Multiset.sum_zero]
  · rintro rfl
    exact ⟨0, Multiset.Rel.zero, rfl⟩

theorem tally_add : Tally p (A + B) S ↔ ∃ T U, Tally p A T ∧ Tally p B U ∧ S = T + U := by
  constructor
  · rintro ⟨Ss, hrel, rfl⟩
    obtain ⟨Ts, Us, hT, hU, rfl⟩ := Multiset.rel_add_left.mp hrel
    exact ⟨_, _, ⟨Ts, hT, rfl⟩, ⟨Us, hU, rfl⟩, Multiset.sum_add Ts Us⟩
  · rintro ⟨_, _, ⟨Ts, hT, rfl⟩, ⟨Us, hU, rfl⟩, rfl⟩
    exact ⟨Ts + Us, hT.add hU, Multiset.sum_add Ts Us⟩

theorem tally_single : Tally p {a} S ↔ Accounts p a S := by
  constructor
  · rintro ⟨Ss, hrel, rfl⟩
    rw [← Multiset.cons_zero, Multiset.rel_cons_left] at hrel
    obtain ⟨T, Ts, hT, hTs, rfl⟩ := hrel
    rw [Multiset.rel_zero_left.mp hTs]
    simpa using hT
  · intro h
    exact ⟨{S}, .cons h .zero, Multiset.sum_singleton S⟩

theorem Tally.lt (h : Tally p A S) : ∀ x ∈ S, x < p.nodes.size := by
  induction A using Multiset.induction generalizing S with
  | empty =>
    obtain rfl := tally_zero.mp h
    nofun
  | cons a A ih =>
    rw [← Multiset.singleton_add] at h
    obtain ⟨T, U, hT, hU, rfl⟩ := tally_add.mp h
    intro x hx
    exact (Multiset.mem_add.mp hx).elim ((tally_single.mp hT).lt x) (ih hU x)

theorem Tally.frame (h : Tally p A S)
    (hkeep : ∀ x ∈ S, ∀ r, p.nodes[x]? = some r → ∃ r', p'.nodes[x]? = some r' ∧ r'.children = r.children) : Tally p' A S := by
  obtain ⟨Ss, hrel, rfl⟩ := h
  refine ⟨Ss, hrel.mono fun a _ T hT ha => ha.frame fun x hx => hkeep x ?_, rfl⟩
  exact Multiset.mem_of_le (Multiset.le_sum_of_mem hT) hx

theorem tally_trees : Tally p (Asset.trees k i cs) S ↔ p.Spans cs S := by
  induction cs generalizing i S with
  | nil =>
    rw [Asset.trees, tally_zero]
    exact ⟨fun h => h ▸ .nil, fun h => by cases h; rfl⟩
  | cons c cs ih =>
    rw [Asset.trees, tally_add, Spans.cons_iff]
    simp only [ih, tally_single, Accounts]

/-- What is at hand accounts for each node once. -/
def Owned (p : Plan) (A : Multiset Asset) : Prop := ∃ S, Tally p A S ∧ S.Nodup

theorem owned_add : Owned p ({a} + A) ↔ ∃ S T, Accounts p a S ∧ Tally p A T ∧ (S + T).Nodup := by
  constructor
  · rintro ⟨_, hA, hn⟩
    obtain ⟨S, T, hS, hT, rfl⟩ := tally_add.mp hA
    exact ⟨S, T, tally_single.mp hS, hT, hn⟩
  · rintro ⟨S, T, hS, hT, hn⟩
    exact ⟨S + T, tally_add.mpr ⟨S, T, tally_single.mpr hS, hT, rfl⟩, hn⟩

theorem owned_view : Owned p ({.view ρ n} + A) ↔ Owned p A := by
  rw [owned_add]
  constructor
  · rintro ⟨S, T, hS, hT, hn⟩
    obtain rfl : S = 0 := hS
    exact ⟨T, hT, by rwa [zero_add] at hn⟩
  · rintro ⟨T, hT, hn⟩
    exact ⟨0, T, rfl, hT, by rwa [zero_add]⟩

theorem owned_opened (hr : p.nodes[n]? = some r) :
    Owned p ({.tree ρ n} + A) ↔ Owned p ({.cell k n r.children} + (Asset.trees k 0 r.children + A)) := by
  rw [owned_add, owned_add]
  constructor
  · rintro ⟨S, T, hS, hT, hn⟩
    obtain ⟨r', U, hr', hU, rfl⟩ := Spans.single_iff.mp hS
    obtain rfl : r = r' := Option.some.inj (hr.symm.trans hr')
    refine ⟨{n}, U + T, ⟨rfl, r, hr, rfl⟩, tally_add.mpr ⟨U, T, tally_trees.mpr hU, hT, rfl⟩, ?_⟩
    rwa [Multiset.singleton_add, ← Multiset.cons_add]
  · rintro ⟨S, T, ⟨rfl, -⟩, hT, hn⟩
    obtain ⟨U, V, hU, hV, rfl⟩ := tally_add.mp hT
    refine ⟨n ::ₘ U, V, Spans.single_iff.mpr ⟨r, U, hr, tally_trees.mp hU, rfl⟩, hV, ?_⟩
    rwa [Multiset.cons_add, ← Multiset.singleton_add]

theorem Owned.cell (h : Owned p ({.cell k n cs} + A)) : ∃ r, p.nodes[n]? = some r ∧ r.children = cs := by
  obtain ⟨S, T, ⟨-, hr⟩, -⟩ := owned_add.mp h
  exact hr

theorem Owned.adds (h : Owned p A) (ha : Adds p p') : Owned p' A := by
  obtain ⟨S, hS, hn⟩ := h
  refine ⟨S, hS.frame fun x _ r hr => ?_, hn⟩
  obtain ⟨r', hr', -, hc⟩ := ha.node x r hr
  exact ⟨r', hr', hc⟩

theorem Owned.creates (h : Owned p (Asset.trees k 0 r.children + A)) (ha : Adds p p')
    (hr : p'.nodes[p.nodes.size]? = some r) : Owned p' ({.tree ρ p.nodes.size} + A) := by
  obtain ⟨S, hS, hn⟩ := h
  have hlt := hS.lt
  have hkeep : ∀ x ∈ S, ∀ r, p.nodes[x]? = some r → ∃ r', p'.nodes[x]? = some r' ∧ r'.children = r.children := fun x _ r hr => by
    obtain ⟨r', hr', -, hc⟩ := ha.node x r hr
    exact ⟨r', hr', hc⟩
  obtain ⟨T, U, hT, hU, rfl⟩ := tally_add.mp (hS.frame hkeep)
  refine owned_add.mpr ⟨_, U, Spans.single_iff.mpr ⟨r, T, hr, tally_trees.mp hT, rfl⟩, hU, ?_⟩
  rw [Multiset.cons_add, Multiset.nodup_cons]
  exact ⟨fun h => Nat.lt_irrefl _ (hlt _ h), hn⟩

theorem Owned.sets {c : NodeId} (h : Owned p ({.cell k n cs} + ({.tree ρ c} + A))) (hr : p.nodes[n]? = some r) :
    Owned { p with nodes := p.nodes.setIfInBounds n { r with children := r.children.set i c, info := none } }
      ({.cell k n (cs.set i c)} + ({.tree ρ c} + A)) := by
  obtain ⟨S, T, ⟨rfl, r', hr', hc⟩, hT, hn⟩ := owned_add.mp h
  obtain rfl : r = r' := Option.some.inj (hr.symm.trans hr')
  have hlt := (Array.getElem?_eq_some_iff.mp hr).1
  rw [Multiset.singleton_add, Multiset.nodup_cons] at hn
  refine owned_add.mpr ⟨{n}, T, ⟨rfl, { r with children := r.children.set i c, info := none }, ?_, by rw [hc]⟩, hT.frame ?_, ?_⟩
  · rw [Array.getElem?_setIfInBounds_self_of_lt hlt]
  · intro x hx s hs
    refine ⟨s, ?_, rfl⟩
    rwa [Array.getElem?_setIfInBounds_ne]
    rintro rfl
    exact hn.1 hx
  · rwa [Multiset.singleton_add, Multiset.nodup_cons]

theorem Owned.renames {op : Op} (h : Owned p A) (hr : p.nodes[n]? = some r) :
    Owned { p with nodes := p.nodes.setIfInBounds n { r with op, info := none } } A := by
  obtain ⟨S, hS, hn⟩ := h
  refine ⟨S, hS.frame fun x _ s hs => ?_, hn⟩
  by_cases hx : n = x
  · subst hx
    obtain rfl : r = s := Option.some.inj (hr.symm.trans hs)
    exact ⟨_, Array.getElem?_setIfInBounds_self_of_lt (Array.getElem?_eq_some_iff.mp hr).1, rfl⟩
  · exact ⟨s, by rwa [Array.getElem?_setIfInBounds_ne hx], rfl⟩

theorem Owned.copies {t t' : Tree} {vs : List VarId} {m m' : VarMap} (h : Owned p A) (hd : CopiedTo m m' p p' t t' vs) :
    Owned p' ({.tree ρ t'.id} + A) := by
  obtain ⟨S, hS, hn⟩ := h
  obtain ⟨hge, -, hnodup⟩ := hd.registers.grows.nodes
  have hS' : Tally p' A S := hS.frame fun x _ r hr => by
    obtain ⟨r', hr', -, hc⟩ := hd.registers.grows.keeps.adds.node x r hr
    exact ⟨r', hr', hc⟩
  refine owned_add.mpr ⟨t'.ids, S, Spans.of_view (hd.holds.view le_rfl), hS', Multiset.nodup_add.mpr ⟨hnodup, hn, ?_⟩⟩
  -- The nodes of the copy are new.
  exact Multiset.disjoint_left.mpr fun {x} hx hx' => Nat.not_lt.mpr (hge x hx) (hS.lt x hx')

/-- The account of nodes that are owned. -/
def owned : Ledger where
  Owns _ := Owned
  Fits _ _ := True
  Same _ _ := True
  weaken := by
    rintro _ p A B hle ⟨S, hS, hn⟩
    obtain ⟨C, rfl⟩ := Multiset.le_iff_exists_add.mp hle
    obtain ⟨T, U, hT, -, rfl⟩ := tally_add.mp hS
    exact ⟨T, hT, (Multiset.nodup_add.mp hn).1⟩
  adds ha h := h.adds ha
  writes _ _ h := h
  symm _ := trivial
  retag _ h := by
    obtain ⟨S, T, hS, hT, hn⟩ := owned_add.mp h
    exact owned_add.mpr ⟨S, T, hS, hT, hn⟩
  same _ _ := trivial
  shows h := owned_view.mpr h
  again h := owned_view.mpr h
  looks h _ _ := owned_view.mpr (owned_view.mp h)
  opens := by
    rintro _ p ρ n k cs A h ⟨r, hr, rfl, -⟩
    exact (owned_opened hr).mp h
  closes h := by
    obtain ⟨r, hr, rfl⟩ := Owned.cell h
    exact (owned_opened hr).mpr h
  rereads := by
    intro _ p n r k cs i c d A h hd hr hc
    obtain ⟨r', hr', rfl⟩ := Owned.cell h
    obtain rfl : r = r' := Option.some.inj (hr.symm.trans hr')
    obtain rfl : c = d := Option.some.inj (hc.symm.trans hd)
    obtain ⟨hi, rfl⟩ := List.getElem?_eq_some_iff.mp hd
    rwa [List.set_getElem_self]
  fits _ _ := trivial
  fits_of _ := trivial
  creates _ ha hr _ h := h.creates ha hr
  sets h hr _ := h.sets hr
  renames h hr _ _ := h.renames hr
  copies h _ hd := (owned_view.mp h).copies hd

end Ledger

namespace Engine

/-- A pass gives a plan in which no node is at two places again, whatever the rules and options are. -/
theorem pass_distinct {p : Plan} {t : Tree} (ht : p.tree? p.root = some t) (hids : t.ids.Nodup) (fuel : Nat) (options : Options)
    (group : RuleGroup) : Ends (pass fuel options group) p fun _ p' =>
      ∃ t', p'.tree? p'.root = some t' ∧ t'.ids.Nodup ∧ ∀ x ∈ t'.ids, x < p'.nodes.size := by
  have howned : Ledger.owned.Owns (.start options) p {.tree .relational p.root} :=
    ⟨t.ids, Ledger.tally_single.mpr (Spans.of_view ht), hids⟩
  refine (Ledger.pass_ends (fun h => h) howned).mono fun _ p' ⟨S, hS, hn⟩ => ?_
  have hspans : p'.Spans [p'.root] S := Ledger.tally_single.mp hS
  obtain ⟨t', ht', rfl⟩ := hspans.tree? hn
  exact ⟨t', ht', hn, hspans.lt⟩

/-- `OuterApply(t, Filter(u, u.b = t.a))`. -/
def appliedTree : Tree :=
  .node 6 .outerApply [.node 0 (.scanTable ⟨0, "t", [0], .empty, none⟩) [],
    .node 5 .filter [.node 1 (.scanTable ⟨1, "u", [1], .empty, none⟩) [],
      .node 4 (.scalar .eq .boolean) [.node 2 (.varRef 1 .int64) [], .node 3 (.varRef 0 .int64) []]]]

def applied : Plan := appliedTree.plan 2 [⟨.column, "t.a", .int64⟩, ⟨.column, "u.b", .int64⟩]

theorem pass_distinct_applied : applied.tree? applied.root = some appliedTree ∧ appliedTree.ids.Nodup ∧
    Reaches (pass 100 .standard .all) applied fun o p' => o.changed = true ∧
      ∃ t', p'.tree? p'.root = some t' ∧ t'.ids.Nodup ∧ ∀ x ∈ t'.ids, x < p'.nodes.size :=
  ⟨rfl, by decide, (pass_distinct (t := appliedTree) rfl (by decide) 100 .standard .all).reaches (by decide +kernel)⟩

end Engine

end Planwright
