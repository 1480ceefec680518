import Planwright.Proofs.Scope.Basic
import Planwright.Proofs.Tree.Parts

/-! Valid trees. `Valid` is what holds of every tree a run comes upon, read through the renaming so far, and it passes
    on to every child. -/

namespace Planwright

open Run

namespace Tree

/-- Every variable is brought into being once, is not used outside its scope and is one of the first `k`. -/
structure Valid (k : Nat) (ρ : VarId → VarId) (t : Tree) : Prop where
  wellFormed : t.wellFormed = true
  inScope : Scoped ρ t
  nodup : t.binds.Nodup
  fixed : ∀ v ∈ t.binds, ρ v = v
  closed : ∀ u, Uses ρ t u → u ∉ t.binds
  binds_lt : ∀ v ∈ t.binds, v < k
  uses_lt : ∀ u, Uses ρ t u → u < k

variable {k k' k'' : Nat} {ρ ρ' ρ'' : VarId → VarId} {t t' t'' : Tree} {u v : VarId}

theorem Valid.of_closed (ht : t.wellFormed) (hs : Scoped (·) t) (hd : t.binds.Nodup) (hlt : ∀ v ∈ t.binds, v < k)
    (hno : t.analysis.toOption.map Info.external = some .empty) : Valid k (·) t := by
  obtain ⟨i, hi⟩ := exists_analysis ht
  have hnone : ∀ u, ¬Uses (·) t u := by
    intro u hu
    have hmem := (analysis_scope ht hi u).2.mpr hu
    rw [hi] at hno
    exact VarSet.not_mem_empty u (Option.some.inj hno ▸ hmem)
  exact ⟨ht, hs, hd, fun _ _ => rfl, fun u hu => absurd hu (hnone u), hlt, fun u hu => absurd hu (hnone u)⟩

section Node
variable {id : NodeId} {op : Op} {cs : List Tree} {i : Nat} {c c' : Tree}

theorem uses_child (hc : cs[i]? = some c) (hu : Uses ρ c u) :
    Uses ρ (node id op cs) u ∨ ∃ j d, cs[j]? = some d ∧ op.sees i j = true ∧ Defines ρ d u := by
  by_cases h : ∃ j d, cs[j]? = some d ∧ op.sees i j = true ∧ Defines ρ d u
  · exact .inr h
  · exact .inl (.passed hc hu fun j d hd hs hdu => h ⟨j, d, hd, hs, hdu⟩)

theorem eq_of_mem_binds (h : (node id op cs).binds.Nodup) {j : Nat} {d : Tree} (hc : cs[i]? = some c)
    (hd : cs[j]? = some d) (hv : v ∈ c.binds) (hv' : v ∈ d.binds) : i = j := by
  rw [binds_node] at h
  exact eq_of_mem_flatMap (List.nodup_append.mp h).2.1 hc hd hv hv'

theorem child_eq_of_mem_binds (h : (node id op cs).binds.Nodup) {d : Tree} (hc : c ∈ cs) (hd : d ∈ cs) (hv : v ∈ c.binds)
    (hv' : v ∈ d.binds) : c = d := by
  obtain ⟨i, hi⟩ := List.mem_iff_getElem?.mp hc
  obtain ⟨j, hj⟩ := List.mem_iff_getElem?.mp hd
  obtain rfl := eq_of_mem_binds h hi hj hv hv'
  exact Option.some.inj (hi.symm.trans hj)

theorem sees_lt {j : Nat} (h : op.sees i j = true) : j < i := by
  cases op <;> simp at h <;> omega

theorem Valid.child (h : Valid k ρ (node id op cs)) (hc : cs[i]? = some c) : Valid k ρ c := by
  have hmem := List.mem_of_getElem? hc
  obtain ⟨-, hwf⟩ := wellFormed_node.mp h.wellFormed
  obtain ⟨-, -, hscoped⟩ := scoped_node.mp h.inScope
  obtain ⟨-, hnodup, -, -⟩ := nodup_binds_node.mp h.nodup
  have hsub : ∀ v ∈ c.binds, v ∈ (node id op cs).binds := fun v => mem_binds_of_mem hmem
  refine ⟨hwf c hmem, hscoped c hmem, hnodup c hmem, fun v hv => h.fixed v (hsub v hv), fun u hu hb => ?_,
    fun v hv => h.binds_lt v (hsub v hv), fun u hu => ?_⟩
  · rcases uses_child hc hu with hu | ⟨j, d, hd, hsees, hdu⟩
    · exact h.closed u hu (hsub u hb)
    · -- Another child defines the variable, and each is brought into being once.
      have hdmem := List.mem_of_getElem? hd
      obtain rfl := eq_of_mem_binds h.nodup hc hd hb (mem_binds_of_defines (hscoped d hdmem) hdu)
      exact absurd (sees_lt hsees) (Nat.lt_irrefl i)
  · rcases uses_child hc hu with hu | ⟨j, d, hd, -, hdu⟩
    · exact h.uses_lt u hu
    · have hdmem := List.mem_of_getElem? hd
      exact h.binds_lt u (mem_binds_of_mem hdmem (mem_binds_of_defines (hscoped d hdmem) hdu))

theorem Valid.first (h : Valid k ρ (node id op (c :: cs))) : Valid k ρ c := h.child (i := 0) rfl

theorem Valid.second (h : Valid k ρ (node id op (c :: c' :: cs))) : Valid k ρ c' := h.child (i := 1) rfl

end Node

end Tree

end Planwright
