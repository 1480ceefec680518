import Mathlib.Algebra.Order.Ring.Nat
import Planwright.Proofs.Variable.Renaming

/-! Trees that mirror each other: the same operators all the way down, under the names that a map of variables gives. -/

namespace Planwright

def SortKey.under (μ : VarId → VarId) (k : SortKey) : SortKey := ⟨μ k.var, k.ascending⟩

/-- What is known about a table is about its columns. -/
structure Table.OnColumns (t : Table) : Prop where
  nonNullable : ∀ v ∈ t.nonNullable, v ∈ t.columns
  keys : ∀ keys ∈ t.keys, ∀ v ∈ keys, v ∈ t.columns

namespace Op

@[simp] def sortVars : Op → List VarId
  | sort keys | constrainedSort keys => keys.map (·.var)
  | _ => []

@[simp] def names : Op → List VarId
  | scanTable t => t.columns
  | project vs | distinct vs => vs.toList
  | groupBy keys outputs => keys.toList ++ outputs.toList
  | combine _ outputs left right => outputs.toList ++ (left.entries.map (·.2) ++ right.entries.map (·.2))
  | sort keys | constrainedSort keys => keys.map (·.var)
  | varDef v | varRef v _ => [v]
  | _ => []

/-- Whether an operator is of a kind that names variables. -/
@[simp] def hasNames : Op → Bool
  | scanTable _ | project _ | distinct _ | groupBy _ _ | combine _ _ _ _ | sort _ | constrainedSort _ | varDef _ | varRef _ _ => true
  | _ => false

/-- What is known about a table under other names. -/
structure Retold (μ : VarId → VarId) (t t' : Table) : Prop where
  nonNullable : IsImage μ t.nonNullable t'.nonNullable
  keys : Option.Rel (IsImage μ) t.keys t'.keys

/-- An operator under the names that `μ` gives. -/
inductive Mirrors (μ : VarId → VarId) : Op → Op → Prop
  | scanTable {t t' : Table} : t'.name = t.name → t'.columns = t.columns.map μ → (t.OnColumns → Retold μ t t') →
      Mirrors μ (.scanTable t) (.scanTable t')
  | project {s s' : VarSet} : IsImage μ s s' → Mirrors μ (.project s) (.project s')
  | distinct {s s' : VarSet} : IsImage μ s s' → Mirrors μ (.distinct s) (.distinct s')
  | groupBy {keys keys' s s' : VarSet} : IsImage μ keys keys' → IsImage μ s s' → Mirrors μ (.groupBy keys s) (.groupBy keys' s')
  | combine {kind : SetKind} {s s' : VarSet} {l l' r r' : VarMap} : IsImage μ s s' →
      (∀ v ∈ s, l'.get? (μ v) = (l.get? v).map μ) → (∀ v ∈ s, r'.get? (μ v) = (r.get? v).map μ) →
      Mirrors μ (.combine kind s l r) (.combine kind s' l' r')
  | sort (keys : List SortKey) : Mirrors μ (.sort keys) (.sort (keys.map (SortKey.under μ)))
  | constrainedSort (keys : List SortKey) : Mirrors μ (.constrainedSort keys) (.constrainedSort (keys.map (SortKey.under μ)))
  | varDef (v : VarId) : Mirrors μ (.varDef v) (.varDef (μ v))
  | varRef (v : VarId) (type type' : ScalarType) : Mirrors μ (.varRef v type) (.varRef (μ v) type')
  | plain {op : Op} : op.hasNames = false → Mirrors μ op op

variable {μ μ' : VarId → VarId}

theorem IsImage.congr {s s' : VarSet} (h : IsImage μ s s') (heq : ∀ v ∈ s, μ' v = μ v) : IsImage μ' s s' := fun w => by
  rw [h w]
  exact exists_congr fun v => and_congr_right fun hv => by rw [heq v hv]

theorem Retold.congr {t t' : Table} (h : Retold μ t t') (ht : t.OnColumns) (heq : ∀ v ∈ t.columns, μ' v = μ v) : Retold μ' t t' where
  nonNullable := h.nonNullable.congr fun v hv => heq v (ht.nonNullable v hv)
  keys := by
    have hkeys := h.keys
    have hsub := ht.keys
    revert hkeys hsub
    cases t.keys <;> cases t'.keys <;> intro hkeys hsub
    · exact .none
    · cases hkeys
    · cases hkeys
    · cases hkeys with
      | some himage => exact .some (himage.congr fun v hv => heq v (hsub _ rfl v hv))

theorem Mirrors.congr {op op' : Op} (h : Mirrors μ op op') (heq : ∀ v ∈ op.names, μ' v = μ v) : Mirrors μ' op op' := by
  have keys_eq : ∀ keys : List SortKey, (∀ v ∈ keys.map (·.var), μ' v = μ v) →
      keys.map (SortKey.under μ) = keys.map (SortKey.under μ') := fun keys hk =>
    List.map_congr_left fun k hmem => by rw [SortKey.under, SortKey.under, hk _ (List.mem_map_of_mem hmem)]
  have branch_eq : ∀ {s : VarSet} {l l' : VarMap}, (∀ v ∈ s, l'.get? (μ v) = (l.get? v).map μ) → (∀ v ∈ s, μ' v = μ v) →
      (∀ e ∈ l.entries, μ' e.2 = μ e.2) → ∀ v ∈ s, l'.get? (μ' v) = (l.get? v).map μ' := by
    intro s l l' hl hs he v hv
    rw [hs v hv, hl v hv]
    cases hx : l.get? v with
    | none => rfl
    | some x => rw [Option.map_some, Option.map_some, ← he (v, x) (VarMap.mem_entries_of_get? hx)]
  cases h with
  | scanTable hname hcols hknown =>
    exact .scanTable hname (hcols.trans (List.map_congr_left fun v hv => (heq v hv).symm)) fun ht => (hknown ht).congr ht heq
  | project hs => exact .project (hs.congr fun v hv => heq v (by simpa using hv))
  | distinct hs => exact .distinct (hs.congr fun v hv => heq v (by simpa using hv))
  | groupBy hk hs =>
    exact .groupBy (hk.congr fun v hv => heq v (by simp [hv])) (hs.congr fun v hv => heq v (by simp [hv]))
  | combine hs hl hr =>
    have hout : ∀ v ∈ _, μ' v = μ v := fun v hv => heq v (List.mem_append_left _ (VarSet.mem_toList.mpr hv))
    refine .combine (hs.congr hout) (branch_eq hl hout fun e he => heq _ ?_) (branch_eq hr hout fun e he => heq _ ?_)
    · exact List.mem_append_right _ (List.mem_append_left _ (List.mem_map_of_mem he))
    · exact List.mem_append_right _ (List.mem_append_right _ (List.mem_map_of_mem he))
  | sort keys => exact keys_eq keys heq ▸ .sort keys
  | constrainedSort keys => exact keys_eq keys heq ▸ .constrainedSort keys
  | varDef v => exact heq v (by simp) ▸ .varDef v
  | varRef v type type' => exact heq v (by simp) ▸ .varRef v type type'
  | plain h => exact .plain h

end Op

namespace Tree

/-- The second tree has the operators of the first, under the names that `μ` gives. -/
inductive Mirrors (μ : VarId → VarId) : Tree → Tree → Prop
  | node {id id' : NodeId} {op op' : Op} {cs cs' : List Tree} : op.Mirrors μ op' → List.Forall₂ (Mirrors μ) cs cs' →
      Mirrors μ (.node id op cs) (.node id' op' cs')

/-- Rows are sorted by variables that the input defines. -/
def Sorted (t : Tree) : Prop := ∀ s ∈ t.subtrees, ∀ v ∈ s.op.sortVars, ∃ c ∈ s.children, Defines (·) c v

theorem sorted_node {id : NodeId} {op : Op} {cs : List Tree} : Sorted (node id op cs) ↔
    (∀ v ∈ op.sortVars, ∃ c ∈ cs, Defines (·) c v) ∧ ∀ c ∈ cs, Sorted c :=
  forall_subtrees_node

variable {μ μ' : VarId → VarId} {t t' : Tree}

theorem mem_binds_or_uses (hs : Scoped (·) t) (hsort : Sorted t) {s : Tree} (hmem : s ∈ t.subtrees) {v : VarId}
    (hv : v ∈ s.op.names) : v ∈ t.binds ∨ Uses (·) t v := by
  induction t using induct with
  | node id op cs ih =>
    obtain ⟨-, hneeds, hscoped⟩ := scoped_node.mp hs
    obtain ⟨hkeys, hsorted⟩ := sorted_node.mp hsort
    rcases mem_subtrees_node.mp hmem with rfl | ⟨c, hc, hmem⟩
    · -- What an operator needs or sorts by is defined by a child.
      have need : ∀ places, (v, places) ∈ op.needs → v ∈ (node id op cs).binds := fun places h => by
        obtain ⟨i, c, hc, -, hd⟩ := hneeds _ h
        have hc := List.mem_of_getElem? hc
        exact mem_binds_of_mem hc (mem_binds_of_defines (hscoped c hc) hd)
      have key : v ∈ op.sortVars → v ∈ (node id op cs).binds := fun h => by
        obtain ⟨c, hc, hd⟩ := hkeys v h
        exact mem_binds_of_mem hc (mem_binds_of_defines (hscoped c hc) hd)
      rw [op_node] at hv
      cases op with
      | scanTable | varDef => exact .inl (mem_binds_of_own hv)
      | project => exact .inl (need [0, 1] (List.mem_map_of_mem hv))
      | distinct => exact .inl (need [0] (List.mem_map_of_mem hv))
      | groupBy =>
        rcases List.mem_append.mp hv with hv | hv
        · exact .inl (need [0, 1] (List.mem_append_left _ (List.mem_map_of_mem hv)))
        · exact .inl (need [0, 1, 2] (List.mem_append_right _ (List.mem_map_of_mem hv)))
      | combine =>
        rcases List.mem_append.mp hv with hv | hv
        · exact .inl (mem_binds_of_own hv)
        · rcases List.mem_append.mp hv with hv | hv
          · obtain ⟨e, he, rfl⟩ := List.mem_map.mp hv
            exact .inl (need [0] (List.mem_append_left _ (List.mem_map.mpr ⟨e, he, rfl⟩)))
          · obtain ⟨e, he, rfl⟩ := List.mem_map.mp hv
            exact .inl (need [1] (List.mem_append_right _ (List.mem_map.mpr ⟨e, he, rfl⟩)))
      | sort | constrainedSort => exact .inl (key hv)
      | varRef w type =>
        obtain rfl := List.mem_singleton.mp hv
        exact .inr .reference
      | _ => cases hv
    · rcases ih c hc (hscoped c hc) (hsorted c hc) hmem with hb | hu
      · exact .inl (mem_binds_of_mem hc hb)
      · obtain ⟨i, hi⟩ := List.mem_iff_getElem?.mp hc
        rcases uses_child hi hu with hu | ⟨j, d, hd, -, hdu⟩
        · exact .inr hu
        · have hd := List.mem_of_getElem? hd
          exact .inl (mem_binds_of_mem hd (mem_binds_of_defines (hscoped d hd) hdu))

theorem Mirrors.congr (h : Mirrors μ t t') (heq : ∀ s ∈ t.subtrees, ∀ v ∈ s.op.names, μ' v = μ v) : Mirrors μ' t t' := by
  induction t using induct generalizing t' with
  | node id op cs ih =>
    cases h with
    | node ho hcs =>
      refine .node (ho.congr (heq (Tree.node id op cs) (by simp))) (Run.forall₂_imp_mem hcs fun c hc c' _ h => ?_)
      exact ih c hc h fun s hs => heq s (mem_subtrees_of_mem hc hs)

theorem Uses.mem_names {u : VarId} (h : Uses (·) t u) : ∃ s ∈ t.subtrees, u ∈ s.op.names := by
  induction h with
  | @reference id v type cs => exact ⟨Tree.node id (.varRef v type) cs, by simp, List.mem_singleton_self v⟩
  | passed hc _ _ ih =>
    obtain ⟨s, hs, hu⟩ := ih
    exact ⟨s, mem_subtrees_of_mem (List.mem_of_getElem? hc) hs, hu⟩

theorem sortVars_of_isScalar {op : Op} (h : op.kind.isScalar) : op.sortVars = [] := by
  cases op with
  | combine kind => cases kind <;> cases h
  | sort | constrainedSort => cases h
  | _ => rfl

theorem sorted_of_isScalar (h : t.isScalar) : Sorted t := fun s hs v hv => by
  rw [sortVars_of_isScalar (isScalar_of_mem_subtrees h hs)] at hv
  cases hv

theorem exists_valid_of_isScalar (h : t.isScalar) (hwf : t.wellFormed) : ∃ k, Valid k (·) t := by
  have hbinds := binds_of_isScalar h
  refine ⟨(t.subtrees.flatMap (·.op.names)).sum + 1, hwf, scoped_of_isScalar h, ?_, ?_, ?_, ?_, fun u hu => ?_⟩
  · rw [hbinds]
    exact List.nodup_nil
  · exact fun _ _ => rfl
  · rw [hbinds]
    exact fun _ _ => List.not_mem_nil
  · rw [hbinds]
    exact nofun
  · obtain ⟨s, hs, hu⟩ := hu.mem_names
    exact Nat.lt_succ_of_le (List.le_sum_of_mem (List.mem_flatMap.mpr ⟨s, hs, hu⟩))

/-- A tree that is scalar throughout keeps its names in a mirror that keeps the variables it uses. -/
theorem Mirrors.of_isScalar (h : Mirrors μ t t') (hs : t.isScalar) (hu : ∀ u, Uses (·) t u → μ u = u) :
    Mirrors (·) t t' := by
  refine h.congr fun s hmem v hv => ?_
  rcases mem_binds_or_uses (scoped_of_isScalar hs) (sorted_of_isScalar hs) hmem hv with hb | huse
  · rw [binds_of_isScalar hs] at hb
    cases hb
  · exact (hu v huse).symm

end Tree

end Planwright
