import Planwright.Proofs.Scope.Valid

/-! Recorded renamings. A map of renamings is followed to the end of its chains; renaming a variable that was not
    renamed yet adds one step to each chain that ended in it. -/

namespace Planwright

open Run

variable {f : VarId → VarId} {s : VarSet}

def VarSet.image (f : VarId → VarId) (s : VarSet) : VarSet := .ofList (s.toList.map f)

@[simp] theorem VarSet.mem_image {w : VarId} : w ∈ s.image f ↔ ∃ v ∈ s, f v = w := by
  simp [image]

theorem VarSet.image_of_fixed (h : ∀ v ∈ s, f v = v) : s.image f = s := by
  refine VarSet.ext_iff.mpr fun w => ?_
  rw [mem_image]
  constructor
  · rintro ⟨v, hv, rfl⟩
    rwa [h v hv]
  · exact fun hw => ⟨w, hw, h w hw⟩

namespace VarMap

variable {m : VarMap} {ρ : VarId → VarId} {v w : VarId}

theorem mem_entries_of_get? (h : m.get? v = some w) : (v, w) ∈ m.entries := by
  obtain ⟨l₁, l₂, hl, -⟩ := List.lookup_eq_some_iff.mp h
  rw [hl]
  exact List.mem_append_right _ List.mem_cons_self

theorem follow_of_none (h : m.get? v = none) (fuel : Nat) : m.follow fuel v = .ok v := by
  rw [follow, h]
  rfl

theorem follow_of_some (h : m.get? v = some w) (fuel : Nat) : m.follow (fuel + 1) v = m.follow fuel w := by
  rw [follow, h]

theorem get?_of_follow {fuel : Nat} (h : m.follow fuel v = .ok w) : m.get? w = none := by
  induction fuel generalizing v with
  | zero =>
    rw [follow] at h
    split at h
    · cases h
      assumption
    · cases h
  | succ fuel ih =>
    cases hv : m.get? v with
    | none =>
      rw [follow_of_none hv] at h
      cases h
      exact hv
    | some x =>
      rw [follow_of_some hv] at h
      exact ih h

/-- Every chain of renamings ends, and where. -/
def Resolves (m : VarMap) (ρ : VarId → VarId) : Prop := ∀ v, m.resolve v = .ok (ρ v)

theorem Resolves.get?_eq_none (h : m.Resolves ρ) : m.get? v = none ↔ ρ v = v := by
  constructor
  · intro hv
    exact (Except.ok.inj ((follow_of_none hv _).symm.trans (h v))).symm
  · intro hv
    have := get?_of_follow (h v)
    rwa [hv] at this

theorem Resolves.idem (h : m.Resolves ρ) (v : VarId) : ρ (ρ v) = ρ v :=
  h.get?_eq_none.mp (get?_of_follow (h v))

theorem mem_domain : v ∈ m.domain ↔ m.get? v ≠ none := by
  rw [domain, VarSet.mem_ofList, keys, get?, ne_eq, List.lookup_eq_none_iff]
  simp

theorem Resolves.mem_domain (h : m.Resolves ρ) : v ∈ m.domain ↔ ρ v ≠ v := by
  rw [VarMap.mem_domain, ne_eq, h.get?_eq_none]

theorem Resolves.eq_of_size (h : m.Resolves ρ) (hsize : m.size = 0) : ρ = (·) := by
  funext v
  refine h.get?_eq_none.mp ?_
  rw [get?, List.length_eq_zero_iff.mp hsize]
  rfl

/-- The same keys with what a function gives for the values. -/
def mapTo (f : VarId → VarId) (m : VarMap) : VarMap := ⟨m.entries.map fun e => (e.1, f e.2)⟩

theorem get?_mapTo (f : VarId → VarId) (l : VarMap) (v : VarId) : (l.mapTo f).get? v = (l.get? v).map f := by
  rw [get?, get?, mapTo]
  generalize l.entries = es
  induction es with
  | nil => rfl
  | cons e es ih =>
    rw [List.map_cons, List.lookup_cons, List.lookup_cons]
    cases v == e.1
    · exact ih
    · rfl

theorem mapTo_of_fixed {f : VarId → VarId} {l : VarMap} (h : ∀ e ∈ l.entries, f e.2 = e.2) : l.mapTo f = l := by
  have hmap : l.entries.map (fun e => (e.1, f e.2)) = l.entries.map id :=
    List.map_congr_left fun e he => by rw [h e he, id]
  rw [mapTo, hmap, List.map_id]

/-- A set with a renamed member becomes another one, for its image has none. -/
theorem Resolves.resolveSet? (h : m.Resolves ρ) (s : VarSet) :
    m.resolveSet? s = .ok (if s.image ρ = s then none else some (s.image ρ)) := by
  rw [VarMap.resolveSet?]
  split
  · rename_i ho
    obtain ⟨v, hv, hdom⟩ := VarSet.overlaps_iff.mp ho
    have hne : s.image ρ ≠ s := by
      intro heq
      rw [← heq, VarSet.mem_image] at hv
      obtain ⟨u, -, rfl⟩ := hv
      exact h.mem_domain.mp hdom (h.idem u)
    have hmap : s.toList.mapM m.resolve = .ok (s.toList.map ρ) :=
      mapM_ok.mpr (List.forall₂_map_right_iff.mpr (List.forall₂_same.mpr fun v _ => h v))
    rw [hmap, if_neg hne]
    rfl
  · rename_i ho
    rw [Bool.not_eq_true, VarSet.overlaps_eq_false] at ho
    rw [if_pos (VarSet.image_of_fixed fun v hv => by simpa [h.mem_domain] using ho v hv)]
    rfl

theorem Resolves.mapValues (h : m.Resolves ρ) (l : VarMap) : l.mapValues m.resolve = .ok (l.mapTo ρ) := by
  have hmap : (l.entries.mapM fun e => do return (e.1, ← m.resolve e.2) : Except Fault _) =
      .ok (l.entries.map fun e => (e.1, ρ e.2)) :=
    mapM_ok.mpr (List.forall₂_map_right_iff.mpr (List.forall₂_same.mpr fun e _ => by rw [h e.2]; rfl))
  rw [VarMap.mapValues, hmap]
  rfl

theorem isSome_mapValues {f : VarId → Except Fault VarId} {l l' : VarMap} (h : l.mapValues f = .ok l') (v : VarId) :
    (l'.get? v).isSome = (l.get? v).isSome := by
  obtain ⟨es, hes, h⟩ := bind_ok.mp h
  cases h
  rw [get?, get?]
  have hkeys := mapM_ok.mp hes
  clear hes h
  generalize l.entries = us at hkeys ⊢
  induction hkeys with
  | nil => rfl
  | cons he _ ih =>
    obtain ⟨w, -, he⟩ := bind_ok.mp he
    cases he
    rw [List.lookup_cons, List.lookup_cons]
    split
    · rfl
    · exact ih

end VarMap

namespace Op

variable {ρ : VarId → VarId} {m : VarMap} {o : Option Op}

def IsImage (f : VarId → VarId) (s s' : VarSet) : Prop := ∀ w, w ∈ s' ↔ ∃ v ∈ s, f v = w

/-- An operator with its references under the names that `ρ` gives. A reference to another variable has that one's type. -/
def resolved (ρ : VarId → VarId) (types : VarId → ScalarType) : Op → Op
  | .varRef v type => if ρ v = v then .varRef v type else .varRef (ρ v) (types (ρ v))
  | .project outputs => .project (outputs.image ρ)
  | .distinct keys => .distinct (keys.image ρ)
  | .groupBy keys outputs => .groupBy (keys.image ρ) (outputs.image ρ)
  | .combine kind outputs left right => .combine kind outputs (left.mapTo ρ) (right.mapTo ρ)
  | .sort keys => .sort (keys.map fun k => ⟨ρ k.var, k.ascending⟩)
  | .constrainedSort keys => .constrainedSort (keys.map fun k => ⟨ρ k.var, k.ascending⟩)
  | op => op

theorem renamed?_eq (hm : m.Resolves ρ) (types : VarId → ScalarType) (op : Op) :
    op.renamed? m types = .ok (if op.resolved ρ types = op then none else some (op.resolved ρ types)) := by
  have keys_eq : ∀ keys : List SortKey, renamed?.renamedKeys m keys =
      .ok (if keys.map (fun k => (⟨ρ k.var, k.ascending⟩ : SortKey)) = keys then none
        else some (keys.map fun k => ⟨ρ k.var, k.ascending⟩)) := by
    intro keys
    have hmap : (keys.mapM fun k => do return (⟨← m.resolve k.var, k.ascending⟩ : SortKey) : Except Fault _) =
        .ok (keys.map fun k => ⟨ρ k.var, k.ascending⟩) :=
      mapM_ok.mpr (List.forall₂_map_right_iff.mpr (List.forall₂_same.mpr fun k _ => by rw [hm k.var]; rfl))
    rw [renamed?.renamedKeys, hmap]
    rfl
  cases op with
  | varRef v type =>
    rw [renamed?, hm v, resolved]
    by_cases h : ρ v = v
    · simp [h, pure, Except.pure, bind, Except.bind]
    · simp [h, pure, Except.pure, bind, Except.bind]
  | project outputs =>
    rw [renamed?, hm.resolveSet?, resolved]
    by_cases h : outputs.image ρ = outputs <;> simp [h, pure, Except.pure, bind, Except.bind]
  | distinct keys =>
    rw [renamed?, hm.resolveSet?, resolved]
    by_cases h : keys.image ρ = keys <;> simp [h, pure, Except.pure, bind, Except.bind]
  | groupBy keys outputs =>
    rw [renamed?, hm.resolveSet?, hm.resolveSet?, resolved]
    by_cases hk : keys.image ρ = keys <;> by_cases ho : outputs.image ρ = outputs <;>
      simp [hk, ho, pure, Except.pure, bind, Except.bind]
  | combine kind outputs left right =>
    rw [renamed?, hm.mapValues, hm.mapValues, resolved]
    by_cases h : left.mapTo ρ = left ∧ right.mapTo ρ = right
    · simp [h, pure, Except.pure, bind, Except.bind]
    · rw [if_neg (by simpa using h)]
      exact if_neg h
  | sort keys | constrainedSort keys =>
    rw [renamed?, keys_eq, resolved]
    split <;> simp_all [pure, Except.pure, bind, Except.bind]
  | _ => exact (congrArg Except.ok (if_pos rfl)).symm

theorem resolved_keeps (ρ : VarId → VarId) (types : VarId → ScalarType) (op : Op) : (op.resolved ρ types).own = op.own ∧
    (op.resolved ρ types).kind = op.kind ∧ ∀ ks, (op.resolved ρ types).fits ks = op.fits ks := by
  cases op with
  | varRef v type =>
    rw [resolved]
    split <;> exact ⟨rfl, rfl, fun _ => rfl⟩
  | combine kind outputs l r => exact ⟨rfl, rfl, fun ks => by simp [resolved, fits, Op.kind, VarMap.get?_mapTo]⟩
  | _ => exact ⟨rfl, rfl, fun _ => rfl⟩

/-- Renaming the references of an operator, wherever they lead, changes neither its kind nor what it may stand over. -/
theorem renamed?_fits {types : VarId → ScalarType} {op : Op}
    (h : op.renamed? m types = .ok o) : (o.getD op).kind = op.kind ∧ ∀ ks, (o.getD op).fits ks = op.fits ks := by
  cases op with
  | varRef v type =>
    obtain ⟨w, -, h⟩ := bind_ok.mp h
    cases h
    split <;> exact ⟨rfl, fun _ => rfl⟩
  | project | distinct | sort | constrainedSort =>
    obtain ⟨s, -, h⟩ := bind_ok.mp h
    cases h
    cases s <;> exact ⟨rfl, fun _ => rfl⟩
  | groupBy keys outputs =>
    obtain ⟨k, -, h⟩ := bind_ok.mp h
    obtain ⟨s, -, h⟩ := bind_ok.mp h
    split at h <;> cases h <;> exact ⟨rfl, fun _ => rfl⟩
  | combine kind outputs l r =>
    obtain ⟨l', hl, h⟩ := bind_ok.mp h
    obtain ⟨r', hr, h⟩ := bind_ok.mp h
    split at h
    · cases h
      exact ⟨rfl, fun _ => rfl⟩
    · cases h
      refine ⟨rfl, fun ks => ?_⟩
      simp [Op.fits, Op.kind, VarMap.isSome_mapValues hl, VarMap.isSome_mapValues hr]
  | _ =>
    cases h
    exact ⟨rfl, fun _ => rfl⟩

end Op

end Planwright
