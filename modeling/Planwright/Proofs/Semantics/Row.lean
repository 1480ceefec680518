import Mathlib.Data.List.Perm.Subperm
import Planwright.Proofs.Variable.Set
import Planwright.Variable.Map
import Planwright.Scalar.Value

/-! Rows: what variables are bound to at one place of an evaluation. Rows are alike on some variables when the
    values of these have the same marks; of alike rows the first stands for all. -/

namespace Planwright

/-- Only the value true holds; null and values of other types do not. -/
def Value.holds : Value → Bool
  | .boolean b => b
  | _ => false

theorem Value.isNull_iff {v : Value} : v.isNull ↔ v = .null := by
  cases v <;> simp [isNull]

/-- A binding of variables to values. -/
def Row := VarId → Option Value

namespace Row

def empty : Row := fun _ => none

/-- The value of a variable; one that is not bound reads as null. -/
def read (r : Row) (v : VarId) : Value := (r v).getD .null

/-- Both rows together. What the second binds wins. -/
def merge (r s : Row) : Row := fun v => (s v).or (r v)

def nulls (vs : VarSet) : Row := fun v => if vs.has v then some .null else none

def only (vs : VarSet) (r : Row) : Row := fun v => if vs.has v then r v else none

def without (vs : VarSet) (r : Row) : Row := fun v => if vs.has v then none else r v

def shown (vs : VarSet) (r : Row) : Row := fun v => if vs.has v then some (r.read v) else none

/-- The row of a branch under the outputs of a set operator. -/
def renamed (outputs : VarSet) (m : VarMap) (r : Row) : Row := fun v =>
  if outputs.has v then some (((m.get? v).map r.read).getD .null) else none

def marks (mark : Value → Value) (vs : List VarId) (r : Row) : List Value := vs.map fun v => mark (r.read v)

@[simp] theorem merge_apply (r s : Row) (v : VarId) : r.merge s v = (s v).or (r v) := rfl

@[simp] theorem nulls_apply (vs : VarSet) (v : VarId) : nulls vs v = if v ∈ vs then some .null else none := rfl

@[simp] theorem only_apply (vs : VarSet) (r : Row) (v : VarId) : r.only vs v = if v ∈ vs then r v else none := rfl

@[simp] theorem without_apply (vs : VarSet) (r : Row) (v : VarId) :
    r.without vs v = if v ∈ vs then none else r v := rfl

@[simp] theorem shown_apply (vs : VarSet) (r : Row) (v : VarId) :
    r.shown vs v = if v ∈ vs then some (r.read v) else none := rfl

@[simp] theorem renamed_apply (outputs : VarSet) (m : VarMap) (r : Row) (v : VarId) :
    r.renamed outputs m v = if v ∈ outputs then some (((m.get? v).map r.read).getD .null) else none := rfl

/-! ### The first of each kind -/

/-- The rows with those left out that have the key of an earlier one. -/
def firsts {κ : Type} [DecidableEq κ] (key : Row → κ) : List Row → List Row
  | [] => []
  | r :: rs => r :: (firsts key rs).filter fun s => key s ≠ key r

section Firsts
variable {κ : Type} [DecidableEq κ] {key : Row → κ}

theorem mem_of_mem_firsts {rs : List Row} {r : Row} (h : r ∈ firsts key rs) : r ∈ rs := by
  induction rs with
  | nil => exact h
  | cons s rs ih =>
    rcases List.mem_cons.mp h with rfl | h
    · exact List.mem_cons_self
    · exact List.mem_cons_of_mem _ (ih (List.mem_filter.mp h).1)

theorem length_firsts_le (rs : List Row) : (firsts key rs).length ≤ rs.length := by
  induction rs with
  | nil => exact Nat.le_refl _
  | cons s rs ih =>
    have := List.length_filter_le (fun s' => decide (key s' ≠ key s)) (firsts key rs)
    simp only [firsts, List.length_cons]
    omega

theorem nodup_map_firsts (rs : List Row) : ((firsts key rs).map key).Nodup := by
  induction rs with
  | nil => exact List.nodup_nil
  | cons s rs ih =>
    rw [firsts, List.map_cons, List.nodup_cons]
    refine ⟨?_, ih.sublist (List.filter_sublist.map key)⟩
    rintro hs
    obtain ⟨s', hs', heq⟩ := List.mem_map.mp hs
    simpa [heq] using (List.mem_filter.mp hs').2

theorem length_firsts_le_of_keys {rs ss : List Row} (h : ∀ r ∈ rs, key r ∈ ss.map key) :
    (firsts key rs).length ≤ ss.length := by
  have hsub : (firsts key rs).map key ⊆ ss.map key := by
    intro k hk
    obtain ⟨r, hr, rfl⟩ := List.mem_map.mp hk
    exact h r (mem_of_mem_firsts hr)
  simpa using (List.subperm_of_subset (nodup_map_firsts rs) hsub).length_le

theorem firsts_eq_nil {rs : List Row} : firsts key rs = [] ↔ rs = [] := by
  cases rs <;> simp [firsts]

end Firsts

end Row

end Planwright
