import Planwright.Proofs.Json.Grammar

/-! How deep values are nested. What was read is nested no deeper than values may be, and what is looked up in a value is nested less
    deep than the value. -/

namespace Planwright.Json

variable {v : Json} {earlier : List String} {name : String}

/-- The number of values on the longest way into a value. -/
def height : Json → Nat
  | object ms => memberHeight ms + 1
  | array vs => itemHeight vs + 1
  | _ => 1
where
  memberHeight : List (String × Json) → Nat
    | [] => 0
    | (_, v) :: ms => max (height v) (memberHeight ms)
  itemHeight : List Json → Nat
    | [] => 0
    | v :: vs => max (height v) (itemHeight vs)

theorem height_le_of_mem_members {ms : List (String × Json)} {m : String × Json} (h : m ∈ ms) : m.2.height ≤ height.memberHeight ms := by
  induction ms with
  | nil => cases h
  | cons m' ms ih =>
    rw [height.memberHeight]
    rcases List.mem_cons.mp h with rfl | h
    · exact Nat.le_max_left _ _
    · exact Nat.le_trans (ih h) (Nat.le_max_right _ _)

theorem height_le_of_mem_items {vs : List Json} (h : v ∈ vs) : v.height ≤ height.itemHeight vs := by
  induction vs with
  | nil => cases h
  | cons v' vs ih =>
    rw [height.itemHeight]
    rcases List.mem_cons.mp h with rfl | h
    · exact Nat.le_max_left _ _
    · exact Nat.le_trans (ih h) (Nat.le_max_right _ _)

theorem height_lt_of_mem {v c : Json} (h : c ∈ v.items) : c.height < v.height := by
  cases v with
  | array vs =>
    rw [height]
    exact Nat.lt_succ_of_le (height_le_of_mem_items h)
  | _ => cases h

theorem exists_of_get? {v w : Json} (h : v.get? earlier name = some w) :
    ∃ ms m, v = object ms ∧ m ∈ ms ∧ m.2 = w := by
  have found : ∀ {ms : List (String × Json)} {p : String × Json → Bool}, (ms.find? p).map (·.2) = some w → ∃ m ∈ ms, m.2 = w := by
    intro ms p h
    obtain ⟨m, hm, hw⟩ := Option.map_eq_some_iff.mp h
    exact ⟨m, List.mem_of_find?_eq_some hm, hw⟩
  cases v with
  | object ms =>
    have hfound : ∃ m ∈ ms, m.2 = w := by
      rw [get?] at h
      split at h
      · split at h
        · rename_i hs
          exact found (hs.trans h)
        · exact found h
      · exact found h
    obtain ⟨m, hm, hw⟩ := hfound
    exact ⟨ms, m, rfl, hm, hw⟩
  | _ => cases h

theorem height_lt_of_get? {v w : Json} (h : v.get? earlier name = some w) :
    w.height < v.height := by
  obtain ⟨ms, m, rfl, hm, rfl⟩ := exists_of_get? h
  rw [height]
  exact Nat.lt_succ_of_le (height_le_of_mem_members hm)

theorem height_collection (named : Bool) (es : List (String × Json)) :
    (collection named es).height = height.memberHeight es + 1 := by
  have hitems : height.itemHeight (es.map (·.2)) = height.memberHeight es := by
    induction es with
    | nil => rfl
    | cons e es ih => rw [List.map_cons, height.itemHeight, height.memberHeight, ih]
  cases named with
  | true => rfl
  | false => exact congrArg (· + 1) hitems

def Portion.height : Portion → Nat
  | .value v => v.height
  | .entries _ es => Json.height.memberHeight es

theorem Reads.height_le {depth : Nat} {part : Portion} {cs rest : List Char} (h : Reads depth part cs rest) :
    part.height + depth ≤ depthLimit := by
  induction h with
  | filled _ _ _ ih =>
    simp only [Portion.height, height_collection] at ih ⊢
    omega
  | empty =>
    simp only [Portion.height, height_collection, Json.height.memberHeight]
    omega
  | literal _ h =>
    rw [Portion.height, (by simp [literals, Json.height] : ∀ x ∈ literals, x.2.height = 1) _ h]
    omega
  | string | number =>
    simp only [Portion.height, Json.height]
    omega
  | last _ _ _ ih | more _ _ _ _ ih =>
    simp only [Portion.height, Json.height.memberHeight] at *
    omega

theorem height_le_of_ofText? {text : String} (h : ofText? text = some v) : v.height ≤ depthLimit := by
  obtain ⟨rest, hv, -⟩ := ofText?_eq_some.mp h
  exact hv.height_le

end Planwright.Json
