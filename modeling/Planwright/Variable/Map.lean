import Planwright.Variable.Set

/-! Maps from variables to variables, kept in ascending order of the mapped variable. -/

namespace Planwright

structure VarMap where
  entries : List (VarId × VarId)
  deriving DecidableEq, Inhabited

namespace VarMap

def empty : VarMap := ⟨[]⟩

def get? (m : VarMap) (v : VarId) : Option VarId := m.entries.lookup v

def put (k v : VarId) : List (VarId × VarId) → List (VarId × VarId)
  | [] => [(k, v)]
  | (k', v') :: rest =>
    if k < k' then (k, v) :: (k', v') :: rest
    else if k = k' then (k, v) :: rest
    else (k', v') :: put k v rest

def insert (m : VarMap) (k v : VarId) : VarMap := ⟨put k v m.entries⟩

def ofList (pairs : List (VarId × VarId)) : VarMap := pairs.foldl (fun m p => m.insert p.1 p.2) empty

def keys (m : VarMap) : List VarId := m.entries.map (·.1)

def size (m : VarMap) : Nat := m.entries.length

def domain (m : VarMap) : VarSet := VarSet.ofList m.keys

def apply (m : VarMap) (v : VarId) : VarId := (m.get? v).getD v

def mapValues {ε : Type} (f : VarId → Except ε VarId) (m : VarMap) : Except ε VarMap :=
  return ⟨← m.entries.mapM fun p => return (p.1, ← f p.2)⟩

theorem lookup_put (k v w : VarId) (es : List (VarId × VarId)) :
    (put k v es).lookup w = if w = k then some v else es.lookup w := by
  induction es with
  | nil =>
    rw [put, List.lookup_cons]
    by_cases h : w = k
    · simp [h]
    · simp [h, beq_eq_false_iff_ne.mpr h]
  | cons e rest ih =>
    obtain ⟨k', v'⟩ := e
    simp only [put]
    by_cases h : w = k
    · subst h
      by_cases h₁ : w < k'
      · simp [h₁]
      · by_cases h₂ : w = k'
        · simp [h₂]
        · have hk : (w == k') = false := by simpa using h₂
          simp [h₁, h₂, List.lookup_cons, ih, hk]
    · have hb : (w == k) = false := by simpa using h
      by_cases h₁ : k < k'
      · simp [h₁, h, List.lookup_cons, hb]
      · by_cases h₂ : k = k'
        · subst h₂
          simp [h, List.lookup_cons, hb]
        · simp [h₁, h₂, List.lookup_cons, ih, h]

@[simp] theorem get?_insert (m : VarMap) (k v w : VarId) :
    (m.insert k v).get? w = if w = k then some v else m.get? w :=
  lookup_put k v w m.entries

end VarMap

end Planwright
