/-! Sets of variables, kept as the bits of a natural number: bit `v` is set when variable `v` is a member.
    Two sets with the same members are equal, and members are listed in ascending order. -/

namespace Planwright

abbrev VarId := Nat

structure VarSet where
  bits : Nat
  deriving DecidableEq, Inhabited

namespace VarSet

def empty : VarSet := ⟨0⟩

def has (s : VarSet) (v : VarId) : Bool := s.bits.testBit v

instance : Membership VarId VarSet := ⟨fun s v => s.has v = true⟩

instance (s : VarSet) (v : VarId) : Decidable (v ∈ s) := inferInstanceAs (Decidable (s.has v = true))

def insert (s : VarSet) (v : VarId) : VarSet := ⟨s.bits ||| 1 <<< v⟩

def erase (s : VarSet) (v : VarId) : VarSet := ⟨s.bits ^^^ (s.bits &&& 1 <<< v)⟩

def union (s t : VarSet) : VarSet := ⟨s.bits ||| t.bits⟩

def inter (s t : VarSet) : VarSet := ⟨s.bits &&& t.bits⟩

def diff (s t : VarSet) : VarSet := ⟨s.bits ^^^ (s.bits &&& t.bits)⟩

def isEmpty (s : VarSet) : Bool := s.bits == 0

def overlaps (s t : VarSet) : Bool := s.bits &&& t.bits != 0

def isSubset (s t : VarSet) : Bool := s.bits &&& t.bits == s.bits

instance : Union VarSet := ⟨union⟩
instance : Inter VarSet := ⟨inter⟩
instance : SDiff VarSet := ⟨diff⟩

def toList (s : VarSet) : List VarId := (List.range (s.bits.log2 + 1)).filter s.has

def ofList (vs : List VarId) : VarSet := vs.foldl insert empty

def size (s : VarSet) : Nat := s.toList.length

def first? (s : VarSet) : Option VarId := s.toList.head?

theorem mem_iff {s : VarSet} {v : VarId} : v ∈ s ↔ s.has v = true := Iff.rfl

theorem ext_iff {s t : VarSet} : s = t ↔ ∀ v, v ∈ s ↔ v ∈ t := by
  constructor
  · rintro rfl v
    exact Iff.rfl
  · intro h
    cases s with
    | mk a =>
      cases t with
      | mk b =>
        have hab : a = b := Nat.eq_of_testBit_eq fun v => by
          have := h v
          simp only [mem_iff, has] at this
          cases ha : a.testBit v <;> cases hb : b.testBit v <;> simp_all
        rw [hab]

@[simp] theorem not_mem_empty (v : VarId) : ¬v ∈ empty := by
  simp [mem_iff, has, empty]

@[simp] theorem mem_insert {s : VarSet} {v w : VarId} : v ∈ s.insert w ↔ v ∈ s ∨ v = w := by
  simp only [mem_iff, has, insert, Nat.testBit_or, Nat.one_shiftLeft, Nat.testBit_two_pow, Bool.or_eq_true, decide_eq_true_eq]
  exact or_congr_right eq_comm

@[simp] theorem mem_union {s t : VarSet} {v : VarId} : v ∈ s ∪ t ↔ v ∈ s ∨ v ∈ t := by
  simp [mem_iff, has, Union.union, union]

@[simp] theorem mem_inter {s t : VarSet} {v : VarId} : v ∈ s ∩ t ↔ v ∈ s ∧ v ∈ t := by
  simp [mem_iff, has, Inter.inter, inter]

@[simp] theorem mem_diff {s t : VarSet} {v : VarId} : v ∈ s \ t ↔ v ∈ s ∧ ¬v ∈ t := by
  simp only [mem_iff, has, SDiff.sdiff, diff, Nat.testBit_xor, Nat.testBit_and]
  cases s.bits.testBit v <;> cases t.bits.testBit v <;> simp

@[simp] theorem mem_erase {s : VarSet} {v w : VarId} : v ∈ s.erase w ↔ v ∈ s ∧ v ≠ w := by
  simp only [mem_iff, has, erase, Nat.testBit_xor, Nat.testBit_and, Nat.one_shiftLeft, Nat.testBit_two_pow]
  by_cases h : w = v
  · cases s.bits.testBit v <;> simp [h]
  · cases s.bits.testBit v <;> simp [h, Ne.symm h]

end VarSet

end Planwright
