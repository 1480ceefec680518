import Mathlib.Data.Prod.Lex
import Mathlib.Data.String.Basic
import Planwright.Document.Decode

/-! The order of values. A value has a place among all values, given by its type, its number and its text;
    integers of both widths count as one type. Only a float that is not a number is spread over the places of
    all floats, so the values with one place are totally preordered. -/

namespace Planwright

theorem Double.place_bounds (d : Double) : -(signBit : ℤ) ≤ d.place ∧ d.place ≤ signBit := by
  have hlt : d.magnitude < signBit := Nat.mod_lt _ (by decide)
  rw [place]
  split <;> omega

namespace Value

def isNaN : Value → Bool
  | float d => d.isNaN
  | _ => false

def placed (type : ℕ) (number : ℤ) (text : String) : ℕ ×ₗ ℤ ×ₗ String := toLex (type, toLex (number, text))

/-- The place of a value, for a float that is not a number the one with the given number. -/
def placeOr (n : ℤ) : Value → ℕ ×ₗ ℤ ×ₗ String
  | null => placed 0 0 ""
  | boolean holds => placed 1 holds.toNat ""
  | int32 m => placed 2 m.toInt ""
  | int64 m => placed 2 m.toInt ""
  | float d => placed 4 (if d.isNaN then n else d.place) ""
  | string s => placed 5 0 s
  | time t => placed 6 t.instant ""
  | duration m => placed 7 m.toInt ""
  | any => placed 8 0 ""

def low : Value → ℕ ×ₗ ℤ ×ₗ String := placeOr (-(Double.signBit + 1))

def high : Value → ℕ ×ₗ ℤ ×ₗ String := placeOr (Double.signBit + 1)

variable {a b c : Value}

theorem placed_lt {t u : ℕ} {m n : ℤ} {x y : String} : placed t m x < placed u n y ↔ t < u ∨ t = u ∧ (m < n ∨ m = n ∧ x < y) := by
  simp only [placed, Prod.Lex.toLex_lt_toLex]

theorem low_eq_high (h : a.isNaN = false) : a.low = a.high := by
  cases a with
  | float d =>
    have hd : d.isNaN = false := h
    simp [low, high, placeOr, hd]
  | _ => rfl

theorem low_le_high (a : Value) : a.low ≤ a.high := by
  cases h : a.isNaN with
  | false => exact (low_eq_high h).le
  | true =>
    cases a with
    | float d =>
      have hd : d.isNaN = true := h
      refine (placed_lt.mpr (.inr ⟨rfl, .inl ?_⟩)).le
      simp only [hd, if_true]
      omega
    | _ => cases h

theorem rank_eq {α : Type} {lt : α → α → Bool} {x y : α} :
    (rank lt x y = .lt ↔ lt x y = true) ∧ (rank lt x y = .gt ↔ lt x y = false ∧ lt y x = true) := by
  unfold rank
  cases lt x y <;> cases lt y x <;> simp

theorem order_eq_iff (a b : Value) : (a.order b = .lt ↔ a.high < b.low) ∧ (a.order b = .gt ↔ b.high < a.low) := by
  cases a <;> cases b
  case float.float d e =>
    have hd := d.place_bounds
    have he := e.place_bounds
    have horder : (float d).order (float e) = rank Double.lt d e := rfl
    rw [horder, rank_eq.1, rank_eq.2]
    simp only [Double.lt, high, low, placeOr, placed_lt]
    cases d.isNaN <;> cases e.isNaN <;> simp <;> omega
  case boolean.boolean p q => cases p <;> cases q <;> simp [order, integer?, type, rank, high, low, placeOr, placed_lt]
  case string.string s t =>
    have horder : (string s).order (string t) = rank (fun x y => decide (x < y)) s t := rfl
    have hasymm : t < s → ¬s < t := lt_asymm
    rw [horder, rank_eq.1, rank_eq.2]
    simpa only [high, low, placeOr, placed_lt, decide_eq_true_eq, decide_eq_false_iff_not, lt_irrefl, true_and, false_or,
      and_iff_right_iff_imp] using hasymm
  all_goals
    simp [order, integer?, type, ScalarType.code, high, low, placeOr, placed_lt, compare_lt_iff_lt, compare_gt_iff_gt]

theorem order_eq (a b : Value) : a.order b = if a.high < b.low then .lt else if b.high < a.low then .gt else .eq := by
  obtain ⟨hlt, hgt⟩ := order_eq_iff a b
  split
  · exact hlt.mpr ‹_›
  · split
    · exact hgt.mpr ‹_›
    · cases h : a.order b with
      | eq => rfl
      | lt => exact absurd (hlt.mp h) ‹_›
      | gt => exact absurd (hgt.mp h) ‹_›

theorem order_swap (a b : Value) : b.order a = (a.order b).swap := by
  have hlt : b.order a = .lt ↔ a.order b = .gt := (order_eq_iff b a).1.trans (order_eq_iff a b).2.symm
  have hgt : b.order a = .gt ↔ a.order b = .lt := (order_eq_iff b a).2.trans (order_eq_iff a b).1.symm
  cases h : a.order b <;> cases h' : b.order a <;> simp_all

theorem order_self (a : Value) : a.order a = .eq := by
  have h := a.low_le_high.not_gt
  rw [order_eq, if_neg h, if_neg h]

theorem isLE_order : (a.order b).isLE ↔ a.low ≤ b.high := by
  rw [← not_lt, ← (order_eq_iff a b).2]
  cases a.order b <;> decide

theorem isLE_trans (hb : b.isNaN = false) (h : (a.order b).isLE) (h' : (b.order c).isLE) : (a.order c).isLE := by
  rw [isLE_order] at h h' ⊢
  exact h.trans (low_eq_high hb ▸ h')

theorem order_eq_eq : a.order b = .eq ↔ (a.order b).isLE ∧ (b.order a).isLE := by
  rw [order_swap a b]
  cases a.order b <;> decide

theorem order_congr (ha : a.isNaN = false) (hb : b.isNaN = false) (h : a.order b = .eq) (c : Value) : a.order c = b.order c := by
  obtain ⟨hle, hge⟩ := order_eq_eq.mp h
  rw [isLE_order, low_eq_high ha] at hle
  rw [isLE_order, low_eq_high hb] at hge
  rw [order_eq, order_eq, low_eq_high ha, low_eq_high hb, le_antisymm hle hge]

theorem compare_eq (ha : a ≠ .any) (b : Value) : a.compare b = .ok (a.order b) := if_neg fun h => ha h.1

theorem equals_eq (ha : a ≠ .any) (b : Value) : a.equals b = .ok (a.type = b.type ∧ a.order b = .eq : Bool) := by
  unfold equals
  split
  · rename_i h
    rw [compare_eq ha]
    simp only [h, true_and]
    rfl
  · rename_i h
    simp only [h, false_and, decide_false]
    rfl

theorem equals_iff (ha : a ≠ .any) : a.equals b = .ok true ↔ a.type = b.type ∧ a.order b = .eq := by simp [equals_eq ha]

/-- The laws of comparing and of being equal. What is concluded through a value needs that it has one place. -/
structure Lawful (a b c : Value) : Prop where
  compare_self : a.compare a = .ok .eq
  compare_swap : ∃ o, a.compare b = .ok o ∧ b.compare a = .ok o.swap
  compare_trans : b.isNaN = false → ∃ o o' o'', a.compare b = .ok o ∧ b.compare c = .ok o' ∧ a.compare c = .ok o'' ∧
    (o.isLE → o'.isLE → o''.isLE)
  equals_self : a.equals a = .ok true
  equals_symm : ∃ e, a.equals b = .ok e ∧ b.equals a = .ok e
  equals_trans : b.isNaN = false → a.equals b = .ok true → b.equals c = .ok true → a.equals c = .ok true
  compare_congr : a.isNaN = false → b.isNaN = false → a.equals b = .ok true → a.compare c = b.compare c

/-- Comparing is a total preorder and being equal an equivalence that it respects, as far as values have one place. -/
theorem compare_lawful {a b : Value} (ha : a ≠ .any) (hb : b ≠ .any) (c : Value) : Lawful a b c where
  compare_self := by rw [compare_eq ha, order_self]
  compare_swap := ⟨_, compare_eq ha b, by rw [compare_eq hb, order_swap]⟩
  compare_trans h := ⟨_, _, _, compare_eq ha b, compare_eq hb c, compare_eq ha c, isLE_trans h⟩
  equals_self := (equals_iff ha).mpr ⟨rfl, order_self a⟩
  equals_symm := by
    refine ⟨_, equals_eq ha b, ?_⟩
    have horder : b.order a = .eq ↔ a.order b = .eq := by rw [order_eq_eq, order_eq_eq, and_comm]
    rw [equals_eq hb, Except.ok.injEq, decide_eq_decide, horder, eq_comm (a := b.type)]
  equals_trans h hab hbc := by
    obtain ⟨htype, hab⟩ := (equals_iff ha).mp hab
    obtain ⟨htype', hbc⟩ := (equals_iff hb).mp hbc
    obtain ⟨hle, hge⟩ := order_eq_eq.mp hab
    obtain ⟨hle', hge'⟩ := order_eq_eq.mp hbc
    exact (equals_iff ha).mpr ⟨htype.trans htype', order_eq_eq.mpr ⟨isLE_trans h hle hle', isLE_trans h hge' hge⟩⟩
  compare_congr ha' hb' hab := by rw [compare_eq ha, compare_eq hb, order_congr ha' hb' ((equals_iff ha).mp hab).2]

theorem compare_lawful_widths : (int32 (-1)).compare (int64 7) = .ok .lt ∧ (int64 7).compare (float .nan) = .ok .lt ∧
    Lawful (int32 (-1)) (int64 7) (float .nan) :=
  ⟨by decide, by decide, compare_lawful (by decide) (by decide) _⟩

/-- A document can spell a float that is not a number. It ranks equal to one and to zero, which do not rank equal. -/
theorem compare_notANumber : Document.decodeValue .float (some (.number "nan")) = .ok (float .nan) ∧
    ∃ one zero, Document.decodeValue .float (some (.number "1")) = .ok one ∧ Document.decodeValue .float (some (.number "0")) = .ok zero ∧
      one.compare (float .nan) = .ok .eq ∧ (float .nan).compare zero = .ok .eq ∧ one.compare zero = .ok .gt ∧
      one.equals (float .nan) = .ok true ∧ (float .nan).equals zero = .ok true ∧ one.equals zero = .ok false := by
  refine ⟨by decide +kernel, float ⟨0x3ff0000000000000⟩, float .zero, ?_⟩
  decide +kernel

end Value

end Planwright
