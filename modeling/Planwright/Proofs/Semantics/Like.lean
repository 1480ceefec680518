import Mathlib.Data.List.Infix
import Planwright.Proofs.Semantics.Equivalence

/-! Texts and patterns. A pattern is read as parts that each stand for some texts, and a text matches if it is made of them. An
    interpretation is conventional if it matches so and casts keep null. -/

namespace Planwright

namespace Like

/-- A part of a pattern stands for any text, for any character, for a character of a class, or for a character itself. -/
inductive Part
  | text
  | character
  | oneOf (members : List Char)
  | only (c : Char)

/-- The parts of a pattern, with the members of a class that has begun. A bracket that is never closed stands for itself. -/
def parts : Option (List Char) → List Char → List Part
  | none, [] => []
  | none, c :: cs =>
    if c = '%' then .text :: parts none cs
    else if c = '_' then .character :: parts none cs
    else if c = '[' then parts (some []) cs
    else .only c :: parts none cs
  | some members, [] => ('[' :: members).map .only
  | some members, c :: cs => if c = ']' then .oneOf members :: parts none cs else parts (some (members ++ [c])) cs

/-- Whether a character is listed, by itself or in a range. -/
def isListed (c : Char) : List Char → Bool
  | first :: '-' :: last :: rest => (first ≤ c && c ≤ last) || isListed c rest
  | d :: rest => c == d || isListed c rest
  | [] => false

/-- Whether a character is of a class. After `^` stand those that are not. -/
def isOneOf (c : Char) : List Char → Bool
  | '^' :: members => !isListed c members
  | members => isListed c members

/-- Whether a text is made of what the parts stand for. -/
def fits : List Part → List Char → Bool
  | [], s => s.isEmpty
  | .text :: ps, s => s.tails.any (fits ps)
  | .character :: ps, _ :: s => fits ps s
  | .oneOf members :: ps, c :: s => isOneOf c members && fits ps s
  | .only d :: ps, c :: s => c == d && fits ps s
  | _ :: _, [] => false

/-- Whether a text matches a pattern: `%` stands for any text, `_` for any character, and `[...]` for a character of a class. -/
def holds (s pattern : String) : Bool := fits (parts none pattern.toList) s.toList

theorem parts_append {beginning : List Char} (h : ∀ c ∈ beginning, c ≠ '%' ∧ c ≠ '_' ∧ c ≠ '[') (rest : List Char) :
    parts none (beginning ++ rest) = beginning.map .only ++ parts none rest := by
  induction beginning with
  | nil => rfl
  | cons c cs ih =>
    obtain ⟨⟨hany, hone, hclass⟩, hcs⟩ := List.forall_mem_cons.mp h
    rw [List.cons_append, parts, if_neg hany, if_neg hone, if_neg hclass, ih hcs, List.map_cons, List.cons_append]

theorem fits_beginning (beginning s : List Char) : fits (beginning.map .only ++ [.text]) s = beginning.isPrefixOf s := by
  induction beginning generalizing s with
  | nil =>
    rw [List.isPrefixOf_nil_left, List.map_nil, List.nil_append, fits, List.any_eq_true]
    exact ⟨[], (List.mem_tails _ _).mpr List.nil_suffix, rfl⟩
  | cons c cs ih =>
    cases s with
    | nil => rfl
    | cons d s => rw [List.map_cons, List.cons_append, fits, ih, List.isPrefixOf_cons_cons, Bool.beq_comm]

example : holds "abcd" "a[^x-z]_%" = true ∧ holds "abcd" "a[x-z]%" = false := by decide

end Like

/-- Casts keep null, and texts are matched with patterns that have their wildcards, where no character is set to escape them. -/
structure Interpretation.Conventional (I : Interpretation) : Prop where
  cast_null : ∀ type, I.scalar .cast type [.null] = .null
  like_text : ∀ type s pattern, I.scalar .like type [.string s, .string pattern, .null] = .boolean (Like.holds s pattern)

/-- The value of a pattern match without an escape character. -/
def Like.value : List Value → Value
  | [.string s, .string pattern, .null] => .boolean (holds s pattern)
  | _ => .null

theorem Like.value_eq_of_coincides {vs ws : List Value} (h : List.Forall₂ Value.Coincides vs ws) : value vs = value ws := by
  have same {vs ws : List Value} (h : List.Forall₂ Value.Coincides vs ws) {s pattern : String}
      (hvs : vs = [.string s, .string pattern, .null]) : ws = vs := by
    subst hvs
    obtain _ | ⟨hs, _ | ⟨hpattern, _ | ⟨hnull, ⟨⟩⟩⟩⟩ := h
    cases hs
    cases hpattern
    cases hnull
    rfl
  fun_cases value vs with
  | case1 s pattern =>
    rw [same h rfl]
    rfl
  | case2 _ hno =>
    fun_cases value ws with
    | case1 s pattern => exact absurd (same (h.flip.imp fun _ _ h => h.symm) rfl) (hno s pattern)
    | case2 => rfl

/-- Patterns and no other operators, with rows in the order they come in, and times marked by their instants. -/
def Interpretation.plain : Interpretation where
  scalar kind _ values := if kind = .like then Like.value values else .null
  aggregate _ _ _ := .null
  arrange _ rows := rows
  arrange_perm _ rows := .refl rows
  mark
    | .time t => .string (toString t.instant)
    | v => v
  mark_null v h := by cases v <;> first | rfl | cases h

theorem Interpretation.plain_conventional : Interpretation.plain.Conventional where
  cast_null _ := rfl
  like_text _ _ _ := rfl

theorem Interpretation.plain_readsInstants : Interpretation.plain.ReadsInstants where
  scalar kind _ _ _ h := by
    dsimp only [plain]
    rw [Like.value_eq_of_coincides h]
    exact .refl _
  aggregate _ _ _ _ _ := .refl _
  arrange _ _ _ h := h
  mark h := by
    cases h with
    | refl => rfl
    | time h => exact congrArg (fun i => Value.string (toString i)) h

end Planwright
