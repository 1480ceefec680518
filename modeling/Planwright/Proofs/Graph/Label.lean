import Mathlib.Algebra.Ring.Parity
import Mathlib.Data.String.Basic
import Planwright.Graph.Basic

/-! Labels of records. A mark of the layout inside a text is escaped by a backslash, and so is a backslash;
    hence a text, whatever it ends with, never escapes the mark after it, and the marks that are not escaped are
    those of the layout. -/

namespace Planwright

namespace Record

variable {c : Char}

/-- The characters that divide a label where they are not escaped. -/
def IsMark (c : Char) : Prop := c ∈ ['"', '\x7b', '\x7d', '|', '<', '>']

/-- How many backslashes a text ends with. What follows is escaped just if their number is odd. -/
def slashes (cs : List Char) : Nat := (cs.reverse.takeWhile (· == '\\')).length

inductive Origin
  | layout | text
  deriving DecidableEq

/-- Characters of a label, each with where it comes from. -/
abbrev Trace := List (Char × Origin)

namespace Trace

def layout (s : String) : Trace := s.toList.map (·, .layout)

def text (s : String) : Trace := (escape s).toList.map (·, .text)

def chars (t : Trace) : List Char := t.map (·.1)

def slots (i : Nat) : List String → List Trace
  | [] => []
  | name :: rest => (layout ("<" ++ slotName i ++ "> ") ++ text name) :: slots (i + 1) rest

/-- What stands in the boxes of a label. -/
def boxes (name : String) (fields : List (String × String)) (children : List String) : List Trace :=
  [layout "<f0> " ++ text name]
    ++ (if fields.isEmpty then [] else [(layout "|").intercalate (fields.map fun f => text f.1 ++ layout ": " ++ text f.2)])
    ++ if children.isEmpty then [] else [(layout "|").intercalate (slots 0 children)]

def label (name : String) (fields : List (String × String)) (children : List String) : Trace :=
  layout "\"\x7b\x7b" ++ (layout "\x7d|\x7b").intercalate (boxes name fields children) ++ layout "\x7d\x7d\""

/-! ### The characters of a label -/

@[simp] theorem chars_append (s t : Trace) : chars (s ++ t) = s.chars ++ t.chars := List.map_append

@[simp] theorem chars_layout (s : String) : (layout s).chars = s.toList := by simp [chars, layout, Function.comp_def]

@[simp] theorem chars_text (s : String) : (text s).chars = (escape s).toList := by simp [chars, text, Function.comp_def]

theorem chars_intercalate (sep : Trace) (ts : List Trace) :
    chars (sep.intercalate ts) = sep.chars.intercalate (ts.map chars) := by
  induction ts with
  | nil => rfl
  | cons t ts ih =>
    cases ts with
    | nil => simp
    | cons u us => simpa using ih

theorem chars_slots (i : Nat) (names : List String) : (slots i names).map chars = (slotLabels i names).map String.toList := by
  induction names generalizing i with
  | nil => rfl
  | cons name rest ih => simp [slots, slotLabels, ih]

theorem chars_label (name : String) (fields : List (String × String)) (children : List String) :
    (label name fields children).chars = (Record.label name fields children).toList := by
  have hboxes : (boxes name fields children).map chars = (["<f0> " ++ escape name]
      ++ (if fields.isEmpty then [] else ["|".intercalate (fields.map fun f => escape f.1 ++ ": " ++ escape f.2)])
      ++ if children.isEmpty then [] else ["|".intercalate (slotLabels 0 children)]).map String.toList := by
    by_cases hf : fields = [] <;> by_cases hc : children = [] <;>
      simp [boxes, hf, hc, chars_intercalate, chars_slots, Function.comp_def]
  rw [label, chars_append, chars_append, chars_intercalate, hboxes, Record.label]
  simp

/-- After characters that leave nothing escaped, so do those of the trace, and just the marks of its layout are not escaped. -/
def IsGuarded (t : Trace) : Prop :=
  ∀ before : List Char, Even (slashes before) → Even (slashes (before ++ t.chars)) ∧
    ∀ (i : Nat) (c : Char) (o : Origin), t[i]? = some (c, o) → IsMark c →
      (Even (slashes (before ++ t.chars.take i)) ↔ o = .layout)

end Trace

@[simp] theorem slashes_concat_slash (cs : List Char) : slashes (cs ++ ['\\']) = slashes cs + 1 := by simp [slashes]

theorem slashes_concat (h : c ≠ '\\') (cs : List Char) : slashes (cs ++ [c]) = 0 := by simp [slashes, h]

theorem IsMark.ne_slash (h : IsMark c) : c ≠ '\\' := by
  rintro rfl
  exact absurd h (by simp [IsMark])

theorem IsMark.isSpecial (h : IsMark c) : isSpecial c = true := by
  simp only [IsMark, List.mem_cons, List.not_mem_nil, or_false] at h
  rcases h with rfl | rfl | rfl | rfl | rfl | rfl <;> rfl

namespace Trace

theorem IsGuarded.nil : IsGuarded [] := fun before h => ⟨by simpa [chars] using h, by simp⟩

theorem IsGuarded.append {s t : Trace} (hs : s.IsGuarded) (ht : t.IsGuarded) : IsGuarded (s ++ t) := by
  intro before h
  obtain ⟨heven, hmarks⟩ := hs before h
  obtain ⟨heven', hmarks'⟩ := ht _ heven
  refine ⟨by simpa using heven', fun i c o hi hc => ?_⟩
  have hlen : s.chars.length = s.length := by simp [chars]
  rw [List.getElem?_append] at hi
  rw [chars_append, List.take_append, hlen]
  split at hi
  · rename_i hlt
    rw [Nat.sub_eq_zero_of_le hlt.le, List.take_zero, List.append_nil]
    exact hmarks i c o hi hc
  · rename_i hle
    rw [List.take_of_length_le (by omega), ← List.append_assoc]
    exact hmarks' _ c o hi hc

theorem IsGuarded.flatMap {α : Type} {f : α → Trace} {as : List α} (h : ∀ a ∈ as, (f a).IsGuarded) : IsGuarded (as.flatMap f) := by
  induction as with
  | nil => exact .nil
  | cons a as ih =>
    rw [List.forall_mem_cons] at h
    rw [List.flatMap_cons]
    exact h.1.append (ih h.2)

theorem IsGuarded.plain {c : Char} {o : Origin} (hc : c ≠ '\\') (ho : IsMark c → o = .layout) : IsGuarded [(c, o)] := by
  refine fun before h => ⟨by simp [chars, slashes_concat hc], fun i d o' hi hd => ?_⟩
  simp only [List.getElem?_singleton, Option.ite_none_right_eq_some, Option.some.injEq, Prod.mk.injEq] at hi
  obtain ⟨rfl, rfl, rfl⟩ := hi
  simpa [h] using ho hd

theorem IsGuarded.escaped (c : Char) : IsGuarded [('\\', .text), (c, .text)] := by
  intro before h
  have hodd : ¬Even (slashes (before ++ ['\\'])) := by
    rw [slashes_concat_slash, Nat.even_add_one, not_not]
    exact h
  refine ⟨?_, fun i d o hi hd => ?_⟩
  · show Even (slashes (before ++ (['\\'] ++ [c])))
    rw [← List.append_assoc]
    by_cases hc : c = '\\'
    · rw [hc, slashes_concat_slash, Nat.even_add_one]
      exact hodd
    · rw [slashes_concat hc]
      exact .zero
  · rcases i with _ | _ | i
    · simp only [List.getElem?_cons_zero, Option.some.injEq, Prod.mk.injEq] at hi
      exact absurd hi.1.symm hd.ne_slash
    · simp only [List.getElem?_cons_succ, List.getElem?_cons_zero, Option.some.injEq, Prod.mk.injEq] at hi
      simpa [chars, ← hi.2] using hodd
    · cases hi

theorem IsGuarded.layout {s : String} (h : '\\' ∉ s.toList) : (layout s).IsGuarded := by
  have hs : Trace.layout s = s.toList.flatMap fun c => [(c, .layout)] := List.map_eq_flatMap
  rw [hs]
  exact .flatMap fun c hc => .plain (fun heq => h (heq ▸ hc)) fun _ => rfl

theorem IsGuarded.text (s : String) : (text s).IsGuarded := by
  have hs : Trace.text s = s.toList.flatMap fun c => if isSpecial c then [('\\', .text), (c, .text)] else [(c, .text)] := by
    rw [Trace.text, escape, String.toList_ofList, List.map_flatMap]
    congr 1
    funext c
    split <;> rfl
  rw [hs]
  refine .flatMap fun c _ => ?_
  split
  · exact .escaped c
  · rename_i hc
    refine .plain ?_ fun hmark => absurd hmark.isSpecial hc
    rintro rfl
    exact hc rfl

/-! ### Inside the quotes -/

/-- What stands between the quotes of a label. -/
structure IsInner (t : Trace) : Prop where
  guarded : t.IsGuarded
  unquoted : ('"', .layout) ∉ t

theorem IsInner.append {s t : Trace} (hs : s.IsInner) (ht : t.IsInner) : IsInner (s ++ t) where
  guarded := hs.guarded.append ht.guarded
  unquoted h := (List.mem_append.mp h).elim hs.unquoted ht.unquoted

theorem IsInner.intercalate {sep : Trace} {ts : List Trace} (hsep : sep.IsInner) (h : ∀ t ∈ ts, IsInner t) :
    IsInner (sep.intercalate ts) := by
  induction ts with
  | nil => exact ⟨.nil, List.not_mem_nil⟩
  | cons t ts ih =>
    rw [List.forall_mem_cons] at h
    cases ts with
    | nil => simpa using h.1
    | cons u us =>
      rw [List.intercalate_cons_cons]
      exact (h.1.append hsep).append (ih h.2)

theorem IsInner.layout {s : String} (h : ∀ c ∈ s.toList, c ≠ '\\' ∧ c ≠ '"') : (layout s).IsInner where
  guarded := .layout fun hmem => (h _ hmem).1 rfl
  unquoted hmem := by
    obtain ⟨c, hc, heq⟩ := List.mem_map.mp hmem
    exact (h c hc).2 (congrArg Prod.fst heq)

theorem IsInner.text (s : String) : (text s).IsInner where
  guarded := .text s
  unquoted hmem := by
    obtain ⟨c, -, heq⟩ := List.mem_map.mp hmem
    cases congrArg Prod.snd heq

theorem IsInner.slots (names : List String) (i : Nat) : ∀ t ∈ slots i names, IsInner t := by
  induction names generalizing i with
  | nil => exact List.forall_mem_nil _
  | cons name rest ih =>
    refine List.forall_mem_cons.mpr ⟨.append (.layout fun c hc => ?_) (.text name), ih (i + 1)⟩
    have hc : c = '<' ∨ c = 'c' ∨ c ∈ Nat.toDigits 10 i ∨ c = '>' ∨ c = ' ' := by simpa [slotName, or_assoc] using hc
    rcases hc with rfl | rfl | hc | rfl | rfl
    · decide
    · decide
    · have hdigit := Nat.isDigit_of_mem_toDigits (by decide) (by decide) hc
      constructor <;> (rintro rfl; exact absurd hdigit (by decide))
    · decide
    · decide

theorem IsInner.boxes (name : String) (fields : List (String × String)) (children : List String) :
    ∀ t ∈ boxes name fields children, IsInner t := by
  have hheader : IsInner (Trace.layout "<f0> " ++ Trace.text name) := .append (.layout (by simp)) (.text name)
  have hbar : IsInner (Trace.layout "|") := .layout (by simp)
  have hfields : ∀ t ∈ fields.map fun f => Trace.text f.1 ++ Trace.layout ": " ++ Trace.text f.2, IsInner t := by
    intro t ht
    obtain ⟨f, -, rfl⟩ := List.mem_map.mp ht
    exact .append (.append (.text f.1) (.layout (by simp))) (.text f.2)
  intro t ht
  rw [Trace.boxes, List.mem_append, List.mem_append, List.mem_singleton] at ht
  rcases ht with (rfl | ht) | ht
  · exact hheader
  all_goals split at ht
  · cases ht
  · exact List.mem_singleton.mp ht ▸ .intercalate hbar hfields
  · cases ht
  · exact List.mem_singleton.mp ht ▸ .intercalate hbar (.slots children 0)

theorem label_eq (name : String) (fields : List (String × String)) (children : List String) :
    ∃ t : Trace, t.IsInner ∧ label name fields children = ('"', .layout) :: (t ++ [('"', .layout)]) :=
  ⟨layout "\x7b\x7b" ++ (layout "\x7d|\x7b").intercalate (boxes name fields children) ++ layout "\x7d\x7d",
    .append (.append (.layout (by simp)) (.intercalate (.layout (by simp)) (.boxes name fields children))) (.layout (by simp)),
    by simp [label, layout]⟩

theorem label_isGuarded (name : String) (fields : List (String × String)) (children : List String) :
    (label name fields children).IsGuarded := by
  obtain ⟨t, ht, heq⟩ := label_eq name fields children
  have hquote : IsGuarded [('"', .layout)] := .plain (by decide) fun _ => rfl
  exact heq ▸ hquote.append (ht.guarded.append hquote)

theorem label_quotes (name : String) (fields : List (String × String)) (children : List String) (i : Nat) :
    (label name fields children)[i]? = some ('"', .layout) ↔ i = 0 ∨ i + 1 = (label name fields children).length := by
  obtain ⟨t, ht, heq⟩ := label_eq name fields children
  rw [heq]
  cases i with
  | zero => simp
  | succ i =>
    rw [List.getElem?_cons_succ, List.getElem?_append]
    split
    · rename_i hlt
      refine iff_of_false (fun h => ht.unquoted (List.mem_of_getElem? h)) ?_
      simp only [List.length_cons, List.length_append, List.length_nil]
      omega
    · simp only [List.getElem?_singleton, List.length_cons, List.length_append, List.length_nil, Option.ite_none_right_eq_some, and_true]
      omega

theorem IsGuarded.even_iff {t : Trace} (ht : t.IsGuarded) {i : Nat} {c : Char} (hc : IsMark c) :
    t.chars[i]? = some c ∧ Even (slashes (t.chars.take i)) ↔ t[i]? = some (c, .layout) := by
  have hmarks := (ht [] .zero).2 i c
  rw [chars, List.getElem?_map, Option.map_eq_some_iff]
  constructor
  · rintro ⟨⟨⟨d, o⟩, hi, rfl⟩, heven⟩
    rw [hi, (hmarks o hi hc).mp heven]
  · intro hi
    exact ⟨⟨_, hi, rfl⟩, (hmarks _ hi hc).mpr rfl⟩

end Trace

theorem escape_injective : Function.Injective escape := by
  have hlists : ∀ cs ds : List Char, (cs.flatMap fun c => if isSpecial c then ['\\', c] else [c])
      = (ds.flatMap fun c => if isSpecial c then ['\\', c] else [c]) → cs = ds := by
    have hplain : ∀ c, isSpecial c = false → c ≠ '\\' := by
      rintro c hc rfl
      cases hc
    intro cs
    induction cs with
    | nil =>
      intro ds h
      cases ds with
      | nil => rfl
      | cons d ds => cases hd : isSpecial d <;> simp [hd] at h
    | cons c cs ih =>
      intro ds h
      cases ds with
      | nil => cases hc : isSpecial c <;> simp [hc] at h
      | cons d ds =>
        -- Only what is special starts with a backslash once it is escaped.
        cases hc : isSpecial c <;> cases hd : isSpecial d <;> simp only [List.flatMap_cons, hc, hd, if_true, if_false,
          List.cons_append, List.nil_append, List.cons.injEq, Bool.false_eq_true] at h
        · rw [h.1, ih ds h.2]
        · exact absurd h.1 (hplain c hc)
        · exact absurd h.1.symm (hplain d hd)
        · rw [h.2.1, ih ds h.2.2]
  intro s t h
  exact String.toList_inj.mp (hlists _ _ (String.ofList_inj.mp h))

theorem odd_of_escape {s : String} {i : Nat} (hi : (escape s).toList[i]? = some c) (hc : IsMark c) :
    Odd (slashes ((escape s).toList.take i)) := by
  have hiff := (Trace.IsGuarded.text s).even_iff (i := i) hc
  rw [Trace.chars_text] at hiff
  rw [← Nat.not_even_iff_odd]
  intro heven
  obtain ⟨d, -, heq⟩ := List.mem_map.mp (List.mem_of_getElem? (hiff.mp ⟨hi, heven⟩))
  cases congrArg Prod.snd heq

/-- No text breaks out of a label: escaping loses nothing and escapes every mark, and the marks of a label that are not escaped are
    those of its layout, the quotes just the first and the last character. -/
theorem label_contained : Function.Injective escape ∧
    (∀ (s : String) (i : Nat) (c : Char), (escape s).toList[i]? = some c → IsMark c → Odd (slashes ((escape s).toList.take i))) ∧
    ∀ (name : String) (fields : List (String × String)) (children : List String),
      let cs := (label name fields children).toList
      let t := Trace.label name fields children
      t.chars = cs ∧
      (∀ i, cs[i]? = some '"' ∧ Even (slashes (cs.take i)) ↔ i = 0 ∨ i + 1 = cs.length) ∧
      ∀ (i : Nat) (c : Char), IsMark c → (cs[i]? = some c ∧ Even (slashes (cs.take i)) ↔ t[i]? = some (c, .layout)) := by
  refine ⟨escape_injective, fun s i c => odd_of_escape, fun name fields children => ?_⟩
  have hchars := Trace.chars_label name fields children
  have hmarks := fun i c hc => hchars ▸ (Trace.label_isGuarded name fields children).even_iff (i := i) (c := c) hc
  refine ⟨hchars, fun i => ?_, hmarks⟩
  rw [hmarks i '"' (by simp [IsMark]), Trace.label_quotes, ← hchars, Trace.chars, List.length_map]

/-- Of the backslashes before a brace, three escape it and two, which end a name, do not. -/
theorem label_contained_slash : Odd (slashes ((escape "\\\x7d").toList.take 3)) ∧ slashes ((label "\\" [] []).toList.take 10) = 2 ∧
    (Trace.label "\\" [] [])[10]? = some ('\x7d', .layout) := by
  have hbrace : IsMark '\x7d' := by simp [IsMark]
  have htwo : slashes ((label "\\" [] []).toList.take 10) = 2 := by decide +kernel
  refine ⟨label_contained.2.1 _ 3 _ (by decide +kernel) hbrace, htwo, ?_⟩
  exact ((label_contained.2.2 "\\" [] []).2.2 10 _ hbrace).mp ⟨by decide +kernel, htwo ▸ even_two⟩

end Record

end Planwright
