import Mathlib.Data.List.TakeDrop
import Mathlib.Data.List.TakeWhile
import Planwright.Json.Reading

/-! What the reader takes for a value, as a relation between the text in front and the text that is left. The
    reader gives what is so related, and gives all of it where its budget is twice the text. -/

namespace Planwright.Json

/-- One of the words that are numbers, in any case. -/
def isWord (a b c : Char) : Bool := Text.lower (String.ofList [a, b, c]) == "inf" || Text.lower (String.ofList [a, b, c]) == "nan"

theorem eq_of_toLower {c d : Char} (h : c.toLower = d) : c = d ∨ c = Char.ofNat (d.toNat - 32) := by
  subst h
  unfold Char.toLower
  split
  · rename_i hc
    have hle := UInt32.le_iff_toNat_le.mp hc.2
    refine .inr ((Char.ofNat_toNat c).symm.trans (congrArg Char.ofNat ?_))
    simp only [Char.toNat, UInt32.toNat_add]
    simp at hle ⊢
    omega
  · exact .inl rfl

theorem letters_of_isWord {a b c : Char} (h : isWord a b c = true) :
    a ∈ ['i', 'I', 'n', 'N'] ∧ b ∈ ['n', 'N', 'a', 'A'] ∧ c ∈ ['f', 'F', 'n', 'N'] := by
  have hlower (w : String) : Text.lower (String.ofList [a, b, c]) = w ↔ [a, b, c].map Char.toLower = w.toList := by
    rw [← String.toList_inj, Text.lower, String.toList_map, String.toList_ofList]
  rw [isWord, Bool.or_eq_true, beq_iff_eq, beq_iff_eq, hlower, hlower] at h
  rcases h with h | h
  all_goals
    obtain ⟨ha, hb, hc⟩ : a.toLower = _ ∧ b.toLower = _ ∧ c.toLower = _ := by simpa using h
    rcases eq_of_toLower ha with rfl | rfl <;> rcases eq_of_toLower hb with rfl | rfl <;> rcases eq_of_toLower hc with rfl | rfl <;> decide

/-- What may stand for a number in front of a text. -/
inductive Numeral : (digits rest : List Char) → Prop
  | run {run rest} : run ≠ [] → (∀ c ∈ run, isNumberChar c = true) → (∀ c ∈ rest.head?, isNumberChar c = false) →
      (run = ['-'] ∨ run = ['+'] → rest = []) → Numeral run rest
  | word {sign a b c rest} : sign = [] ∨ sign = ['-'] ∨ sign = ['+'] → isWord a b c = true → Numeral (sign ++ [a, b, c]) rest

/-- Nothing was read yet, or a sign that has something behind it. -/
def needsWord (run rest : List Char) : Bool := run == [] || (run == ['-'] || run == ['+']) && !rest.isEmpty

theorem scanNumber_of_span {cs run rest : List Char} (h : cs.span isNumberChar = (run, rest)) : scanNumber cs =
    if needsWord run rest then (scanWord? rest).map fun x => (String.ofList (run ++ x.1), x.2) else some (String.ofList run, rest) := by
  unfold scanNumber
  rw [h]
  dsimp only
  congr 1
  unfold needsWord
  split
  · rfl
  · rfl
  · rfl
  · simp_all

theorem span_append {xs rest : List Char} (hxs : ∀ c ∈ xs, isNumberChar c = true) (hrest : ∀ c ∈ rest.head?, isNumberChar c = false) :
    (xs ++ rest).span isNumberChar = (xs, rest) := by
  rw [List.span_eq_takeWhile_dropWhile, List.takeWhile_append_of_pos hxs, List.dropWhile_append_of_pos hxs]
  cases rest with
  | nil => simp
  | cons c rest => simp [hrest c rfl]

theorem scanWord?_eq_some {cs word rest : List Char} (h : scanWord? cs = some (word, rest)) :
    ∃ a b c, cs = a :: b :: c :: rest ∧ word = [a, b, c] ∧ isWord a b c = true := by
  unfold scanWord? at h
  split at h
  · rename_i a b c cs
    dsimp only at h
    split at h
    · rename_i hw
      cases h
      exact ⟨a, b, c, rfl, rfl, hw⟩
    · cases h
  · cases h

theorem numeral_of_scanNumber {cs rest : List Char} {s : String} (h : scanNumber cs = some (s, rest)) :
    ∃ xs, cs = xs ++ rest ∧ s = String.ofList xs ∧ Numeral xs rest := by
  have hspan := List.span_eq_takeWhile_dropWhile isNumberChar cs
  have hcs : cs = cs.takeWhile isNumberChar ++ cs.dropWhile isNumberChar := List.takeWhile_append_dropWhile.symm
  have hrun : ∀ c ∈ cs.takeWhile isNumberChar, isNumberChar c = true := fun c hc => List.mem_takeWhile_imp hc
  have hrest : ∀ c ∈ (cs.dropWhile isNumberChar).head?, isNumberChar c = false := fun c hc => by
    simpa [Option.mem_def.mp hc] using List.head?_dropWhile_not isNumberChar cs
  generalize cs.takeWhile isNumberChar = run at *
  generalize cs.dropWhile isNumberChar = tail at *
  rw [scanNumber_of_span hspan] at h
  split at h
  · rename_i hneeds
    obtain ⟨⟨word, cs'⟩, hword, h⟩ := Option.map_eq_some_iff.mp h
    cases h
    obtain ⟨a, b, c, rfl, rfl, hw⟩ := scanWord?_eq_some hword
    refine ⟨run ++ [a, b, c], by simp [hcs], rfl, .word ?_ hw⟩
    simp [needsWord] at hneeds
    exact hneeds
  · rename_i hneeds
    cases h
    simp [needsWord] at hneeds
    exact ⟨run, hcs, rfl, .run hneeds.1 hrun hrest hneeds.2⟩

theorem Numeral.scanNumber {xs rest : List Char} (h : Numeral xs rest) : scanNumber (xs ++ rest) = some (String.ofList xs, rest) := by
  cases h with
  | run hne hxs hrest hsign =>
    rw [scanNumber_of_span (span_append hxs hrest), if_neg]
    simpa [needsWord, hne] using hsign
  | @word sign a b c _ hsign hw =>
    have hspan : (sign ++ a :: b :: c :: rest).span isNumberChar = (sign, a :: b :: c :: rest) := by
      refine span_append ?_ ?_
      · rcases hsign with rfl | rfl | rfl <;> simp [isNumberChar]
      · intro x hx
        cases hx
        exact (by simp [isNumberChar] : ∀ x ∈ ['i', 'I', 'n', 'N'], isNumberChar x = false) a (letters_of_isWord hw).1
    rw [List.append_assoc, List.cons_append, List.cons_append, List.cons_append, List.nil_append, scanNumber_of_span hspan, if_pos]
    · have : scanWord? (a :: b :: c :: rest) = some ([a, b, c], rest) := if_pos hw
      rw [this]
      rfl
    · rcases hsign with rfl | rfl | rfl <;> simp [needsWord]

/-- What is read at one go: a value, or what is in an array or an object up to its closing mark. -/
inductive Portion
  | value (v : Json)
  | entries (named : Bool) (es : List (String × Json))

def opening (named : Bool) : Char := if named then '\x7b' else '['

def literals : List (List Char × Json) :=
  [(['t', 'r', 'u', 'e'], boolean true), (['f', 'a', 'l', 's', 'e'], boolean false), (['n', 'u', 'l', 'l'], null)]

/-- A portion is read off the front of a text, below `depth` enclosing values. -/
inductive Reads : (depth : Nat) → Portion → (cs rest : List Char) → Prop
  | empty {depth named cs rest} : depth < depthLimit → skipBlanks cs = closing named :: rest →
      Reads depth (.value (collection named [])) (opening named :: cs) rest
  | filled {depth named es cs rest} : depth < depthLimit → (∀ cs', skipBlanks cs ≠ closing named :: cs') →
      Reads (depth + 1) (.entries named es) (skipBlanks cs) rest → Reads depth (.value (collection named es)) (opening named :: cs) rest
  | string {depth s cs rest} : depth < depthLimit → scanString false [] cs = some (s, rest) →
      Reads depth (.value (.string s)) ('"' :: cs) rest
  | literal {depth word v rest} : depth < depthLimit → (word, v) ∈ literals → Reads depth (.value v) (word ++ rest) rest
  | number {depth xs rest} : depth < depthLimit → Numeral xs rest → Reads depth (.value (.number (String.ofList xs))) (xs ++ rest) rest
  | last {depth named name v cs cs₁ cs₂ rest} : scanName named cs = some (name, cs₁) → Reads depth (.value v) (skipBlanks cs₁) cs₂ →
      skipBlanks cs₂ = closing named :: rest → Reads depth (.entries named [(name, v)]) cs rest
  | more {depth named name v es cs cs₁ cs₂ cs₃ rest} : scanName named cs = some (name, cs₁) →
      Reads depth (.value v) (skipBlanks cs₁) cs₂ → skipBlanks cs₂ = ',' :: cs₃ → Reads depth (.entries named es) cs₃ rest →
      Reads depth (.entries named ((name, v) :: es)) cs rest

/-! ### What the reader gives -/

theorem eq_append_of_scanLiteral? {word cs rest : List Char} (h : scanLiteral? word cs = some rest) : cs = word ++ rest := by
  fun_induction scanLiteral? word cs with
  | case1 => exact Option.some.inj h
  | case2 w ws c cs hw ih => rw [ih h, eq_of_beq hw, List.cons_append]
  | case3 | case4 => cases h

theorem enclosed_of_closing {named : Bool} {f : List Char → Option (List (String × Json) × List Char)} {cs rest : List Char}
    (h : skipBlanks cs = closing named :: rest) : enclosed named f cs = some (collection named [], rest) := by
  simp [enclosed, h]

theorem enclosed_of_ne {named : Bool} {f : List Char → Option (List (String × Json) × List Char)} {cs : List Char}
    (h : ∀ cs', skipBlanks cs ≠ closing named :: cs') :
    enclosed named f cs = (f (skipBlanks cs)).map fun x => (collection named x.1, x.2) := by
  refine if_neg fun hhead => ?_
  obtain ⟨cs', hcs⟩ := List.head?_eq_some_iff.mp hhead
  exact h cs' hcs

/-- What the reader gives with a budget is related so. -/
structure Follows (fuel : Nat) : Prop where
  value : ∀ depth cs v rest, value fuel depth cs = some (v, rest) → Reads depth (.value v) cs rest
  entries : ∀ named depth cs es rest, entries fuel named depth cs = some (es, rest) → Reads depth (.entries named es) cs rest

section Step
variable {fuel : Nat} (ih : Follows fuel) {depth : Nat} {named : Bool} {cs rest : List Char} {v : Json}
include ih

theorem enclosed_reads (hdepth : depth < depthLimit) (h : enclosed named (entries fuel named (depth + 1)) cs = some (v, rest)) :
    Reads depth (.value v) (opening named :: cs) rest := by
  by_cases hclose : ∃ cs', skipBlanks cs = closing named :: cs'
  · obtain ⟨cs', hclose⟩ := hclose
    cases (enclosed_of_closing hclose).symm.trans h
    exact .empty hdepth hclose
  · have hopen := not_exists.mp hclose
    rw [enclosed_of_ne hopen] at h
    obtain ⟨⟨es, cs'⟩, hes, h⟩ := Option.map_eq_some_iff.mp h
    cases h
    exact .filled hdepth hopen (ih.entries _ _ _ _ _ hes)

theorem value_reads (h : value (fuel + 1) depth cs = some (v, rest)) : Reads depth (.value v) cs rest := by
  unfold value at h
  split at h
  · cases h
  rename_i hdepth
  have hdepth : depth < depthLimit := by omega
  have literal {word : List Char} {w : Json} (hw : (word, w) ∈ literals) {cs' : List Char} (hcs : scanLiteral? word cs = some cs') :
      Reads depth (.value w) cs cs' :=
    eq_append_of_scanLiteral? hcs ▸ .literal hdepth hw
  split at h
  · cases h
  · exact enclosed_reads ih hdepth h
  · exact enclosed_reads ih hdepth h
  · obtain ⟨⟨s, cs'⟩, hs, h⟩ := Option.map_eq_some_iff.mp h
    cases h
    exact .string hdepth hs
  · obtain ⟨cs', hcs, h⟩ := Option.map_eq_some_iff.mp h
    cases h
    exact literal (by simp [literals]) hcs
  · obtain ⟨cs', hcs, h⟩ := Option.map_eq_some_iff.mp h
    cases h
    exact literal (by simp [literals]) hcs
  · split at h
    · rename_i hcs
      cases h
      exact literal (by simp [literals]) hcs
    · obtain ⟨⟨word, cs'⟩, hword, h⟩ := Option.map_eq_some_iff.mp h
      cases h
      obtain ⟨a, b, c, hcs, rfl, hw⟩ := scanWord?_eq_some hword
      exact hcs ▸ .number hdepth (.word (.inl rfl) hw)
  · obtain ⟨⟨s, cs'⟩, hs, h⟩ := Option.map_eq_some_iff.mp h
    cases h
    obtain ⟨xs, rfl, rfl, hxs⟩ := numeral_of_scanNumber hs
    exact .number hdepth hxs

theorem entries_reads {es : List (String × Json)} (h : entries (fuel + 1) named depth cs = some (es, rest)) :
    Reads depth (.entries named es) cs rest := by
  unfold entries at h
  obtain ⟨⟨name, cs₁⟩, hname, h⟩ := Option.bind_eq_some_iff.mp h
  obtain ⟨⟨v, cs₂⟩, hv, h⟩ := Option.bind_eq_some_iff.mp h
  have hv := ih.value _ _ _ _ hv
  dsimp only at h
  split at h
  · obtain ⟨⟨es', cs₃⟩, hes, h⟩ := Option.bind_eq_some_iff.mp h
    cases h
    exact .more hname hv ‹_› (ih.entries _ _ _ _ _ hes)
  · split at h
    · rename_i hc
      cases h
      exact .last hname hv (hc ▸ ‹_›)
    · cases h
  · cases h

end Step

theorem follows (fuel : Nat) : Follows fuel := by
  induction fuel with
  | zero => exact ⟨nofun, nofun⟩
  | succ fuel ih => exact ⟨fun _ _ _ _ h => value_reads ih h, fun _ _ _ _ _ h => entries_reads ih h⟩

/-! ### The budget that suffices -/

theorem length_of_skipBlanks {cs rest : List Char} {c : Char} (h : skipBlanks cs = c :: rest) : rest.length < cs.length := by
  have := (List.dropWhile_sublist isBlank (l := cs)).length_le
  rw [← skipBlanks, h, List.length_cons] at this
  omega

theorem length_of_scanString {escaped : Bool} {acc cs rest : List Char} {s : String} (h : scanString escaped acc cs = some (s, rest)) :
    rest.length < cs.length := by
  fun_induction scanString escaped acc cs with
  | case1 => cases h
  | case2 =>
    cases h
    exact Nat.lt_succ_self _
  | case3 _ _ _ _ _ ih => exact Nat.lt_succ_of_lt (ih h)

theorem length_of_scanName {named : Bool} {cs rest : List Char} {name : String} (h : scanName named cs = some (name, rest)) :
    rest.length ≤ cs.length := by
  unfold scanName at h
  split at h
  · split at h
    · rename_i hquote
      obtain ⟨⟨name, cs₂⟩, hname, h⟩ := Option.bind_eq_some_iff.mp h
      dsimp only at h
      split at h
      · rename_i hcolon
        cases h
        exact ((length_of_skipBlanks hcolon).trans ((length_of_scanString hname).trans (length_of_skipBlanks hquote))).le
      · cases h
    · cases h
  · cases h
    exact le_rfl

theorem Numeral.ne_nil {xs rest : List Char} (h : Numeral xs rest) : xs ≠ [] := by
  cases h <;> simp_all

theorem Reads.length_lt {depth : Nat} {part : Portion} {cs rest : List Char} (h : Reads depth part cs rest) : rest.length < cs.length := by
  have hskip : ∀ cs, (skipBlanks cs).length ≤ cs.length := fun cs => (List.dropWhile_sublist isBlank).length_le
  have hfront {xs rest : List Char} (h : xs ≠ []) : rest.length < (xs ++ rest).length := by
    simpa [List.length_pos_iff] using h
  induction h with
  | empty _ h => exact Nat.lt_succ_of_lt (length_of_skipBlanks h)
  | filled _ _ _ ih => exact Nat.lt_succ_of_lt (ih.trans_le (hskip _))
  | string _ h => exact Nat.lt_succ_of_lt (length_of_scanString h)
  | literal _ h => exact hfront ((by simp [literals] : ∀ x ∈ literals, x.1 ≠ []) _ h)
  | number _ h => exact hfront h.ne_nil
  | last hname _ h ih => exact ((length_of_skipBlanks h).trans (ih.trans_le (hskip _))).trans_le (length_of_scanName hname)
  | more hname _ h _ ih ihs =>
    exact ihs.trans (((length_of_skipBlanks h).trans (ih.trans_le (hskip _))).trans_le (length_of_scanName hname))

/-- The reader gives the portion. -/
def Portion.Given (fuel depth : Nat) (cs rest : List Char) : Portion → Prop
  | .value v => Json.value fuel depth cs = some (v, rest)
  | .entries named es => Json.entries fuel named depth cs = some (es, rest)

def Portion.extra : Portion → Nat
  | .value _ => 0
  | .entries .. => 1

/-- The characters that decide that a value is no number, but for `n`. -/
def kindMarks : List Char := ['\x7b', '[', '"', 't', 'f']

theorem value_of_not_mem {c : Char} {cs : List Char} (hc : c ∉ 'n' :: kindMarks) {fuel depth : Nat} (hdepth : depth < depthLimit) :
    value (fuel + 1) depth (c :: cs) = (scanNumber (c :: cs)).map fun x => (number x.1, x.2) := by
  unfold value
  rw [if_neg (by omega)]
  split <;> simp_all [kindMarks]

theorem Numeral.value_eq {xs rest : List Char} (h : Numeral xs rest) {fuel depth : Nat} (hdepth : depth < depthLimit) :
    value (fuel + 1) depth (xs ++ rest) = some (number (String.ofList xs), rest) := by
  have hplain {c : Char} {cs : List Char} (hcs : xs ++ rest = c :: cs) (hc : c ∉ 'n' :: kindMarks) :
      value (fuel + 1) depth (xs ++ rest) = some (number (String.ofList xs), rest) := by
    rw [hcs, value_of_not_mem hc hdepth, ← hcs, h.scanNumber]
    rfl
  cases h with
  | run hne hxs =>
    obtain ⟨c, cs, rfl⟩ := List.exists_cons_of_ne_nil hne
    refine hplain rfl fun hmem => ?_
    have := (by simp [kindMarks, isNumberChar] : ∀ d ∈ 'n' :: kindMarks, isNumberChar d = false) c hmem
    rw [hxs c List.mem_cons_self] at this
    cases this
  | @word sign a b c _ hsign hw =>
    rcases hsign with rfl | rfl | rfl
    · obtain ⟨ha, hb, -⟩ := letters_of_isWord hw
      by_cases hn : a = 'n'
      · subst hn
        have hnull : scanLiteral? ['n', 'u', 'l', 'l'] ('n' :: b :: c :: rest) = none := by
          have hu : ('u' == b) = false := (by simp : ∀ d ∈ ['n', 'N', 'a', 'A'], ('u' == d) = false) b hb
          simp [scanLiteral?, hu]
        have hword : scanWord? ('n' :: b :: c :: rest) = some (['n', b, c], rest) := if_pos hw
        show value (fuel + 1) depth ('n' :: b :: c :: rest) = _
        simp [value, if_neg (show ¬depth ≥ depthLimit by omega), hnull, hword]
      · refine hplain rfl fun hmem => ?_
        exact hn ((by simp [kindMarks] : ∀ d ∈ ['i', 'I', 'n', 'N'], d ∈ 'n' :: kindMarks → d = 'n') a ha hmem)
    · exact hplain rfl (by decide)
    · exact hplain rfl (by decide)

/-- A budget of twice the length of what is read suffices. -/
theorem Reads.given {depth : Nat} {part : Portion} {cs rest : List Char} (h : Reads depth part cs rest) {fuel : Nat}
    (hfuel : part.extra + 2 * cs.length ≤ fuel + 2 * rest.length) : part.Given fuel depth cs rest := by
  have hskip : ∀ cs, (skipBlanks cs).length ≤ cs.length := fun cs => (List.dropWhile_sublist isBlank).length_le
  obtain ⟨fuel, rfl⟩ : ∃ f, fuel = f + 1 := Nat.exists_eq_succ_of_ne_zero (by have := h.length_lt; omega)
  induction h generalizing fuel with
  | @empty _ named _ _ hdepth h =>
    cases named <;> simp [Portion.Given, value, opening, if_neg (Nat.not_le.mpr hdepth), enclosed_of_closing h]
  | string hdepth h => simp [Portion.Given, value, if_neg (Nat.not_le.mpr hdepth), h]
  | @filled _ named _ cs _ hdepth hopen h ih =>
    have hlt := h.length_lt
    have := hskip cs
    simp only [Portion.extra, List.length_cons] at hfuel ih
    obtain ⟨f, rfl⟩ : ∃ f, fuel = f + 1 := Nat.exists_eq_succ_of_ne_zero (by omega)
    have h := ih f (by omega)
    simp only [Portion.Given] at h
    cases named <;> simp [Portion.Given, value, opening, if_neg (Nat.not_le.mpr hdepth), enclosed_of_ne hopen, h]
  | literal hdepth h =>
    simp only [literals, List.mem_cons, List.not_mem_nil, or_false, Prod.mk.injEq] at h
    rcases h with ⟨rfl, rfl⟩ | ⟨rfl, rfl⟩ | ⟨rfl, rfl⟩ <;>
      simp [Portion.Given, value, if_neg (Nat.not_le.mpr hdepth), scanLiteral?]
  | number hdepth h => exact h.value_eq hdepth
  | @last _ named _ _ _ cs₁ _ _ hname h hclose ih =>
    have := h.length_lt
    have := hskip cs₁
    have := length_of_scanName hname
    have := length_of_skipBlanks hclose
    simp only [Portion.extra] at hfuel ih
    obtain ⟨f, rfl⟩ : ∃ f, fuel = f + 1 := Nat.exists_eq_succ_of_ne_zero (by omega)
    have h := ih f (by omega)
    simp only [Portion.Given] at h
    unfold Portion.Given entries
    cases named <;> simp [hname, h, hclose, closing]
  | @more _ _ _ _ _ _ cs₁ _ _ _ hname h hcomma hs ih ihs =>
    have := h.length_lt
    have := hs.length_lt
    have := hskip cs₁
    have := length_of_scanName hname
    have := length_of_skipBlanks hcomma
    simp only [Portion.extra] at hfuel ih ihs
    obtain ⟨f, rfl⟩ : ∃ f, fuel = f + 1 := Nat.exists_eq_succ_of_ne_zero (by omega)
    have h := ih f (by omega)
    have hs := ihs f (by omega)
    simp only [Portion.Given] at h hs
    unfold Portion.Given entries
    simp [hname, h, hcomma, hs]

theorem ofText?_eq_some {text : String} {v : Json} :
    ofText? text = some v ↔ ∃ rest, Reads 0 (.value v) (skipBlanks text.toList) rest ∧ skipBlanks rest = [] := by
  unfold ofText?
  dsimp only
  constructor
  · intro h
    split at h
    · rename_i v' rest hv
      split at h
      · cases h
        exact ⟨rest, (follows _).value _ _ _ _ hv, List.isEmpty_iff.mp ‹_›⟩
      · cases h
    · cases h
  · rintro ⟨rest, h, hrest⟩
    have hv : value (2 * (skipBlanks text.toList).length + 2) 0 _ = some (v, rest) :=
      h.given (by simp only [Portion.extra]; omega)
    rw [hv]
    simp [hrest]

end Planwright.Json
