import Planwright.Proofs.Json.Grammar

/-! Texts without blanks. Blanks outside strings can be left out of a text: what is left is the text of the
    value as spelled, and the same value is read from it, since a mark that belongs to no number follows every
    value. -/

namespace Planwright.Json

variable {xs : List Char} {s : String} {named : Bool} {depth : Nat}

/-- A text without the blanks that stand outside strings. Inside a string it is known whether the next character is escaped. -/
def withoutBlanks : (inside : Option Bool) → List Char → List Char
  | _, [] => []
  | none, c :: cs => if isBlank c then withoutBlanks none cs else c :: withoutBlanks (if c == '"' then some false else none) cs
  | some escaped, c :: cs =>
    c :: withoutBlanks (if c == '"' && !escaped then none else some (c == '\\' && !escaped)) cs

/-- A text without the blanks that stand outside strings. -/
def compact (cs : List Char) : List Char := withoutBlanks none cs

/-- Outside a string the character stays, and starts no string. -/
def isPlain (c : Char) : Bool := !isBlank c && c != '"'

variable {cs rest : List Char} {c : Char}

theorem compact_cons (h : isPlain c = true) : compact (c :: cs) = c :: compact cs := by
  obtain ⟨hb, hq⟩ : isBlank c = false ∧ c ≠ '"' := by simpa [isPlain] using h
  simp [compact, withoutBlanks, hb, hq]

theorem compact_append (h : ∀ c ∈ xs, isPlain c = true) : compact (xs ++ rest) = xs ++ compact rest := by
  induction xs with
  | nil => rfl
  | cons c xs ih =>
    obtain ⟨hc, hxs⟩ := List.forall_mem_cons.mp h
    rw [List.cons_append, compact_cons hc, ih hxs, List.cons_append]

theorem compact_skipBlanks (cs : List Char) : compact (skipBlanks cs) = compact cs := by
  induction cs with
  | nil => rfl
  | cons c cs ih =>
    rw [skipBlanks, List.dropWhile_cons]
    split
    · rename_i hc
      rw [← skipBlanks, ih, compact, compact, withoutBlanks, if_pos hc]
    · rfl

theorem skipBlanks_compact (cs : List Char) : skipBlanks (compact cs) = compact cs := by
  induction cs with
  | nil => rfl
  | cons c cs ih =>
    rw [compact, withoutBlanks]
    split
    · exact ih
    · rename_i hc
      rw [skipBlanks, List.dropWhile_cons_of_neg hc]

theorem compact_of_skipBlanks (h : skipBlanks cs = c :: rest) (hc : c ≠ '"') : compact cs = c :: compact rest := by
  have hb : isBlank c = false := by
    have := List.head?_dropWhile_not isBlank cs
    rwa [← skipBlanks, h] at this
  rw [← compact_skipBlanks, h, compact_cons (by simp [isPlain, hb, hc])]

theorem compact_of_quote (h : skipBlanks cs = '"' :: rest) : compact cs = '"' :: withoutBlanks (some false) rest := by
  rw [← compact_skipBlanks, h]
  rfl

theorem head?_compact (cs : List Char) : (compact cs).head? = (skipBlanks cs).head? := by
  cases h : skipBlanks cs with
  | nil => rw [← compact_skipBlanks, h]; rfl
  | cons c rest =>
    by_cases hc : c = '"'
    · rw [compact_of_quote (hc ▸ h), hc]; rfl
    · rw [compact_of_skipBlanks h hc]; rfl

theorem skipBlanks_compact_ne (h : ∀ cs', skipBlanks cs ≠ c :: cs') : ∀ cs', skipBlanks (compact cs) ≠ c :: cs' := by
  intro cs' heq
  have hhead : (skipBlanks cs).head? = some c := by
    rw [← head?_compact, ← skipBlanks_compact, heq]
    rfl
  obtain ⟨tail, htail⟩ := List.head?_eq_some_iff.mp hhead
  exact h tail htail

theorem withoutBlanks_of_scanString {escaped : Bool} {acc : List Char} (h : scanString escaped acc cs = some (s, rest)) :
    ∃ body, s = String.ofList (acc.reverse ++ body) ∧ withoutBlanks (some escaped) cs = body ++ '"' :: compact rest ∧
      scanString escaped acc (withoutBlanks (some escaped) cs) = some (s, compact rest) := by
  fun_induction scanString escaped acc cs with
  | case1 => cases h
  | case2 escaped acc c cs hc =>
    cases h
    obtain ⟨rfl, hesc⟩ : c = '"' ∧ escaped = false := by simpa using hc
    subst hesc
    exact ⟨[], by simp, rfl, rfl⟩
  | case3 escaped acc c cs hc ih =>
    obtain ⟨body, rfl, hbody, hscan⟩ := ih h
    rw [withoutBlanks, if_neg hc]
    refine ⟨c :: body, by simp, by rw [hbody, List.cons_append], ?_⟩
    rw [scanString, if_neg hc, hscan]

theorem isPlain_of_numeral (h : Numeral xs rest) : ∀ c ∈ xs, isPlain c = true := by
  have hnumber : ∀ {c : Char}, isNumberChar c = true → isPlain c = true := by
    intro c hc
    by_contra hno
    have hmem : c ∈ [' ', '\n', '\r', '\t', '"'] := by
      simp only [isPlain, isBlank, Bool.and_eq_true, Bool.not_eq_true', Bool.or_eq_false_iff, bne_iff_ne, beq_eq_false_iff_ne] at hno
      simp only [List.mem_cons, List.not_mem_nil, or_false]
      tauto
    rw [(by simp [isNumberChar] : ∀ d ∈ [' ', '\n', '\r', '\t', '"'], isNumberChar d = false) c hmem] at hc
    cases hc
  cases h with
  | run _ hxs => exact fun c hc => hnumber (hxs c hc)
  | @word sign x y z _ hsign hw =>
    obtain ⟨hx, hy, hz⟩ := letters_of_isWord hw
    refine List.forall_mem_append.mpr ⟨?_, ?_⟩
    · rcases hsign with rfl | rfl | rfl <;> simp [isPlain, isBlank]
    · simp only [List.forall_mem_cons]
      have hplain {cs : List Char} (h : cs.all isPlain = true) {c : Char} (hc : c ∈ cs) : isPlain c = true := List.all_eq_true.mp h c hc
      exact ⟨hplain rfl hx, hplain rfl hy, hplain rfl hz, List.forall_mem_nil _⟩

/-- What comes next, blanks apart, is no part of a number. -/
def Delimited (rest : List Char) : Prop := ∀ c ∈ (compact rest).head?, isNumberChar c = false

theorem delimited_of_skipBlanks (h : skipBlanks cs = c :: rest) (hc : c ≠ '"') (hn : isNumberChar c = false) : Delimited cs := by
  rw [Delimited, compact_of_skipBlanks h hc]
  rintro d ⟨⟩
  exact hn

def nameText (named : Bool) (name : String) : String := if named then quoted name ++ ":" else ""

def entryTexts (named : Bool) (es : List (String × Json)) : List String := es.map fun e => nameText named e.1 ++ e.2.render

theorem render_collection (named : Bool) (es : List (String × Json)) : ((collection named es).render).toList =
    opening named :: ((",".intercalate (entryTexts named es)).toList ++ [closing named]) := by
  have hfields : render.fields es = entryTexts true es := by
    induction es with
    | nil => rw [render.fields, entryTexts, List.map_nil]
    | cons e es ih => rw [render.fields, ih]; rfl
  cases named with
  | true => simp [collection, render, hfields, opening, closing]
  | false => simp [collection, render, entryTexts, nameText, opening, closing, Function.comp_def]

/-- The text of a portion, with its closing mark. -/
def Portion.spelling : Portion → List Char
  | .value v => v.render.toList
  | .entries named es => (",".intercalate (entryTexts named es)).toList ++ [closing named]

theorem compact_of_scanName {name : String} (h : scanName named cs = some (name, rest)) :
    scanName named (compact cs) = some (name, compact rest) ∧ compact cs = (nameText named name).toList ++ compact rest := by
  unfold scanName at h
  split at h
  · split at h
    · rename_i hnamed _ _ hquote
      subst hnamed
      obtain ⟨⟨s, cs₂⟩, hname, h⟩ := Option.bind_eq_some_iff.mp h
      dsimp only at h
      split at h
      · rename_i hcolon
        cases h
        obtain ⟨body, rfl, hbody, hscan⟩ := withoutBlanks_of_scanString hname
        have hcs := compact_of_quote hquote
        have hcs₂ := compact_of_skipBlanks hcolon (by decide)
        constructor
        · simp [scanName, (skipBlanks_compact cs).trans hcs, hscan, (skipBlanks_compact cs₂).trans hcs₂]
        · simp [hcs, hbody, hcs₂, nameText, quoted]
      · cases h
    · cases h
  · rename_i hnamed
    cases h
    exact ⟨if_neg hnamed, by simp [nameText, hnamed]⟩

theorem Reads.ne_nil {es : List (String × Json)} (h : Reads depth (.entries named es) cs rest) :
    es ≠ [] := by
  cases h <;> simp

theorem toList_intercalate_cons {ss : List String} (h : ss ≠ []) :
    (",".intercalate (s :: ss)).toList = s.toList ++ ',' :: (",".intercalate ss).toList := by
  obtain ⟨t, ts, rfl⟩ := List.exists_cons_of_ne_nil h
  rw [String.intercalate_cons_cons]
  simp

theorem Reads.compact {part : Portion} (h : Reads depth part cs rest)
    (hend : ∀ v, part = .value v → Delimited rest) :
    Reads depth part (compact cs) (compact rest) ∧ compact cs = part.spelling ++ compact rest := by
  have hopening : ∀ named, isPlain (opening named) = Bool.true := by decide
  have hclosing : ∀ named, closing named ≠ '"' ∧ isNumberChar (closing named) = Bool.false := by decide
  induction h with
  | @empty _ named _ _ hdepth h =>
    have hcs := compact_of_skipBlanks h (hclosing named).1
    rw [compact_cons (hopening named)]
    exact ⟨.empty hdepth (by rw [skipBlanks_compact, hcs]), by simp [hcs, Portion.spelling, render_collection, entryTexts]⟩
  | @filled _ named _ _ _ hdepth hopen h ih =>
    obtain ⟨hr, hs⟩ := ih (by simp)
    rw [compact_skipBlanks] at hr hs
    rw [compact_cons (hopening named)]
    refine ⟨.filled hdepth (skipBlanks_compact_ne hopen) (by rwa [skipBlanks_compact]), ?_⟩
    rw [hs, Portion.spelling, Portion.spelling, render_collection, List.cons_append]
  | @string _ _ cs _ hdepth h =>
    obtain ⟨body, rfl, hbody, hscan⟩ := withoutBlanks_of_scanString h
    rw [show Json.compact ('"' :: cs) = '"' :: withoutBlanks (some Bool.false) cs from rfl]
    exact ⟨.string hdepth hscan, by simp [hbody, Portion.spelling, render, quoted]⟩
  | literal hdepth h =>
    obtain ⟨hplain, hspelling⟩ := (by simp [literals, isPlain, isBlank, render] :
      ∀ x ∈ literals, (∀ c ∈ x.1, isPlain c = Bool.true) ∧ x.2.render.toList = x.1) _ h
    rw [compact_append hplain]
    exact ⟨.literal hdepth h, by rw [Portion.spelling, hspelling]⟩
  | number hdepth h =>
    rw [compact_append (isPlain_of_numeral h)]
    refine ⟨.number hdepth ?_, by simp [Portion.spelling, render]⟩
    cases h with
    | run hne hxs _ hsign =>
      refine .run hne hxs (hend _ rfl) fun h => ?_
      rw [hsign h]
      rfl
    | word hsign hw => exact .word hsign hw
  | @last _ named _ _ _ _ _ _ hname h hclose ih =>
    obtain ⟨hr, hs⟩ := ih fun _ _ => delimited_of_skipBlanks hclose (hclosing named).1 (hclosing named).2
    obtain ⟨hname, hcs⟩ := compact_of_scanName hname
    have hcs₂ := compact_of_skipBlanks hclose (hclosing named).1
    rw [compact_skipBlanks] at hr hs
    refine ⟨.last hname (by rwa [skipBlanks_compact]) (by rw [skipBlanks_compact, hcs₂]), ?_⟩
    simp [hcs, hs, hcs₂, Portion.spelling, entryTexts]
  | more hname h hcomma hes ih ihs =>
    obtain ⟨hr, hs⟩ := ih fun _ _ => delimited_of_skipBlanks hcomma (by decide) (by decide)
    obtain ⟨hrs, hss⟩ := ihs (by simp)
    obtain ⟨hname, hcs⟩ := compact_of_scanName hname
    have hcs₂ := compact_of_skipBlanks hcomma (by decide)
    rw [compact_skipBlanks] at hr hs
    refine ⟨.more hname (by rwa [skipBlanks_compact]) (by rw [skipBlanks_compact, hcs₂]) hrs, ?_⟩
    rw [hcs, hs, hcs₂, hss]
    simp only [Portion.spelling, entryTexts, List.map_cons, toList_intercalate_cons (mt List.map_eq_nil_iff.mp hes.ne_nil)]
    simp

/-- A text that is read is, without its blanks, the spelling of its value, and the same value is read from that. -/
theorem ofText?_render {text : String} {v : Json} (h : ofText? text = some v) :
    v.render.toList = compact text.toList ∧ ofText? v.render = some v := by
  obtain ⟨rest, hv, hrest⟩ := ofText?_eq_some.mp h
  have hnil : compact rest = [] := by
    rw [← compact_skipBlanks, hrest]
    rfl
  obtain ⟨hr, hs⟩ := hv.compact fun _ _ => by simp [Delimited, hnil]
  rw [compact_skipBlanks] at hr hs
  have heq : v.render.toList = compact text.toList := by simpa [hnil, Portion.spelling] using hs.symm
  refine ⟨heq, ofText?_eq_some.mpr ⟨[], ?_, rfl⟩⟩
  rw [heq, skipBlanks_compact, ← hnil]
  exact hr

end Planwright.Json
