import Planwright.Proofs.Semantics.Bound
import Planwright.Proofs.Tree.Mirror

/-! Trees evaluated side by side. The second has the operators of the first under other names, with constants
    that count as the same. The trees have rows and values that resemble each other, wherever the variables that
    the first uses read the same. -/

namespace Planwright

open Op

/-! ### Lists side by side -/

namespace Run

variable {α β γ δ : Type} {R : α → β → Prop} {S : γ → δ → Prop} {as : List α} {bs : List β}

theorem forall₂_map (h : List.Forall₂ R as bs) {f : α → γ} {g : β → δ} (hf : ∀ a ∈ as, ∀ b, R a b → S (f a) (g b)) :
    List.Forall₂ S (as.map f) (bs.map g) :=
  List.forall₂_map_left_iff.mpr (List.forall₂_map_right_iff.mpr (forall₂_imp_mem h fun a ha b _ => hf a ha b))

theorem forall₂_filter (h : List.Forall₂ R as bs) {f : α → Bool} {g : β → Bool} (hf : ∀ a ∈ as, ∀ b, R a b → f a = g b) :
    List.Forall₂ R (as.filter f) (bs.filter g) := by
  induction h with
  | nil => exact .nil
  | @cons a b as bs hab _ ih =>
    rw [List.filter_cons, List.filter_cons, ← hf a List.mem_cons_self b hab]
    have hrest := ih fun a' ha' => hf a' (List.mem_cons_of_mem _ ha')
    split
    · exact .cons hab hrest
    · exact hrest

theorem forall₂_flatMap (h : List.Forall₂ R as bs) {f : α → List γ} {g : β → List δ}
    (hf : ∀ a ∈ as, ∀ b, R a b → List.Forall₂ S (f a) (g b)) : List.Forall₂ S (as.flatMap f) (bs.flatMap g) := by
  induction h with
  | nil => exact .nil
  | @cons a b as bs hab _ ih =>
    rw [List.flatMap_cons, List.flatMap_cons]
    exact List.rel_append (hf a List.mem_cons_self b hab) (ih fun a' ha' => hf a' (List.mem_cons_of_mem _ ha'))

end Run

/-! ### Values and names -/

/-- The map gives different names to different variables of a set. -/
def Distinguishes (N : VarId → Prop) (μ : VarId → VarId) : Prop := ∀ u v, N u → N v → μ u = μ v → u = v

theorem Distinguishes.mem_image {N : VarId → Prop} {μ : VarId → VarId} (hμ : Distinguishes N μ) {s s' : VarSet}
    (h : IsImage μ s s') (hs : ∀ v ∈ s, N v) {v : VarId} (hv : N v) : μ v ∈ s' ↔ v ∈ s := by
  rw [h]
  constructor
  · rintro ⟨w, hw, heq⟩
    exact hμ w v (hs w hw) hv heq ▸ hw
  · exact fun hmem => ⟨v, hmem, rfl⟩

/-- Which values count as the same, and what the variables that are named go by on the other side. -/
structure Likeness where
  Same : Value → Value → Prop
  Named : VarId → Prop
  name : VarId → VarId

abbrev Likeness.under (S : Value → Value → Prop) : Likeness := ⟨S, fun _ => True, (·)⟩

/-- Nothing tells values apart that count as the same. -/
structure Interpretation.Respects (I : Interpretation) (S : Value → Value → Prop) : Prop where
  refl : ∀ v, S v v
  isNull : ∀ {v w}, S v w → v.isNull = w.isNull
  holds : ∀ {v w}, S v w → v.holds = w.holds
  integer? : ∀ {v w}, S v w → v.integer? = w.integer?
  order : ∀ {v v' w w'}, S v v' → S w w' → v.order w = v'.order w'
  scalar : ∀ kind type {vs ws}, List.Forall₂ S vs ws → S (I.scalar kind type vs) (I.scalar kind type ws)
  aggregate : ∀ name type {vs ws}, List.Forall₂ (List.Forall₂ S) vs ws → S (I.aggregate name type vs) (I.aggregate name type ws)
  mark : ∀ {v w}, S v w → I.mark v = I.mark w

def Reading.Respects (C : Reading) (S : Value → Value → Prop) : Prop :=
  ∀ kind type {vs ws}, List.Forall₂ S vs ws → S (C kind type vs) (C kind type ws)

theorem Reading.respects_eq (C : Reading) : C.Respects Eq := fun kind type _ _ h => congrArg (C kind type) (List.forall₂_eq_eq_eq ▸ h)

theorem Interpretation.Respects.reading {I : Interpretation} {S : Value → Value → Prop} (hI : I.Respects S) : I.reading.Respects S := by
  intro kind type vs ws h
  unfold Interpretation.reading
  cases hk : kind.kind.isComparison with
  | false => exact hI.scalar kind type h
  | true =>
    match vs, ws, h with
    | [], [], h | [_], [_], h | _ :: _ :: _ :: _, _ :: _ :: _ :: _, h => exact hI.scalar kind type h
    | [_, _], [_, _], .cons h (.cons h' .nil) =>
      simp only [Value.compared, hI.isNull h, hI.isNull h', hI.order h h']
      exact hI.refl _

theorem Interpretation.respects_eq (I : Interpretation) : I.Respects Eq where
  refl _ := rfl
  isNull h := h ▸ rfl
  holds h := h ▸ rfl
  integer? h := h ▸ rfl
  order h h' := h ▸ h' ▸ rfl
  scalar kind type _ _ h := congrArg (I.scalar kind type) (List.forall₂_eq_eq_eq ▸ h)
  aggregate name type _ _ h := by
    rw [List.forall₂_eq_eq_eq, List.forall₂_eq_eq_eq] at h
    rw [h]
  mark h := h ▸ rfl

/-! ### Rows -/

namespace Row

/-- The second row binds under their new names what the first binds of the variables that are named. -/
def Resembles (g : Likeness) (r r' : Row) : Prop := ∀ v, g.Named v → Option.Rel g.Same (r v) (r' (g.name v))

/-- The second row reads the variables under their new names as the first. -/
def Echoes (g : Likeness) (P : VarId → Prop) (r r' : Row) : Prop := ∀ v, P v → g.Same (r.read v) (r'.read (g.name v))

variable {g : Likeness} {P Q : VarId → Prop} {r r' s s' : Row}

theorem resembles_eq : Resembles (.under Eq) r r' ↔ r = r' := by
  constructor
  · intro h
    funext v
    have hv := h v trivial
    generalize r v = x, r' v = y at hv
    cases hv with
    | none => rfl
    | some heq => rw [heq]
  · rintro rfl v -
    cases r v with
    | none => exact .none
    | some x => exact .some rfl

theorem forall₂_resembles_eq {rs rs' : List Row} (h : List.Forall₂ (Resembles (.under Eq)) rs rs') : rs = rs' := by
  rw [← List.forall₂_eq_eq_eq]
  exact h.imp fun _ _ => resembles_eq.mp

theorem Resembles.echoes (hnull : g.Same .null .null) (h : Resembles g r r') : Echoes g g.Named r r' := fun v hv => by
  rw [read, read]
  have hv := h v hv
  generalize r v = x, r' (g.name v) = y at hv
  cases hv with
  | none => exact hnull
  | some h => exact h

theorem Echoes.mono (h : Echoes g Q r r') (hPQ : ∀ v, P v → Q v) : Echoes g P r r' := fun v hv => h v (hPQ v hv)

theorem Resembles.empty : Resembles g empty empty := fun _ _ => .none

theorem Resembles.merge (h : Resembles g r r') (hs : Resembles g s s') : Resembles g (r.merge s) (r'.merge s') := fun v hv => by
  rw [merge_apply, merge_apply]
  have hsv := hs v hv
  generalize s v = x, s' (g.name v) = y at hsv
  cases hsv with
  | none => exact h v hv
  | some h => exact .some h

theorem Echoes.merge (h : Echoes g Q r r') (hs : Resembles g s s') (hPN : ∀ v, P v → g.Named v)
    (hPQ : ∀ v, P v → s v = none → Q v) : Echoes g P (r.merge s) (r'.merge s') := by
  intro v hv
  have hsv := hs v (hPN v hv)
  have hq := hPQ v hv
  rw [read, read, merge_apply, merge_apply]
  generalize s v = x, s' (g.name v) = y at hsv hq
  cases hsv with
  | none => exact h v (hq rfl)
  | some h => exact h

section Sets
variable (hμ : Distinguishes g.Named g.name) {vs vs' : VarSet} (himage : IsImage g.name vs vs') (hvs : ∀ v ∈ vs, g.Named v)
include hμ himage hvs

theorem Echoes.without (hnull : g.Same .null .null) (h : Echoes g Q r r') (hPN : ∀ v, P v → g.Named v)
    (hPQ : ∀ v, P v → v ∉ vs → Q v) : Echoes g P (r.without vs) (r'.without vs') := by
  intro v hv
  have hmem := hμ.mem_image himage hvs (hPN v hv)
  by_cases hin : v ∈ vs
  · simpa [read, hmem, hin] using hnull
  · simpa [read, hmem, hin] using h v (hPQ v hv hin)

theorem resembles_ite {f f' : VarId → Option Value} (h : ∀ v, g.Named v → v ∈ vs → Option.Rel g.Same (f v) (f' (g.name v))) :
    Resembles g (fun v => if v ∈ vs then f v else none) (fun v => if v ∈ vs' then f' v else none) := fun v hv => by
  have hmem := hμ.mem_image himage hvs hv
  by_cases hin : v ∈ vs
  · simpa only [if_pos hin, if_pos (hmem.mpr hin)] using h v hv hin
  · simpa only [if_neg hin, if_neg (mt hmem.mp hin)] using .none

theorem Resembles.nulls (hnull : g.Same .null .null) : Resembles g (nulls vs) (nulls vs') :=
  resembles_ite hμ himage hvs fun _ _ _ => .some hnull

theorem Resembles.only (h : Resembles g r r') : Resembles g (r.only vs) (r'.only vs') :=
  resembles_ite hμ himage hvs fun v hv _ => h v hv

theorem Resembles.shown (hnull : g.Same .null .null) (h : Resembles g r r') : Resembles g (r.shown vs) (r'.shown vs') :=
  resembles_ite hμ himage hvs fun v hv _ => .some (h.echoes hnull v hv)

theorem Resembles.renamed (hnull : g.Same .null .null) {l l' : VarMap} (hl : ∀ v ∈ vs, l'.get? (g.name v) = (l.get? v).map g.name)
    (hN : ∀ v w, l.get? v = some w → g.Named w) (h : Resembles g r r') : Resembles g (r.renamed vs l) (r'.renamed vs' l') :=
  resembles_ite hμ himage hvs fun v _ hin => by
    rw [hl v hin]
    cases hw : l.get? v with
    | none => exact .some hnull
    | some w => exact .some (h.echoes hnull w (hN v w hw))

end Sets

theorem marks_eq_iff {mark : Value → Value} {vs : VarSet} :
    r.marks mark vs.toList = s.marks mark vs.toList ↔ ∀ v ∈ vs, mark (r.read v) = mark (s.read v) := by
  rw [marks, marks, List.map_inj_left]
  simp

theorem forall₂_firsts {κ κ' : Type} [DecidableEq κ] [DecidableEq κ'] {key : Row → κ} {key' : Row → κ'} {R : Row → Row → Prop}
    (hkey : ∀ r r' s s', R r r' → R s s' → (key' r' = key' s' ↔ key r = key s)) {rs rs' : List Row}
    (h : List.Forall₂ R rs rs') : List.Forall₂ R (firsts key rs) (firsts key' rs') := by
  induction h with
  | nil => exact .nil
  | @cons r r' rs rs' hr _ ih =>
    refine .cons hr (Run.forall₂_filter ih fun s _ s' hs => ?_)
    simp [hkey s s' r r' hs hr]

theorem forall₂_orNulls {R : Row → Row → Prop} {columns columns' : VarSet} {found found' : List Row}
    (hn : R (r.merge (nulls columns)) (r'.merge (nulls columns'))) (h : List.Forall₂ R found found') :
    List.Forall₂ R (r.orNulls columns found) (r'.orNulls columns' found') := by
  cases h with
  | nil => exact .cons hn .nil
  | cons h hs => exact .cons h hs

section Marks
variable {I : Interpretation} (hI : I.Respects g.Same) {vs vs' : VarSet} (himage : IsImage g.name vs vs') (hvs : ∀ v ∈ vs, g.Named v)
include hI himage hvs

theorem Resembles.marks_eq_iff (hr : Resembles g r r') (hs : Resembles g s s') :
    r'.marks I.mark vs'.toList = s'.marks I.mark vs'.toList ↔ r.marks I.mark vs.toList = s.marks I.mark vs.toList := by
  have hmark {r r'} (h : Resembles g r r') {v} (hv : v ∈ vs) : I.mark (r.read v) = I.mark (r'.read (g.name v)) :=
    hI.mark (h.echoes (hI.refl _) v (hvs v hv))
  rw [Row.marks_eq_iff, Row.marks_eq_iff]
  constructor
  · intro h v hv
    rw [hmark hr hv, hmark hs hv]
    exact h _ ((himage _).mpr ⟨v, hv, rfl⟩)
  · intro h w hw
    obtain ⟨v, hv, rfl⟩ := (himage w).mp hw
    rw [← hmark hr hv, ← hmark hs hv]
    exact h v hv

theorem forall₂_groups {rs rs' : List Row} (h : List.Forall₂ (Resembles g) rs rs') :
    List.Forall₂ (List.Forall₂ (Resembles g)) (groups I.mark vs rs) (groups I.mark vs' rs') := by
  have hempty : vs'.isEmpty = vs.isEmpty := by
    rw [Bool.eq_iff_iff, VarSet.isEmpty_iff, VarSet.isEmpty_iff]
    constructor
    · exact fun hno v hv => hno (g.name v) ((himage _).mpr ⟨v, hv, rfl⟩)
    · intro hno w hw
      obtain ⟨v, hv, -⟩ := (himage w).mp hw
      exact hno v hv
  rw [groups, groups, hempty]
  split
  · exact .cons h .nil
  · refine Run.forall₂_map (forall₂_firsts (fun r r' s s' hr hs => hr.marks_eq_iff hI himage hvs hs) h) fun r _ r' hr => ?_
    refine Run.forall₂_filter h fun s _ s' hs => ?_
    simp [hs.marks_eq_iff hI himage hvs hr]

theorem forall₂_combined {kind : SetKind} {left left' right right' : List Row} (hl : List.Forall₂ (Resembles g) left left')
    (hr : List.Forall₂ (Resembles g) right right') :
    List.Forall₂ (Resembles g) (combined I kind vs left right) (combined I kind vs' left' right') := by
  have hmarks : ∀ r r' s s', Resembles g r r' → Resembles g s s' → (r'.marks I.mark vs'.toList = s'.marks I.mark vs'.toList ↔
      r.marks I.mark vs.toList = s.marks I.mark vs.toList) := fun r r' s s' hrr hss => hrr.marks_eq_iff hI himage hvs hss
  have hcontains : ∀ r r', Resembles g r r' → (right.map (Row.marks I.mark vs.toList)).contains (r.marks I.mark vs.toList) =
      (right'.map (Row.marks I.mark vs'.toList)).contains (r'.marks I.mark vs'.toList) := by
    intro r r' hrr
    induction hr with
    | nil => rfl
    | @cons s s' rs rs' hs _ ih =>
      simp only [List.map_cons, List.contains_cons]
      rw [ih, Bool.beq_eq_decide_eq, Bool.beq_eq_decide_eq, decide_eq_decide.mpr (hmarks r r' s s' hrr hs)]
  cases kind with
  | unionAll => exact List.rel_append hl hr
  | intersect => exact forall₂_firsts hmarks (Run.forall₂_filter hl fun r _ r' hrr => hcontains r r' hrr)
  | except => exact forall₂_firsts hmarks (Run.forall₂_filter hl fun r _ r' hrr => congrArg not (hcontains r r' hrr))

end Marks

theorem idxOf_map {N : VarId → Prop} {μ : VarId → VarId} (hμ : Distinguishes N μ) {vs : List VarId} (hN : ∀ v ∈ vs, N v)
    {v : VarId} (hv : N v) : (vs.map μ).idxOf (μ v) = vs.idxOf v := by
  induction vs with
  | nil => rfl
  | cons w vs ih =>
    obtain ⟨hw, hvs⟩ := List.forall_mem_cons.mp hN
    have hsame : (μ w == μ v) = (w == v) := by
      rw [Bool.eq_iff_iff, beq_iff_eq, beq_iff_eq]
      exact ⟨hμ w v hw hv, congrArg μ⟩
    rw [List.map_cons, List.idxOf_cons, List.idxOf_cons, hsame, ih hvs]

theorem Resembles.row (hS : ∀ v, g.Same v v) (hμ : Distinguishes g.Named g.name) {t t' : Table}
    (hcols : t'.columns = t.columns.map g.name) (hN : ∀ v ∈ t.columns, g.Named v) (values : List Value) :
    Resembles g (t.row values) (t'.row values) := by
  intro v hv
  rw [Table.row, Table.row, hcols]
  have hmem : g.name v ∈ t.columns.map g.name ↔ v ∈ t.columns := by
    constructor
    · intro h
      obtain ⟨w, hw, heq⟩ := List.mem_map.mp h
      exact hμ w v (hN w hw) hv heq ▸ hw
    · exact List.mem_map_of_mem
  by_cases hin : v ∈ t.columns
  · rw [if_pos hin, if_pos (hmem.mpr hin), idxOf_map hμ hN hv]
    exact .some (hS _)
  · rw [if_neg hin, if_neg fun h => hin (hmem.mp h)]
    exact .none

end Row

/-- Rows that resemble each other are put into the same order. -/
def Interpretation.Arranges (I : Interpretation) (g : Likeness) : Prop :=
  ∀ {keys : List SortKey} {rs rs' : List Row}, (∀ k ∈ keys, g.Named k.var) → List.Forall₂ (Row.Resembles g) rs rs' →
    List.Forall₂ (Row.Resembles g) (I.arrange keys rs) (I.arrange (keys.map (SortKey.under g.name)) rs')

theorem Interpretation.arranges_under {I : Interpretation} {S : Value → Value → Prop}
    (h : ∀ keys rs rs', List.Forall₂ (Row.Resembles (.under S)) rs rs' →
      List.Forall₂ (Row.Resembles (.under S)) (I.arrange keys rs) (I.arrange keys rs')) : I.Arranges (.under S) := by
  intro keys rs rs' _ hrows
  rw [show keys.map (SortKey.under (·)) = keys from List.map_id keys]
  exact h keys rs rs' hrows

theorem Interpretation.arranges_eq (I : Interpretation) : I.Arranges (.under Eq) := by
  refine arranges_under fun keys rs rs' h => ?_
  obtain rfl := Row.forall₂_resembles_eq h
  exact List.forall₂_same.mpr fun _ _ => Row.resembles_eq.mpr rfl

/-! ### Meanings -/

/-- Where a tree is evaluated: for a row, and within a group of rows. -/
structure Spot where
  row : Row
  group : List Row

/-- The rows read the variables as those of the other spot. -/
structure Spot.Echoes (g : Likeness) (P : VarId → Prop) (s s' : Spot) : Prop where
  row : Row.Echoes g P s.row s'.row
  group : List.Forall₂ (Row.Echoes g P) s.group s'.group

namespace Meaning

variable {g : Likeness} {m m' : Meaning} {s s' : Spot}

/-- What one meaning gives at a spot resembles what the other gives at another. -/
structure Resembles (g : Likeness) (m m' : Meaning) (s s' : Spot) : Prop where
  rows : List.Forall₂ (Row.Resembles g) (m.rows s.row) (m'.rows s'.row)
  value : g.Same (m.value s.row s.group) (m'.value s'.row s'.group)
  defs : List.Forall₂ (fun d d' => g.Named d.1 ∧ d'.1 = g.name d.1 ∧ g.Same (d.2 s.row s.group) (d'.2 s'.row s'.group)) m.defs m'.defs

theorem Resembles.relation {columns columns' : VarSet} {rows rows' : Row → List Row} (hnull : g.Same .null .null)
    (h : List.Forall₂ (Row.Resembles g) (rows s.row) (rows' s'.row)) :
    (relation columns rows).Resembles g (relation columns' rows') s s' := ⟨h, hnull, .nil⟩

theorem Resembles.expression {value value' : Row → List Row → Value} (h : g.Same (value s.row s.group) (value' s'.row s'.group)) :
    (expression value).Resembles g (expression value') s s' := ⟨.nil, h, .nil⟩

theorem Resembles.bindings (hμ : Distinguishes g.Named g.name) (h : m.Resembles g m' s s') :
    Row.Resembles g (m.bindings s.row s.group) (m'.bindings s'.row s'.group) := by
  intro v hv
  rw [Meaning.bindings, Meaning.bindings]
  have hdefs := List.forall₂_reverse_iff.mpr h.defs
  generalize m.defs.reverse = ds, m'.defs.reverse = ds' at hdefs
  induction hdefs with
  | nil => exact .none
  | @cons d d' ds ds' hd _ ih =>
    obtain ⟨hN, hname, hval⟩ := hd
    obtain ⟨w, e⟩ := d
    obtain ⟨w', e'⟩ := d'
    obtain rfl : w' = g.name w := hname
    rw [List.lookup_cons, List.lookup_cons]
    by_cases heq : v = w
    · subst heq
      simpa using hval
    · have hne : g.name v ≠ g.name w := fun hsame => heq (hμ v w hv hN hsame)
      rw [beq_false_of_ne heq, beq_false_of_ne hne]
      exact ih

end Meaning

/-! ### Expressions -/

section Values
variable {I : Interpretation} {S : Value → Value → Prop} (hI : I.Respects S)
include hI

theorem Meaning.chosen_same {ms ms' : List Meaning} {env env' : Row} {group group' : List Row}
    (h : List.Forall₂ (fun m m' => S (m.value env group) (m'.value env' group')) ms ms') :
    S (chosen ms env group) (chosen ms' env' group') := by
  fun_induction chosen ms env group generalizing ms' with
  | case1 =>
    cases h
    exact hI.refl _
  | case2 last =>
    obtain _ | ⟨h, ⟨⟩⟩ := h
    exact h
  | case3 condition result rest _ _ hc =>
    obtain _ | ⟨h, _ | ⟨h', hrest⟩⟩ := h
    rw [chosen, if_pos (hI.holds h ▸ hc)]
    exact h'
  | case4 condition result rest _ _ hc ih =>
    obtain _ | ⟨h, _ | ⟨h', hrest⟩⟩ := h
    rw [chosen, if_neg (hI.holds h ▸ hc)]
    exact ih hrest

theorem Op.scalar_same {C : Reading} (hC : C.Respects S) (db : Database) (kind : ScalarKind) (type : ScalarType)
    {ms ms' : List Meaning} {env env' : Row} {group group' : List Row} (hk : kind ≠ .element) (ha : kind.kind.admits ms.length)
    (h : List.Forall₂ (fun m m' => S (m.value env group) (m'.value env' group')) ms ms') :
    S (((Op.scalar kind type).meaningUnder C I db ms).value env group)
      (((Op.scalar kind type).meaningUnder C I db ms').value env' group') := by
  have of_eq {v w : Value} (heq : v = w) : S v w := heq ▸ hI.refl v
  have one : kind.kind.arity? = some 1 → ∃ a a', ms = [a] ∧ ms' = [a'] ∧ S (a.value env group) (a'.value env' group') := by
    intro hn
    obtain ⟨a, rfl⟩ := List.length_eq_one_iff.mp (Tree.length_eq_of_admits hn ha)
    obtain _ | ⟨h, ⟨⟩⟩ := h
    exact ⟨_, _, rfl, rfl, h⟩
  have two : kind.kind.arity? = some 2 → ∃ a b a' b', ms = [a, b] ∧ ms' = [a', b'] ∧
      S (a.value env group) (a'.value env' group') ∧ S (b.value env group) (b'.value env' group') := by
    intro hn
    obtain ⟨a, b, rfl⟩ := List.length_eq_two.mp (Tree.length_eq_of_admits hn ha)
    obtain _ | ⟨h, _ | ⟨h', ⟨⟩⟩⟩ := h
    exact ⟨_, _, _, _, rfl, rfl, h, h'⟩
  have hvalues : List.Forall₂ S (ms.map fun m => m.value env group) (ms'.map fun m => m.value env' group') :=
    Run.forall₂_map h fun _ _ _ h => h
  cases kind with
  | eq | ne | lt | gt | le | ge | like => exact hC _ type hvalues
  | plus =>
    obtain ⟨a, b, a', b', rfl, rfl, hx, hy⟩ := two rfl
    refine of_eq ?_
    show Value.plus _ _ = Value.plus _ _
    simp only [Value.plus, hI.isNull hx, hI.isNull hy, hI.integer? hx, hI.integer? hy]
  | and | or =>
    obtain ⟨a, b, a', b', rfl, rfl, hx, hy⟩ := two rfl
    refine of_eq ?_
    show Value.connected _ _ _ = Value.connected _ _ _
    simp only [Value.connected, hI.isNull hx, hI.isNull hy, hI.holds hx, hI.holds hy]
  | not =>
    obtain ⟨a, a', rfl, rfl, hx⟩ := one rfl
    show S (Value.negated _) (Value.negated _)
    simp only [Value.negated, hI.isNull hx, hI.holds hx]
    split
    · exact hx
    · exact hI.refl _
  | isNull =>
    obtain ⟨a, a', rfl, rfl, hx⟩ := one rfl
    exact of_eq (congrArg Value.boolean (hI.isNull hx))
  | caseWhen => exact Meaning.chosen_same hI h
  | element => exact absurd rfl hk
  | minus | multiply | divide | modulo | unaryMinus | cast | softCast => exact hI.scalar _ type hvalues

end Values

/-! ### Nodes -/

namespace Op

/-- Whether the second child is evaluated for each row of the first. -/
def goesByRow : Op → Bool
  | filter | project _ | crossApply | outerApply | groupBy _ _ => true
  | _ => false

/-- Whether the third child is evaluated for each pair of rows of the others. -/
def goesByPair : Op → Bool
  | innerJoin | leftOuterJoin => true
  | _ => false

/-- The same operator under other names, or a constant that counts as the same. -/
inductive Parallels (g : Likeness) : Op → Op → Prop
  | mirrors {op op' : Op} : op.Mirrors g.name op' → Parallels g op op'
  | constant {v w : Value} : g.Same v w → Parallels g (.constant v) (.constant w)
  | internalConstant {v w : Value} : g.Same v w → Parallels g (.internalConstant v) (.internalConstant w)

theorem Mirrors.refl (op : Op) : op.Mirrors (·) op := by
  have himage : ∀ s : VarSet, IsImage (·) s s := fun s w => by simp
  have hkeys : ∀ keys : List SortKey, keys.map (SortKey.under (·)) = keys := fun keys => List.map_id keys
  cases op with
  | scanTable t =>
    refine .scanTable rfl (List.map_id _).symm fun _ => ⟨himage _, ?_⟩
    cases t.keys with
    | none => exact .none
    | some s => exact .some (himage s)
  | project => exact .project (himage _)
  | distinct => exact .distinct (himage _)
  | groupBy => exact .groupBy (himage _) (himage _)
  | combine => exact .combine (himage _) (fun _ _ => Option.map_id'.symm) fun _ _ => Option.map_id'.symm
  | sort keys =>
    have h := Mirrors.sort (μ := (·)) keys
    rwa [hkeys] at h
  | constrainedSort keys =>
    have h := Mirrors.constrainedSort (μ := (·)) keys
    rwa [hkeys] at h
  | varDef => exact .varDef _
  | varRef => exact .varRef _ _ _
  | _ => exact .plain rfl

theorem isRelational_of_sees {op : Op} {i j : Nat} (h : op.sees i j = true) : op.kind.isRelational := by
  cases op <;> first | rfl | cases h

theorem own_subset_names {op : Op} {v : VarId} (h : v ∈ op.own) : v ∈ op.names := by
  cases op with
  | scanTable | varDef => exact h
  | combine => exact List.mem_append_left _ h
  | _ => cases h

theorem IsImage.union {μ : VarId → VarId} {s s' t t' : VarSet} (hs : IsImage μ s s') (ht : IsImage μ t t') :
    IsImage μ (s ∪ t) (s' ∪ t') := fun w => by
  rw [VarSet.mem_union, hs w, ht w]
  simp [or_and_right, exists_or]

end Op

namespace Tree

variable (I : Interpretation) (M : Tree → Meaning) (g : Likeness)

/-- Two nodes that are evaluated side by side evaluate their children at an index side by side. -/
inductive Abreast : Op → List Tree → List Tree → Nat → Spot → Spot → Spot → Spot → Prop
  | input {op : Op} {cs cs' : List Tree} {i : Nat} {s s' : Spot} : op.kind.isRelational = true → (∀ j, op.sees i j = false) →
      Abreast op cs cs' i s s' ⟨s.row, []⟩ ⟨s'.row, []⟩
  | row {op : Op} {x x' : Tree} {cs cs' : List Tree} {s s' : Spot} {r r' : Row} : op.goesByRow = true →
      r ∈ (M x).rows s.row → r.Resembles g r' → Abreast op (x :: cs) (x' :: cs') 1 s s' ⟨s.row.merge r, []⟩ ⟨s'.row.merge r', []⟩
  | pair {op : Op} {x x' y y' : Tree} {cs cs' : List Tree} {s s' : Spot} {l l' r r' : Row} : op.goesByPair = true →
      l ∈ (M x).rows s.row → l.Resembles g l' → r ∈ (M y).rows s.row → r.Resembles g r' →
        Abreast op (x :: y :: cs) (x' :: y' :: cs') 2 s s' ⟨s.row.merge (l.merge r), []⟩ ⟨s'.row.merge (l'.merge r'), []⟩
  | rows {keys outputs : VarSet} {x x' k k' : Tree} {cs cs' : List Tree} {s s' : Spot} {rows rows' : List Row} :
      rows ∈ Row.groups I.mark keys
        (((M x).rows s.row).map fun r => r.merge ((M k).bindings (s.row.merge r) [])) →
      List.Forall₂ (Row.Resembles g) rows rows' →
        Abreast (.groupBy keys outputs) (x :: k :: cs) (x' :: k' :: cs') 2 s s'
          ⟨(s.row.without (M x).columns).merge (rows.headD .empty), rows.map (s.row.without (M x).columns).merge⟩
          ⟨(s'.row.without (M x').columns).merge (rows'.headD .empty),
            rows'.map (s'.row.without (M x').columns).merge⟩
  | count {keys : List SortKey} {x x' : Tree} {cs cs' : List Tree} {i : Nat} {s s' : Spot} :
      Abreast (.constrainedSort keys) (x :: cs) (x' :: cs') (i + 1) s s'
        ⟨s.row.without (M x).columns, []⟩ ⟨s'.row.without (M x').columns, []⟩
  | operand {op : Op} {cs cs' : List Tree} {i : Nat} {s s' : Spot} : op.kind.isRelational = false → op.kind ≠ .aggregate →
      Abreast op cs cs' i s s' s s'
  | aggregated {name : String} {type : ScalarType} {cs cs' : List Tree} {i : Nat} {s s' : Spot} {r r' : Row} :
      (r, r') ∈ s.group.zip s'.group → Abreast (.aggregate name type) cs cs' i s s' ⟨r, []⟩ ⟨r', []⟩

variable {C : Reading} {I} {db : Database} {M g} {id id' : NodeId} {op op' : Op} {cs cs' : List Tree} {s s' : Spot}

theorem columns_node [Evaluation C I db M] (hs : Shape op cs) (ho : op.Parallels g op') (hrel : op.kind.isRelational)
    (hcols : List.Forall₂ (fun c c' => c.IsRelational → IsImage g.name (M c).columns (M c').columns) cs cs') :
    IsImage g.name (M (node id op cs)).columns (M (node id' op' cs')).columns := by
  rw [Evaluation.node (M := M), Evaluation.node (M := M)]
  obtain ho | _ | _ := ho
  case constant | internalConstant => cases hrel
  cases hs with
  | scanTable =>
    cases hcols
    cases ho with
    | scanTable _ hcolumns => exact fun w => by simp [Op.meaningUnder, Op.meaning, Meaning.relation, hcolumns]
    | plain h => cases h
  | singleRowTable =>
    cases hcols
    cases ho
    exact fun w => by simp [Op.meaningUnder, Op.meaning, Meaning.relation]
  | sort _ hx =>
    obtain _ | ⟨himage, ⟨⟩⟩ := hcols
    cases ho with
    | sort => exact himage hx
    | plain h => cases h
  | distinct =>
    obtain _ | ⟨-, ⟨⟩⟩ := hcols
    cases ho with
    | distinct h => exact h
    | plain h => cases h
  | filter hx =>
    obtain _ | ⟨himage, _ | ⟨-, ⟨⟩⟩⟩ := hcols
    cases ho
    exact himage hx
  | project =>
    obtain _ | ⟨-, _ | ⟨-, ⟨⟩⟩⟩ := hcols
    cases ho with
    | project h => exact h
    | plain h => cases h
  | combine =>
    obtain _ | ⟨-, _ | ⟨-, ⟨⟩⟩⟩ := hcols
    cases ho with
    | combine h => exact h
    | plain h => cases h
  | crossJoin hx hy | crossApply hx hy | outerApply hx hy =>
    obtain _ | ⟨himage, _ | ⟨himage', ⟨⟩⟩⟩ := hcols
    cases ho
    exact (himage hx).union (himage' hy)
  | innerJoin hx hy | leftOuterJoin hx hy =>
    obtain _ | ⟨himage, _ | ⟨himage', _ | ⟨-, ⟨⟩⟩⟩⟩ := hcols
    cases ho
    exact (himage hx).union (himage' hy)
  | groupBy =>
    obtain _ | ⟨-, _ | ⟨-, _ | ⟨-, ⟨⟩⟩⟩⟩ := hcols
    cases ho with
    | groupBy _ h => exact h
    | plain h => cases h
  | constrainedSort _ hx =>
    obtain _ | ⟨himage, _ | ⟨-, _ | ⟨-, ⟨⟩⟩⟩⟩ := hcols
    cases ho with
    | constrainedSort => exact himage hx
    | plain h => cases h
  | varDefList | varDef | element => cases hrel
  | scalar hscalar => exact absurd hrel (not_isRelational_of_isScalar hscalar)

theorem forall₂_matched {l l' : Row} {rights rights' : List Row} (hr : List.Forall₂ (Row.Resembles g) rights rights') (hl : l.Resembles g l')
    {f f' : Row → Bool} (hf : ∀ r ∈ rights, ∀ r', r.Resembles g r' → f (l.merge r) = f' (l'.merge r')) :
    List.Forall₂ (Row.Resembles g) ((rights.map l.merge).filter f) ((rights'.map l'.merge).filter f') := by
  rw [List.filter_map, List.filter_map]
  exact Run.forall₂_map (Run.forall₂_filter hr hf) fun _ _ _ hrr => hl.merge hrr

/-- What a node gives resembles what the other gives if this is so of their children wherever they evaluate them. -/
theorem resembles_node [Evaluation C I db M] (hI : I.Respects g.Same) (hC : C.Respects g.Same) (hμ : Distinguishes g.Named g.name)
    (hs : Shape op cs) (ho : op.Parallels g op') (hnames : ∀ v ∈ op.names, g.Named v)
    (hcols : List.Forall₂ (fun c c' => c.IsRelational → IsImage g.name (M c).columns (M c').columns ∧
      ∀ v ∈ (M c).columns, g.Named v) cs cs')
    (harrange : op.kind = .constrainedSort → I.Arranges g)
    (hfirst : op.kind = .element → List.Forall₂ (fun c c' => c.IsRelational → (M c').columns.first? =
      (M c).columns.first?.map g.name) cs cs')
    (href : ∀ v type, op = .varRef v type → g.Same (s.row.read v) (s'.row.read (g.name v)))
    (hlength : s.group.length = s'.group.length)
    (h : ∀ (i : Nat) c c', cs[i]? = some c → cs'[i]? = some c' → ∀ q q', Abreast I M g op cs cs' i s s' q q' →
      (M c).Resembles g (M c') q q') :
    (M (node id op cs)).Resembles g (M (node id' op' cs')) s s' := by
  have hnull := hI.refl .null
  -- An input that sees nothing of the others is asked for the rows for the outer row.
  have input : ∀ (i : Nat) c c', cs[i]? = some c → cs'[i]? = some c' → op.kind.isRelational → (∀ j, op.sees i j = false) →
      List.Forall₂ (Row.Resembles g) ((M c).rows s.row) ((M c').rows s'.row) :=
    fun i c c' hc hc' hop hno => (h i c c' hc hc' _ _ (.input hop hno)).rows
  -- Operands are asked at one spot.
  have operands : ∀ q q', (∀ i, Abreast I M g op cs cs' i s s' q q') →
      List.Forall₂ (fun c c' => (M c).Resembles g (M c') q q') cs cs' := by
    intro q q' hq
    refine List.forall₂_iff_get.mpr ⟨hcols.length_eq, fun i hi hi' => ?_⟩
    exact h i _ _ (List.getElem?_eq_getElem hi) (List.getElem?_eq_getElem hi') _ _ (hq i)
  rw [Evaluation.node (M := M), Evaluation.node (M := M)]
  obtain ho | hv | hv := ho
  case constant | internalConstant =>
    exact .expression hv
  cases hs with
  | scanTable table =>
    cases hcols
    cases ho with
    | plain h => cases h
    | scanTable hname hcolumns =>
    refine .relation hnull ?_
    rw [hname]
    exact Run.forall₂_map (List.forall₂_same.mpr fun _ _ => rfl) fun values _ _ heq => heq ▸ .row hI.refl hμ hcolumns hnames values
  | singleRowTable =>
    cases hcols
    cases ho
    exact .relation hnull (.cons .empty .nil)
  | @filter x q =>
    obtain _ | @⟨_, x', _, _, hx, _ | @⟨_, q', _, _, -, ⟨⟩⟩⟩ := hcols
    cases ho
    refine .relation hnull (Run.forall₂_filter (input 0 x x' rfl rfl rfl (by simp)) fun r hr r' hrr => ?_)
    exact hI.holds (h 1 q q' rfl rfl _ _ (.row rfl hr hrr)).value
  | @project outputs x d =>
    obtain _ | @⟨_, x', _, _, hx, _ | @⟨_, d', _, _, -, ⟨⟩⟩⟩ := hcols
    cases ho with
    | plain h => cases h
    | project himage =>
    refine .relation hnull (Run.forall₂_map (input 0 x x' rfl rfl rfl (by simp)) fun r hr r' hrr => ?_)
    have hbound := (h 1 d d' rfl rfl _ _ (.row rfl hr hrr)).bindings hμ
    exact (hrr.merge hbound).only hμ himage fun v hv => hnames v (by simpa using hv)
  | @crossJoin x y =>
    obtain _ | @⟨_, x', _, _, hx, _ | @⟨_, y', _, _, hy, ⟨⟩⟩⟩ := hcols
    cases ho
    refine .relation hnull (Run.forall₂_flatMap (input 0 x x' rfl rfl rfl (by simp)) fun l _ l' hll => ?_)
    exact Run.forall₂_map (input 1 y y' rfl rfl rfl (by simp)) fun r _ r' hrr => hll.merge hrr
  | @innerJoin x y q =>
    obtain _ | @⟨_, x', _, _, hx, _ | @⟨_, y', _, _, hy, _ | @⟨_, q', _, _, -, ⟨⟩⟩⟩⟩ := hcols
    cases ho
    refine .relation hnull (Run.forall₂_flatMap (input 0 x x' rfl rfl rfl (by simp)) fun l hl l' hll => ?_)
    exact forall₂_matched (input 1 y y' rfl rfl rfl (by simp)) hll fun r hr r' hrr =>
      hI.holds (h 2 q q' rfl rfl _ _ (.pair rfl hl hll hr hrr)).value
  | @leftOuterJoin x y q _ hyrel =>
    obtain _ | @⟨_, x', _, _, hx, _ | @⟨_, y', _, _, hy, _ | @⟨_, q', _, _, -, ⟨⟩⟩⟩⟩ := hcols
    cases ho
    refine .relation hnull (Run.forall₂_flatMap (input 0 x x' rfl rfl rfl (by simp)) fun l hl l' hll => ?_)
    refine Row.forall₂_orNulls (hll.merge (.nulls hμ (hy hyrel).1 (hy hyrel).2 hnull)) ?_
    exact forall₂_matched (input 1 y y' rfl rfl rfl (by simp)) hll fun r hr r' hrr =>
      hI.holds (h 2 q q' rfl rfl _ _ (.pair rfl hl hll hr hrr)).value
  | @crossApply x y =>
    obtain _ | @⟨_, x', _, _, hx, _ | @⟨_, y', _, _, hy, ⟨⟩⟩⟩ := hcols
    cases ho
    refine .relation hnull (Run.forall₂_flatMap (input 0 x x' rfl rfl rfl (by simp)) fun l hl l' hll => ?_)
    exact Run.forall₂_map (h 1 y y' rfl rfl _ _ (.row rfl hl hll)).rows fun r _ r' hrr => hll.merge hrr
  | @outerApply x y _ hyrel =>
    obtain _ | @⟨_, x', _, _, hx, _ | @⟨_, y', _, _, hy, ⟨⟩⟩⟩ := hcols
    cases ho
    refine .relation hnull (Run.forall₂_flatMap (input 0 x x' rfl rfl rfl (by simp)) fun l hl l' hll => ?_)
    refine Row.forall₂_orNulls (hll.merge (.nulls hμ (hy hyrel).1 (hy hyrel).2 hnull)) ?_
    exact Run.forall₂_map (h 1 y y' rfl rfl _ _ (.row rfl hl hll)).rows fun r _ r' hrr => hll.merge hrr
  | @combine kind outputs lm rm x y =>
    obtain _ | @⟨_, x', _, _, -, _ | @⟨_, y', _, _, -, ⟨⟩⟩⟩ := hcols
    have hop : (Op.combine kind outputs lm rm).kind.isRelational := by cases kind <;> rfl
    cases ho with
    | plain h => cases h
    | combine himage hlm hrm =>
    have houts : ∀ v ∈ outputs, g.Named v := fun v hv => hnames v (List.mem_append_left _ (VarSet.mem_toList.mpr hv))
    have hentry : ∀ {m : VarMap} {v w : VarId}, m.get? v = some w → w ∈ m.entries.map (·.2) := fun {m v w} hw =>
      List.mem_map.mpr ⟨(v, w), VarMap.mem_entries_of_get? hw, rfl⟩
    refine .relation hnull (Row.forall₂_combined hI himage houts ?_ ?_)
    · refine Run.forall₂_map (input 0 x x' rfl rfl hop (by simp)) fun r _ r' hrr => ?_
      refine hrr.renamed hμ himage houts hnull hlm fun v w hw => hnames w ?_
      exact List.mem_append_right _ (List.mem_append_left _ (hentry hw))
    · refine Run.forall₂_map (input 1 y y' rfl rfl hop (by simp)) fun r _ r' hrr => ?_
      refine hrr.renamed hμ himage houts hnull hrm fun v w hw => hnames w ?_
      exact List.mem_append_right _ (List.mem_append_right _ (hentry hw))
  | @distinct keys x =>
    obtain _ | @⟨_, x', _, _, -, ⟨⟩⟩ := hcols
    cases ho with
    | plain h => cases h
    | distinct himage =>
    refine .relation hnull (Row.forall₂_firsts (fun r r' t t' hr ht => ?_) (input 0 x x' rfl rfl rfl (by simp)))
    exact hr.marks_eq_iff hI himage (fun v hv => hnames v (by simpa using hv)) ht
  | @groupBy keys outputs x k a hxrel =>
    obtain _ | @⟨_, x', _, _, hx, _ | @⟨_, k', _, _, -, _ | @⟨_, a', _, _, -, ⟨⟩⟩⟩⟩ := hcols
    cases ho with
    | plain h => cases h
    | groupBy hkeys himage =>
    have hkeyed := Run.forall₂_map (S := Row.Resembles g) (input 0 x x' rfl rfl rfl (by simp)) fun r hr r' hrr =>
      hrr.merge ((h 1 k k' rfl rfl _ _ (.row rfl hr hrr)).bindings hμ)
    refine .relation hnull (Run.forall₂_map (Row.forall₂_groups hI hkeys (fun v hv => hnames v (by simp [hv])) hkeyed)
      fun rows hrows rows' hg => ?_)
    have hhead : Row.Resembles g (rows.headD .empty) (rows'.headD .empty) := by
      cases hg with
      | nil => exact .empty
      | cons h _ => exact h
    have hbound := (h 2 a a' rfl rfl _ _ (.rows hrows hg)).bindings hμ
    exact (hhead.merge hbound).shown hμ himage (fun v hv => hnames v (by simp [hv])) hnull
  | @sort keys x =>
    obtain _ | @⟨_, x', _, _, hx, ⟨⟩⟩ := hcols
    cases ho with
    | plain h => cases h
    | sort => exact .relation hnull (input 0 x x' rfl rfl rfl (by simp))
  | @constrainedSort keys x skip limit =>
    obtain _ | @⟨_, x', _, _, hx, _ | @⟨_, skip', _, _, -, _ | @⟨_, limit', _, _, -, ⟨⟩⟩⟩⟩ := hcols
    cases ho with
    | plain h => cases h
    | constrainedSort =>
    refine .relation hnull ?_
    have hskip := congrArg (Option.map Int.toNat) (hI.integer? (h 1 skip skip' rfl rfl _ _ .count).value)
    have hlimit := congrArg (Option.map Int.toNat) (hI.integer? (h 2 limit limit' rfl rfl _ _ .count).value)
    have hrows (n : Nat) := List.forall₂_drop n
      (harrange rfl (fun k hk => hnames _ (List.mem_map_of_mem hk)) (input 0 x x' rfl rfl rfl (by simp)))
    dsimp only [Value.count?] at hskip hlimit ⊢
    rw [hskip, hlimit]
    split
    · exact List.forall₂_take _ (hrows _)
    · exact hrows _
  | varDefList =>
    cases ho
    refine ⟨.nil, hnull, ?_⟩
    have hdefs := operands s s' fun i => .operand rfl nofun
    exact Run.forall₂_flatMap (Run.forall₂_map (S := fun m m' => Meaning.Resembles g m m' s s') hdefs fun _ _ _ h => h)
      fun _ _ _ h => h.defs
  | @varDef v e =>
    obtain _ | @⟨_, e', _, _, -, ⟨⟩⟩ := hcols
    cases ho with
    | plain h => cases h
    | varDef =>
    exact ⟨.nil, hnull, .cons ⟨hnames v (by simp), rfl, (h 0 e e' rfl rfl _ _ (.operand rfl nofun)).value⟩ .nil⟩
  | @element type x =>
    obtain _ | @⟨_, x', _, _, hx, ⟨⟩⟩ := hcols
    cases ho
    have hrows := (h 0 x x' rfl rfl _ _ (.operand rfl nofun)).rows
    obtain _ | ⟨hfirst, -⟩ := hfirst rfl
    refine .expression ?_
    simp only [List.map_cons, List.map_nil, Op.scalarValue, hfirst ‹_›]
    generalize (M x).rows s.row = rs, (M x').rows s'.row = rs' at hrows
    cases hrows with
    | nil => exact hnull
    | cons hr _ =>
      cases hv : (M x).columns.first? with
      | none => exact hnull
      | some v => exact hr.echoes hnull v ((hx ‹_›).2 v (VarSet.first?_eq_some hv))
  | scalar hscalar hne hadmits =>
    cases ho with
    | varRef v type => exact .expression (href v type rfl)
    | combine => cases ‹SetKind› <;> cases hscalar
    | plain hplain =>
      cases op with
      | scalar kind type =>
        have hargs := operands s s' fun i => .operand (by cases kind <;> rfl) (by cases kind <;> nofun)
        obtain ⟨value, hvalue⟩ := Op.meaningUnder_scalar C I db kind type (cs.map M)
        obtain ⟨value', hvalue'⟩ := Op.meaningUnder_scalar C I db kind type (cs'.map M)
        have hsame := Op.scalar_same hI hC db kind type (fun heq => hne (heq ▸ rfl)) (by rwa [List.length_map])
          (Run.forall₂_map hargs fun _ _ _ h => h.value)
        rw [hvalue, hvalue'] at hsame ⊢
        exact .expression hsame
      | aggregate name type =>
        refine .expression (hI.aggregate name type (Run.forall₂_map (R := fun r r' => (r, r') ∈ s.group.zip s'.group)
          (List.forall₂_iff_zip.mpr ⟨hlength, fun h => h⟩) fun r _ r' hr => ?_))
        rw [List.map_map, List.map_map]
        exact Run.forall₂_map (operands ⟨r, []⟩ ⟨r', []⟩ fun i => .aggregated hr) fun _ _ _ h => h.value
      | constant | null | internalConstant | nullSentinel | constantPredicate => exact .expression (hI.refl _)
      | combine | varRef => cases hplain
      | _ => cases hscalar
    | _ => cases hscalar

/-! ### Trees -/

/-- Trees whose operators are parallel at the same places. -/
inductive Parallels (g : Likeness) : Tree → Tree → Prop
  | node {id id' : NodeId} {op op' : Op} {cs cs' : List Tree} : op.Parallels g op' → List.Forall₂ (Parallels g) cs cs' →
      Parallels g (.node id op cs) (.node id' op' cs')

variable {t t' : Tree}

theorem Mirrors.parallels (h : t.Mirrors g.name t') : t.Parallels g t' := by
  induction t using induct generalizing t' with
  | node id op cs ih =>
    cases h with
    | node ho hcs => exact .node (.mirrors ho) (Run.forall₂_imp_mem hcs fun c hc c' _ h => ih c hc h)

theorem Parallels.refl (S : Value → Value → Prop) (t : Tree) : t.Parallels (.under S) t := by
  induction t using induct with
  | node id op cs ih => exact .node (.mirrors (.refl op)) (List.forall₂_same.mpr ih)

def Singular (t : Tree) : Prop :=
  ∀ s ∈ t.subtrees, s.kind = .element → ∀ c ∈ s.children, ∃ v, ∀ w, Defines (·) c w ↔ w = v

theorem singular_node : Singular (node id op cs) ↔
    (op.kind = .element → ∀ c ∈ cs, ∃ v, ∀ w, Defines (·) c w ↔ w = v) ∧ ∀ c ∈ cs, Singular c :=
  forall_subtrees_node

theorem first?_eq_of_iff {s : VarSet} {v : VarId} (h : ∀ w, w ∈ s ↔ w = v) : s.first? = some v := by
  cases hf : s.first? with
  | none => exact absurd ((h v).mpr rfl) (VarSet.first?_eq_none.mp hf v)
  | some w => rw [(h w).mp (VarSet.first?_eq_some hf)]

/-- The variables that a tree reads: those that it uses or, if nothing is known of scopes, all. -/
def Reads (loose : Prop) (t : Tree) (v : VarId) : Prop := Uses (·) t v ∨ loose

theorem Reads.uses {v : VarId} (h : Reads False t v) : Uses (·) t v := h.resolve_right False.elim

/-- Where rows read alike what a node reads, they read alike what its children read where it evaluates them. -/
theorem Abreast.echoes [Evaluation C I db M] {loose : Prop} {i : Nat} {c : Tree} {q q' : Spot} (h : Abreast I M g op cs cs' i s s' q q')
    (hnull : g.Same .null .null) (hμ : Distinguishes g.Named g.name) (ht : (node id op cs).wellFormed)
    (hb : Backed (·) (node id op cs) ∨ loose) (hc : cs[i]? = some c) (hnamed : ∀ v, Reads loose c v → g.Named v)
    (hcols : List.Forall₂ (fun c c' => c.IsRelational → IsImage g.name (M c).columns (M c').columns ∧
      ∀ v ∈ (M c).columns, g.Named v) cs cs')
    (hs : Spot.Echoes g (Reads loose (node id op cs)) s s') : Spot.Echoes g (Reads loose c) q q' := by
  obtain ⟨hf, hwf⟩ := wellFormed_node.mp ht
  have pass : ∀ v, Reads loose c v → (∀ j d, cs[j]? = some d → op.sees i j = true → ¬Defines (·) d v ∨ loose) →
      Reads loose (node id op cs) v := by
    rintro v (hv | hl) hno
    · by_cases hl : loose
      · exact .inr hl
      · exact .inl (.passed hc hv fun j d hd hsees => (hno j d hd hsees).resolve_right hl)
    · exact .inr hl
  have bound : ∀ {d o r v}, d ∈ cs → r ∈ (M d).rows o → r v = none → ¬Defines (·) d v ∨ loose := by
    intro d o r v hd hr hn
    refine hb.imp_left fun hb hv => ?_
    exact row_ne_none (hwf d hd) ((backed_node.mp hb).2 d hd) hr hv hn
  -- What is evaluated beside the rows of an input does not see its columns.
  have outer : ∀ {x x' rest rest'}, cs = x :: rest → cs' = x' :: rest' → x.IsRelational → (∀ j, op.sees i j = true → j = 0) →
      Row.Echoes g (Reads loose c) (s.row.without (M x).columns) (s'.row.without (M x').columns) := by
    rintro x x' rest rest' rfl rfl hx hno
    obtain _ | ⟨himage, -⟩ := hcols
    refine hs.row.without hμ (himage hx).1 (himage hx).2 hnull hnamed fun v hv hn => pass v hv fun j d hd hsees => ?_
    obtain rfl := hno j hsees
    cases hd
    exact .inl (mt (mem_columns (hwf x (by simp)) hx).mpr hn)
  cases h with
  | input _ hno =>
    refine ⟨hs.row.mono fun v hv => pass v hv fun j d _ hsees => ?_, .nil⟩
    rw [hno j] at hsees
    cases hsees
  | row hby hr hrr =>
    refine ⟨hs.row.merge hrr hnamed fun v hv hn => pass v hv fun j d hd hsees => ?_, .nil⟩
    obtain rfl : j = 0 := by
      have := sees_lt hsees
      omega
    cases hd
    exact bound (by simp) hr hn
  | pair hby hl hll hr hrr =>
    refine ⟨hs.row.merge (hll.merge hrr) hnamed fun v hv hn => pass v hv fun j d hd hsees => ?_, .nil⟩
    obtain ⟨hnr, hnl⟩ := Option.or_eq_none_iff.mp hn
    match j, hd, sees_lt hsees with
    | 0, rfl, _ => exact bound (by simp) hl hnl
    | 1, rfl, _ => exact bound (by simp) hr hnr
  | rows hmem hg =>
    cases shape_of_fits hf with
    | scalar hscalar => cases hscalar
    | groupBy _ _ hx =>
      have houter := outer rfl rfl hx fun j hsees => by simpa using hsees
      refine ⟨houter.merge ?_ hnamed fun v hv _ => hv, Run.forall₂_map hg fun r _ r' hrr => houter.merge hrr hnamed fun v hv _ => hv⟩
      cases hg with
      | nil => exact .empty
      | cons h _ => exact h
  | count =>
    cases shape_of_fits hf with
    | scalar hscalar => cases hscalar
    | constrainedSort _ hx => exact ⟨outer rfl rfl hx fun j hsees => by simpa using hsees, .nil⟩
  | operand hop =>
    have below : ∀ v, Reads loose c v → Reads loose (node id op cs) v := fun v hv =>
      pass v hv fun j d _ hsees => absurd (Op.isRelational_of_sees hsees) (by simp [hop])
    exact ⟨hs.row.mono below, hs.group.imp fun _ _ h => h.mono below⟩
  | aggregated hr =>
    refine ⟨((List.forall₂_iff_zip.mp hs.group).2 hr).mono fun v hv => pass v hv fun j d _ hsees => ?_, .nil⟩
    cases hsees

theorem resembles_of_parallels [Evaluation C I db M] (hI : I.Respects g.Same) (hC : C.Respects g.Same)
    (hμ : Distinguishes g.Named g.name) {loose : Prop} (hloose : loose → ∀ v, g.Named v) (h : t.Parallels g t') (ht : t.wellFormed) (hb : Backed (·) t ∨ loose)
    (hnames : ∀ s ∈ t.subtrees, ∀ v ∈ s.op.names, g.Named v)
    (harrange : ∀ s ∈ t.subtrees, s.kind = .constrainedSort → I.Arranges g) (hfirst : t.Singular ∨ ∀ v, g.name v = v) :
    (t.IsRelational → IsImage g.name (M t).columns (M t').columns) ∧
    ∀ s s', Spot.Echoes g (Reads loose t) s s' → (M t).Resembles g (M t') s s' := by
  induction t using induct generalizing t' with
  | node id op cs ih =>
    cases h with
    | @node _ id' _ op' _ cs' ho hcs =>
    obtain ⟨hf, hwf⟩ := wellFormed_node.mp ht
    have hbacked : ∀ c ∈ cs, Backed (·) c ∨ loose := fun c hc => hb.imp_left fun hb => (backed_node.mp hb).2 c hc
    have hnamed : ∀ c ∈ cs, ∀ s ∈ c.subtrees, ∀ v ∈ s.op.names, g.Named v := fun c hc s hs => hnames s (mem_subtrees_of_mem hc hs)
    have hcs := Run.forall₂_imp_mem hcs fun c hc c' _ h => ih c hc h (hwf c hc) (hbacked c hc) (hnamed c hc)
      (fun s hs => harrange s (mem_subtrees_of_mem hc hs)) (hfirst.imp_left fun h => (singular_node.mp h).2 c hc)
    have hcols : List.Forall₂ (fun c c' => c.IsRelational → IsImage g.name (M c).columns (M c').columns ∧
        ∀ v ∈ (M c).columns, g.Named v) cs cs' := by
      refine Run.forall₂_imp_mem hcs fun c hc c' _ h hrel => ⟨h.1 hrel, fun v hv => ?_⟩
      rcases hbacked c hc with hb | hl
      · obtain ⟨s, hs, hv⟩ := List.mem_flatMap.mp (columns_mem_binds (hwf c hc) hrel hb v hv)
        exact hnamed c hc s hs v (own_subset_names hv)
      · exact hloose hl v
    refine ⟨fun hrel => columns_node (shape_of_fits hf) ho hrel (hcols.imp fun _ _ h hc => (h hc).1), fun s s' hs => ?_⟩
    refine resembles_node hI hC hμ (shape_of_fits hf) ho (hnames (.node id op cs) (by simp)) hcols (harrange (.node id op cs) (by simp))
      ?_ ?_ hs.group.length_eq fun i c c' hc hc' q q' hq => ?_
    · intro hk
      refine Run.forall₂_imp_mem hcs fun c hc c' _ h hrel => ?_
      have himage := h.1 hrel
      rcases hfirst with hsingle | hname
      · obtain ⟨v, hv⟩ := (singular_node.mp hsingle).1 hk c hc
        have hcolumns : ∀ w, w ∈ (M c).columns ↔ w = v := fun w => (mem_columns (hwf c hc) hrel).trans (hv w)
        rw [first?_eq_of_iff hcolumns, first?_eq_of_iff (v := g.name v)]
        · rfl
        · exact fun w => by simp [himage w, hcolumns, eq_comm]
      · have hsame : (M c').columns = (M c).columns := VarSet.ext_iff.mpr fun w => by simp [himage w, hname]
        rw [hsame]
        cases (M c).columns.first? with
        | none => rfl
        | some v => rw [Option.map_some, hname]
    · rintro v type rfl
      exact hs.row v (.inl .reference)
    · have hmem := List.mem_of_getElem? hc
      obtain ⟨d, hd, hcd⟩ := Run.getElem?_of_forall₂ hcs hc
      cases hd.symm.trans hc'
      refine hcd.2 q q' (hq.echoes (hI.refl _) hμ ht hb hc ?_ hcols hs)
      rintro v (hv | hl)
      · obtain ⟨s, hs, hv⟩ := hv.mem_names
        exact hnamed c hmem s hs v hv
      · exact hloose hl v

end Tree

end Planwright
