import Planwright.Proofs.Semantics.Mirror

/-! The analysis of mirrors. What the analysis says about a tree it says about the tree under other names: the sets of
    variables are those of the tree under their new names, and the bounds on rows are the same. -/

namespace Planwright

open Op

/-! ### Sets under other names -/

/-- The second set has the members of the first under their new names, and all of these are among the variables `N`. -/
structure VarSet.Mirrors (N : VarId → Prop) (μ : VarId → VarId) (s s' : VarSet) : Prop where
  image : IsImage μ s s'
  named : ∀ v ∈ s, N v

namespace VarSet.Mirrors

variable {N : VarId → Prop} {μ : VarId → VarId} {s a t b : VarSet} {v : VarId}

theorem empty : Mirrors N μ .empty .empty := ⟨fun w => by simp, fun v hv => absurd hv (not_mem_empty v)⟩

theorem insert (h : Mirrors N μ s a) (hv : N v) : Mirrors N μ (s.insert v) (a.insert (μ v)) where
  image w := by
    rw [mem_insert, h.image w]
    constructor
    · rintro (⟨u, hu, rfl⟩ | rfl)
      · exact ⟨u, mem_insert.mpr (.inl hu), rfl⟩
      · exact ⟨v, mem_insert.mpr (.inr rfl), rfl⟩
    · rintro ⟨u, hu, rfl⟩
      rcases mem_insert.mp hu with hu | rfl
      · exact .inl ⟨u, hu, rfl⟩
      · exact .inr rfl
  named u hu := by
    rcases mem_insert.mp hu with hu | rfl
    · exact h.named u hu
    · exact hv

theorem union (h : Mirrors N μ s a) (ht : Mirrors N μ t b) : Mirrors N μ (s ∪ t) (a ∪ b) where
  image := h.image.union ht.image
  named v hv := (mem_union.mp hv).elim (h.named v) (ht.named v)

theorem ofList {vs : List VarId} (h : ∀ v ∈ vs, N v) : Mirrors N μ (.ofList vs) (.ofList (vs.map μ)) where
  image w := by simp
  named v hv := h v (mem_ofList.mp hv)

section Distinct
variable (hμ : Distinguishes N μ) (h : Mirrors N μ s a)
include hμ h

theorem mem_iff (hv : N v) : μ v ∈ a ↔ v ∈ s := hμ.mem_image h.image h.named hv

theorem has_eq (hv : N v) : a.has (μ v) = s.has v := Bool.eq_iff_iff.mpr (h.mem_iff hμ hv)

theorem inter (ht : Mirrors N μ t b) : Mirrors N μ (s ∩ t) (a ∩ b) where
  image w := by
    rw [mem_inter, h.image w]
    constructor
    · rintro ⟨⟨v, hv, rfl⟩, hw⟩
      exact ⟨v, mem_inter.mpr ⟨hv, (ht.mem_iff hμ (h.named v hv)).mp hw⟩, rfl⟩
    · rintro ⟨v, hv, rfl⟩
      obtain ⟨hv, hvt⟩ := mem_inter.mp hv
      exact ⟨⟨v, hv, rfl⟩, (ht.mem_iff hμ (h.named v hv)).mpr hvt⟩
  named v hv := h.named v (mem_inter.mp hv).1

theorem diff (ht : Mirrors N μ t b) : Mirrors N μ (s \ t) (a \ b) where
  image w := by
    rw [mem_diff, h.image w]
    constructor
    · rintro ⟨⟨v, hv, rfl⟩, hw⟩
      exact ⟨v, mem_diff.mpr ⟨hv, fun hvt => hw ((ht.mem_iff hμ (h.named v hv)).mpr hvt)⟩, rfl⟩
    · rintro ⟨v, hv, rfl⟩
      obtain ⟨hv, hvt⟩ := mem_diff.mp hv
      exact ⟨⟨v, hv, rfl⟩, fun hw => hvt ((ht.mem_iff hμ (h.named v hv)).mp hw)⟩
  named v hv := h.named v (mem_diff.mp hv).1

theorem isSubset_eq (ht : Mirrors N μ t b) : a.isSubset b = s.isSubset t := by
  rw [Bool.eq_iff_iff, isSubset_iff, isSubset_iff]
  constructor
  · intro hsub v hv
    exact (ht.mem_iff hμ (h.named v hv)).mp (hsub (μ v) ((h.image (μ v)).mpr ⟨v, hv, rfl⟩))
  · intro hsub w hw
    obtain ⟨v, hv, rfl⟩ := (h.image w).mp hw
    exact (ht.mem_iff hμ (h.named v hv)).mpr (hsub v hv)

end Distinct

theorem isEmpty_eq (h : Mirrors N μ s a) : a.isEmpty = s.isEmpty := by
  rw [Bool.eq_iff_iff, isEmpty_iff, isEmpty_iff]
  constructor
  · intro hno v hv
    exact hno (μ v) ((h.image (μ v)).mpr ⟨v, hv, rfl⟩)
  · intro hno w hw
    obtain ⟨v, hv, -⟩ := (h.image w).mp hw
    exact hno v hv

end VarSet.Mirrors

theorem rel_mono {R S : VarSet → VarSet → Prop} {a b : Option VarSet} (h : Option.Rel R a b) (hS : ∀ s s', s ∈ a → R s s' → S s s') :
    Option.Rel S a b := by
  cases h with
  | none => exact .none
  | some h => exact .some (hS _ _ rfl h)

/-! ### Analyses under other names -/

/-- The second analysis says under the new names what the first says. -/
structure Info.Mirrors (N : VarId → Prop) (μ : VarId → VarId) (i i' : Info) : Prop where
  external : VarSet.Mirrors N μ i.external i'.external
  definitions : VarSet.Mirrors N μ i.definitions i'.definitions
  nonNullable : VarSet.Mirrors N μ i.nonNullable i'.nonNullable
  keys : Option.Rel (VarSet.Mirrors N μ) i.keys i'.keys
  minRows : i'.minRows = i.minRows
  maxRows : i'.maxRows = i.maxRows

section Analyze
variable {outputs s s' : VarSet} {b b' : RowCount} {lm rm : VarMap} {ds : List (Child × Child)}
variable {N : VarId → Prop} {μ : VarId → VarId} {i i' x x' e e' l l' r r' : Info}

theorem Info.Mirrors.blank (h h' : UInt64) : Mirrors N μ (.blank h) (.blank h') := ⟨.empty, .empty, .empty, .none, rfl, rfl⟩

theorem Info.Mirrors.refers (h : Mirrors N μ i i') (hs : VarSet.Mirrors N μ s s') :
    Mirrors N μ { i with external := s } { i' with external := s' } :=
  ⟨hs, h.definitions, h.nonNullable, h.keys, h.minRows, h.maxRows⟩

theorem Info.Mirrors.atMost (h : Mirrors N μ i i') (hb : b' = b) :
    Mirrors N μ { i with maxRows := b } { i' with maxRows := b' } :=
  ⟨h.external, h.definitions, h.nonNullable, h.keys, h.minRows, hb⟩

theorem Info.Mirrors.inherit (h : Mirrors N μ i i') (hx : Mirrors N μ x x') : Mirrors N μ (i.inherit x) (i'.inherit x') :=
  ⟨h.external, h.definitions.union hx.definitions, h.nonNullable.union hx.nonNullable, hx.keys, h.minRows, h.maxRows⟩

theorem Info.Mirrors.refer (hμ : Distinguishes N μ) (h : Mirrors N μ i i') (hx : Mirrors N μ x x') (he : Mirrors N μ e e') :
    Mirrors N μ (i.refer x e) (i'.refer x' e') :=
  ⟨(h.external.union hx.external).union (he.external.diff hμ hx.definitions), h.definitions, h.nonNullable, h.keys, h.minRows,
    h.maxRows⟩

theorem Info.Mirrors.paired (j j' : UInt64) (hl : Mirrors N μ l l') (hr : Mirrors N μ r r') {t t' : VarSet} {a a' : RowCount}
    (hs : VarSet.Mirrors N μ s s') (ht : VarSet.Mirrors N μ t t') (ha : a' = a) (hb : b' = b) :
    Mirrors N μ { Op.analyze.pairUp (.blank j) l r with external := s, nonNullable := t, minRows := a, maxRows := b }
      { Op.analyze.pairUp (.blank j') l' r' with external := s', nonNullable := t', minRows := a', maxRows := b' } where
  external := hs
  definitions := hl.definitions.union hr.definitions
  nonNullable := ht
  keys := by
    have hlk := hl.keys
    have hrk := hr.keys
    unfold Op.analyze.pairUp
    revert hlk hrk
    generalize l.keys = a
    generalize l'.keys = a'
    generalize r.keys = b
    generalize r'.keys = b'
    intro hlk hrk
    cases hlk with
    | none => exact .none
    | some hlk =>
      cases hrk with
      | none => exact .none
      | some hrk => exact .some (hlk.union hrk)
  minRows := ha
  maxRows := hb

theorem outerRows_eq (hl : l.Mirrors N μ l') (hr : r.Mirrors N μ r') : Op.analyze.outerRows l' r' = Op.analyze.outerRows l r := by
  rw [Op.analyze.outerRows, Op.analyze.outerRows, hl.maxRows, hr.maxRows]

theorem filter_isSubset {keys keys' : Option VarSet} (hμ : Distinguishes N μ) (h : Option.Rel (VarSet.Mirrors N μ) keys keys')
    (hs : VarSet.Mirrors N μ s s') :
    Option.Rel (VarSet.Mirrors N μ) (keys.filter (·.isSubset s)) (keys'.filter (·.isSubset s')) := by
  cases h with
  | none => exact .none
  | some hk =>
    rw [Option.filter_some, Option.filter_some, hk.isSubset_eq hμ hs]
    split
    · exact .some hk
    · exact .none

namespace Op.Mirrors

variable {op op' : Op}

theorem isFalse_eq (h : op.Mirrors μ op') : op'.isFalse = op.isFalse := by
  cases h <;> rfl

theorem limit?_eq (h : op.Mirrors μ op') : op'.limit? = op.limit? := by
  cases h <;> rfl

theorem isNeverNull_eq (h : op.Mirrors μ op') (hμ : Distinguishes N μ) {known known' : VarSet} (hk : VarSet.Mirrors N μ known known')
    (hN : ∀ v ∈ op.names, N v) : op'.isNeverNull known' = op.isNeverNull known := by
  cases h with
  | varRef v => exact hk.has_eq hμ (hN v (by simp))
  | plain h =>
    cases op with
    | varRef => cases h
    | _ => rfl
  | _ => rfl

end Op.Mirrors

/-- An operator under other names, all of whose variables are named. -/
def Op.MirrorsIn (N : VarId → Prop) (μ : VarId → VarId) (op op' : Op) : Prop := op.Mirrors μ op' ∧ ∀ v ∈ op.names, N v

/-- A child as the analysis sees it, under other names. -/
structure Child.Mirrors (N : VarId → Prop) (μ : VarId → VarId) (d d' : Child) : Prop where
  info : d.info.Mirrors N μ d'.info
  op : d.op.Mirrors μ d'.op
  inner : List.Forall₂ (fun e e' => Op.MirrorsIn N μ e.1 e'.1 ∧ Option.Rel (Op.MirrorsIn N μ) e.2 e'.2) d.inner d'.inner

theorem neverNullDefs_mirrors (hμ : Distinguishes N μ) {known known' acc acc' : VarSet} {ds ds' : List (Op × Option Op)}
    (hds : List.Forall₂ (fun e e' => Op.MirrorsIn N μ e.1 e'.1 ∧ Option.Rel (Op.MirrorsIn N μ) e.2 e'.2) ds ds')
    (hk : VarSet.Mirrors N μ known known') (hacc : VarSet.Mirrors N μ acc acc')
    (h : Op.neverNullDefs known acc ds = .ok s) (h' : Op.neverNullDefs known' acc' ds' = .ok s') : VarSet.Mirrors N μ s s' := by
  induction hds generalizing acc acc' with
  | nil =>
    cases h
    cases h'
    exact hacc
  | @cons d d' _ _ hd _ ih =>
    obtain ⟨o, e⟩ := d
    obtain ⟨o', e'⟩ := d'
    obtain ⟨⟨ho, hN⟩, he⟩ := hd
    cases he with
    | none => cases h
    | some he =>
      unfold Op.neverNullDefs at h h'
      rw [he.1.isNeverNull_eq hμ hk he.2] at h'
      split at h
      · rename_i hnever
        rw [if_pos hnever] at h'
        cases ho with
        | varDef v => exact ih (hacc.insert (hN v (by simp))) h h'
        | plain hno => cases o <;> first | cases h | cases hno
        | _ => cases h
      · rename_i hnever
        rw [if_neg hnever] at h'
        exact ih hacc h h'

theorem mem_neverNullOutputs {kind : SetKind} (hleft : ∀ v ∈ outputs, ∃ w, lm.get? v = some w)
    (hright : ∀ v ∈ outputs, ∃ w, rm.get? v = some w) (h : Op.neverNullOutputs kind outputs lm rm l r = .ok s) (v : VarId) :
    v ∈ s ↔ v ∈ outputs ∧ ∃ w x, lm.get? v = some w ∧ rm.get? v = some x ∧
      Op.outputNeverNull kind (l.nonNullable.has w) (r.nonNullable.has x) = true := by
  obtain ⟨_, hs, hmem⟩ := Op.neverNullOutputs_ok hleft hright
  cases h.symm.trans hs
  exact hmem v

theorem neverNullOutputs_mirrors (hμ : Distinguishes N μ) {kind : SetKind} {outputs' : VarSet} {lm' rm' : VarMap}
    (ho : VarSet.Mirrors N μ outputs outputs') (hlm : ∀ v ∈ outputs, lm'.get? (μ v) = (lm.get? v).map μ)
    (hrm : ∀ v ∈ outputs, rm'.get? (μ v) = (rm.get? v).map μ) (hleft : ∀ v ∈ outputs, ∃ w, lm.get? v = some w)
    (hright : ∀ v ∈ outputs, ∃ w, rm.get? v = some w) (hN : ∀ v ∈ lm.entries.map (·.2) ++ rm.entries.map (·.2), N v)
    (hl : l.Mirrors N μ l') (hr : r.Mirrors N μ r') (h : Op.neverNullOutputs kind outputs lm rm l r = .ok s)
    (h' : Op.neverNullOutputs kind outputs' lm' rm' l' r' = .ok s') : VarSet.Mirrors N μ s s' := by
  have hleft' : ∀ w ∈ outputs', ∃ x, lm'.get? w = some x := fun w hw => by
    obtain ⟨v, hv, rfl⟩ := (ho.image w).mp hw
    obtain ⟨x, hx⟩ := hleft v hv
    exact ⟨μ x, by rw [hlm v hv, hx, Option.map_some]⟩
  have hright' : ∀ w ∈ outputs', ∃ x, rm'.get? w = some x := fun w hw => by
    obtain ⟨v, hv, rfl⟩ := (ho.image w).mp hw
    obtain ⟨x, hx⟩ := hright v hv
    exact ⟨μ x, by rw [hrm v hv, hx, Option.map_some]⟩
  have hmem := mem_neverNullOutputs hleft hright h
  have hmem' := mem_neverNullOutputs hleft' hright' h'
  have hnever : ∀ v ∈ outputs, ∀ w x, lm.get? v = some w → rm.get? v = some x →
      Op.outputNeverNull kind (l'.nonNullable.has (μ w)) (r'.nonNullable.has (μ x)) =
        Op.outputNeverNull kind (l.nonNullable.has w) (r.nonNullable.has x) := by
    intro v _ w x hw hx
    rw [hl.nonNullable.has_eq hμ (hN w (List.mem_append_left _ (List.mem_map.mpr ⟨_, VarMap.mem_entries_of_get? hw, rfl⟩))),
      hr.nonNullable.has_eq hμ (hN x (List.mem_append_right _ (List.mem_map.mpr ⟨_, VarMap.mem_entries_of_get? hx, rfl⟩)))]
  refine ⟨fun w => ?_, fun v hv => ho.named v ((hmem v).mp hv).1⟩
  rw [hmem' w]
  constructor
  · rintro ⟨hw, a, b, ha, hb, hok⟩
    obtain ⟨v, hv, rfl⟩ := (ho.image w).mp hw
    obtain ⟨c, hc⟩ := hleft v hv
    obtain ⟨d, hd⟩ := hright v hv
    rw [hlm v hv, hc] at ha
    rw [hrm v hv, hd] at hb
    cases ha
    cases hb
    exact ⟨v, (hmem v).mpr ⟨hv, c, d, hc, hd, hnever v hv c d hc hd ▸ hok⟩, rfl⟩
  · rintro ⟨v, hv, rfl⟩
    obtain ⟨hv, c, d, hc, hd, hok⟩ := (hmem v).mp hv
    refine ⟨(ho.image _).mpr ⟨v, hv, rfl⟩, μ c, μ d, ?_, ?_, (hnever v hv c d hc hd).trans hok⟩
    · rw [hlm v hv, hc, Option.map_some]
    · rw [hrm v hv, hd, Option.map_some]

theorem gathered_mirrors (hs : VarSet.Mirrors N μ s s') (h : ∀ d ∈ ds, d.1.Mirrors N μ d.2) :
    VarSet.Mirrors N μ ((ds.map (·.1)).foldl (fun s c => s ∪ c.info.external) s)
      ((ds.map (·.2)).foldl (fun s c => s ∪ c.info.external) s') := by
  induction ds generalizing s s' with
  | nil => exact hs
  | cons d ds ih =>
    obtain ⟨hd, hds⟩ := List.forall_mem_cons.mp h
    exact ih (hs.union hd.info.external) hds

theorem listed_mirrors (hi : i.Mirrors N μ i') (h : ∀ d ∈ ds, d.1.Mirrors N μ d.2) :
    Info.Mirrors N μ ((ds.map (·.1)).foldl Info.withDefinition i) ((ds.map (·.2)).foldl Info.withDefinition i') := by
  induction ds generalizing i i' with
  | nil => exact hi
  | cons d ds ih =>
    obtain ⟨hd, hds⟩ := List.forall_mem_cons.mp h
    exact ih ⟨hi.external.union hd.info.external, hi.definitions.union hd.info.definitions, hi.nonNullable, hi.keys, hi.minRows,
      hi.maxRows⟩ hds

theorem scalar_mirrors {op op' : Op} (hs : op.kind.isScalar) (ho : op.Mirrors μ op') (hN : ∀ v ∈ op.names, N v)
    (h : ∀ d ∈ ds, d.1.Mirrors N μ d.2) (hi : op.analyze (ds.map (·.1)) = .ok i)
    (hi' : op'.analyze (ds.map (·.2)) = .ok i') : i.Mirrors N μ i' := by
  have gathers (a b : UInt64) := (Info.Mirrors.blank a b).refers (gathered_mirrors (Info.Mirrors.blank (N := N) (μ := μ) a b).external h)
  cases ho with
  | varRef v =>
    cases hi
    cases hi'
    exact (Info.Mirrors.blank _ _).refers ((Info.Mirrors.blank _ _).external.insert (hN v (by simp)))
  | plain hno =>
    cases op with
    | combine kind => cases kind <;> cases hs
    | varRef => cases hno
    | scalar kind type =>
      cases (if_pos hs).symm.trans hi
      cases (if_pos hs).symm.trans hi'
      exact gathers _ _
    | constant | null | internalConstant | nullSentinel | constantPredicate | aggregate =>
      cases hi
      cases hi'
      exact gathers _ _
    | _ => cases hs
  | @combine kind => cases kind <;> cases hs
  | _ => cases hs

theorem analyze_mirrors (hμ : Distinguishes N μ) {op op' : Op} {cs : List Tree} (hs : Tree.Shape op cs) (ho : op.Mirrors μ op')
    (hN : ∀ v ∈ op.names, N v) (htable : ∀ table, op = .scanTable table → table.OnColumns)
    (h : List.Forall₂ (fun _ d => Child.Mirrors N μ d.1 d.2) cs ds) (hi : op.analyze (ds.map (·.1)) = .ok i)
    (hi' : op'.analyze (ds.map (·.2)) = .ok i') : i.Mirrors N μ i' := by
  have hset : ∀ {s s' : VarSet}, IsImage μ s s' → (∀ v ∈ s, v ∈ op.names) → VarSet.Mirrors N μ s s' := fun himage hs =>
    ⟨himage, fun v hv => hN v (hs v hv)⟩
  have hall : ∀ d ∈ ds, d.1.Mirrors N μ d.2 := fun d hd => by
    obtain ⟨_, -, h⟩ := Run.exists_of_forall₂_right h hd
    exact h
  cases hs with
  | scanTable table =>
    cases h
    cases ho with
    | plain h => cases h
    | scanTable _ hcols hknown =>
    have hon := htable table rfl
    cases hi
    cases hi'
    refine ⟨.empty, ?_, hset (hknown hon).nonNullable hon.nonNullable, ?_, (rfl : RowCount.zero = .zero),
      (rfl : RowCount.unbounded = .unbounded)⟩
    · rw [hcols]
      exact .ofList hN
    · exact rel_mono (hknown hon).keys fun s s' hs himage => hset himage (hon.keys s hs)
  | singleRowTable =>
    cases h
    cases ho
    cases hi
    cases hi'
    exact ⟨.empty, .empty, .empty, .some .empty, rfl, rfl⟩
  | filter =>
    obtain _ | ⟨hx, _ | ⟨hp, ⟨⟩⟩⟩ := h
    cases ho
    cases hi
    cases hi'
    exact (((Info.Mirrors.blank _ _).inherit hx.info).refer hμ hx.info hp.info).atMost (by rw [hp.op.isFalse_eq])
  | project =>
    obtain _ | ⟨hx, _ | ⟨hd, ⟨⟩⟩⟩ := h
    cases ho with
    | plain h => cases h
    | project himage =>
    have houtputs := hset himage fun v hv => VarSet.mem_toList.mpr hv
    obtain ⟨known, hk, hi⟩ := Run.bind_ok.mp hi
    obtain ⟨known', hk', hi'⟩ := Run.bind_ok.mp hi'
    have hnever := neverNullDefs_mirrors hμ hd.inner hx.info.nonNullable hx.info.nonNullable hk hk'
    cases hi
    cases hi'
    exact ⟨(VarSet.Mirrors.empty.union hx.info.external).union (hd.info.external.diff hμ hx.info.definitions), houtputs,
      hnever.inter hμ houtputs, filter_isSubset hμ hx.info.keys houtputs, hx.info.minRows, hx.info.maxRows⟩
  | crossJoin =>
    obtain _ | ⟨hx, _ | ⟨hy, ⟨⟩⟩⟩ := h
    cases ho
    cases hi
    cases hi'
    exact .paired _ _ hx.info hy.info (hx.info.external.union hy.info.external) (hx.info.nonNullable.union hy.info.nonNullable)
      (by rw [hx.info.minRows, hy.info.minRows]) (by rw [hx.info.maxRows, hy.info.maxRows])
  | innerJoin =>
    obtain _ | ⟨hx, _ | ⟨hy, _ | ⟨hp, ⟨⟩⟩⟩⟩ := h
    cases ho
    cases hi
    cases hi'
    exact .paired _ _ hx.info hy.info
      ((hx.info.external.union hy.info.external).union (hp.info.external.diff hμ (hx.info.definitions.union hy.info.definitions)))
      (hx.info.nonNullable.union hy.info.nonNullable) (rfl : RowCount.zero = .zero)
      (by rw [hp.op.isFalse_eq, hx.info.maxRows, hy.info.maxRows])
  | leftOuterJoin =>
    obtain _ | ⟨hx, _ | ⟨hy, _ | ⟨hp, ⟨⟩⟩⟩⟩ := h
    cases ho
    cases hi
    cases hi'
    exact .paired _ _ hx.info hy.info
      ((hx.info.external.union hy.info.external).union (hp.info.external.diff hμ (hx.info.definitions.union hy.info.definitions)))
      hx.info.nonNullable hx.info.minRows (outerRows_eq hx.info hy.info)
  | crossApply =>
    obtain _ | ⟨hx, _ | ⟨hy, ⟨⟩⟩⟩ := h
    cases ho
    cases hi
    cases hi'
    exact .paired _ _ hx.info hy.info (hx.info.external.union (hy.info.external.diff hμ hx.info.definitions))
      (hx.info.nonNullable.union hy.info.nonNullable) (by rw [hx.info.minRows, hy.info.minRows])
      (by rw [hx.info.maxRows, hy.info.maxRows])
  | outerApply =>
    obtain _ | ⟨hx, _ | ⟨hy, ⟨⟩⟩⟩ := h
    cases ho
    cases hi
    cases hi'
    exact .paired _ _ hx.info hy.info (hx.info.external.union (hy.info.external.diff hμ hx.info.definitions)) hx.info.nonNullable
      hx.info.minRows (outerRows_eq hx.info hy.info)
  | combine kind _ _ hlm hrm =>
    obtain _ | ⟨hx, _ | ⟨hy, ⟨⟩⟩⟩ := h
    cases ho with
    | plain h => cases h
    | combine himage hl hr =>
    have houtputs := hset himage fun v hv => List.mem_append_left _ (VarSet.mem_toList.mpr hv)
    have hext := hx.info.external.union hy.info.external
    obtain ⟨known, hk, hi⟩ := Run.bind_ok.mp hi
    obtain ⟨known', hk', hi'⟩ := Run.bind_ok.mp hi'
    have hknown := neverNullOutputs_mirrors hμ houtputs hl hr hlm hrm (fun v hv => hN v (List.mem_append_right _ hv)) hx.info hy.info hk hk'
    cases kind with
    | unionAll =>
      cases hi
      cases hi'
      exact ⟨hext, houtputs, hknown, .none, by rw [hx.info.minRows, hy.info.minRows], by rw [hx.info.maxRows, hy.info.maxRows]⟩
    | intersect =>
      cases hi
      cases hi'
      exact ⟨hext, houtputs, hknown, .some houtputs, (rfl : RowCount.zero = .zero), by rw [hx.info.maxRows, hy.info.maxRows]⟩
    | except =>
      cases hi
      cases hi'
      exact ⟨hext, houtputs, hknown, .some houtputs, (rfl : RowCount.zero = .zero), hx.info.maxRows⟩
  | distinct =>
    obtain _ | ⟨hx, ⟨⟩⟩ := h
    cases ho with
    | plain h => cases h
    | distinct himage =>
    have hkeys := hset himage fun v hv => VarSet.mem_toList.mpr hv
    cases hi
    cases hi'
    exact ⟨hx.info.external, hkeys, hx.info.nonNullable.inter hμ hkeys, .some hkeys, hx.info.minRows, hx.info.maxRows⟩
  | groupBy =>
    obtain _ | ⟨hx, _ | ⟨hd, _ | ⟨ha, ⟨⟩⟩⟩⟩ := h
    cases ho with
    | plain h => cases h
    | groupBy hkimage himage =>
    have hkeys := hset hkimage fun v hv => List.mem_append_left _ (VarSet.mem_toList.mpr hv)
    have houtputs := hset himage fun v hv => List.mem_append_right _ (VarSet.mem_toList.mpr hv)
    have hseen := (VarSet.Mirrors.empty.union hx.info.external).union (hd.info.external.diff hμ hx.info.definitions)
    obtain ⟨known, hk, hi⟩ := Run.bind_ok.mp hi
    obtain ⟨known', hk', hi'⟩ := Run.bind_ok.mp hi'
    have hnever := neverNullDefs_mirrors hμ hd.inner hx.info.nonNullable (hkeys.inter hμ hx.info.nonNullable) hk hk'
    cases hi
    cases hi'
    exact ⟨(hseen.union hx.info.external).union (ha.info.external.diff hμ hx.info.definitions), houtputs, hnever.inter hμ houtputs,
      .some hkeys, by rw [hkeys.isEmpty_eq, hx.info.minRows], by rw [hkeys.isEmpty_eq, hx.info.maxRows]⟩
  | sort =>
    obtain _ | ⟨hx, ⟨⟩⟩ := h
    cases ho with
    | plain h => cases h
    | sort =>
    cases hi
    cases hi'
    exact ⟨hx.info.external, VarSet.Mirrors.empty.union hx.info.definitions, VarSet.Mirrors.empty.union hx.info.nonNullable, hx.info.keys,
      hx.info.minRows, hx.info.maxRows⟩
  | constrainedSort =>
    obtain _ | ⟨hx, _ | ⟨hskip, _ | ⟨hlimit, ⟨⟩⟩⟩⟩ := h
    cases ho with
    | plain h => cases h
    | constrainedSort =>
    cases hi
    cases hi'
    exact ((((Info.Mirrors.blank _ _).inherit hx.info).refer hμ hx.info hskip.info).refer hμ hx.info hlimit.info).atMost
      (by rw [hlimit.op.limit?_eq, hx.info.maxRows])
  | varDefList =>
    cases ho
    cases hi
    cases hi'
    exact listed_mirrors (.blank _ _) hall
  | varDef v =>
    obtain _ | ⟨hx, ⟨⟩⟩ := h
    cases ho with
    | plain h => cases h
    | varDef =>
    cases hi
    cases hi'
    exact ⟨hx.info.external, VarSet.Mirrors.empty.insert (hN v (by simp)), .empty, .none, (rfl : RowCount.zero = .zero),
      (rfl : RowCount.unbounded = .unbounded)⟩
  | element => exact scalar_mirrors rfl ho hN hall hi hi'
  | scalar hs => exact scalar_mirrors hs ho hN hall hi hi'

end Analyze

namespace Tree

variable {N : VarId → Prop} {μ : VarId → VarId}

theorem Mirrors.op {t t' : Tree} (h : t.Mirrors μ t') : t.op.Mirrors μ t'.op := by
  cases h with
  | node ho _ => exact ho

theorem Mirrors.asChild {t t' : Tree} (h : t.Mirrors μ t') (hN : ∀ s ∈ t.subtrees, ∀ v ∈ s.op.names, N v) {i i' : Info}
    (hi : i.Mirrors N μ i') : (t.asChild i).Mirrors N μ (t'.asChild i') where
  info := hi
  op := h.op
  inner := by
    have hin : ∀ {c c' : Tree}, c ∈ t.subtrees → c.Mirrors μ c' → Op.MirrorsIn N μ c.op c'.op := fun hc h => ⟨h.op, hN _ hc⟩
    have hself : ∀ c : Tree, c ∈ c.subtrees := fun c => by
      cases c
      simp
    cases h with
    | node _ hcs =>
      refine Run.forall₂_map hcs fun c hc c' h => ⟨hin (mem_subtrees_of_mem hc (hself c)) h, ?_⟩
      cases h with
      | node _ hes =>
        cases hes with
        | nil => exact .none
        | cons he _ => exact .some (hin (mem_subtrees_of_mem hc (mem_subtrees_of_mem List.mem_cons_self (hself _))) he)

theorem exists_pairs {R : Child → Child → Prop} {cs cs' : List Tree} {is is' : List Info} (his : Analyzed cs is) (his' : Analyzed cs' is')
    (h : List.Forall₂ (fun c c' => ∀ i i', c.analysis = .ok i → c'.analysis = .ok i' → R (c.asChild i) (c'.asChild i')) cs cs') :
    ∃ ds : List (Child × Child), List.Forall₂ (fun _ d => R d.1 d.2) cs ds ∧ List.zipWith asChild cs is = ds.map (·.1) ∧
      List.zipWith asChild cs' is' = ds.map (·.2) := by
  induction h generalizing is is' with
  | nil => exact ⟨[], .nil, by simp, by simp⟩
  | @cons c c' _ _ hc _ ih =>
    obtain _ | @⟨_, i, _, _, hi, his⟩ := his
    obtain _ | @⟨_, i', _, _, hi', his'⟩ := his'
    obtain ⟨ds, hds, hleft, hright⟩ := ih his his'
    exact ⟨(c.asChild i, c'.asChild i') :: ds, .cons (hc i i' hi hi') hds, by simp [hleft], by simp [hright]⟩

theorem analysis_mirrors (hμ : Distinguishes N μ) {t t' : Tree} (h : t.Mirrors μ t') (ht : t.wellFormed)
    (htables : ∀ s ∈ t.subtrees, ∀ table, s.op = .scanTable table → table.OnColumns) (hN : ∀ s ∈ t.subtrees, ∀ v ∈ s.op.names, N v)
    {i i' : Info} (hi : t.analysis = .ok i) (hi' : t'.analysis = .ok i') : i.Mirrors N μ i' := by
  induction t using induct generalizing t' i i' with
  | node id op cs ih =>
    cases h with
    | @node _ id' _ op' _ cs' ho hcs =>
    obtain ⟨hf, hwf⟩ := wellFormed_node.mp ht
    obtain ⟨is, his, hi⟩ := analysis_eq_ok.mp hi
    obtain ⟨is', his', hi'⟩ := analysis_eq_ok.mp hi'
    have hall : List.Forall₂ (fun c c' => ∀ i i', c.analysis = .ok i → c'.analysis = .ok i' → (c.asChild i).Mirrors N μ (c'.asChild i'))
        cs cs' := Run.forall₂_imp_mem hcs fun c hc c' _ h i i' hi hi' => by
      have hN : ∀ s ∈ c.subtrees, ∀ v ∈ s.op.names, N v := fun s hs => hN s (mem_subtrees_of_mem hc hs)
      exact h.asChild hN (ih c hc h (hwf c hc) (fun s hs => htables s (mem_subtrees_of_mem hc hs)) hN hi hi')
    obtain ⟨ds, hds, hleft, hright⟩ := exists_pairs his his' hall
    rw [hleft] at hi
    rw [hright] at hi'
    exact analyze_mirrors hμ (shape_of_fits hf) ho (hN (node id op cs) (by simp)) (htables (node id op cs) (by simp)) hds hi hi'

end Tree

end Planwright
