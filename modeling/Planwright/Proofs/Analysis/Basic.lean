import Planwright.Proofs.Tree.Shape

/-! The analysis of well-formed trees: it never stops with a fault, and what it says about the definitions of a
    projection or a grouping and about the outputs of a set operator in terms of membership. -/

namespace Planwright

namespace Op

/-! ### Definitions that are never null -/

/-- The entries of a definition list: each defines a variable by an expression. -/
def Defines (inner : List (Op × Option Op)) : Prop := ∀ d ∈ inner, ∃ v e, d = (varDef v, some e)

theorem neverNullDefs_ok {known : VarSet} {inner : List (Op × Option Op)} (h : Defines inner) (acc : VarSet) :
    ∃ s, neverNullDefs known acc inner = .ok s ∧
      ∀ v, v ∈ s ↔ v ∈ acc ∨ ∃ e, (varDef v, some e) ∈ inner ∧ e.isNeverNull known = true := by
  induction inner generalizing acc with
  | nil => exact ⟨acc, rfl, fun v => by simp⟩
  | cons d rest ih =>
    obtain ⟨w, e, rfl⟩ := h d List.mem_cons_self
    have hrest : Defines rest := fun d' hd' => h d' (List.mem_cons_of_mem _ hd')
    have hcons : ∀ v, (∃ e', (varDef v, some e') ∈ (varDef w, some e) :: rest ∧ e'.isNeverNull known = true) ↔
        v = w ∧ e.isNeverNull known = true ∨ ∃ e', (varDef v, some e') ∈ rest ∧ e'.isNeverNull known = true := by
      simp [or_and_right, exists_or, and_assoc]
    by_cases he : e.isNeverNull known = true
    · obtain ⟨s, hs, hmem⟩ := ih hrest (acc.insert w)
      refine ⟨s, by simp [neverNullDefs, he, hs], fun v => ?_⟩
      rw [hmem v, VarSet.mem_insert, hcons, and_iff_left he, or_assoc]
    · obtain ⟨s, hs, hmem⟩ := ih hrest acc
      refine ⟨s, by simp [neverNullDefs, he, hs], fun v => ?_⟩
      rw [hmem v, hcons, or_iff_right (a := v = w ∧ _) fun h => he h.2]

/-! ### Outputs of a set operator -/

/-- Whether an output is never null, from whether its branch variables are. -/
def outputNeverNull (kind : SetKind) (inLeft inRight : Bool) : Bool :=
  match kind with
  | .unionAll => inLeft && inRight
  | .intersect => inLeft || inRight
  | .except => inLeft

theorem filterAuxM_ok {f : VarId → Except Fault Bool} {g : VarId → Bool} :
    ∀ {vs : List VarId} (acc : List VarId), (∀ v ∈ vs, f v = .ok (g v)) →
      List.filterAuxM f vs acc = .ok ((vs.filter g).reverse ++ acc)
  | [], _, _ => rfl
  | v :: vs, acc, h => by
    have hvs := fun acc => filterAuxM_ok acc fun w hw => h w (List.mem_cons_of_mem _ hw)
    rw [List.filterAuxM, h v List.mem_cons_self, List.filter_cons]
    cases g v <;> simp [bind, Except.bind, hvs]

theorem filterM_ok {f : VarId → Except Fault Bool} {g : VarId → Bool} {vs : List VarId}
    (h : ∀ v ∈ vs, f v = .ok (g v)) : vs.filterM f = .ok (vs.filter g) := by
  simp [List.filterM, filterAuxM_ok [] h, bind, Except.bind, pure, Except.pure]

theorem neverNullOutputs_ok {kind : SetKind} {outputs : VarSet} {left right : VarMap} {l r : Info}
    (hl : ∀ v ∈ outputs, ∃ w, left.get? v = some w) (hr : ∀ v ∈ outputs, ∃ w, right.get? v = some w) :
    ∃ s, neverNullOutputs kind outputs left right l r = .ok s ∧
      ∀ v, v ∈ s ↔ v ∈ outputs ∧ ∃ w x, left.get? v = some w ∧ right.get? v = some x ∧
        outputNeverNull kind (l.nonNullable.has w) (r.nonNullable.has x) = true := by
  let g : VarId → Bool := fun v =>
    outputNeverNull kind (l.nonNullable.has ((left.get? v).getD 0)) (r.nonNullable.has ((right.get? v).getD 0))
  refine ⟨VarSet.ofList (outputs.toList.filter g), ?_, fun v => ?_⟩
  · unfold neverNullOutputs
    rw [filterM_ok (g := g)]
    · rfl
    · intro v hv
      obtain ⟨w, hw⟩ := hl v (VarSet.mem_toList.mp hv)
      obtain ⟨x, hx⟩ := hr v (VarSet.mem_toList.mp hv)
      simp only [branch, hw, hx, g, Option.getD_some]
      cases kind <;> rfl
  · simp only [VarSet.mem_ofList, List.mem_filter, VarSet.mem_toList]
    refine and_congr_right fun hv => ?_
    obtain ⟨w, hw⟩ := hl v hv
    obtain ⟨x, hx⟩ := hr v hv
    simp [g, hw, hx]

end Op

namespace Tree

variable {t : Tree} {cs : List Tree}

theorem inner_of_varDefList (ht : t.wellFormed) (hk : t.kind = .varDefList) (i : Info) :
    (t.asChild i).inner = t.definitions.map fun x => (.varDef x.1, some x.2.op) := by
  refine Run.map_eq_map_of_forall₂ ((definitions_spec ht hk).2.imp ?_)
  rintro c x ⟨id, rfl, -⟩
  rfl

theorem defines_of_varDefList (ht : t.wellFormed) (hk : t.kind = .varDefList) (i : Info) :
    Op.Defines (t.asChild i).inner := by
  intro d hd
  rw [inner_of_varDefList ht hk, List.mem_map] at hd
  obtain ⟨x, -, rfl⟩ := hd
  exact ⟨x.1, x.2.op, rfl⟩

/-! ### The analysis gives an answer -/

theorem exists_analyzed (h : ∀ c ∈ cs, ∃ i, c.analysis = .ok i) : ∃ is, Analyzed cs is := by
  induction cs with
  | nil => exact ⟨[], .nil⟩
  | cons c cs ih =>
    obtain ⟨i, hi⟩ := h c List.mem_cons_self
    obtain ⟨is, his⟩ := ih fun d hd => h d (List.mem_cons_of_mem _ hd)
    exact ⟨i :: is, .cons hi his⟩

theorem analyze_ok {op : Op} (hs : Shape op cs) (hcs : ∀ c ∈ cs, c.wellFormed)
    {is : List Info} (his : Analyzed cs is) : ∃ i, op.analyze (List.zipWith asChild cs is) = .ok i := by
  cases hs with
  | scanTable t => exact ⟨_, rfl⟩
  | singleRowTable => exact ⟨_, rfl⟩
  | filter | crossJoin | crossApply | outerApply =>
    obtain _ | ⟨ha, _ | ⟨hb, _ | _⟩⟩ := his
    exact ⟨_, rfl⟩
  | project outputs hi hd =>
    obtain _ | ⟨ha, _ | ⟨hb, _ | _⟩⟩ := his
    obtain ⟨known, hk, -⟩ := Op.neverNullDefs_ok (defines_of_varDefList (hcs _ (by simp)) hd _) _
    exact ⟨_, Run.bind_ok.mpr ⟨known, hk, rfl⟩⟩
  | innerJoin | leftOuterJoin | constrainedSort =>
    obtain _ | ⟨ha, _ | ⟨hb, _ | ⟨hc, _ | _⟩⟩⟩ := his
    exact ⟨_, rfl⟩
  | combine kind hl hr hlm hrm =>
    obtain _ | ⟨ha, _ | ⟨hb, _ | _⟩⟩ := his
    obtain ⟨known, hk, -⟩ := Op.neverNullOutputs_ok hlm hrm
    exact ⟨_, Run.bind_ok.mpr ⟨known, hk, rfl⟩⟩
  | distinct | sort | varDef | element =>
    obtain _ | ⟨ha, _ | _⟩ := his
    exact ⟨_, rfl⟩
  | groupBy keys outputs hi hk ha =>
    obtain _ | ⟨hi', _ | ⟨hk', _ | ⟨ha', _ | _⟩⟩⟩ := his
    obtain ⟨known, hn, -⟩ := Op.neverNullDefs_ok (defines_of_varDefList (hcs _ (by simp)) hk _) _
    exact ⟨_, Run.bind_ok.mpr ⟨known, hn, rfl⟩⟩
  | varDefList => exact ⟨_, rfl⟩
  | scalar hk =>
    cases op with
    | scalar kind type => exact ⟨_, if_pos hk⟩
    | varRef | constant | null | internalConstant | nullSentinel | constantPredicate | aggregate => exact ⟨_, rfl⟩
    | combine kind => cases kind <;> cases hk
    | _ => cases hk

theorem exists_analysis (ht : t.wellFormed) : ∃ i, t.analysis = .ok i := by
  induction t using induct with
  | node id op cs ih =>
    obtain ⟨hf, hcs⟩ := wellFormed_node.mp ht
    obtain ⟨is, his⟩ := exists_analyzed fun c hc => ih c hc (hcs c hc)
    obtain ⟨i, hi⟩ := analyze_ok (shape_of_fits hf) hcs his
    exact ⟨i, analysis_eq_ok.mpr ⟨is, his, hi⟩⟩

end Tree

end Planwright
