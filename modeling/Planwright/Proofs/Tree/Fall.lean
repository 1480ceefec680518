import Planwright.Proofs.Plan.Defs
import Planwright.Proofs.Tree.Descent

/-! How trees fall. Each change that a rule makes is one of a few: a cheaper operator takes the place of another, a
    projection moves out of an apply, definitions are put together or dropped, and parts of predicates move down. -/

namespace Planwright

namespace Outline

instance : WellFoundedLT (ℕ ×ₗ Load ×ₗ ℕ ×ₗ ℕ) := inferInstance

theorem Eases.of_relational {a b : Outline} (ha : a.kind.isRelational) (hb : b.kind.isRelational)
    (hrow : b.isRow = a.isRow) (hreach : b.reach ≤ a.reach) (hhoist : b.hoist ≤ a.hoist) : Eases a b := by
  cases a
  cases b
  exact .relation ha hb hrow hreach hhoist

theorem isRow_reach {a : Outline} (h : a.isRow) : 0 < a.reach := by
  fun_induction isRow a with
  | case1 => simp [(plain_of_kind (by decide) : Plain OpKind.singleRowTable _).reach, OpKind.isRelational]
  | case2 x p ih => simpa using ih h
  | case3 x ds ih => simpa using Nat.lt_of_lt_of_le (ih h) (Nat.le_add_right _ _)
  | case4 => cases h

def defs (es : List Outline) : Outline := node .varDefList (es.map fun e => node .varDef [e])

section Defs
variable {es fs : List Outline} {e : Outline}

@[simp] theorem weight_defs : (defs es).weight = (es.map weight).sum := by
  simp [defs, opWeight, OpKind.isRelational, Function.comp_def]

@[simp] theorem load_defs : (defs es).load = (es.map load).sum := by
  simp [defs, Function.comp_def]

@[simp] theorem lift_defs : (defs es).lift = (es.map lift).sum := by
  have hlist : ∀ cs, Plain .varDefList cs := fun cs => plain_of_kind (by decide)
  have hdef : ∀ cs, Plain .varDef cs := fun cs => plain_of_kind (by decide)
  simp [defs, (hlist _).lift, (hdef _).lift, Function.comp_def]

@[simp] theorem extent_defs : (defs es).extent = (es.map fun e => e.extent + 1).sum + 1 := by
  simp [defs, Function.comp_def]

theorem isSlim_defs : (defs es).isSlim ↔ ∀ e ∈ es, e.bulk ≤ 1 := by
  have hdef : ∀ e : Outline, (node .varDef [e]).bulk = 1 + e.bulk := fun e => by
    rw [bulk_of_not_relational rfl]
    simp
  simp only [defs, isSlim, List.all_map, List.all_eq_true, Function.comp_apply, hdef, decide_eq_true_eq]
  exact forall₂_congr fun e _ => by omega

theorem isLone_defs : (defs es).isLone ↔ es = [] ∨ ∃ e, es = [e] ∧ e.isLone := by
  rcases es with _ | ⟨e, _ | ⟨e', es⟩⟩ <;> simp [defs, isLone]

theorem projectCost_le (a : Outline) : a.projectCost ≤ 3 := by
  rw [projectCost]
  split <;> decide

theorem le_projectCost (a : Outline) : 2 ≤ a.projectCost := by
  rw [projectCost]
  split <;> decide

theorem isLone_scalar {k : OpKind} {cs : List Outline} (hk : k.isScalar) :
    (node k cs).isLone ↔ k = .internalConstant ∨ k = .nullSentinel := by
  revert hk
  cases k <;> simp [isLone, OpKind.isScalar]

end Defs

section Project
variable {x y d : Outline} {es fs : List Outline}

theorem falls_crossOverProject : Falls (node .crossApply [x, node .project [y, d]]) (node .project [node .crossApply [x, y], d]) := by
  have hcost := le_projectCost d
  refine falls_of_lift ?_ (.relation rfl rfl rfl ?_ ?_) ?_ ?_
  · simp [opWeight]
    omega
  · simp
    omega
  · simp
    omega
  · simp [add_assoc]
  · simp
    omega

theorem falls_outerOverProject (hw : (fs.map weight).sum ≤ (es.map weight).sum) (hload : (fs.map load).sum ≤ (es.map load).sum)
    (hlift : (fs.map lift).sum ≤ (es.map lift).sum) : Falls (node .outerApply [x, node .project [y, defs es]])
      (node .project [node .outerApply [x, y], defs fs]) := by
  have hcost := le_projectCost (defs es)
  have hcost' := projectCost_le (defs fs)
  refine falls_of_lift ?_ (.relation rfl rfl rfl ?_ ?_) ?_ ?_
  · simp [opWeight]
    omega
  · simp
    omega
  · simp
    omega
  · simpa [add_assoc] using hload
  · simp
    omega

/-- The same with a marker that is left below, unless the definitions were one alone. -/
theorem falls_outerOverProject_marked {k : Outline} (hk : k.isLone) (hkw : k.weight = 0) (hkl : k.load = 0) (hkt : k.lift = 0)
    (hes : (defs es).isLone = false) (hw : (fs.map weight).sum ≤ (es.map weight).sum)
    (hload : (fs.map load).sum ≤ (es.map load).sum) (hlift : (fs.map lift).sum ≤ (es.map lift).sum) :
    Falls (node .outerApply [x, node .project [y, defs es]])
      (node .project [node .outerApply [x, node .project [y, defs [k]]], defs fs]) := by
  have hcost : (defs es).projectCost = 3 := by rw [projectCost, hes]; rfl
  have hcostk : (defs [k]).projectCost = 2 := by rw [projectCost, isLone_defs.mpr (.inr ⟨k, rfl, hk⟩)]; rfl
  have hcost' := projectCost_le (defs fs)
  refine falls_of_lift ?_ (.relation rfl rfl rfl ?_ ?_) ?_ ?_
  · simp [opWeight, hkw]
    omega
  · simp only [reach_project, reach_outerApply, hoist_project, isRow_outerApply, Bool.false_and, Bool.false_eq_true, if_false, hcost,
      hcostk]
    omega
  · simp only [hoist_project, hoist_outerApply, hcost, hcostk]
    omega
  · simpa [add_assoc, hkl] using hload
  · simp [hcost, hcostk, hkt]
    omega

theorem falls_projectOverProject {es₁ es₂ : List Outline} (h₁ : ∀ e ∈ es₁, e.Scalar) (h₂ : ∀ e ∈ es₂, e.Scalar) (hfs : ∀ e ∈ fs, e.Scalar)
    (hslim : (∀ e ∈ es₁, e.bulk ≤ 1) → (∀ e ∈ es₂, e.bulk ≤ 1) → ∀ e ∈ fs, e.bulk ≤ 1) :
    Falls (node .project [node .project [x, defs es₂], defs es₁]) (node .project [x, defs fs]) := by
  have hzero : ∀ {es : List Outline}, (∀ e ∈ es, e.Scalar) → (es.map weight).sum = 0 ∧ (es.map load).sum = 0 ∧ (es.map lift).sum = 0 :=
    fun h => ⟨sum_map_eq_zero fun e he => (h e he).weight, sum_map_eq_zero fun e he => (h e he).load,
      sum_map_eq_zero fun e he => (h e he).lift⟩
  obtain ⟨hw₁, hl₁, ht₁⟩ := hzero h₁
  obtain ⟨hw₂, hl₂, ht₂⟩ := hzero h₂
  obtain ⟨hw, hl, ht⟩ := hzero hfs
  have hcost := projectCost_le (defs fs)
  have hcost₁ := le_projectCost (defs es₁)
  have hcost₂ := le_projectCost (defs es₂)
  refine falls_of_lift ?_ (.relation rfl rfl rfl ?_ ?_) ?_ ?_
  · simp [opWeight, hw, hw₁, hw₂]
  · have hall : (x.isRow && (defs es₂).isSlim) → ((node .project [x, defs es₂]).isRow && (defs es₁).isSlim) →
        (x.isRow && (defs fs).isSlim) = true := by
      simp only [isRow_project, Bool.and_eq_true, isSlim_defs]
      exact fun h₂ h₁ => ⟨h₂.1, hslim h₁.2 h₂.2⟩
    rw [reach_project, reach_project, reach_project]
    split
    · omega
    · rename_i hno
      split <;> split <;> first | omega | exact absurd (hall ‹_› ‹_›) hno
  · simp
    omega
  · simp [hl, hl₁, hl₂]
  · simp [ht, ht₁, ht₂]
    omega

theorem falls_project_input (hx : x.kind.isRelational) : Falls (node .project [x, d]) x := by
  have hcost := le_projectCost d
  refine falls_of_lift ?_ (.of_relational rfl hx rfl ?_ ?_) ?_ ?_
  · simp [opWeight]
  · simp
  · simp
  · simp
  · simp
    omega

theorem falls_project_sublist (hs : fs.Sublist es) (hlt : fs.length < es.length) :
    Falls (node .project [x, defs es]) (node .project [x, defs fs]) := by
  have hslim : (defs es).isSlim → (defs fs).isSlim := by
    simp only [isSlim_defs]
    exact fun h e he => h e (hs.subset he)
  have hlone : (defs es).isLone → (defs fs).isLone := by
    simp only [isLone_defs]
    rintro (rfl | ⟨e, rfl, he⟩)
    · exact absurd hlt (Nat.not_lt_zero _)
    · obtain rfl : fs = [] := List.length_eq_zero_iff.mp (by simpa using hlt)
      exact .inl rfl
  have hcost : (defs fs).projectCost ≤ (defs es).projectCost := by
    unfold projectCost
    split <;> split <;> simp_all
  have hext := extent_lt_of_sublist hs hlt
  refine falls_of_le ?_ (.relation rfl rfl rfl ?_ ?_) ?_ ?_ ?_
  · simpa using (hs.map weight).sum_le_sum fun _ _ => Nat.zero_le _
  · have hall : (x.isRow && (defs es).isSlim) → (x.isRow && (defs fs).isSlim) := by
      simp only [Bool.and_eq_true]
      exact And.imp_right hslim
    simp only [reach_project]
    split
    · omega
    · rename_i hno
      split
      · exact absurd (hall ‹_›) hno
      · exact Nat.le_refl _
  · simpa using hcost
  · simpa using (hs.map load).sum_le_sum fun _ _ => bot_le
  · have := (hs.map lift).sum_le_sum fun _ _ => Nat.zero_le _
    simp
    omega
  · have := (hs.map fun e : Outline => e.extent + 1).sum_le_sum fun _ _ => Nat.zero_le _
    simp [List.sum_map_add] at *
    omega

end Project

section Filter
variable {x q q' r a a' b : Outline} {es : List Outline}

theorem pressure_lt {k l : Nat} (n : Nat) (h : k < l) : pressure n k < pressure n l := by
  obtain ⟨m, rfl⟩ := Nat.exists_eq_add_of_lt h
  rw [Nat.add_assoc, pressure_add]
  exact lt_add_of_pos_right _ (pressure_pos n m)

theorem falls_filterFilter : Falls (node .filter [node .filter [x, q'], q]) (node .filter [x, node .and [q', q]]) := by
  have hbulk : (node .and [q', q]).bulk = 1 + (q'.bulk + q.bulk) := by
    rw [bulk_of_not_relational rfl]
    simp
  refine falls_of_load ?_ (.relation rfl rfl rfl ?_ ?_) ?_
  · simp [opWeight, OpKind.isRelational, Nat.add_assoc]
  · simp
  · simp
  · have hand : (node .and [q', q]).load = q'.load + q.load := by simp
    calc (node .filter [x, node .and [q', q]]).load
        = x.load + (q'.load + q.load) + pressure x.reach (1 + (q'.bulk + q.bulk) + 2) := by rw [load_filter, hand, hbulk]
      _ < x.load + (q'.load + q.load) + pressure x.reach ((q'.bulk + 2) + (q.bulk + 2)) :=
        add_lt_add_right (pressure_lt _ (by omega)) _
      _ = (node .filter [node .filter [x, q'], q]).load := by
        rw [load_filter, load_filter, reach_filter, pressure_add]
        ac_rfl

/-- A filter over expressions alone goes below a projection. It has a shorter way to go then, or what was put in for
    variables has not made it larger. -/
theorem falls_overProject (hq : q.Scalar) (hq' : q'.Scalar) (hbulk : (∀ e ∈ es, e.bulk ≤ 1) → q'.bulk ≤ q.bulk) :
    Falls (node .filter [node .project [x, defs es], q]) (node .project [node .filter [x, q'], defs es]) := by
  have hw : (node .project [node .filter [x, q'], defs es]).weight = (node .filter [node .project [x, defs es], q]).weight := by
    simp [opWeight, hq.weight, hq'.weight]
  have hease : Eases (node .filter [node .project [x, defs es], q]) (node .project [node .filter [x, q'], defs es]) := by
    refine .relation rfl rfl rfl ?_ ?_
    · simp
    · rw [hoist_project, hoist_filter, hoist_filter, hoist_project]
      exact (Nat.add_right_comm _ _ _).le
  have hload : (node .filter [node .project [x, defs es], q]).load = x.load + (defs es).load +
      pressure (node .project [x, defs es]).reach (q.bulk + 2) := by
    simp [hq.load]
  have hload' : (node .project [node .filter [x, q'], defs es]).load = x.load + (defs es).load + pressure x.reach (q'.bulk + 2) := by
    simp [hq'.load, add_right_comm]
  by_cases hrow : (x.isRow && (defs es).isSlim) = true
  · have hbulk := hbulk (isSlim_defs.mp (Bool.and_eq_true_iff.mp hrow).2)
    refine falls_of_le hw.le hease ?_ ?_ ?_
    · rw [hload, hload', reach_project, if_pos hrow]
      exact add_le_add_right (pressure_mono le_rfl (by omega)) _
    · simp [hq.lift, hq'.lift]
    · have := hq.extent
      have := hq'.extent
      simp only [extent_filter, extent_node (k := .project) (by decide), List.map_cons, List.map_nil, List.sum_cons, List.sum_nil]
      omega
  · refine falls_of_load hw.le hease ?_
    rw [hload, hload', reach_project, if_neg hrow]
    exact add_lt_add_right (pressure_lt_of_lt (Nat.lt_succ_self _) _ _) _

def withRest (a : Outline) : Option Outline → Outline
  | none => a
  | some r => node .filter [a, r]

/-- Parts of a predicate go below an operator. There they have a shorter way to go, so that what they press with counts
    less than what the rest has lost. -/
theorem falls_push {rest : Option Outline} (extra : Load) (ha' : a'.kind.isRelational)
    (hrow : a.isRow = false) (hrow' : a'.isRow = false) (hreach : a'.reach ≤ a.reach) (hhoist : a'.hoist ≤ a.hoist)
    (hw : a'.weight + rest.elim 0 weight ≤ a.weight + q.weight) (hbulk : ∀ r ∈ rest, r.bulk < q.bulk)
    (hextra : ∀ i, a.reach ≤ i → ofColex extra i = 0) (hload : a'.load + rest.elim 0 load ≤ a.load + q.load + extra) :
    Falls (node .filter [a, q]) (withRest a' rest) := by
  cases rest with
  | none =>
    refine falls_of_load ?_ (.of_relational rfl ha' (by simp [withRest, hrow, hrow']) ?_ ?_) ?_
    · simpa [withRest, opWeight] using hw
    · simpa [withRest] using hreach
    · simpa [withRest, hrow] using hhoist
    · calc a'.load ≤ a.load + q.load + extra := by simpa using hload
        _ < a.load + q.load + pressure a.reach (q.bulk + 2) := add_lt_add_right (lt_pressure hextra) _
        _ = (node .filter [a, q]).load := (load_filter a q).symm
  | some r =>
    have hbulk := hbulk r rfl
    refine falls_of_load ?_ (.of_relational rfl rfl (by simp [withRest, hrow, hrow']) ?_ ?_) ?_
    · simpa [withRest, opWeight] using hw
    · simpa [withRest] using hreach
    · simpa [withRest, hrow, hrow'] using hhoist
    · have hless : extra + pressure a'.reach (r.bulk + 2) < pressure a.reach (q.bulk + 2) :=
        calc extra + pressure a'.reach (r.bulk + 2)
            ≤ extra + pressure a.reach (r.bulk + 2) := add_le_add_right (pressure_mono hreach le_rfl) _
          _ < pressure a.reach 1 + pressure a.reach (r.bulk + 2) := add_lt_add_left (lt_pressure hextra) _
          _ = pressure a.reach (1 + (r.bulk + 2)) := (pressure_add _ _ _).symm
          _ ≤ pressure a.reach (q.bulk + 2) := pressure_mono le_rfl (by omega)
      calc (withRest a' (some r)).load = a'.load + r.load + pressure a'.reach (r.bulk + 2) := load_filter a' r
        _ ≤ a.load + q.load + extra + pressure a'.reach (r.bulk + 2) := add_le_add_left hload _
        _ = a.load + q.load + (extra + pressure a'.reach (r.bulk + 2)) := add_assoc _ _ _
        _ < a.load + q.load + pressure a.reach (q.bulk + 2) := add_lt_add_right hless _
        _ = (node .filter [a, q]).load := (load_filter a q).symm

/-! Parts of a predicate may go to both sides of an operator, and into what else stands below it. -/

theorem weight_withRest (rest : Option Outline) : (x.withRest rest).weight = x.weight + rest.elim 0 weight := by
  cases rest <;> simp [withRest, opWeight]

theorem reach_withRest (rest : Option Outline) : (x.withRest rest).reach = x.reach := by
  cases rest <;> simp [withRest]

theorem load_withRest (rest : Option Outline) : ∃ extra, (x.withRest rest).load = x.load + rest.elim 0 load + extra ∧
    ∀ i, x.reach < i → ofColex extra i = 0 := by
  cases rest with
  | none => exact ⟨0, by simp [withRest], fun _ _ => rfl⟩
  | some r => exact ⟨pressure x.reach (r.bulk + 2), load_filter x r, fun i hi => ofColex_pressure_of_lt (Nat.lt_succ_self _) i hi⟩

theorem Sinks.withRest (h : Sinks a b) (rest : Option Outline) : Sinks (a.withRest rest) (b.withRest rest) := by
  cases rest with
  | none => exact h
  | some r => exact h.set (show [a, r][0]? = some a from rfl)

theorem Sinks.sides {k : OpKind} {x' y y' : Outline} {zs : List Outline} (hx : Sinks x x') (hy : Sinks y y') :
    Sinks (node k (x :: y :: zs)) (node k (x' :: y' :: zs)) := by
  have hleft : Sinks (node k (x :: y :: zs)) (node k (x' :: y :: zs)) := hx.set (show (x :: y :: zs)[0]? = some x from rfl)
  exact hleft.trans (hy.set (show (x' :: y :: zs)[1]? = some y from rfl))

section Sides
variable {k : OpKind} {y : Outline} {bx by' rest : Option Outline} {zs zs' : List Outline}

theorem falls_sides (hk : k.isRelational) (hplain : k ≠ .filter ∧ k ≠ .project ∧ k ≠ .crossApply ∧ k ≠ .outerApply)
    (hrow : k ≠ .singleRowTable) (hzs : ∀ z ∈ zs', z.reach = 0)
    (hw : (zs'.map weight).sum + bx.elim 0 weight + by'.elim 0 weight + rest.elim 0 weight ≤ (zs.map weight).sum + q.weight)
    (hload : (zs'.map load).sum + bx.elim 0 load + by'.elim 0 load + rest.elim 0 load ≤ (zs.map load).sum + q.load)
    (hbulk : ∀ r ∈ rest, r.bulk < q.bulk) :
    Falls (node .filter [node k (x :: y :: zs), q]) ((node k (x.withRest bx :: y.withRest by' :: zs')).withRest rest) := by
  have hp : ∀ cs, Plain k cs := fun cs => plain_of_kind hplain
  obtain ⟨ex, hlx, hex⟩ := load_withRest (x := x) bx
  obtain ⟨ey, hly, hey⟩ := load_withRest (x := y) by'
  have hzero : (zs'.map reach).foldr max 0 = 0 := by
    rw [List.map_congr_left hzs]
    clear hzs hw hload
    induction zs' with
    | nil => rfl
    | cons _ _ ih => simpa using ih
  have hreach : x.reach < (node k (x :: y :: zs)).reach ∧ y.reach < (node k (x :: y :: zs)).reach := by
    rw [(hp _).reach, if_pos hk]
    simp only [List.map_cons, List.foldr_cons]
    omega
  refine falls_push (ex + ey) hk ?_ ?_ ?_ ?_ ?_ hbulk (fun i hi => ?_) ?_
  · rw [(hp _).isRow]
    exact beq_false_of_ne hrow
  · rw [(hp _).isRow]
    exact beq_false_of_ne hrow
  · rw [(hp _).reach, (hp _).reach, if_pos hk, if_pos hk]
    simp only [List.map_cons, List.foldr_cons, reach_withRest, hzero]
    omega
  · rw [(hp _).hoist]
    exact Nat.zero_le _
  · simp only [weight_node, List.map_cons, List.sum_cons, weight_withRest]
    omega
  · rw [show ofColex (ex + ey) i = ofColex ex i + ofColex ey i from rfl, hex i (by omega), hey i (by omega)]
  · rw [(hp _).load, (hp _).load]
    simp only [List.map_cons, List.sum_cons, hlx, hly]
    calc x.load + bx.elim 0 load + ex + (y.load + by'.elim 0 load + ey + (zs'.map load).sum) + rest.elim 0 load
        = (zs'.map load).sum + bx.elim 0 load + by'.elim 0 load + rest.elim 0 load + (x.load + y.load + (ex + ey)) := by ac_rfl
      _ ≤ (zs.map load).sum + q.load + (x.load + y.load + (ex + ey)) := add_le_add_left hload _
      _ = x.load + (y.load + (zs.map load).sum) + q.load + (ex + ey) := by ac_rfl

end Sides

theorem falls_filter_input (hx : x.kind.isRelational) : Falls (node .filter [x, q]) x := by
  refine falls_of_load ?_ (.of_relational rfl hx rfl ?_ ?_) ?_
  · simp [opWeight]
  · simp
  · simp
  · rw [load_filter, add_assoc]
    exact lt_add_of_pos_right _ (add_pos_of_nonneg_of_pos bot_le (pressure_pos _ _))

theorem isRow_cases (h : x.isRow) : (∃ cs, x = node .singleRowTable cs) ∨ (∃ y p, x = node .filter [y, p] ∧ y.isRow) ∨
    ∃ y ds, x = node .project [y, ds] ∧ y.isRow := by
  unfold isRow at h
  split at h
  · exact .inl ⟨_, rfl⟩
  · exact .inr (.inl ⟨_, _, rfl, h⟩)
  · exact .inr (.inr ⟨_, _, rfl, h⟩)
  · cases h

/-- Over a single row there is a filter, or two projections, or no more than one of these. -/
theorem row_stack (h : x.isRow) (hsrt : x.kind ≠ .singleRowTable)
    (hproj : ∀ y ds, x = node .project [y, ds] → y.kind ≠ .singleRowTable) : 3 ≤ x.hoist ∧ (0 < x.load ∨ 3 < x.lift) := by
  have hfilter : ∀ y p : Outline, 0 < (node .filter [y, p]).load := fun y p => by
    rw [load_filter]
    exact add_pos_of_nonneg_of_pos bot_le (pressure_pos _ _)
  rcases isRow_cases h with ⟨cs, rfl⟩ | ⟨y, p, rfl, hy⟩ | ⟨y, ds, rfl, hy⟩
  · exact absurd rfl hsrt
  · exact ⟨by simp [hy], .inl (hfilter y p)⟩
  · have hcost := le_projectCost ds
    rcases isRow_cases hy with ⟨cs, rfl⟩ | ⟨z, p, rfl, hz⟩ | ⟨z, es, rfl, hz⟩
    · exact absurd rfl (hproj _ _ rfl)
    · refine ⟨?_, .inl ?_⟩
      · simp [hz]
        omega
      · rw [load_node (by decide)]
        simpa using add_pos_of_pos_of_nonneg (hfilter z p) (bot_le (a := ds.load))
    · have hcost' := le_projectCost es
      refine ⟨?_, .inr ?_⟩
      · simp
        omega
      · simp
        omega

/-- A filter over a single row gives way to a row that is not there, unless it is that already. -/
theorem falls_filter_row (hrow : x.isRow) (hw : 0 < x.weight) (hsrt : x.kind ≠ .singleRowTable)
    (hproj : ∀ y ds, x = node .project [y, ds] → y.kind ≠ .singleRowTable) (hes : ∀ e ∈ es, e.Scalar ∧ e.bulk ≤ 1) :
    Falls (node .filter [x, q]) (node .project [node .filter [node .singleRowTable [], q], defs es]) := by
  obtain ⟨hhoist, hstack⟩ := row_stack hrow hsrt hproj
  have hcost := projectCost_le (defs es)
  have hreach := isRow_reach hrow
  have hone : (node .singleRowTable []).reach = 1 := by
    rw [(plain_of_kind (by decide)).reach]
    rfl
  have hzero : (node .singleRowTable []).hoist = 0 := (plain_of_kind (by decide)).hoist
  have hlift : (node .singleRowTable []).lift = 0 := (plain_of_kind (by decide)).lift
  have hslim : (defs es).isSlim := isSlim_defs.mpr fun e he => (hes e he).2
  have hw' : (node .project [node .filter [node .singleRowTable [], q], defs es]).weight ≤ (node .filter [x, q]).weight := by
    have : (es.map weight).sum = 0 := sum_map_eq_zero fun e he => (hes e he).1.weight
    simp [opWeight, OpKind.isRelational, this]
    omega
  have hload' : (node .project [node .filter [node .singleRowTable [], q], defs es]).load = q.load + pressure 1 (q.bulk + 2) := by
    have : (es.map load).sum = 0 := sum_map_eq_zero fun e he => (hes e he).1.load
    simp [this, hone]
  have hload : q.load + pressure 1 (q.bulk + 2) + x.load ≤ (node .filter [x, q]).load :=
    calc q.load + pressure 1 (q.bulk + 2) + x.load
        ≤ q.load + pressure x.reach (q.bulk + 2) + x.load := add_le_add_left (add_le_add_right (pressure_mono hreach le_rfl) _) _
      _ = (node .filter [x, q]).load := by
        rw [load_filter]
        ac_rfl
  have hease : Eases (node .filter [x, q]) (node .project [node .filter [node .singleRowTable [], q], defs es]) := by
    refine .relation rfl rfl ?_ ?_ ?_
    · rw [isRow_filter, hrow]
      rfl
    · simp [hone, isRow, hslim]
      omega
    · simp [hzero, isRow, hrow]
      omega
  rcases hstack with hpos | hlong
  · refine falls_of_load hw' hease ?_
    rw [hload']
    exact (lt_add_of_pos_right _ hpos).trans_le hload
  · refine falls_of_lift hw' hease ?_ ?_
    · rw [hload']
      exact (le_add_of_nonneg_right bot_le).trans hload
    · have : (es.map lift).sum = 0 := sum_map_eq_zero fun e he => (hes e he).1.lift
      simp [this, hlift]
      omega

end Filter

end Outline

namespace Tree

open Outline

theorem row_or_weight {t : Tree} (hwf : t.wellFormed) (hr : t.IsRelational) :
    t.outline.isRow ∧ 0 < t.outline.weight ∨ 2 ≤ t.outline.weight := by
  induction t using induct with
  | node id op cs ih =>
    obtain ⟨hshape, hwfs⟩ := wellFormed_node.mp hwf
    replace ih : ∀ c ∈ cs, c.IsRelational → c.outline.isRow = true ∧ 0 < c.outline.weight ∨ 2 ≤ c.outline.weight :=
      fun c hc => ih c hc (hwfs c hc)
    cases shape_of_fits hshape with
    | scanTable => exact .inr (by simp [Op.kind, opWeight])
    | singleRowTable => exact .inl (by simp [Op.kind, opWeight, OpKind.isRelational, isRow])
    | filter hx | project _ hx =>
      rw [outline_node]
      refine (ih _ (by simp) hx).imp (And.imp_right fun h => ?_) fun h => ?_
      all_goals
        simp [Op.kind, opWeight]
        omega
    | crossJoin hx | innerJoin hx | leftOuterJoin hx | crossApply hx | outerApply hx | distinct _ hx | groupBy _ _ hx
    | sort _ hx | constrainedSort _ hx =>
      have := ih _ (by simp) hx
      refine .inr ?_
      simp [Op.kind, opWeight, OpKind.isRelational] <;> omega
    | combine kind hx =>
      have := ih _ (by simp) hx
      refine .inr ?_
      cases kind <;> simp [Op.kind, SetKind.kind, opWeight, OpKind.isRelational] <;> omega
    | varDefList | varDef | element => cases hr
    | scalar hs => exact absurd hr (not_isRelational_of_isScalar hs)

theorem weight_pos {t : Tree} (hwf : t.wellFormed) (hr : t.IsRelational) : 0 < t.outline.weight := by
  rcases row_or_weight hwf hr with ⟨_, h⟩ | h <;> omega

@[simp] theorem outline_defs (n : NodeId) (ds : List Def) : (defs n ds).outline = Outline.defs (ds.map fun d => d.expr.outline) := by
  simp [defs, Outline.defs, Def.tree, Op.kind]

end Tree

end Planwright
