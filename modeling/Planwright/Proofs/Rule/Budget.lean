import Planwright.Proofs.Ledger.Drift
import Planwright.Proofs.Plan.Toll

/-! What the projection rules save. Wherever one of them gives a node, two projections have become one, or a
    definition was dropped. Expressions that are copied on the way have neither. -/

namespace Planwright

open Run Plan

namespace Plan

variable {p p₁ p' : Plan} {n m a b : NodeId} {d : Nat} {cs : List NodeId} {S T : Multiset NodeId}

theorem At.toll {k : OpKind} (h : p.At n k cs) : p.toll n = k.toll := by
  obtain ⟨r, hr, rfl, -⟩ := h
  exact toll_of_found hr

theorem Adds.lighter (h : Adds p p') (hS : p.Spans cs S) : Lighter p p' 0 S S :=
  ⟨(tolls_congr fun x hx => (h.eases (X := ∅)).toll (hS.lt x hx)).le, fun _ => .inl⟩

theorem create_lighter {op : Op} (hs : p.nodes.size ≤ p₁.nodes.size) (hT : p₁.Spans cs T) (hl : Lighter p p₁ (d + op.kind.toll) S T) :
    Ends (create op cs) p₁ fun m p' => Adds p₁ p' ∧ ∃ S', p'.Spans [m] S' ∧ Lighter p p' d S S' := by
  refine create_adds.mono fun m p' ⟨ha, hm, hr, _⟩ => ⟨ha, m ::ₘ T, Spans.single_iff.mpr ⟨_, T, hr, hT.adds ha, rfl⟩, ?_, fun x hx => ?_⟩
  · have := (ha.lighter hT).tolls
    have := hl.tolls
    simp only [tolls_cons, toll_of_found hr]
    omega
  · rcases Multiset.mem_cons.mp hx with rfl | hx
    · exact .inr (hm ▸ hs)
    · exact hl.mem x hx

/-- What is made of a place has less tolls, and no other place gets heavier. -/
def Saved (p : Plan) (S : Multiset NodeId) (m : NodeId) (p' : Plan) : Prop :=
  Eases {x | x ∈ S} p p' ∧ ∃ S', p'.Spans [m] S' ∧ Lighter p p' 1 S S'

theorem Saved.after (ha : Adds p p₁) (hS : p.Spans cs S) (h : Saved p₁ S m p') : Saved p S m p' := by
  obtain ⟨he, S', hS', hl⟩ := h
  refine ⟨(ha.eases (X := {x | x ∈ S})).trans he fun _ hx _ => hx, S', hS', ?_⟩
  simpa using (ha.lighter hS).trans hl ha.size

end Plan

/-- Wherever the rule gives a node in the place of some others, it saves a toll. -/
def Saves (S : Multiset NodeId) (x : RuleM (Option NodeId)) (c : Context) (p : Plan) : Prop :=
  EndsIn x c p fun out _ p' => ∀ m, out = some m → Saved p S m p'

section Saves
variable {α : Type} {c : Context} {p : Plan} {n : NodeId} {S : Multiset NodeId}

theorem Saves.none : Saves S (pure none) c p := .pure nofun

theorem Saves.quiet {x : RuleM α} {f : α → RuleM (Option NodeId)} (hx : Quiet x) (hS : p.Spans [n] S)
    (hf : ∀ a p₁, Adds p p₁ → Saves S (f a) c p₁) : Saves S (x >>= f) c p := by
  refine .bind (hx c p).ends fun a c₁ p₁ ⟨hc, h₁⟩ => ?_
  subst hc
  exact (hf a p₁ h₁.unchanged.adds).mono fun _ _ _ h m hm => (h m hm).after h₁.unchanged.adds hS

theorem Saves.look {x : PlanM α} {f : α → RuleM (Option NodeId)} (hx : Looks x) (hS : p.Spans [n] S)
    (hf : ∀ a p₁, Adds p p₁ → Saves S (f a) c p₁) : Saves S (liftM x >>= f) c p := .quiet (.plan hx) hS hf

end Saves

namespace Rules

open RuleM

variable {definitions outputs : VarSet} {k : OpKind} {s : Substitution}
variable {c : Context} {p p₁ : Plan} {n m a b d : NodeId} {ds kept : List NodeId} {S T D K : Multiset NodeId}

/-! ### Definitions that are dropped -/

theorem definedVar_ends : Ends (definedVar d) p fun _ p' => p' = p ∧ p.toll d = 1 := by
  refine .bind op_ends fun o p₁ ⟨hp, r, hr, ho⟩ => ?_
  split
  · exact .pure ⟨hp, by rw [toll_of_found hr, ← ho]; rfl⟩
  · exact .throw

theorem kind_ends : Ends (kind n) p fun _ p' => p' = p := .bind op_ends fun _ _ ⟨hp, _⟩ => .pure hp

theorem rename_ends {old new : VarId} : EndsIn (rename old new) c p fun _ _ p' => p' = p := by
  rw [rename]
  split
  · exact .pure rfl
  · exact .modify rfl

theorem dropped_lighter (hS : p.Spans [d] S) (hd : p.toll d = 1) : Lighter p p 1 S 0 := by
  obtain ⟨r, T, -, -, rfl⟩ := Spans.single_iff.mp hS
  have h : Lighter p p 0 T 0 := .of_le (Multiset.zero_le T)
  simpa [hd] using h.drop (n := d)

theorem projectWithoutDefs_saves (hn : p.At n .project [a, b]) (hS : p.Spans [n] S) : Saves S (projectWithoutDefs n) c p := by
  refine .read (hn.child_run rfl) (.step children_ends fun ds p₁ ⟨hp, _⟩ => ?_)
  subst hp
  split
  · refine .read (hn.child_run rfl) (.pure fun m hm => ?_)
    cases hm
    obtain ⟨T, hT, rfl⟩ := hn.spans hS
    obtain ⟨A, B, hA, -, rfl⟩ := Spans.cons_iff.mp hT
    have h : Lighter p₁ p₁ 0 (A + B) A := .of_le (Multiset.le_add_right ..)
    exact ⟨.refl _ p₁, A, hA, by simpa [hn.toll, OpKind.toll] using h.drop (n := n)⟩
  · exact Saves.none

section Drop
variable {standIn? : NodeId → PlanM (Option VarId)} {hide : VarSet → VarId → VarId → VarSet}

theorem dropDefs_lighter (hs : ∀ d, Ends (standIn? d) p fun _ p' => p' = p) :
    EndsIn (dropDefs standIn? hide outputs ds) c p fun out _ p' =>
      p' = p ∧ ∀ D, p.Spans ds D → ∃ K, p.Spans out.2.1 K ∧ Lighter p p (if out.2.2 then 1 else 0) D K := by
  induction ds generalizing c outputs with
  | nil => exact .pure ⟨rfl, fun D hD => ⟨D, hD, .refl p D⟩⟩
  | cons d ds ih =>
    refine .step (hs d) fun w p₁ hp => ?_
    subst hp
    split
    · refine .bind ih fun out c₂ p₂ ⟨hp, hrest⟩ => .pure ⟨hp, fun D hD => ?_⟩
      obtain ⟨A, B, hA, hB, rfl⟩ := Spans.cons_iff.mp hD
      obtain ⟨K, hK, hl⟩ := hrest B hB
      exact ⟨A + K, Spans.cons_iff.mpr ⟨A, K, hA, hK, rfl⟩, by simpa using (Lighter.refl p₁ A).add hl⟩
    · refine .step definedVar_ends fun v p₂ ⟨hp, ht⟩ => ?_
      subst hp
      refine .bind rename_ends fun _ c₃ p₃ hp => ?_
      subst hp
      refine .bind ih fun out c' p' ⟨hp, hrest⟩ => .pure ⟨hp, fun D hD => ?_⟩
      obtain ⟨A, B, hA, hB, rfl⟩ := Spans.cons_iff.mp hD
      obtain ⟨K, hK, hl⟩ := hrest B hB
      exact ⟨K, hK, by simpa using ((dropped_lighter hA ht).add hl).weaken (Nat.le_add_right ..)⟩

theorem dropFrom_saves (hn : p.At n .project [a, b]) (hb : p.At b k ds) (hS : p.Spans [n] S)
    (hs : ∀ d, Ends (standIn? d) p fun _ p' => p' = p) : Saves S (dropFrom n a ds standIn? hide) c p := by
  refine .step op_ends ?_
  rintro o _ ⟨rfl, -⟩
  split
  swap
  · exact .throw
  refine .bind (dropDefs_lighter hs) ?_
  rintro out c₁ p₁ ⟨rfl, hkept⟩
  dsimp only
  split
  · exact Saves.none
  rename_i hdropped
  obtain ⟨T, hT, rfl⟩ := hn.spans hS
  obtain ⟨A, B, hA, hB, rfl⟩ := Spans.cons_iff.mp hT
  obtain ⟨D, hD, rfl⟩ := hb.spans hB
  obtain ⟨K, hK, hl⟩ := hkept D hD
  rw [if_pos (by simpa using hdropped)] at hl
  refine .step (create_lighter le_rfl hK hl) ?_
  rintro l p₂ ⟨h₂, L, hL, hlL⟩
  have hargs : p₂.Spans [a, l] (A + L) := Spans.cons_iff.mpr ⟨A, L, hA.adds h₂, hL, rfl⟩
  have hboth : Lighter p₁ p₂ 2 (n ::ₘ (A + b ::ₘ D)) (A + L) := by
    have h := ((h₂.lighter hA).add (hlL.drop (n := b))).drop (n := n)
    rw [hn.toll] at h
    exact h.weaken (by simp only [OpKind.toll]; omega)
  refine .step (create_lighter h₂.size hargs hboth) ?_
  rintro o p₃ ⟨h₃, hO⟩
  refine .pure fun m hm => ?_
  cases hm
  exact ⟨(h₂.trans h₃).eases, hO⟩

end Drop

theorem plainReference?_ends : Ends (plainReference? definitions d) p fun _ p' => p' = p := by
  refine .bind child_ends fun e p₁ ⟨hp₁, _⟩ => .bind op_ends fun o p₂ ⟨hp₂, _⟩ => ?_
  split <;> exact .pure (hp₂.trans hp₁)

theorem sentinel?_ends {chosen : VarId} : Ends (sentinel? chosen d) p fun _ p' => p' = p :=
  .bind definedVar_ends fun _ _ ⟨hp₁, _⟩ => .bind child_ends fun _ _ ⟨hp₂, _⟩ => .bind kind_ends fun _ _ hp₃ =>
    .pure (hp₃.trans (hp₂.trans hp₁))

theorem projectReferences_saves (hn : p.At n .project [a, b]) (hb : p.At b k ds) (hS : p.Spans [n] S) :
    Saves S (projectReferences n) c p := by
  refine .read (hn.child_run rfl) (Saves.look relationInfo_looks hS fun i p₁ h₁ => ?_)
  refine .read ((hn.adds h₁).child_run rfl) (.read (hb.adds h₁).children_run ?_)
  exact dropFrom_saves (hn.adds h₁) (hb.adds h₁) (hS.adds h₁) fun d => plainReference?_ends

theorem projectSentinels_saves (hn : p.At n .project [a, b]) (hb : p.At b k ds) (hS : p.Spans [n] S) :
    Saves S (projectSentinels n) c p := by
  refine .read (hn.child_run rfl) (.read hb.children_run ?_)
  refine Saves.quiet (Quiet.anyM fun d => .bind (.plan child_looks) fun _ => .bind (.plan kind_looks) fun _ => .pure) hS fun found p₁ h₁ => ?_
  split
  · exact Saves.none
  refine Saves.quiet canChangeSentinel_quiet (hS.adds h₁) fun may p₂ h₂ => ?_
  replace h₂ := h₁.trans h₂
  split
  · exact Saves.none
  refine .read ((hn.adds h₂).child_run rfl) (Saves.look relationInfo_looks (hS.adds h₂) fun i p₃ h₃ => .getPlan ?_)
  replace h₃ := h₂.trans h₃
  dsimp only
  split
  · exact dropFrom_saves (hn.adds h₃) (hb.adds h₃) (hS.adds h₃) fun d => sentinel?_ends
  refine Saves.look constantVars_looks (hS.adds h₃) fun vs p₄ h₄ => ?_
  replace h₄ := h₃.trans h₄
  split
  · exact dropFrom_saves (hn.adds h₄) (hb.adds h₄) (hS.adds h₄) fun d => sentinel?_ends
  · exact Saves.none

/-! ### Projections that become one -/

theorem isCostly_ends {uses : Option (List VarId)} {size : Nat} : EndsIn (isCostly uses size d) c p fun _ _ p' => p' = p := by
  cases uses with
  | none => exact .pure rfl
  | some us =>
    refine .get ?_
    split
    · exact .step definedVar_ends fun _ _ ⟨hp, _⟩ => .pure hp
    · exact .pure rfl

theorem collect_free {uses : Option (List VarId)} (hs : ∀ e ∈ s, p.Free e.2) :
    EndsIn (collect uses s ds) c p fun out _ p' => p' = p ∧ ∀ s', out = some s' → ∀ e ∈ s', p.Free e.2 := by
  induction ds generalizing c s with
  | nil =>
    refine .pure ⟨rfl, fun s' hs' => ?_⟩
    cases hs'
    exact hs
  | cons d ds ih =>
    have stop {c : Context} : EndsIn (pure none : RuleM (Option Substitution)) c p fun out _ p' =>
        p' = p ∧ ∀ s', out = some s' → ∀ e ∈ s', p.Free e.2 := .pure ⟨rfl, by simp⟩
    refine .step child_ends ?_
    rintro e _ ⟨rfl, -⟩
    refine .step tree_ends ?_
    rintro t p₂ ⟨rfl, ht⟩
    split
    · exact stop
    rename_i size hsize
    have hfree : p₂.Free e := free_of_isScalar ht (by rw [Tree.isScalar, hsize]; rfl)
    refine .bind isCostly_ends ?_
    rintro costly c₁ _ rfl
    split
    · exact stop
    refine .step definedVar_ends ?_
    rintro v _ ⟨rfl, -⟩
    split
    · split
      · exact .getPlan (.bind (R := fun _ _ _ => False) .throw fun _ _ _ h => h.elim)
      · exact ih hs
    · refine ih fun e' he' => ?_
      rcases List.mem_append.mp he' with he' | he'
      · exact hs e' he'
      · rwa [List.mem_singleton.mp he']

theorem substitution?_free {uses : Option (List VarId)} : EndsIn (substitution? n uses) c p fun out _ p' =>
    p' = p ∧ ∀ s, out = some s → ∀ e ∈ s, p.Free e.2 := by
  refine .step children_ends fun ds p₁ ⟨hp, _⟩ => ?_
  subst hp
  exact collect_free (List.forall_mem_nil _)

theorem moved_eases (hs : ∀ e ∈ s, p.Free e.2) (hD : p.Spans ds D) :
    EndsIn (ds.mapM fun d => (redefine s d : RuleM NodeId)) c p fun moved _ p' =>
      Eases {x | x ∈ D ∧ p.IsScalar x} p p' ∧ ∃ M, p'.Spans moved M ∧ Lighter p p' 0 D M := by
  induction ds generalizing c p D with
  | nil =>
    cases hD
    exact .pure ⟨.refl _ p, 0, .nil, .refl p 0⟩
  | cons d ds ih =>
    obtain ⟨A, B, hA, hB, rfl⟩ := Spans.cons_iff.mp hD
    rw [List.mapM_cons]
    refine .step (S := fun m p' => Eases {x | x ∈ A ∧ p.IsScalar x} p p' ∧ ∃ M, p'.Spans [m] M ∧ Lighter p p' 0 A M) ?_ ?_
    · refine .bind child_ends fun e p₁ ⟨hp, r, hr, he⟩ => ?_
      subst hp
      obtain ⟨T, hT, rfl⟩ := At.spans ⟨r, hr, rfl, rfl⟩ hA
      obtain ⟨U, hU, hspans⟩ := hT.of_mem (hT.mem_of_mem (List.mem_of_getElem? he))
      refine .bind (.get (substituteWithin_eases hs hspans)) fun e' p₂ ⟨h₂, U', hU', hl⟩ => ?_
      refine .bind definedVar_ends fun v p₃ ⟨hp, ht⟩ => ?_
      subst hp
      rw [h₂.toll (Array.getElem?_eq_some_iff.mp hr).1] at ht
      have hdrop : Lighter p₁ p₃ 1 (d ::ₘ T) U' := by
        simpa [ht] using ((Lighter.of_le hU).trans hl le_rfl).drop (n := d)
      have hmono : Eases {x | x ∈ d ::ₘ T ∧ p₁.IsScalar x} p₁ p₃ :=
        h₂.mono fun x hx => ⟨Multiset.mem_cons_of_mem (Multiset.mem_of_le hU hx.1), hx.2⟩
      refine (create_lighter h₂.size hU' hdrop).mono fun m p₄ ⟨h₄, hM⟩ => ⟨?_, hM⟩
      exact hmono.trans (h₄.eases (X := ∅)) fun _ h _ => h.elim
    · rintro m p₁ ⟨h₁, M, hM, hlM⟩
      obtain ⟨B₁, hB₁, hlB⟩ := hB.lift fun x _ => h₁.spans x
      have hmono : Eases {x | x ∈ A + B ∧ p.IsScalar x} p p₁ := h₁.mono fun x hx => ⟨Multiset.mem_add.mpr (.inl hx.1), hx.2⟩
      refine .bind (ih (fun e he => (hs e he).eases h₁) hB₁) fun ms c₂ p₂ ⟨h₂, N, hN, hlN⟩ => .pure ⟨?_, ?_⟩
      · refine hmono.trans h₂ fun x ⟨hx, hscalar⟩ hlt => ?_
        refine ⟨Multiset.mem_add.mpr (.inr ?_), h₁.isScalar hlt hscalar⟩
        exact (hlB.mem x hx).resolve_right (Nat.not_le.mpr hlt)
      · obtain ⟨M₂, hM₂, hlM₂⟩ := h₂.spans m M hM
        refine ⟨M₂ + N, Spans.cons_iff.mpr ⟨M₂, N, hM₂, hN, rfl⟩, ?_⟩
        exact (hlM.trans hlM₂ h₁.size).add (hlB.trans hlN h₁.size)

theorem filterM_sublist {f : NodeId → RuleM Bool} (hf : ∀ d c, EndsIn (f d) c p fun _ _ p' => p' = p) :
    EndsIn (ds.filterM f) c p fun kept _ p' => p' = p ∧ kept.Sublist ds := by
  have haux : ∀ (ds acc : List NodeId) (c : Context), EndsIn (ds.filterAuxM f acc) c p fun out _ p' =>
      p' = p ∧ ∃ kept : List NodeId, out = kept.reverse ++ acc ∧ kept.Sublist ds := by
    intro ds
    induction ds with
    | nil => exact fun acc c => .pure ⟨rfl, [], rfl, .slnil⟩
    | cons d ds ih =>
      intro acc c
      refine .bind (hf d c) fun keep c₁ p₁ hp => ?_
      subst hp
      refine (ih _ c₁).mono fun out c' p' ⟨hp, kept, hout, hkept⟩ => ⟨hp, ?_⟩
      cases keep
      · exact ⟨kept, hout, hkept.cons d⟩
      · exact ⟨d :: kept, by simp [hout], hkept.cons_cons d⟩
  refine .bind (haux ds [] c) fun out c₁ p₁ ⟨hp, kept, hout, hkept⟩ => .pure ⟨hp, ?_⟩
  simpa [hout] using hkept

theorem projectOverProjectApply_saves {x y : NodeId} (hn : p.At n .project [a, b]) (ha : p.At a .project [x, y])
    (hS : p.Spans [n] S) : Saves S (projectOverProjectApply n) c p := by
  refine .read (hn.child_run rfl) (.step op_ends ?_)
  rintro o _ ⟨rfl, -⟩
  split
  swap
  · exact .throw
  refine .read (hn.child_run rfl) (.step children_ends ?_)
  rintro ds _ ⟨rfl, r, hb, rfl⟩
  refine Saves.look scalarReferences_looks hS fun refs p₃ h₃ => ?_
  replace hn := hn.adds h₃
  replace ha := ha.adds h₃
  obtain ⟨r', hb', -, hc⟩ := h₃.node b r hb
  obtain ⟨T, hT, rfl⟩ := hn.spans (hS.adds h₃)
  obtain ⟨A, B, hA, hB, rfl⟩ := Spans.cons_iff.mp hT
  obtain ⟨D, hD, rfl⟩ := At.spans ⟨r', hb', rfl, rfl⟩ hB
  rw [hc] at hD
  obtain ⟨V, hV, rfl⟩ := ha.spans hA
  obtain ⟨X, Y, hX, hY, rfl⟩ := Spans.cons_iff.mp hV
  split
  swap
  · exact Saves.none
  refine .read (ha.child_run rfl) (.bind substitution?_free ?_)
  rintro s c₄ p₄ ⟨rfl, hfree⟩
  split
  swap
  · exact Saves.none
  refine .bind (moved_eases (hfree _ rfl) hD) ?_
  rintro moved c₅ p₅ ⟨h₅, M, hM, hlM⟩
  -- The inner projection is no expression: it is as before.
  have ha₅ : p₅.At a .project [x, y] := by
    obtain ⟨s, hs, hk, hc⟩ := ha
    obtain ⟨s', hs', hk', hc'⟩ := h₅.node a s hs
    refine ⟨s', hs', hk'.trans hk, (hc' ?_).trans hc⟩
    rintro ⟨-, t, ht, hscalar⟩
    cases hs.symm.trans ht
    rw [hk] at hscalar
    cases hscalar
  obtain ⟨X₅, hX₅, hlX⟩ := h₅.spans x X hX
  obtain ⟨Y₅, hY₅, hlY⟩ := h₅.spans y Y hY
  refine .step children_ends ?_
  rintro inner _ ⟨rfl, s, hs, rfl⟩
  obtain ⟨I, hI, rfl⟩ := At.spans ⟨s, hs, rfl, rfl⟩ hY₅
  refine .bind (filterM_sublist fun d c => .step definedVar_ends fun _ _ h => .pure h.1) ?_
  rintro kept c₇ p₇ ⟨rfl, hkept⟩
  obtain ⟨K, hKI, hK⟩ := hI.sublist hkept
  have hlK : Lighter p₄ p₇ 0 Y K := hlY.trans (.of_le (hKI.trans (Multiset.le_cons_self ..))) h₅.size
  have hlist : Lighter p₄ p₇ (0 + Op.varDefList.kind.toll) (D + Y) (M + K) := hlM.add hlK
  refine .step (create_lighter h₅.size (hM.append hK) hlist) ?_
  rintro l p₈ ⟨h₈, L, hL, hlL⟩
  refine .read ((ha₅.adds h₈).child_run rfl) ?_
  have hargs : p₈.Spans [x, l] (X₅ + L) := Spans.cons_iff.mpr ⟨X₅, L, hX₅.adds h₈, hL, rfl⟩
  have hboth : Lighter p₄ p₈ 2 (n ::ₘ (a ::ₘ (X + Y) + b ::ₘ D)) (X₅ + L) := by
    have h := ((((hlX.trans (h₈.lighter hX₅) h₅.size).add hlL).drop (n := b)).drop (n := a)).drop (n := n)
    rw [Multiset.cons_add, Multiset.add_cons, add_assoc, add_comm Y D]
    rw [hn.toll, ha.toll] at h
    exact h.weaken (by simp only [OpKind.toll]; omega)
  refine .step (create_lighter (h₅.size.trans h₈.size) hargs hboth) ?_
  rintro o p₉ ⟨h₉, hO⟩
  refine .pure fun m hm => ?_
  cases hm
  have hmono : Eases {z | z ∈ n ::ₘ (a ::ₘ (X + Y) + b ::ₘ D)} p₄ p₇ := h₅.mono fun z hz => by simp [hz.1]
  exact ⟨hmono.trans ((h₈.trans h₉).eases (X := ∅)) fun _ h _ => h.elim, hO⟩

end Rules

/-- No step is counted. -/
def still : Drift := ⟨fun c c' => c'.steps = c.steps, fun h h' => h'.trans h, fun _ _ _ => rfl⟩

/-- A rule that counts no steps of its own, and saves a toll wherever its pattern holds and it gives a node. -/
structure Rule.Saves (rule : Rule) : Prop where
  acts (settle : NodeId → RuleM NodeId) : still.Acts rule settle
  saves (settle : NodeId → RuleM NodeId) (c : Context) {p : Plan} {n : NodeId} {S : Multiset NodeId} :
    rule.pattern.holds p n = true → p.Spans [n] S → Planwright.Saves S (rule.apply settle n) c p

open Rules in
theorem projectRules_save : ∀ rule ∈ projectRules, rule.Saves := by
  have acts : ∀ rule ∈ projectRules, still.Acts rule pure := Drift.rules_act (fun _ => .pure) .project
  have one {name : String} {f : NodeId → RuleM (Option NodeId)} (hacts : still.Acts (.simple name projectPattern f) pure)
      (hf : ∀ {c p n S a b ds}, p.At n .project [a, b] → p.At b .varDefList ds → p.Spans [n] S → Saves S (f n) c p) :
      (Rule.simple name projectPattern f).Saves := by
    refine ⟨fun _ => hacts, fun _ c p n S hpattern hS => ?_⟩
    obtain ⟨a, b, hn, -, hb⟩ := Pattern.holds_two hpattern
    obtain ⟨ds, hb⟩ := Pattern.holds_ofKind hb
    exact hf hn hb hS
  have two (hacts : still.Acts projectOverProject pure) : projectOverProject.Saves := by
    refine ⟨fun _ => hacts, fun _ c p n S hpattern hS => ?_⟩
    obtain ⟨a, b, hn, ha, -⟩ := Pattern.holds_two hpattern
    obtain ⟨x, y, ha, -, -⟩ := Pattern.holds_two ha
    exact projectOverProjectApply_saves hn ha hS
  simp only [projectRules, List.forall_mem_cons] at acts ⊢
  obtain ⟨overProject, withoutDefs, references, sentinels, -⟩ := acts
  exact ⟨two overProject, one withoutDefs fun hn _ hS => projectWithoutDefs_saves hn hS, one references projectReferences_saves,
    one sentinels projectSentinels_saves, List.forall_mem_nil _⟩

end Planwright
