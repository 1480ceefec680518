import Mathlib.Logic.Relation
import Mathlib.Order.WellFounded
import Planwright.Proofs.Analysis.Basic
import Planwright.Proofs.Halt

/-! The remembered analysis. Asking for the analysis of a node gives that of the tree the plan holds below it,
    and changes nothing but what nodes remember. Its budget suffices where every way down ends. -/

namespace Planwright

open Run

/-! ### Steps without a budget -/

theorem Op.neverNullDefs_spares {known acc : VarSet} {defs : List (Op × Option Op)} :
    Spares (Op.neverNullDefs known acc defs) := by
  fun_induction Op.neverNullDefs known acc defs with
  | case1 => exact .pure
  | case2 => exact .throw nofun
  | case3 => assumption
  | case4 => exact .throw nofun
  | case5 => assumption

theorem Op.branch_spares {m : VarMap} {v : VarId} : Spares (Op.branch m v) := by
  rw [Op.branch]
  split
  · exact .pure
  · exact .throw (by decide)

theorem Op.analyze_spares {op : Op} {children : List Child} : Spares (op.analyze children) := by
  unfold Op.analyze
  split
  all_goals try exact .pure
  · exact .bind neverNullDefs_spares fun _ => .pure
  · exact .bind neverNullDefs_spares fun _ => .pure
  · refine .bind (.bind (.filterM fun _ => ?_) fun _ => .pure) fun _ => .pure
    exact .bind branch_spares fun _ => .bind branch_spares fun _ => .pure
  · split
    · exact .pure
    · exact .throw nofun

namespace Plan

open Planwright.Tree

variable {t : Tree} {i : Info} {cs : List Tree}
variable {p p' : Plan} {n : NodeId}

/-! ### Reading nodes -/

def Lacks (p : Plan) (n : NodeId) (e : Fault) : Prop := e ≠ .outOfFuel ∧ p.nodes[n]? = none

theorem Lacks.not_holds {e : Fault} (h : p.Lacks n e) (ht : p.Holds t) : t.id ≠ n := by
  rintro rfl
  obtain ⟨r, hr⟩ := ht.has
  exact nomatch h.2.symm.trans hr.found

theorem node_meets : Meets (p.Lacks n) (Plan.node n) p fun r p' => p' = p ∧ p.nodes[n]? = some r := by
  refine .get ?_
  split
  · exact .pure ⟨rfl, ‹_›⟩
  · exact .throw ⟨nofun, ‹_›⟩

theorem op_meets : Meets (p.Lacks n) (Plan.op n) p fun o p' => p' = p ∧ ∃ r, p.nodes[n]? = some r ∧ o = r.op :=
  .bind node_meets fun r _ ⟨hp, hr⟩ => .pure ⟨hp, r, hr, rfl⟩

theorem children_meets : Meets (p.Lacks n) (Plan.children n) p fun cs p' => p' = p ∧ ∃ r, p.nodes[n]? = some r ∧ cs = r.children :=
  .bind node_meets fun r _ ⟨hp, hr⟩ => .pure ⟨hp, r, hr, rfl⟩

theorem op_halts : Halts (op n) p fun o p' => p' = p ∧ ∃ r, p.nodes[n]? = some r ∧ o = r.op :=
  op_meets.halts (fun _ he => ⟨fun _ => he.1, nofun⟩) fun ⟨hp, _⟩ => hp ▸ id

theorem children_halts : Halts (children n) p fun cs p' => p' = p ∧ ∃ r, p.nodes[n]? = some r ∧ cs = r.children :=
  children_meets.halts (fun _ he => ⟨fun _ => he.1, nofun⟩) fun ⟨hp, _⟩ => hp ▸ id

theorem node_ends : Ends (Plan.node n) p fun r p' => p' = p ∧ p.nodes[n]? = some r := node_meets.ends

theorem op_ends : Ends (Plan.op n) p fun o p' => p' = p ∧ ∃ r, p.nodes[n]? = some r ∧ o = r.op := op_meets.ends

theorem children_ends : Ends (Plan.children n) p fun cs p' => p' = p ∧ ∃ r, p.nodes[n]? = some r ∧ cs = r.children :=
  children_meets.ends

theorem mapM_meets {α β : Type} {f : α → PlanM β} {E : Fault → Prop} {R : Plan → α → β → Prop} {as : List α}
    (hf : ∀ a ∈ as, ∀ p', Same p p' → Meets E (f a) p' fun b p'' => Same p' p'' ∧ R p' a b)
    (hR : ∀ {p' a b}, Same p p' → R p' a b → R p a b) :
    Meets E (as.mapM f) p fun bs p' => Same p p' ∧ List.Forall₂ (R p) as bs := by
  have hrun : ∀ p', Same p p' → Meets E (as.mapM f) p' fun bs p'' => Same p p'' ∧ List.Forall₂ (R p) as bs := by
    induction as with
    | nil => exact fun p' h => .pure ⟨h, .nil⟩
    | cons a as ih =>
      intro p' h
      rw [List.mapM_cons]
      refine .bind (hf a List.mem_cons_self p' h) fun b p₁ ⟨h₁, hb⟩ => ?_
      refine .bind (ih (fun a' ha' => hf a' (List.mem_cons_of_mem _ ha')) p₁ (h.trans h₁)) fun bs p₂ ⟨h₂, hbs⟩ => ?_
      exact .pure ⟨h₂, .cons (hR h hb) hbs⟩
  exact hrun p (.refl p)

/-- A node may remember an analysis that is right for the trees of an earlier state. -/
theorem Holds.remember {p₀ : Plan} {r : Node} (hn : p.nodes[n]? = some r)
    (hi : ∀ s, p₀.Holds s → s.id = n → s.analysis = .ok i) (ht₀ : p₀.Holds t) (ht : p.Holds t) :
    { p with nodes := p.nodes.setIfInBounds n { r with info := some i } }.Holds t := by
  induction t using induct with
  | node id op cs ih =>
    obtain ⟨r', hr'⟩ := ht.has
    have hcs := fun c hc => ih c hc (ht₀.of_mem hc) (ht.of_mem hc)
    by_cases hid : n = id
    · subst hid
      obtain rfl : r = r' := Option.some.inj (hn.symm.trans hr'.found)
      refine .intro (r := { r with info := some i }) ⟨?_, hr'.op, hr'.children, fun j hj => ?_⟩ hcs
      · exact Array.getElem?_setIfInBounds_self_of_lt (Array.getElem?_eq_some_iff.mp hn).1
      · cases hj
        exact hi _ ht₀ rfl
    · exact .intro ⟨(Array.getElem?_setIfInBounds_ne hid).trans hr'.found, hr'.op, hr'.children, hr'.info⟩ hcs

theorem Holds.setNode {r : Node} (h : p.Holds t) (hn : n ∉ t.ids) :
    { p with nodes := p.nodes.setIfInBounds n r }.Holds t := by
  induction t using induct with
  | node id op cs ih =>
    rw [ids_node, List.mem_cons, List.mem_flatMap, not_or] at hn
    obtain ⟨r', hr'⟩ := h.has
    refine .intro ⟨?_, hr'.op, hr'.children, hr'.info⟩ fun c hc => ih c hc (h.of_mem hc) fun hnc => hn.2 ⟨c, hc, hnc⟩
    exact (Array.getElem?_setIfInBounds_ne hn.1).trans hr'.found

theorem setInfo_meets {p₀ : Plan} (h₀ : Same p₀ p) (hi : ∀ s, p₀.Holds s → s.id = n → s.analysis = .ok i) :
    Meets (p.Lacks n) (setInfo n i) p fun _ p' => Same p₀ p' ∧ ∀ op cs, p.Shows n op cs → (Tree.node n op cs).analysis = .ok i →
      (∀ c ∈ cs, n ∉ c.ids) → p'.Holds (.node n op cs) := by
  refine .bind node_meets fun r p₁ ⟨hp, hr⟩ => ?_
  subst hp
  have hsize : (p₁.nodes.setIfInBounds n { r with info := some i }).size = p₀.nodes.size :=
    (Array.size_setIfInBounds ..).trans h₀.size
  have hself : (p₁.nodes.setIfInBounds n { r with info := some i })[n]? = some { r with info := some i } :=
    Array.getElem?_setIfInBounds_self_of_lt (Array.getElem?_eq_some_iff.mp hr).1
  refine .of_run rfl ⟨⟨⟨fun h => (h₀.keeps.acyclic h).setNode (.inl ⟨r, hr, rfl⟩), hsize.ge, h₀.keeps.vars, fun m r' hr' hm => ?_,
    fun t ht _ => .remember hr hi ht (h₀.still ht)⟩, hsize, h₀.vars, h₀.root⟩, fun op cs h ha hn => ?_⟩
  · obtain ⟨r₁, hr₁, ho, hc⟩ := h₀.keeps.node m r' hr' hm
    by_cases hnm : n = m
    · subst hnm
      cases hr.symm.trans hr₁
      exact ⟨_, hself, ho, hc⟩
    · exact ⟨r₁, (Array.getElem?_setIfInBounds_ne hnm).trans hr₁, ho, hc⟩
  · obtain ⟨⟨r', hr', ho, hch⟩, hbelow⟩ := h
    cases hr.symm.trans hr'
    refine .intro (r := { r with info := some i }) ⟨hself, ho, hch, fun j hj => ?_⟩ fun c hc => (hbelow c hc).setNode (hn c hc)
    cases hj
    exact ha

theorem Shows.depth_le {op : Op} (h : p.Shows n op cs) (hn : ∀ c ∈ cs, n ∉ c.ids) :
    (Tree.node n op cs).depth ≤ p.nodes.size := by
  -- Once its top forgets what it remembers, the plan holds the tree.
  have hheld : { p with nodes := p.nodes.setIfInBounds n ⟨op, cs.map Tree.id, none⟩ }.Holds (.node n op cs) :=
    .intro (r := ⟨op, cs.map Tree.id, none⟩) ⟨Array.getElem?_setIfInBounds_self_of_lt h.lt, rfl, rfl, nofun⟩
      fun c hc => (h.below c hc).setNode (hn c hc)
  exact hheld.depth_le.trans_eq (Array.size_setIfInBounds ..)

/-! ### Analysis -/

/-- No tree is held below the node. -/
def Bare (p : Plan) (n : NodeId) (e : Fault) : Prop := e ≠ .outOfFuel ∧ ∀ t, p.Holds t → t.id ≠ n

theorem Lacks.bare {e : Fault} (h : p.Lacks n e) : p.Bare n e := ⟨h.1, fun _ => h.not_holds⟩

theorem innerOps_meets : Meets (p.Bare n) (innerOps n) p fun inner p' =>
    Same p p' ∧ ∀ t, p.Holds t → t.id = n → inner = t.children.map fun c => (c.op, c.children.head?.map Tree.op) := by
  refine .bind (children_meets.mono (fun _ => Lacks.bare) fun _ _ h => h) fun ns p₁ ⟨hp, r, hr, hns⟩ => ?_
  subst hp hns
  have hchildren : ∀ t, p₁.Holds t → t.id = n → r.children = t.children.map Tree.id := by
    rintro t ht rfl
    exact (ht.has_found hr).children
  refine (mapM_meets (R := fun p m x => ∀ s, p.Holds s → s.id = m → x = (s.op, s.children.head?.map Tree.op))
    (fun m hm q hq => ?_) fun hk hx s hs => hx s (hk.still hs)).mono (fun _ h => h) fun inner p₂ ⟨hk, hall⟩ => ⟨hk, fun t ht htn => ?_⟩
  · have hbelow : ∀ t, p₁.Holds t → t.id = n → ∃ c, q.Holds c ∧ c.id = m := by
      intro t ht htn
      rw [hchildren t ht htn] at hm
      obtain ⟨c, hc, rfl⟩ := List.mem_map.mp hm
      exact ⟨c, hq.still (ht.of_mem hc), rfl⟩
    refine .bind (node_meets.mono (fun e he => ⟨he.1, fun t ht htn => ?_⟩) fun _ _ h => h) fun rm q₁ ⟨hq, hrm⟩ => ?_
    · obtain ⟨c, hc, hid⟩ := hbelow t ht htn
      exact he.not_holds hc hid
    subst hq
    split
    · rename_i hc
      refine .pure ⟨.refl _, ?_⟩
      rintro s hs rfl
      have hhas := hs.has_found hrm
      have hnil : s.children = [] := by simpa [hc] using hhas.children.symm
      simp [hhas.op, hnil]
    · rename_i e rest hc
      have hhead : ∀ s, q₁.Holds s → s.id = m → ∃ c cs, s.children = c :: cs ∧ c.id = e := by
        rintro s hs rfl
        have hcs := (hs.has_found hrm).children
        rw [hc] at hcs
        cases hsc : s.children with
        | nil => simp [hsc] at hcs
        | cons c cs => exact ⟨c, cs, rfl, by simpa [hsc] using (congrArg List.head? hcs).symm⟩
      refine .bind (op_meets.mono (fun e he => ⟨he.1, fun t ht htn => ?_⟩) fun _ _ h => h) fun o q₂ ⟨hq, re, hre, ho⟩ => ?_
      · obtain ⟨s, hs, hsm⟩ := hbelow t ht htn
        obtain ⟨c, cs, hsc, hid⟩ := hhead s hs hsm
        exact he.not_holds (hs.of_mem (hsc ▸ List.mem_cons_self)) hid
      subst hq
      refine .pure ⟨.refl _, fun s hs hsm => ?_⟩
      obtain ⟨c, cs, hsc, rfl⟩ := hhead s hs hsm
      subst hsm
      simp [(hs.has_found hrm).op, ho, hsc, ((hs.of_mem (hsc ▸ List.mem_cons_self)).has_found hre).op]
  · rw [hchildren t ht htn] at hall
    exact eq_map_of_forall₂ (forall₂_imp_mem (List.forall₂_map_left_iff.mp hall) fun c hc x _ hx =>
      hx c (ht.of_mem hc) rfl)

/-- A way to compute analyses that gives those of the trees below the nodes, also where these remember others. It has enough of
    a budget at the nodes that `B` tells, and does not stop with a fault for the trees that `W` tells. -/
def Computes (B : Plan → NodeId → Prop) (W : Tree → Prop) (compute : NodeId → PlanM Info) : Prop :=
  ∀ n p, Meets (fun e => (e = .outOfFuel → ¬B p n) ∧ ∀ op cs, p.Shows n op cs → ¬W (.node n op cs)) (compute n) p fun i p' =>
    Same p p' ∧ ∀ op cs, p.Shows n op cs → (Tree.node n op cs).analysis = .ok i

theorem analysis_of_shows (h : ∀ op cs, p.Shows n op cs → (Tree.node n op cs).analysis = .ok i)
    (ht : p.Holds t) (htn : t.id = n) : t.analysis = .ok i := by
  subst htn
  obtain ⟨id, op, cs⟩ := t
  exact h op cs ht.shows

theorem askChild_meets {B : Plan → NodeId → Prop} {W : Tree → Prop} {compute : NodeId → PlanM Info} (hc : Computes B W compute) :
    Meets (fun e => (e = .outOfFuel → n < p.nodes.size ∧ ¬B p n) ∧ ∀ t, p.Holds t → t.id = n → ¬W t) (askChild compute n) p
      fun ch p' => Same p p' ∧ ∀ t, p.Holds t → t.id = n → ∃ i, t.analysis = .ok i ∧ ch = t.asChild i := by
  have hbare {q : Plan} (hq : Same p q) {e : Fault} (he : q.Bare n e) :
      (e = .outOfFuel → n < p.nodes.size ∧ ¬B p n) ∧ ∀ t, p.Holds t → t.id = n → ¬W t :=
    ⟨fun h => absurd h he.1, fun t ht htn => absurd htn (he.2 t (hq.still ht))⟩
  refine .bind (node_meets.mono (fun _ he => hbare (.refl p) he.bare) fun _ _ h => h) fun r p₁ ⟨hp, hr⟩ => ?_
  subst hp
  -- With the analysis at hand, only the operators below are looked up.
  have known : ∀ i p₂, Same p₁ p₂ → (∀ t, p₁.Holds t → t.id = n → t.analysis = .ok i) →
      Meets (fun e => (e = .outOfFuel → n < p₁.nodes.size ∧ ¬B p₁ n) ∧ ∀ t, p₁.Holds t → t.id = n → ¬W t)
        (do return (⟨r.op, i, ← innerOps n⟩ : Child)) p₂ fun ch p₃ =>
        Same p₁ p₃ ∧ ∀ t, p₁.Holds t → t.id = n → ∃ i, t.analysis = .ok i ∧ ch = t.asChild i := by
    intro i p₂ hk hi
    refine .bind (innerOps_meets.mono (fun _ => hbare hk) fun _ _ h => h) fun inner p₃ ⟨hk', hin⟩ =>
      .pure ⟨hk.trans hk', fun t ht htn => ⟨i, hi t ht htn, ?_⟩⟩
    rw [asChild, hin t (hk.still ht) htn, (ht.has_found (htn ▸ hr)).op]
  split
  · rename_i i hi
    exact known i p₁ (.refl _) fun t ht htn => (ht.has_found (htn ▸ hr)).info i hi
  · refine .bind ((hc n p₁).mono (fun e he => ⟨fun h => ⟨(Array.getElem?_eq_some_iff.mp hr).1, he.1 h⟩, fun t ht htn => ?_⟩)
      fun _ _ h => h) fun i p₂ ⟨hk, hi⟩ => ?_
    · subst htn
      obtain ⟨id, op, cs⟩ := t
      exact he.2 op cs ht.shows
    exact .bind ((setInfo_meets hk fun _ => analysis_of_shows hi).mono (fun _ he => hbare hk he.bare) fun _ _ h => h.1) fun _ p₃ hk' =>
      .bind (.pure (R := fun j q => j = i ∧ q = p₃) ⟨rfl, rfl⟩) fun _ _ ⟨hj, hq⟩ => hj ▸ hq ▸ known i p₃ hk' fun _ => analysis_of_shows hi

/-- Ranks that fall on every way down, in a plan of a number of nodes. -/
structure Ranked (rank : NodeId → Nat) (size : Nat) (p : Plan) : Prop where
  size_eq : p.nodes.size = size
  lt : ∀ m n, p.IsChild m n → m < size → rank m < rank n

/-- Where every way down ends, a node has fewer nodes below it than there are. -/
theorem Acyclic.ranked (h : p.Acyclic) : ∃ rank, Ranked rank p.nodes.size p ∧ ∀ n, rank n ≤ p.nodes.size := by
  classical
  refine ⟨fun n => ((Finset.range p.nodes.size).filter fun m => Relation.TransGen p.IsChild m n).card,
    ⟨rfl, fun m n hmn hm => Finset.card_lt_card (Finset.ssubset_iff_subset_ne.mpr ⟨fun x hx => ?_, fun heq => ?_⟩)⟩,
    fun n => ?_⟩
  · rw [Finset.mem_filter] at hx ⊢
    exact ⟨hx.1, hx.2.tail hmn⟩
  · have hmem : m ∈ (Finset.range p.nodes.size).filter fun x => Relation.TransGen p.IsChild x n :=
      Finset.mem_filter.mpr ⟨Finset.mem_range.mpr hm, .single hmn⟩
    rw [← heq, Finset.mem_filter] at hmem
    exact (h.transGen.irrefl.irrefl m) hmem.2
  · exact (Finset.card_filter_le _ _).trans_eq (Finset.card_range _)

section Ranked
variable {rank : NodeId → Nat} {size : Nat}

theorem Ranked.acyclic (h : Ranked rank size p) : p.Acyclic := by
  have hend : ∀ n, size ≤ n → Acc p.IsChild n := fun n hn => ⟨_, fun m ⟨r, hr, _⟩ =>
    absurd (Array.getElem?_eq_some_iff.mp hr).1 (by rw [h.size_eq]; omega)⟩
  have hacc : ∀ k n, rank n < k → Acc p.IsChild n := by
    intro k
    induction k with
    | zero => exact fun n hn => absurd hn (Nat.not_lt_zero _)
    | succ k ih =>
      refine fun n hn => ⟨_, fun m hmn => ?_⟩
      rcases Nat.lt_or_ge m size with hm | hm
      · exact ih m (Nat.lt_of_lt_of_le (h.lt m n hmn hm) (Nat.le_of_lt_succ hn))
      · exact hend m hm
  exact ⟨fun n => hacc _ n (Nat.lt_succ_self _)⟩

theorem Ranked.same (h : Ranked rank size p) (hs : Same p p') : Ranked rank size p' := by
  refine ⟨hs.size.trans h.size_eq, fun m k ⟨r', hr', hm⟩ => h.lt m k ?_⟩
  have hlt : k < p.nodes.size := hs.size ▸ (Array.getElem?_eq_some_iff.mp hr').1
  obtain ⟨r, hr, -, hc⟩ := hs.keeps.node k _ (Array.getElem?_eq_getElem hlt) (fun h => h)
  cases hr'.symm.trans hr
  exact ⟨_, Array.getElem?_eq_getElem hlt, hc ▸ hm⟩

end Ranked

/-- The analysis of a node is that of the tree below it. A budget above the rank of the node suffices, and one for the depth of
    the tree. -/
theorem computeInfo_meets (fuel : Nat) : Computes (fun p n => ∃ rank size, Ranked rank size p ∧ rank n < fuel)
    (fun t => t.wellFormed ∧ t.depth ≤ fuel) (computeInfo fuel) := by
  induction fuel with
  | zero =>
    refine fun n p => .throw ⟨?_, ?_⟩
    · rintro - ⟨rank, size, -, h⟩
      exact Nat.not_lt_zero _ h
    · rintro op cs - ⟨-, h⟩
      simp [Tree.depth] at h
  | succ fuel ih =>
    intro n p
    refine .bind (node_meets.mono (fun e he => ⟨fun h => absurd h he.1, fun op cs h => ?_⟩) fun _ _ h => h) ?_
    · obtain ⟨r, hr, -⟩ := h.node
      cases he.2.symm.trans hr
    rintro r p₁ ⟨hp, hr⟩
    subst hp
    have hshown : ∀ op cs, p₁.Shows n op cs → r.op = op ∧ r.children = cs.map Tree.id := by
      rintro op cs ⟨⟨r', hr', ho, hc⟩, -⟩
      cases hr.symm.trans hr'
      exact ⟨ho, hc⟩
    refine .bind (mapM_meets (R := fun p m ch => ∀ t, p.Holds t → t.id = m → ∃ i, t.analysis = .ok i ∧ ch = t.asChild i)
      (fun m hm q hq => (askChild_meets ih).mono (fun e he => ⟨fun h => ?_, fun op cs h => ?_⟩) fun _ _ h => h)
      fun hk hx t ht => hx t (hk.still ht)) ?_
    · rintro ⟨rank, size, hrank, hlt⟩
      obtain ⟨hm', hno⟩ := he.1 h
      have hlt' := hrank.lt m n ⟨r, hr, hm⟩ ((hrank.same hq).size_eq ▸ hm')
      exact hno ⟨rank, size, hrank.same hq, by omega⟩
    · rintro ⟨hwf, hd⟩
      rw [(hshown op cs h).2] at hm
      obtain ⟨c, hc, rfl⟩ := List.mem_map.mp hm
      exact he.2 c (hq.still (h.below c hc)) rfl ⟨(wellFormed_node.mp hwf).2 c hc, depth_node_le.mp hd c hc⟩
    rintro chs p₂ ⟨hk, hall⟩
    have hanalyzed : ∀ op cs, p₁.Shows n op cs → ∃ is, Analyzed cs is ∧ chs = List.zipWith asChild cs is := by
      intro op cs h
      rw [(hshown op cs h).2] at hall
      exact analyzed_of_forall₂ (forall₂_imp_mem (List.forall₂_map_left_iff.mp hall) fun c hc ch _ hch => hch c (h.below c hc) rfl)
    refine .lift (fun e he => ⟨fun heq => absurd (heq ▸ he) Op.analyze_spares, ?_⟩) fun i hi => ⟨hk, fun op cs h => ?_⟩
    · rintro op cs h ⟨hwf, -⟩
      obtain ⟨is, his, rfl⟩ := hanalyzed op cs h
      obtain ⟨hf, hcs⟩ := wellFormed_node.mp hwf
      obtain ⟨i, hi⟩ := analyze_ok (shape_of_fits hf) hcs his
      rw [(hshown op cs h).1, hi] at he
      cases he
    · obtain ⟨is, his, rfl⟩ := hanalyzed op cs h
      exact analysis_eq_ok.mpr ⟨is, his, (hshown op cs h).1 ▸ hi⟩

theorem recompute_works (n : NodeId) (p : Plan) : Halts (recompute n) p (fun i p' => Same p p' ∧ ∀ op cs, p.Shows n op cs →
    (Tree.node n op cs).analysis = .ok i ∧ ((∀ c ∈ cs, n ∉ c.ids) → p'.Holds (.node n op cs)))
    (∃ op cs, p.Shows n op cs ∧ (Tree.node n op cs).wellFormed ∧ (Tree.node n op cs).depth ≤ p.nodes.size) := by
  have hshows {q : Plan} (hk : Same p q) {op : Op} {cs : List Tree} (h : p.Shows n op cs) : q.Shows n op cs :=
    h.keeps hk.keeps (fun h => h) fun _ _ _ _ h => h
  refine (Meets.get (.bind ((computeInfo_meets _ n p).mono (fun e he => ⟨fun h hac => ?_, fun ⟨op, cs, h, hwf, hd⟩ => ?_⟩) fun _ _ h => h)
    fun i p₁ ⟨hk, hi⟩ => .bind ((setInfo_meets hk fun _ => analysis_of_shows hi).mono (fun e he => ⟨fun h => absurd h he.1, ?_⟩)
      fun _ _ h => h) fun _ p₂ ⟨hk₂, hset⟩ => .pure ⟨hk₂, fun op cs h => ⟨hi op cs h, fun hn => ?_⟩⟩) :
    Meets (fun e => (e = .outOfFuel → ¬p.Acyclic) ∧ ¬∃ op cs, p.Shows n op cs ∧ _ ∧ _) _ p _).halts
      (fun e he => ⟨fun hac h => he.1 h hac, he.2⟩) fun h => h.1.keeps.acyclic
  · obtain ⟨rank, hr, hle⟩ := hac.ranked
    exact he.1 h ⟨rank, _, hr, Nat.lt_succ_of_le (hle n)⟩
  · exact he.2 op cs h ⟨hwf, Nat.le_succ_of_le hd⟩
  · rintro ⟨op, cs, h, -⟩
    obtain ⟨r, hr, -⟩ := (hshows hk h).node
    exact nomatch he.2.symm.trans hr
  · exact hset op cs (hshows hk h) (hi op cs h) hn

theorem recompute_halts (n : NodeId) (p : Plan) : Halts (recompute n) p fun _ p' => Same p p' :=
  ((recompute_works n p).when nofun).mono fun _ _ h => h.1

theorem Shows.recompute_works {op : Op} (h : p.Shows n op cs) (hn : ∀ c ∈ cs, n ∉ c.ids) :
    Halts (recompute n) p (fun _ p' => Same p p' ∧ p'.Holds (.node n op cs)) ((Tree.node n op cs).wellFormed) :=
  ((Plan.recompute_works n p).when fun hwf => ⟨op, cs, h, hwf, h.depth_le hn⟩).mono fun _ _ hi => ⟨hi.1, (hi.2 op cs h).2 hn⟩

theorem Shows.recompute_halts {op : Op} (h : p.Shows n op cs) (hn : ∀ c ∈ cs, n ∉ c.ids) :
    Halts (recompute n) p fun _ p' => Keeps ∅ p p' ∧ p'.Holds (.node n op cs) :=
  ((h.recompute_works hn).when nofun).mono fun _ _ h => ⟨h.1.keeps, h.2⟩

/-- The analysis of a node, remembered or computed, is that of whatever tree is held below it. That of a well-formed tree is given. -/
theorem info_works (n : NodeId) (p : Plan) : Halts (info n) p
    (fun i p' => Same p p' ∧ ∀ t, p.Holds t → t.id = n → t.analysis = .ok i) (∃ t, p.Holds t ∧ t.id = n ∧ t.wellFormed) := by
  refine .bind (node_meets.halts (fun e he => ⟨fun _ => he.1, fun ⟨t, ht, hn, _⟩ => he.not_holds ht hn⟩) fun ⟨hp, _⟩ => hp ▸ id)
    fun r p₁ ⟨hp, hr⟩ => ?_
  subst hp
  split
  · rename_i i hi
    exact .pure ⟨.refl _, fun t ht htn => (ht.has_found (htn ▸ hr)).info i hi⟩
  · refine ((recompute_works n p₁).when ?_).mono fun i p₂ ⟨hk, hi⟩ => ⟨hk, fun t => analysis_of_shows fun op cs h => (hi op cs h).1⟩
    rintro ⟨⟨id, op, cs⟩, ht, rfl, hwf⟩
    exact ⟨op, cs, ht.shows, hwf, ht.depth_le⟩

theorem info_halts (n : NodeId) (p : Plan) :
    Halts (info n) p fun i p' => Keeps ∅ p p' ∧ ∀ t, p.Holds t → t.id = n → t.analysis = .ok i :=
  ((info_works n p).when nofun).mono fun _ _ h => ⟨h.1.keeps, h.2⟩

theorem relationInfo_works (n : NodeId) (p : Plan) : Halts (relationInfo n) p
    (fun i p' => Same p p' ∧ ∀ t, p.Holds t → t.id = n → t.analysis = .ok i)
    (∃ t, p.Holds t ∧ t.id = n ∧ t.wellFormed ∧ t.IsRelational) := by
  refine .bind (R := fun k p' => p' = p ∧ ∃ r, p.nodes[n]? = some r ∧ k = r.op.kind) (.bind (op_meets.halts
    (fun e he => ⟨fun _ => he.1, fun ⟨t, ht, hn, _⟩ => he.not_holds ht hn⟩) fun ⟨hp, _⟩ => hp ▸ id)
      fun _ _ ⟨hp, r, hr, ho⟩ => .pure ⟨hp, r, hr, ho ▸ rfl⟩) fun k p₁ ⟨hp, r, hr, hk⟩ => ?_
  subst hp hk
  split
  · exact (info_works n p₁).when fun ⟨t, ht, hn, hwf, _⟩ => ⟨t, ht, hn, hwf⟩
  · rename_i hrel
    exact .throw nofun fun ⟨t, ht, hn, _, h⟩ => hrel ((ht.has_found (hn ▸ hr)).op ▸ h)

theorem relationInfo_halts (n : NodeId) (p : Plan) :
    Halts (relationInfo n) p fun i p' => Keeps ∅ p p' ∧ ∀ t, p.Holds t → t.id = n → t.analysis = .ok i :=
  ((relationInfo_works n p).when nofun).mono fun _ _ h => ⟨h.1.keeps, h.2⟩

section Holds
variable {t : Tree} (ht : p.Holds t) (hwf : t.wellFormed)
include ht hwf

theorem Holds.recompute_reaches : Reaches (recompute t.id) p fun _ p' => Same p p' := by
  obtain ⟨id, op, cs⟩ := t
  exact ((recompute_works id p).reaches ⟨op, cs, ht.shows, hwf, ht.depth_le⟩).mono fun _ _ h => h.1

theorem Holds.info_reaches : Reaches (info t.id) p fun i p' => Keeps ∅ p p' ∧ t.analysis = .ok i :=
  ((info_works t.id p).reaches ⟨t, ht, rfl, hwf⟩).mono fun _ _ h => ⟨h.1.keeps, h.2 t ht rfl⟩

theorem Holds.relationInfo_reaches (hrel : t.IsRelational) : Reaches (relationInfo t.id) p fun i p' => Keeps ∅ p p' ∧ t.analysis = .ok i :=
  ((relationInfo_works t.id p).reaches ⟨t, ht, rfl, hwf, hrel⟩).mono fun _ _ h => ⟨h.1.keeps, h.2 t ht rfl⟩

end Holds

end Plan

end Planwright
