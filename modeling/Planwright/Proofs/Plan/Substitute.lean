import Planwright.Proofs.Plan.Copy

/-! Substitution. References in an expression give way to copies of expressions, and all else in it stays. -/

namespace Planwright

open Run

namespace Tree

/-- References to the variables of `σ` are replaced by mirrors of their expressions, and nothing else is. -/
inductive Fills (σ : List (VarId × Tree)) : Tree → Tree → Prop
  | kept {n : NodeId} {v : VarId} {type : ScalarType} : σ.lookup v = none →
      Fills σ (.node n (.varRef v type) []) (.node n (.varRef v type) [])
  | filled {n : NodeId} {v : VarId} {type : ScalarType} {x x' : Tree} : σ.lookup v = some x → Mirrors (·) x x' →
      Fills σ (.node n (.varRef v type) []) x'
  | node {n : NodeId} {op : Op} {cs cs' : List Tree} : (∀ v type, op ≠ .varRef v type) → List.Forall₂ (Fills σ) cs cs' →
      Fills σ (.node n op cs) (.node n op cs')

/-- The new expression is the old one with the expressions of `σ` put in for their variables. -/
structure Substituted (σ : List (VarId × Tree)) (e e' : Tree) : Prop where
  scalar : e'.isScalar = true
  wellFormed : e'.wellFormed = true
  bulk : (∀ x ∈ σ, x.2.outline.bulk ≤ 1) → e'.outline.bulk ≤ e.outline.bulk
  fills : Fills σ e e'

variable {σ : List (VarId × Tree)}

theorem bulk_of_isExpression {n : NodeId} {op : Op} {cs : List Tree} (h : op.kind.isScalar) :
    (node n op cs).outline.bulk = 1 + (cs.map fun c => c.outline.bulk).sum := by
  rw [outline_node, Outline.bulk_of_not_relational (Outline.not_relational_of_isScalar h), List.map_map]
  rfl

theorem Substituted.node {n : NodeId} {op : Op} {cs cs' : List Tree} (hs : (node n op cs).isScalar)
    (hwf : (node n op cs).wellFormed) (ho : ∀ v type, op ≠ .varRef v type)
    (h : List.Forall₂ (Substituted σ) cs cs') : Substituted σ (node n op cs) (node n op cs') := by
  obtain ⟨hop, hcs⟩ := isScalar_node.mp hs
  obtain ⟨hf, -⟩ := wellFormed_node.mp hwf
  refine ⟨isScalar_node.mpr ⟨hop, fun c' hc' => ?_⟩, wellFormed_node.mpr ⟨fits_of_sameRole ?_ hf, fun c' hc' => ?_⟩,
    fun hσ => ?_, .node ho (h.imp fun _ _ h => h.fills)⟩
  · obtain ⟨c, -, h⟩ := exists_of_forall₂_right h hc'
    exact h.scalar
  · refine List.forall₂_map_left_iff.mpr (List.forall₂_map_right_iff.mpr (forall₂_imp_mem h fun c hc c' _ h => ?_))
    exact sameRole_of_scalar (isExpression_of_isScalar (hcs c hc)) (isExpression_of_isScalar h.scalar)
  · obtain ⟨c, -, h⟩ := exists_of_forall₂_right h hc'
    exact h.wellFormed
  · rw [bulk_of_isExpression hop, bulk_of_isExpression hop]
    exact Nat.add_le_add_left (List.Forall₂.sum_le_sum (List.forall₂_map_left_iff.mpr (List.forall₂_map_right_iff.mpr
      (h.flip.imp fun _ _ h => h.bulk hσ)))) 1

end Tree

namespace Plan

open Planwright.Tree

variable {e : Tree} {σ : List (VarId × Tree)}
variable {p : Plan} {k : Nat}

/-- A copy of an expression that is scalar throughout has the same outline and mirrors it. -/
theorem copyExpr_reaches (he : p.Holds e) (hs : e.isScalar) (hwf : e.wellFormed) :
    Reaches (copyExpr e.id) p fun n p' => ∃ e', e'.id = n ∧ p'.Holds e' ∧ Grows ∅ e'.ids [] p p' ∧ e.Alike e' ∧
      Mirrors (·) e e' := by
  refine .read he.op_run ?_
  split
  · rename_i v type hop
    obtain ⟨id, op, cs⟩ := e
    obtain rfl : op = .varRef v type := hop
    obtain rfl : cs = [] := by
      cases shape_of_fits (wellFormed_node.mp hwf).1 with
      | scalar _ _ ha => exact List.length_eq_zero_iff.mp (length_eq_of_admits rfl ha)
    refine Reaches.read (a := p.vars.type v) rfl (((create_works [] nofun).reaches rfl).mono fun n p₁ hn => ?_)
    exact ⟨_, rfl, hn.holds, hn.grows, .node rfl (fun _ h => h) .nil, .node (.varRef v type _) .nil⟩
  · refine .bind ((copySubtree_works he).reaches ⟨hwf, by simp [binds_of_isScalar hs]⟩) fun out p₁ ⟨e', vs, hid, h⟩ =>
      .pure ⟨e', hid, h.holds, ?_, h.alike, ?_⟩
    · obtain rfl : vs = [] := List.length_eq_zero_iff.mp (by rw [h.registers.length, binds_of_isScalar hs]; rfl)
      exact h.registers.grows
    · obtain ⟨k, hk⟩ := exists_valid_of_isScalar hs hwf
      obtain ⟨μ, hμ, -, huses⟩ := h.replicates.mirrors k hk (sorted_of_isScalar hs)
      exact hμ.of_isScalar hs huses

theorem copyExpr_halts (he : p.Holds e) (hs : e.isScalar) (hwf : e.wellFormed) :
    Halts (copyExpr e.id) p fun n p' => ∃ e', e'.id = n ∧ p'.Holds e' ∧ Grows ∅ e'.ids [] p p' ∧ e.Alike e' ∧
      Mirrors (·) e e' :=
  (copyExpr_reaches he hs hwf).halts fun ⟨_, _, _, hg, _⟩ => hg.keeps.acyclic

theorem mem_of_lookup {α β : Type} [BEq α] [LawfulBEq α] {xs : List (α × β)} {a : α} {b : β} (h : xs.lookup a = some b) :
    (a, b) ∈ xs := by
  obtain ⟨l₁, l₂, rfl, -⟩ := List.lookup_eq_some_iff.mp h
  exact List.mem_append_right _ List.mem_cons_self

theorem lookup_ids (σ : List (VarId × Tree)) (v : VarId) :
    (σ.map fun x => (x.1, x.2.id)).lookup v = (σ.lookup v).map Tree.id := by
  induction σ with
  | nil => rfl
  | cons x σ ih =>
    rw [List.map_cons, List.lookup_cons, List.lookup_cons, ih]
    split <;> rfl

/-- An expression was changed in place, with copies of others put into it. -/
structure SubstitutedTo (σ : List (VarId × Tree)) (p : Plan) (e : Tree) (n : NodeId) (p' : Plan) (e' : Tree)
    (fs : List NodeId) : Prop where
  id : e'.id = n
  holds : p'.Holds e'
  grows : Grows {x | x ∈ e.ids} fs [] p p'
  ids : ∀ x, e'.ids.count x ≤ fs.count x + e.ids.count x
  substituted : e.Substituted σ e'

/-- The expressions that are put in: the plan holds them, and they are scalar throughout. -/
def Offers (p : Plan) (σ : List (VarId × Tree)) : Prop :=
  ∀ x ∈ σ, p.Holds x.2 ∧ x.2.isScalar = true ∧ x.2.wellFormed = true

/-- The first `i` children of an expression have been changed. -/
structure Replaced (σ : List (VarId × Tree)) (p : Plan) (n : NodeId) (op : Op) (cs : List Tree) (i : Nat) (p' : Plan)
    (cs' : List Tree) (fs : List NodeId) : Prop where
  holds : p'.Holds (.node n op cs')
  grows : Grows {x | x ∈ (Tree.node n op cs).ids} fs [] p p'
  ids : ∀ x, (Tree.node n op cs').ids.count x ≤ fs.count x + (Tree.node n op cs).ids.count x
  length : cs'.length = cs.length
  done : ∀ j c c', j < i → cs[j]? = some c → cs'[j]? = some c' → c.Substituted σ c'
  rest : ∀ j, i ≤ j → cs'[j]? = cs[j]?

section
variable {σ : List (VarId × Tree)} {n : NodeId} {op : Op} {cs cs' : List Tree} {i : Nat} {p' : Plan} {fs : List NodeId}

theorem Replaced.step {f : NodeId → PlanM NodeId} (hn : (Tree.node n op cs).ids.Nodup)
    (hlt : ∀ x ∈ (Tree.node n op cs).ids, x < p.nodes.size) (h : Replaced σ p n op cs i p' cs' fs) {c : Tree}
    (hc : cs[i]? = some c)
    (hf : Reaches (f c.id) p' fun m p'' => ∃ c' gs, SubstitutedTo σ p' c m p'' c' gs) : Reaches (do
      let c' ← f (← child n i)
      setChild n i c') p' fun _ p'' => ∃ cs'' gs, Replaced σ p n op cs (i + 1) p'' cs'' gs := by
  have hc' : cs'[i]? = some c := (h.rest i (Nat.le_refl i)).trans hc
  refine .read (h.holds.child_run hc') (.bind hf fun m p₁ ⟨c', gs, hs⟩ => ?_)
  obtain rfl := hs.id
  have hn' : (Tree.node n op cs').ids.Nodup := (h.grows.nodes.parts hlt h.ids).nodup hn
  obtain ⟨r, hr, ho, hch⟩ := h.holds.shows.node
  obtain ⟨r', hr', ho', hch'⟩ := hs.grows.keeps.node n r hr (not_mem_of_child hn' c (List.mem_of_getElem? hc'))
  have hgrows := h.grows.trans hs.grows fun x hx _ => ids_subset_of_child hc x hx
  have hids : ∀ x, (Tree.node n op (cs'.set i c')).ids.count x ≤
      (fs ++ gs).count x + (Tree.node n op cs).ids.count x := by
    intro x
    have hset := Parts.count_flatMap_set (f := Tree.ids) hc' c' x
    have hold := h.ids x
    have hnew := hs.ids x
    simp only [ids_node, List.count_cons, List.count_append] at hold ⊢
    omega
  refine ((setChild_works hr' (ho'.trans ho) ?_ (holds_set h.holds.shows hn' hc' hs.grows.keeps hs.holds)
    (not_mem_of_child ((hgrows.nodes.parts hlt hids).nodup hn))).reaches ?_).mono
      fun _ p₂ ⟨hk, hh, _⟩ => ⟨cs'.set i c', fs ++ gs, hh, ?_, hids, ?_, fun j d d' hj hd hd' => ?_, fun j hj => ?_⟩
  · rw [hch', hch, List.map_set]
  · rw [List.length_set]
    exact (List.getElem?_eq_some_iff.mp hc').1
  · refine hgrows.after hk fun x hx _ => ?_
    obtain rfl : x = n := hx
    exact id_mem_ids (.node x op cs)
  · rw [List.length_set, h.length]
  · rcases Nat.lt_succ_iff_lt_or_eq.mp hj with hj | rfl
    · rw [List.getElem?_set_ne (by omega)] at hd'
      exact h.done j d d' hj hd hd'
    · rw [hc] at hd
      rw [List.getElem?_set_self (List.getElem?_eq_some_iff.mp hc').1] at hd'
      cases hd
      cases hd'
      exact hs.substituted
  · rw [List.getElem?_set_ne (by omega)]
    exact h.rest j (by omega)

theorem Replaced.run {f : NodeId → PlanM NodeId} (hn : (Tree.node n op cs).ids.Nodup)
    (hlt : ∀ x ∈ (Tree.node n op cs).ids, x < p.nodes.size) (h : Replaced σ p n op cs i p' cs' fs)
    (hf : ∀ c ∈ cs, ∀ p', Keeps {x | x ∈ (Tree.node n op cs).ids} p p' → p'.Holds c → Reaches (f c.id) p' fun m p'' =>
      ∃ c' gs, SubstitutedTo σ p' c m p'' c' gs) {m : Nat} (hm : i + m = cs.length) :
    Reaches ((List.range' i m).forM fun i => do
      let c' ← f (← child n i)
      setChild n i c') p' fun _ p'' => ∃ cs'' gs, Replaced σ p n op cs (i + m) p'' cs'' gs := by
  induction m generalizing i p' cs' fs with
  | zero => exact .pure ⟨cs', fs, h⟩
  | succ m ih =>
    rw [List.range'_succ, List.forM]
    have hc : cs[i]? = some cs[i] := List.getElem?_eq_getElem (by omega)
    have hmem := List.mem_of_getElem? hc
    have hheld : p'.Holds cs[i] := h.holds.of_mem (List.mem_of_getElem? ((h.rest i (Nat.le_refl i)).trans hc))
    refine .bind (h.step hn hlt hc (hf _ hmem p' h.grows.keeps hheld)) fun _ p₁ ⟨cs₁, fs₁, h₁⟩ => ?_
    exact (ih h₁ (by omega)).mono fun _ p₂ ⟨cs₂, fs₂, h₂⟩ => ⟨cs₂, fs₂, by rwa [← Nat.add_right_comm] at h₂⟩

end

theorem substituteWithin_reaches {fuel : Nat} (hσ : p.Offers σ)
    (hdis : ∀ x ∈ σ, ∀ y ∈ x.2.ids, y ∉ e.ids) (he : p.Holds e) (hn : e.ids.Nodup) (hs : e.isScalar)
    (hwf : e.wellFormed) (hfuel : e.depth ≤ fuel) :
    Reaches (substituteWithin (σ.map fun x => (x.1, x.2.id)) fuel e.id) p fun n p' =>
      ∃ e' fs, SubstitutedTo σ p e n p' e' fs := by
  induction fuel generalizing e p with
  | zero =>
    cases e
    exact absurd hfuel (by simp [Tree.depth])
  | succ fuel ih =>
    obtain ⟨n, op, cs⟩ := e
    obtain ⟨r, hr⟩ := he.has
    obtain ⟨hop, hcs⟩ := isScalar_node.mp hs
    obtain ⟨-, hwfs⟩ := wellFormed_node.mp hwf
    rw [substituteWithin]
    refine .read (node_of_found hr.found) ?_
    have hro : r.op = op := hr.op
    have hrc : r.children = cs.map Tree.id := hr.children
    rw [hro, hrc, hop, id_node, if_neg (by decide)]
    split
    · -- A reference gives way to a copy, or stays.
      rename_i v type
      obtain rfl : cs = [] := by
        cases shape_of_fits (wellFormed_node.mp hwf).1 with
        | scalar _ _ ha => exact List.length_eq_zero_iff.mp (length_eq_of_admits rfl ha)
      rw [lookup_ids]
      cases hx : σ.lookup v with
      | some x =>
        have hmem := mem_of_lookup hx
        obtain ⟨hheld, hscalar, hwfx⟩ := hσ (v, x) hmem
        refine (copyExpr_reaches hheld hscalar hwfx).mono ?_
        rintro m p' ⟨x', hid, hh, hg, halike, hmirrors⟩
        refine ⟨x', x'.ids, hid, hh, hg.mono fun _ h => h.elim, fun y => Nat.le_add_right _ _, halike.isScalar.mpr hscalar,
          halike.wellFormed hwfx, fun hbulk => ?_, .filled hx hmirrors⟩
        rw [halike.outline, bulk_of_isExpression rfl]
        exact hbulk _ hmem
      | none =>
        exact .pure ⟨.node n (.varRef v type) [], [], rfl, he, (Keeps.refl _ _).grows, fun y => by simp, hs, hwf,
          fun _ => Nat.le_refl _, .kept hx⟩
    · rename_i hno
      have hstart : Replaced σ p n op cs 0 p cs [] :=
        ⟨he, (Keeps.refl _ _).grows, fun x => by simp, rfl, by simp, fun _ _ => rfl⟩
      rw [List.range_eq_range', List.length_map]
      refine .bind (hstart.run hn he.ids_lt (fun c hc p' hk hheld => ?_) (Nat.zero_add _)) ?_
      · obtain ⟨j, hj⟩ := List.mem_iff_getElem?.mp hc
        have hsub : ∀ y ∈ c.ids, y ∈ (Tree.node n op cs).ids := ids_subset_of_child hj
        refine ih (fun x hx => ?_) (fun x hx y hy hyc => hdis x hx y hy (hsub y hyc)) hheld ?_ (hcs c hc) (hwfs c hc)
          (depth_node_le.mp hfuel c hc)
        · obtain ⟨hheld, hrest⟩ := hσ x hx
          exact ⟨hk.holds x.2 hheld (hdis x hx), hrest⟩
        · rw [ids_node] at hn
          exact (List.nodup_flatMap.mp (List.nodup_cons.mp hn).2).1 c hc
      · rintro - p₁ ⟨cs', fs, h⟩
        have hsub : Substituted σ (.node n op cs) (.node n op cs') := by
          refine .node hs hwf (fun v type heq => hno v type heq) (List.forall₂_iff_get.mpr ⟨h.length.symm, fun j hj hj' => ?_⟩)
          exact h.done j _ _ (by omega) (List.getElem?_eq_getElem hj) (List.getElem?_eq_getElem hj')
        refine .bind (h.holds.recompute_reaches hsub.wellFormed) fun _ p₂ hk => ?_
        exact .pure ⟨.node n op cs', fs, rfl, hk.still h.holds, h.grows.still hk.keeps, h.ids, hsub⟩

theorem substitute_reaches (hσ : p.Offers σ)
    (hdis : ∀ x ∈ σ, ∀ y ∈ x.2.ids, y ∉ e.ids) (he : p.Holds e) (hn : e.ids.Nodup) (hs : e.isScalar)
    (hwf : e.wellFormed) : Reaches (substitute (σ.map fun x => (x.1, x.2.id)) e.id) p fun n p' =>
      ∃ e' fs, SubstitutedTo σ p e n p' e' fs := by
  refine .read (a := p) rfl (substituteWithin_reaches hσ hdis he hn hs hwf ?_)
  exact he.depth_le.trans ((Nat.le_succ _).trans (Nat.le_mul_of_pos_left _ (Nat.succ_pos _)))

theorem substitute_halts (hσ : p.Offers σ)
    (hdis : ∀ x ∈ σ, ∀ y ∈ x.2.ids, y ∉ e.ids) (he : p.Holds e) (hn : e.ids.Nodup) (hs : e.isScalar)
    (hwf : e.wellFormed) : Halts (substitute (σ.map fun x => (x.1, x.2.id)) e.id) p fun n p' =>
      ∃ e' fs, SubstitutedTo σ p e n p' e' fs :=
  (substitute_reaches hσ hdis he hn hs hwf).halts fun ⟨_, _, h⟩ => h.grows.keeps.acyclic

end Plan

end Planwright
