import Planwright.Proofs.Plan.Substitute
import Planwright.Proofs.Rule.Match

/-! Lists of definitions, as the rules take them apart and put them together. -/

namespace Planwright

open Run RuleM

namespace Tree

structure Def where
  node : NodeId
  var : VarId
  expr : Tree

namespace Def

def tree (d : Def) : Tree := .node d.node (.varDef d.var) [d.expr]

def ids (d : Def) : List NodeId := d.node :: d.expr.ids

def binds (d : Def) : List VarId := d.var :: d.expr.binds

@[simp] theorem id_tree (d : Def) : d.tree.id = d.node := rfl

@[simp] theorem ids_tree (d : Def) : d.tree.ids = d.ids := by simp [tree, ids]

@[simp] theorem binds_tree (d : Def) : d.tree.binds = d.binds := by simp [tree, binds]

end Def

def defs (n : NodeId) (ds : List Def) : Tree := .node n .varDefList (ds.map Def.tree)

section Defs
variable {n : NodeId} {ds : List Def} {ρ : VarId → VarId} {v u : VarId}

theorem map_id_tree (ds : List Def) : (ds.map Def.tree).map Tree.id = ds.map Def.node := by simp

@[simp] theorem id_defs : (defs n ds).id = n := rfl

@[simp] theorem kind_defs : (defs n ds).kind = .varDefList := rfl

@[simp] theorem ids_defs : (defs n ds).ids = n :: ds.flatMap Def.ids := by
  rw [defs, ids_node, List.flatMap_map]
  simp

@[simp] theorem binds_defs : (defs n ds).binds = ds.flatMap Def.binds := by
  rw [defs, binds_node, List.flatMap_map]
  simp

@[simp] theorem defines_defs : Defines ρ (defs n ds) v ↔ ∃ d ∈ ds, d.var = v := by
  rw [defs, defines_varDefList]
  simp [Def.tree, defines_node, eq_comm]

@[simp] theorem uses_defs : Uses ρ (defs n ds) u ↔ ∃ d ∈ ds, Uses ρ d.expr u := by
  rw [defs, uses_varDefList]
  simp [Def.tree, uses_node]

@[simp] theorem scoped_defs : Scoped ρ (defs n ds) ↔ ∀ d ∈ ds, Scoped ρ d.expr := by
  simp [defs, scoped_node, Def.tree]

@[simp] theorem wellFormed_defs : (defs n ds).wellFormed ↔
    ∀ d ∈ ds, d.expr.IsExpression ∧ d.expr.wellFormed := by
  rw [defs, wellFormed_varDefList, List.forall_mem_map, List.forall_mem_map, ← forall₂_and]
  refine forall₂_congr fun d _ => ?_
  rw [Def.tree, wellFormed_varDef]
  exact ⟨And.right, fun h => ⟨rfl, h⟩⟩

theorem vars_sublist (ds : List Def) : (ds.map Def.var).Sublist (ds.flatMap Def.binds) := by
  induction ds with
  | nil => exact .slnil
  | cons d ds ih => exact .cons_cons _ (ih.trans (List.sublist_append_right _ _))

theorem exists_defs {t : Tree} (ht : t.wellFormed) (hk : t.kind = .varDefList) : ∃ n ds, t = defs n ds := by
  obtain ⟨n, cs, rfl⟩ := looks ht hk
  obtain ⟨hks, hwfs⟩ := wellFormed_varDefList.mp ht
  refine ⟨n, ?_⟩
  suffices ∃ ds : List Def, cs = ds.map Def.tree by
    obtain ⟨ds, rfl⟩ := this
    exact ⟨ds, rfl⟩
  clear ht hk
  induction cs with
  | nil => exact ⟨[], rfl⟩
  | cons c cs ih =>
    obtain ⟨ds, rfl⟩ := ih (fun d hd => hks d (List.mem_cons_of_mem _ hd)) fun d hd => hwfs d (List.mem_cons_of_mem _ hd)
    obtain ⟨m, v, e, rfl⟩ := looks (hwfs c List.mem_cons_self) (hks c List.mem_cons_self)
    exact ⟨⟨m, v, e⟩ :: ds, rfl⟩

end Defs

end Tree

namespace Plan

open Planwright.Tree

variable {p : Plan} {n : NodeId} {ds : List Def}

theorem Holds.member (h : p.Holds (defs n ds)) {d : Def} (hd : d ∈ ds) : p.Holds d.tree :=
  h.of_mem (List.mem_map_of_mem hd)

theorem Holds.expr {d : Def} (h : p.Holds d.tree) : p.Holds d.expr := h.of_mem (List.mem_singleton_self _)

theorem Holds.defs_run (h : p.Holds (defs n ds)) : Plan.children n p = .ok (ds.map Def.node, p) := by
  rw [← map_id_tree]
  exact h.children_run

theorem varDefList_halts (ds : List Def) (h : ∀ d ∈ ds, p.Holds d.tree) : Halts (varDefList (ds.map Def.node)) p fun n p' =>
    Grows ∅ [n] [] p p' ∧ p'.Holds (defs n ds) := by
  rw [← map_id_tree]
  refine (create_halts _ ?_).mono fun n p' hn => ⟨hn.grows, hn.holds⟩
  simpa using h

theorem definedVar_of_found {r : Node} {v : VarId} (h : p.nodes[n]? = some r) (ho : r.op = .varDef v) :
    definedVar n p = .ok (v, p) := by
  have hop : Plan.op n p = .ok (.varDef v, p) := by
    rw [Plan.op, bind_run, node_of_found h, ← ho]
    rfl
  rw [definedVar, bind_run, hop]
  rfl

theorem definedVar_run {d : Def} (h : p.Holds d.tree) : definedVar d.node p = .ok (d.var, p) := by
  obtain ⟨r, hr, ho, -⟩ := h.shows.node
  exact definedVar_of_found hr ho

/-- Definitions as they are put in for their variables. -/
structure Collected (s : Substitution) (ds : List Def) (s' : Substitution) (σ : List (VarId × Tree)) : Prop where
  eq : s' = s ++ σ.map fun x => (x.1, x.2.id)
  scalar : ∀ d ∈ ds, d.expr.isScalar = true
  mem : ∀ x ∈ σ, ∃ d ∈ ds, x = (d.var, d.expr)
  all : (ds.map Def.var).Nodup → (∀ d ∈ ds, s.lookup d.var = none) → σ = ds.map fun d => (d.var, d.expr)

theorem isCostly_halts {c : Context} {uses : Option (List VarId)} {size : Nat} {d : Def} (h : p.Holds d.tree) :
    HaltsIn (isCostly uses size d.node) c p fun _ c' p' => c' = c ∧ p' = p := by
  cases uses with
  | none => exact .pure ⟨rfl, rfl⟩
  | some us =>
    refine .get ?_
    split
    · exact .read (definedVar_run h) (.pure ⟨rfl, rfl⟩)
    · exact .pure ⟨rfl, rfl⟩

section
variable {s s' : Substitution} {σ : List (VarId × Tree)} {d : Def}

theorem Collected.again (h : Collected s ds s' σ) (hd : d.expr.isScalar) (hs : s.lookup d.var ≠ none) :
    Collected s (d :: ds) s' σ := by
  refine ⟨h.eq, List.forall_mem_cons.mpr ⟨hd, h.scalar⟩, fun x hx => ?_, fun _ hnew => absurd (hnew d List.mem_cons_self) hs⟩
  obtain ⟨e, he, rfl⟩ := h.mem x hx
  exact ⟨e, List.mem_cons_of_mem _ he, rfl⟩

theorem Collected.new (h : Collected (s ++ [(d.var, d.expr.id)]) ds s' σ) (hd : d.expr.isScalar) :
    Collected s (d :: ds) s' ((d.var, d.expr) :: σ) := by
  refine ⟨by rw [h.eq]; simp, List.forall_mem_cons.mpr ⟨hd, h.scalar⟩, ?_, fun hv hs => ?_⟩
  · refine List.forall_mem_cons.mpr ⟨⟨d, List.mem_cons_self, rfl⟩, fun x hx => ?_⟩
    obtain ⟨e, he, rfl⟩ := h.mem x hx
    exact ⟨e, List.mem_cons_of_mem _ he, rfl⟩
  · rw [List.map_cons, List.nodup_cons] at hv
    rw [h.all hv.2 fun e he => ?_, List.map_cons]
    have hne : e.var ≠ d.var := fun heq => hv.1 (heq ▸ List.mem_map_of_mem he)
    rw [List.lookup_append, hs e (List.mem_cons_of_mem _ he), List.lookup_cons, beq_false_of_ne hne]
    rfl

end

theorem collect_halts {c : Context} {uses : Option (List VarId)} {s : Substitution} (h : ∀ d ∈ ds, p.Holds d.tree) :
    HaltsIn (collect uses s (ds.map Def.node)) c p fun out c' p' => c' = c ∧ p' = p ∧ ∀ s', out = some s' →
      ∃ σ, Collected s ds s' σ := by
  induction ds generalizing s with
  | nil =>
    refine .pure ⟨rfl, rfl, fun s' hs' => ⟨[], ?_, by simp, by simp, fun _ _ => rfl⟩⟩
    simpa using (Option.some.inj hs').symm
  | cons d ds ih =>
    obtain ⟨hd, hds⟩ := List.forall_mem_cons.mp h
    refine .read (hd.child_run rfl) (.step hd.expr.tree_halts ?_)
    rintro _ p ⟨rfl, rfl⟩
    split
    · exact .pure ⟨rfl, rfl, by simp⟩
    rename_i size hsize
    have hscalar : d.expr.isScalar := by rw [isScalar, hsize]; rfl
    refine .bind (isCostly_halts hd) ?_
    rintro _ _ _ ⟨rfl, rfl⟩
    split
    · exact .pure ⟨rfl, rfl, by simp⟩
    refine .read (definedVar_run hd) ?_
    split
    · rename_i hother
      split
      · exact .getPlan (.bind (R := fun _ _ _ => False) (.throw (by simp)) fun _ _ _ h => h.elim)
      refine (ih hds).mono ?_
      rintro out _ _ ⟨rfl, rfl, hout⟩
      refine ⟨rfl, rfl, fun s' hs' => ?_⟩
      obtain ⟨σ, h⟩ := hout s' hs'
      exact ⟨σ, h.again hscalar (by simp [hother])⟩
    · refine (ih hds).mono ?_
      rintro out _ _ ⟨rfl, rfl, hout⟩
      refine ⟨rfl, rfl, fun s' hs' => ?_⟩
      obtain ⟨σ, h⟩ := hout s' hs'
      exact ⟨_, h.new hscalar⟩

theorem substitution?_halts {c : Context} {uses : Option (List VarId)} (h : p.Holds (defs n ds)) :
    HaltsIn (substitution? n uses) c p fun out c' p' => c' = c ∧ p' = p ∧ ∀ s, out = some s → ∃ σ, Collected [] ds s σ :=
  .read h.defs_run (collect_halts fun _ hd => h.member hd)

theorem Collected.offers {s s' : Substitution} {σ : List (VarId × Tree)} (h : Collected s ds s' σ)
    (hheld : p.Holds (defs n ds)) (hwf : (defs n ds).wellFormed) : p.Offers σ := by
  intro x hx
  obtain ⟨d, hd, rfl⟩ := h.mem x hx
  exact ⟨(hheld.member hd).expr, h.scalar d hd, (wellFormed_defs.mp hwf d hd).2⟩

theorem Collected.mem_ids {s s' : Substitution} {σ : List (VarId × Tree)} (h : Collected s ds s' σ) {x : VarId × Tree} (hx : x ∈ σ)
    {z : NodeId} (hz : z ∈ x.2.ids) : z ∈ (defs n ds).ids := by
  obtain ⟨d, hd, rfl⟩ := h.mem x hx
  rw [ids_defs]
  exact List.mem_cons_of_mem _ (List.mem_flatMap.mpr ⟨d, hd, List.mem_cons_of_mem _ hz⟩)

end Plan

end Planwright
