import Planwright.Proofs.Plan.Rename
import Planwright.Proofs.Plan.Same
import Planwright.Proofs.Variable.Chain

/-! Renamings carried out. Where no chain of renamings runs in a circle, renaming a subtree ends without a fault and leaves the
    tree with each reference at the end of its chain, which says what changes and that nothing does a second time. -/

namespace Planwright

open Run

namespace Op

variable {ρ : VarId → VarId} {types : VarId → ScalarType} {op : Op}

/-- The variables that an operator refers to. What it brings into being itself is not among them. -/
def references : Op → List VarId
  | varRef v _ => [v]
  | project vs | distinct vs => vs.toList
  | groupBy keys outputs => keys.toList ++ outputs.toList
  | combine _ _ left right => left.entries.map (·.2) ++ right.entries.map (·.2)
  | sort keys | constrainedSort keys => keys.map (·.var)
  | _ => []

theorem mem_references_resolved {w : VarId} : w ∈ (op.resolved ρ types).references ↔ ∃ v ∈ op.references, ρ v = w := by
  rw [← List.mem_map]
  cases op with
  | varRef v type =>
    have href : ((varRef v type).resolved ρ types).references = [ρ v] := by
      rw [resolved]
      split
      · rename_i heq
        rw [heq]
        rfl
      · rfl
    rw [href]
    rfl
  | project | distinct | groupBy keys outputs => simp [resolved, references]
  | combine kind outputs left right => simp [resolved, references, VarMap.mapTo, Function.comp_def]
  | sort keys | constrainedSort keys => simp [resolved, references, Function.comp_def]
  | _ => simp [resolved, references]

theorem resolved_of_fixed (h : ∀ v ∈ op.references, ρ v = v) : op.resolved ρ types = op := by
  have keys_eq : ∀ keys : List SortKey, (∀ v ∈ keys.map (·.var), ρ v = v) →
      keys.map (fun k => (⟨ρ k.var, k.ascending⟩ : SortKey)) = keys := by
    intro keys hk
    conv_rhs => rw [← List.map_id keys]
    exact List.map_congr_left fun k hmem => by rw [hk _ (List.mem_map_of_mem hmem), id]
  cases op with
  | varRef v type => exact if_pos (h v List.mem_cons_self)
  | project vs | distinct vs => rw [resolved, VarSet.image_of_fixed fun v hv => h v (VarSet.mem_toList.mpr hv)]
  | groupBy keys outputs =>
    rw [resolved, VarSet.image_of_fixed fun v hv => h v (List.mem_append_left _ (VarSet.mem_toList.mpr hv)),
      VarSet.image_of_fixed fun v hv => h v (List.mem_append_right _ (VarSet.mem_toList.mpr hv))]
  | combine kind outputs left right =>
    rw [resolved, VarMap.mapTo_of_fixed fun e he => h _ (List.mem_append_left _ (List.mem_map_of_mem he)),
      VarMap.mapTo_of_fixed fun e he => h _ (List.mem_append_right _ (List.mem_map_of_mem he))]
  | sort keys | constrainedSort keys => rw [resolved, keys_eq keys h]
  | _ => rfl

end Op

namespace Tree

variable (ρ : VarId → VarId) (types : VarId → ScalarType)

def resolved : Tree → Tree
  | node id op cs => node id (op.resolved ρ types) (all cs)
where
  all : List Tree → List Tree
    | [] => []
    | c :: cs => resolved c :: all cs

variable {ρ types}

@[simp] theorem resolved_node (id : NodeId) (op : Op) (cs : List Tree) :
    (node id op cs).resolved ρ types = node id (op.resolved ρ types) (cs.map (resolved ρ types)) := by
  have hmap : ∀ cs, resolved.all ρ types cs = cs.map (resolved ρ types) := by
    intro cs
    induction cs with
    | nil => rfl
    | cons c cs ih => rw [resolved.all, ih, List.map_cons]
  rw [resolved, hmap]

theorem id_resolved (t : Tree) : (t.resolved ρ types).id = t.id := by
  cases t
  rw [resolved_node, id_node, id_node]

theorem ids_resolved (t : Tree) : (t.resolved ρ types).ids = t.ids := by
  induction t using induct with
  | node id op cs ih =>
    rw [resolved_node, ids_node, ids_node, List.flatMap_map]
    exact congrArg (id :: ·) (List.flatMap_congr ih)

theorem binds_resolved (t : Tree) : (t.resolved ρ types).binds = t.binds := by
  induction t using induct with
  | node id op cs ih =>
    rw [resolved_node, binds_node, binds_node, List.flatMap_map, (Op.resolved_keeps ρ types op).1]
    exact congrArg (op.own ++ ·) (List.flatMap_congr ih)

theorem alike_resolved (t : Tree) : t.Alike (t.resolved ρ types) := by
  induction t using induct with
  | node id op cs ih =>
    obtain ⟨-, hkind, hfits⟩ := Op.resolved_keeps ρ types op
    rw [resolved_node]
    exact .node hkind (fun ks h => (hfits ks).trans h) (List.forall₂_map_right_iff.mpr (List.forall₂_same.mpr ih))

theorem mem_references_resolved {t s : Tree} (hs : s ∈ (t.resolved ρ types).subtrees) {w : VarId} (hw : w ∈ s.op.references) :
    ∃ v, ρ v = w := by
  induction t using induct with
  | node id op cs ih =>
    rw [resolved_node, subtrees_node, List.mem_cons, List.mem_flatMap] at hs
    rcases hs with rfl | ⟨c', hc', hs⟩
    · obtain ⟨v, -, hv⟩ := Op.mem_references_resolved.mp hw
      exact ⟨v, hv⟩
    · obtain ⟨c, hc, rfl⟩ := List.mem_map.mp hc'
      exact ih c hc hs

theorem resolved_of_fixed {t : Tree} (h : ∀ s ∈ t.subtrees, ∀ v ∈ s.op.references, ρ v = v) : t.resolved ρ types = t := by
  induction t using induct with
  | node id op cs ih =>
    have hop : op.resolved ρ types = op := Op.resolved_of_fixed (h (node id op cs) (by simp))
    rw [resolved_node, hop]
    congr 1
    conv_rhs => rw [← List.map_id cs]
    exact List.map_congr_left fun c hc => ih c hc fun s hs => h s (mem_subtrees_of_mem hc hs)

end Tree

namespace Plan

open Planwright.Tree

variable {m : VarMap} {ρ : VarId → VarId} {p : Plan}

theorem relates_resolved (hm : m.Resolves ρ) (types : VarId → ScalarType) :
    Relates m types (fun op op' => op' = op.resolved ρ types) (fun t t' => t' = t.resolved ρ types) True where
  op h := by
    rw [Op.renamed?_eq hm] at h
    cases h
    split
    · exact Eq.symm ‹_›
    · rfl
  node ho hcs := by rw [ho, resolved_node, eq_map_of_forall₂ hcs]
  ids := fun {t _} h => h ▸ ⟨id_resolved t, ids_resolved t⟩
  runs _ op := by
    refine ⟨_, Op.renamed?_eq hm types op, ?_⟩
    split
    · exact nofun
    · exact fun h => absurd (Option.some.inj h) ‹_›
  kind _ {op _} h := h ▸ (Op.resolved_keeps ρ types op).2.1
  wellFormed _ {t _} h := h ▸ (alike_resolved t).wellFormed

theorem renameSubtree_reaches (hm : m.Resolves ρ) {t : Tree} (ht : p.Holds t) (hn : t.ids.Nodup) (hwf : t.wellFormed) :
    Reaches (renameSubtree m t.id) p fun changed p' => (changed = true ↔ t.resolved ρ p.vars.type ≠ t) ∧
      p'.Holds (t.resolved ρ p.vars.type) := by
  have hrefl (hsize : m.size = 0) (t : Tree) : t = t.resolved ρ p.vars.type :=
    (resolved_of_fixed fun s _ v _ => by rw [hm.eq_of_size hsize]).symm
  refine (((relates_resolved hm p.vars.type).renameSubtree hrefl ht hn rfl).reaches ⟨trivial, hwf⟩).mono ?_
  rintro changed p' ⟨t', rfl, hh, -, -, hsame, hne⟩
  refine ⟨⟨hne trivial, fun hne => ?_⟩, hh⟩
  by_contra hno
  exact hne (hsame (Bool.not_eq_true _ ▸ hno)).1

end Plan

namespace RuleM

open Relation

/-- Of renamings that are recorded one after the other the last of each variable counts. What a variable is finally renamed to
    is the end of its chain, and is refused exactly if the chain runs in a circle. Without circles, renaming a subtree brings
    each reference in it to the end of its chain and leaves all else as it is; its answer is whether that changed the tree,
    so that a second time it is no. -/
theorem rename_resolves (pairs : List (VarId × VarId)) {c : Context} (hc : c.mappings = .empty) : ∃ m : VarMap,
    (∀ p, (pairs.forM fun x => rename x.1 x.2) c p = .ok (((), { c with mappings := m }), p)) ∧
    (∀ v, m.resolve v = .error .cyclicMapping ↔
      ∃ u, ReflTransGen (VarMap.Records pairs) v u ∧ TransGen (VarMap.Records pairs) u u) ∧
    (∀ v w, m.resolve v = .ok w ↔ ReflTransGen (VarMap.Records pairs) v w ∧ VarMap.last? pairs w = none) ∧
    ((∀ u, ¬TransGen (VarMap.Records pairs) u u) →
      ∀ {p : Plan} {n : NodeId} {t : Tree}, p.tree? n = some t → p.Holds t → t.ids.Nodup → t.wellFormed = true →
        ∃ ρ changed p', (∀ v, m.resolve v = .ok (ρ v)) ∧ Plan.renameSubtree m n p = .ok (changed, p') ∧
          p'.tree? n = some (t.resolved ρ p.vars.type) ∧
          (∀ s ∈ (t.resolved ρ p.vars.type).subtrees, ∀ v ∈ s.op.references, VarMap.last? pairs v = none) ∧
          (t.resolved ρ p.vars.type).ids = t.ids ∧ (t.resolved ρ p.vars.type).binds = t.binds ∧
          (changed = true ↔ t.resolved ρ p.vars.type ≠ t) ∧ ∃ p'', Plan.renameSubtree m n p' = .ok (false, p'')) := by
  obtain ⟨m, hrun, hget⟩ := rename_forM pairs c
  have hlast : ∀ v, m.get? v = VarMap.last? pairs v := by
    intro v
    rw [hget v, hc]
    exact Option.or_none
  have hleads : m.Leads = VarMap.Records pairs := by
    funext v w
    rw [VarMap.Leads, VarMap.Records, hlast]
  rw [← hleads]
  refine ⟨m, hrun, fun v => VarMap.resolve_eq_cyclic, fun v w => ?_, fun hacyclic p n t hview ht hn hwf => ?_⟩
  · rw [VarMap.resolve_eq_ok, hlast]
  · obtain ⟨ρ, hρ⟩ := VarMap.exists_resolves hacyclic
    obtain rfl := Plan.id_view hview
    obtain ⟨changed, p', hrename, hchanged, hh⟩ := Plan.renameSubtree_reaches hρ ht hn hwf
    have hends : ∀ s ∈ (t.resolved ρ p.vars.type).subtrees, ∀ v ∈ s.op.references, ρ v = v := by
      intro s hs v hv
      obtain ⟨u, rfl⟩ := Tree.mem_references_resolved hs hv
      exact hρ.idem u
    have htree : p'.tree? t.id = some (t.resolved ρ p.vars.type) := Tree.id_resolved t ▸ hh.tree?
    obtain ⟨again, p'', hrename', hagain, -⟩ :=
      Plan.renameSubtree_reaches hρ hh (Tree.ids_resolved t ▸ hn) (t.alike_resolved.wellFormed hwf)
    rw [Tree.resolved_of_fixed hends] at hagain
    obtain rfl : again = false := by simpa using hagain
    rw [Tree.id_resolved] at hrename'
    refine ⟨ρ, changed, p', hρ, hrename, htree, fun s hs v hv => ?_, t.ids_resolved, t.binds_resolved, hchanged, p'', hrename'⟩
    rw [← hlast]
    exact hρ.get?_eq_none.mpr (hends s hs v hv)

/-- `π outputs (σ NOT (v IS NULL) (u(2, 3)))`. -/
def supersededTree (outputs : VarSet) (v : VarId) (type : ScalarType) : Tree :=
  .node 6 (.project outputs) [.node 4 .filter [.node 0 (.scanTable ⟨0, "u", [2, 3], .empty, none⟩) [],
    .node 3 (.scalar .not .boolean) [.node 2 (.scalar .isNull .boolean) [.node 1 (.varRef v type) []]]], .node 5 .varDefList []]

/-- The projection shows 0 and 3, and 1 is tested, where 0 was renamed to 1 and that to 2. -/
def superseded : Plan := (supersededTree (.ofList [0, 3]) 1 .int32).plan 1
  [⟨.column, "t.a", .int32⟩, ⟨.computed, "", .int32⟩, ⟨.column, "u.b", .int64⟩, ⟨.column, "u.c", .int64⟩]

theorem rename_resolves_superseded : ∃ (m : VarMap) (p' : Plan),
    (∀ p, ([(0, 1), (3, 3), (1, 2)].forM fun x => rename x.1 x.2) (.start .standard) p =
      .ok (((), { Context.start .standard with mappings := m }), p)) ∧
    superseded.tree? 6 = some (supersededTree (.ofList [0, 3]) 1 .int32) ∧
    Plan.renameSubtree m 6 superseded = .ok (true, p') ∧ p'.tree? 6 = some (supersededTree (.ofList [2, 3]) 2 .int64) := by
  obtain ⟨m, hrun, -, hends, hrename⟩ := rename_resolves [(0, 1), (3, 3), (1, 2)] (c := .start .standard) rfl
  have hstep : ∀ {v w}, VarMap.Records [(0, 1), (3, 3), (1, 2)] v w → v < w := by
    intro v w h
    rw [VarMap.Records, VarMap.last?_cons (by decide), VarMap.last?_cons_self, VarMap.last?_cons (by decide)] at h
    have hlast : v = 1 ∧ w = 2 ∨ v = 0 ∧ w = 1 := by
      split at h <;> split at h <;> cases h <;> simp_all
    rcases hlast with ⟨rfl, rfl⟩ | ⟨rfl, rfl⟩ <;> decide
  have hacyclic : ∀ u, ¬TransGen (VarMap.Records [(0, 1), (3, 3), (1, 2)]) u u := by
    have hlt : ∀ {v w}, TransGen (VarMap.Records [(0, 1), (3, 3), (1, 2)]) v w → v < w := by
      intro v w h
      induction h with
      | single h => exact hstep h
      | tail _ h ih => exact ih.trans (hstep h)
    exact fun u h => Nat.lt_irrefl u (hlt h)
  have hview : superseded.tree? 6 = some (supersededTree (.ofList [0, 3]) 1 .int32) := rfl
  obtain ⟨ρ, changed, p', hρ, hsub, htree, -, -, -, hchanged, -⟩ :=
    hrename hacyclic hview (Plan.holds_of_view (by decide) hview) (by decide) (by decide)
  have h0 : ρ 0 = 2 := Except.ok.inj ((hρ 0).symm.trans ((hends 0 2).mpr ⟨.head (b := 1) rfl (.single rfl), rfl⟩))
  have h1 : ρ 1 = 2 := Except.ok.inj ((hρ 1).symm.trans ((hends 1 2).mpr ⟨.single rfl, rfl⟩))
  have h3 : ρ 3 = 3 := Except.ok.inj ((hρ 3).symm.trans ((hends 3 3).mpr ⟨.refl, rfl⟩))
  have heq : (supersededTree (.ofList [0, 3]) 1 .int32).resolved ρ superseded.vars.type = supersededTree (.ofList [2, 3]) 2 .int64 := by
    have houtputs : VarSet.image ρ (.ofList [0, 3]) = .ofList [2, 3] := by
      rw [VarSet.image, show (VarSet.ofList [0, 3]).toList = [0, 3] from by decide, List.map_cons, List.map_cons, List.map_nil, h0, h3]
    simp [supersededTree, Op.resolved, houtputs, h1]
    rfl
  rw [heq] at htree hchanged
  obtain rfl : changed = true := hchanged.mpr fun h => absurd (congrArg Tree.op h) (by decide)
  exact ⟨m, p', hrun, hview, hsub, htree⟩

end RuleM

end Planwright
