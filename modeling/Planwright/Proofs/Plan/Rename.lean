import Planwright.Proofs.Plan.Halt
import Planwright.Proofs.Tree.Mirror
import Planwright.Proofs.Tree.Outline

/-! Renaming the references in a plan. The tree below a node keeps its nodes and its shape, and all of it if no reference is
    renamed. -/

namespace Planwright

open Run

/-! ### References renewed, wherever they lead -/

section Clear
variable {m : VarMap}

theorem VarMap.resolve_of_none {v : VarId} (h : m.get? v = none) : m.resolve v = .ok v := follow_of_none h _

theorem VarMap.resolveSet?_of_none {s : VarSet} (h : ∀ v ∈ s, m.get? v = none) : m.resolveSet? s = .ok none := by
  rw [resolveSet?, if_neg]
  · rfl
  · rw [Bool.not_eq_true, VarSet.overlaps_eq_false]
    exact fun v hv => by simp [mem_domain, h v hv]

theorem VarMap.mapValues_of_none {l : VarMap} (h : ∀ e ∈ l.entries, m.get? e.2 = none) : l.mapValues m.resolve = .ok l := by
  have hmap : (l.entries.mapM fun e => do return (e.1, ← m.resolve e.2) : Except Fault _) = .ok l.entries :=
    mapM_ok.mpr (List.forall₂_same.mpr fun e he => by rw [resolve_of_none (h e he)]; rfl)
  rw [mapValues, hmap]
  rfl

theorem Op.renamed?_of_none {types : VarId → ScalarType} {op : Op} (h : ∀ v ∈ op.names, m.get? v = none) :
    op.renamed? m types = .ok none := by
  have keys_eq : ∀ keys : List SortKey, (∀ v ∈ keys.map (·.var), m.get? v = none) →
      renamed?.renamedKeys m keys = .ok none := fun keys hk => by
    have hmap : (keys.mapM fun k => do return (⟨← m.resolve k.var, k.ascending⟩ : SortKey) : Except Fault _) = .ok keys :=
      mapM_ok.mpr (List.forall₂_same.mpr fun k hmem => by rw [VarMap.resolve_of_none (hk _ (List.mem_map_of_mem hmem))]; rfl)
    rw [renamed?.renamedKeys, hmap]
    exact congrArg Except.ok (if_pos rfl)
  cases op with
  | varRef v type =>
    rw [renamed?, VarMap.resolve_of_none (h v (by simp))]
    exact congrArg Except.ok (if_pos rfl)
  | project outputs | distinct outputs =>
    rw [renamed?, VarMap.resolveSet?_of_none fun v hv => h v (by simpa using hv)]
    rfl
  | groupBy keys outputs =>
    rw [renamed?, VarMap.resolveSet?_of_none fun v hv => h v (by simp [hv]), VarMap.resolveSet?_of_none fun v hv => h v (by simp [hv])]
    rfl
  | combine kind outputs left right =>
    rw [renamed?, VarMap.mapValues_of_none fun e he => h _ (by simpa using .inr (.inl ⟨_, he⟩)),
      VarMap.mapValues_of_none fun e he => h _ (by simpa using .inr (.inr ⟨_, he⟩))]
    exact if_pos ⟨rfl, rfl⟩
  | sort keys | constrainedSort keys =>
    rw [renamed?, keys_eq keys h]
    rfl
  | _ => rfl

end Clear

/-- An operator with its references renamed. -/
structure Op.Renewed (m : VarMap) (op op' : Op) : Prop where
  kind : op'.kind = op.kind
  fits : ∀ ks, op'.fits ks = op.fits ks
  same : (∀ v ∈ op.names, m.get? v = none) → op' = op

theorem Op.Renewed.of_renamed? {m : VarMap} {types : VarId → ScalarType} {op : Op} {o : Option Op}
    (h : op.renamed? m types = .ok o) : op.Renewed m (o.getD op) :=
  ⟨(renamed?_fits h).1, (renamed?_fits h).2, fun hnone => by
    obtain rfl := Except.ok.inj (h.symm.trans (renamed?_of_none hnone))
    rfl⟩

/-- A tree with its references renamed. -/
structure Tree.Renewed (m : VarMap) (t t' : Tree) : Prop where
  id : t'.id = t.id
  ids : t'.ids = t.ids
  alike : t.Alike t'
  same : (∀ s ∈ t.subtrees, ∀ v ∈ s.op.names, m.get? v = none) → t' = t

theorem Tree.Renewed.node {m : VarMap} {id : NodeId} {op op' : Op} {cs cs' : List Tree} (ho : op.Renewed m op')
    (hcs : List.Forall₂ (Renewed m) cs cs') : Renewed m (.node id op cs) (.node id op' cs') where
  id := rfl
  ids := by
    rw [ids_node, ids_node, List.flatMap_def, List.flatMap_def, map_eq_map_of_forall₂ (hcs.flip.imp fun _ _ h => h.ids)]
  alike := .node ho.kind (fun ks h => (ho.fits ks).trans h) (hcs.imp fun _ _ h => h.alike)
  same hnone := by
    have hop : op' = op := ho.same (hnone (.node id op cs) (by simp))
    have hchildren : cs = cs' := List.forall₂_eq_eq_eq ▸ forall₂_imp_mem hcs fun c hc c' _ h =>
      (h.same fun s hs => hnone s (mem_subtrees_of_mem hc hs)).symm
    rw [hop, hchildren]

theorem Tree.Renewed.refl {m : VarMap} (t : Tree) : Renewed m t t where
  id := rfl
  ids := rfl
  alike := .refl t
  same _ := rfl

/-! ### Renamings have no budget -/

section Spares
variable {m : VarMap}

theorem VarMap.resolve_spares {v : VarId} : Spares (m.resolve v) := by
  rw [resolve]
  generalize m.size = fuel
  induction fuel generalizing v with
  | zero =>
    rw [follow]
    split
    · exact .pure
    · exact .throw (by decide)
  | succ fuel ih =>
    rw [follow]
    split
    · exact .pure
    · exact ih

theorem VarMap.resolveSet?_spares {s : VarSet} : Spares (m.resolveSet? s) := by
  rw [resolveSet?]
  split
  · exact .bind (.mapM fun _ => resolve_spares) fun _ => .pure
  · exact .pure

theorem VarMap.mapValues_spares {l : VarMap} : Spares (l.mapValues m.resolve) :=
  .bind (.mapM fun _ => .bind resolve_spares fun _ => .pure) fun _ => .pure

theorem Op.renamed?_spares {types : VarId → ScalarType} {op : Op} : Spares (op.renamed? m types) := by
  have keys : ∀ ks, Spares (Op.renamed?.renamedKeys m ks) := fun ks =>
    .bind (.mapM fun _ => .bind VarMap.resolve_spares fun _ => .pure) fun _ => .pure
  cases op with
  | varRef v => exact .bind VarMap.resolve_spares fun _ => .pure
  | project | distinct => exact .bind VarMap.resolveSet?_spares fun _ => .pure
  | groupBy =>
    refine .bind VarMap.resolveSet?_spares fun _ => .bind VarMap.resolveSet?_spares fun _ => ?_
    split <;> exact .pure
  | combine =>
    refine .bind VarMap.mapValues_spares fun _ => .bind VarMap.mapValues_spares fun _ => ?_
    split <;> exact .pure
  | sort ks | constrainedSort ks => exact .bind (keys ks) fun _ => .pure
  | _ => exact .pure

end Spares

namespace Plan

open Planwright.Tree

variable {m : VarMap} {p : Plan}

/-! ### What is known of operators carries over to trees -/

/-- What is known of an operator and the renamed one, and of trees that are renamed accordingly. Under `G` no operator is refused. -/
structure Relates (m : VarMap) (types : VarId → ScalarType) (R : Op → Op → Prop) (T : Tree → Tree → Prop) (G : Prop) : Prop where
  op {op o} : Op.renamed? m types op = .ok o → R op (o.getD op)
  node {id op op' cs cs'} : R op op' → List.Forall₂ T cs cs' → T (.node id op cs) (.node id op' cs')
  ids {t t'} : T t t' → t'.id = t.id ∧ t'.ids = t.ids
  runs : G → ∀ op, ∃ o, Op.renamed? m types op = .ok o ∧ o ≠ some op
  kind : G → ∀ {op op'}, R op op' → op'.kind = op.kind
  wellFormed : G → ∀ {t t'}, T t t' → t.wellFormed = true → t'.wellFormed = true

/-- What renaming the references in a tree does. Its answer tells whether that changed anything. -/
def Relates.Done {types R T G} (_ : Relates m types R T G) (t : Tree) (p : Plan) (changed : Bool) (p' : Plan) : Prop :=
  ∃ t', T t t' ∧ p'.Holds t' ∧ Keeps {x | x ∈ t.ids} p p' ∧ p'.vars = p.vars ∧ (changed = false → t' = t ∧ p' = p) ∧
    (G → changed = true → t' ≠ t)

section Relates
variable {types : VarId → ScalarType} {R : Op → Op → Prop} {T : Tree → Tree → Prop} {G : Prop} (L : Relates m types R T G)
include L

theorem Relates.renameNode {n : NodeId} {op : Op} {cs : List Tree} (h : p.Shows n op cs) (hn : ∀ c ∈ cs, n ∉ c.ids)
    (hv : p.vars.type = types) : Halts (renameNode m n) p (fun changed p' => ∃ op', R op op' ∧ Keeps {n} p p' ∧ p'.Shows n op' cs ∧
      p'.vars = p.vars ∧ (changed = false → op' = op ∧ p' = p) ∧ (G → changed = true → op' ≠ op))
      (G ∧ op.kind.admits cs.length) := by
  subst hv
  obtain ⟨r, hr, rfl, -⟩ := h.node
  have hop : Plan.op n p = .ok (r.op, p) := by
    rw [Plan.op, bind_run, node_of_found hr]
    rfl
  refine .get (.read hop (.bind (.lift (R := fun o p' => p' = p ∧ r.op.renamed? m p.vars.type = .ok o) Op.renamed?_spares
    (fun o ho => ⟨rfl, ho⟩) fun hG => (L.runs hG.1 r.op).imp fun _ h => h.1) ?_))
  rintro o p₁ ⟨hp, ho⟩
  subst hp
  have hrenamed := L.op ho
  have hne (hG : G) : o ≠ some r.op := by
    obtain ⟨o', ho', hne⟩ := L.runs hG r.op
    cases ho.symm.trans ho'
    exact hne
  split
  · refine .bind ((setOp_works h hn).when fun hG => (L.kind hG.1 hrenamed).symm ▸ hG.2) fun _ p₂ hp => .pure ?_
    exact ⟨_, hrenamed, hp.keeps, hp.holds.shows, hp.vars, by simp, fun hG _ heq => hne hG (congrArg some heq)⟩
  · exact .pure ⟨_, hrenamed, .refl _ _, h, rfl, fun _ => ⟨rfl, rfl⟩, by simp⟩

theorem Relates.renameAll {cs : List Tree} (ih : ∀ c ∈ cs, ∀ p, p.Holds c → c.ids.Nodup → p.vars.type = types →
      Halts (renameTree m c) p (L.Done c p) (G ∧ c.wellFormed))
    (hcs : ∀ c ∈ cs, p.Holds c) (hn : (cs.flatMap Tree.ids).Nodup) (hv : p.vars.type = types) :
    Halts (renameTree.renameAll m cs) p (fun changed p' => ∃ cs', List.Forall₂ T cs cs' ∧
      (∀ c' ∈ cs', p'.Holds c') ∧ Keeps {x | x ∈ cs.flatMap Tree.ids} p p' ∧ p'.vars = p.vars ∧
        (changed = false → cs' = cs ∧ p' = p) ∧ (G → changed = true → cs' ≠ cs)) (G ∧ ∀ c ∈ cs, c.wellFormed) := by
  induction cs generalizing p with
  | nil => exact .pure ⟨[], .nil, nofun, .refl _ _, rfl, fun _ => ⟨rfl, rfl⟩, fun _ => nofun⟩
  | cons c cs ihs =>
    rw [List.flatMap_cons, List.nodup_append] at hn
    obtain ⟨hnc, hncs, hdis⟩ := hn
    refine .bind ((ih c List.mem_cons_self p (hcs c List.mem_cons_self) hnc hv).when fun hG => ⟨hG.1, hG.2 c List.mem_cons_self⟩)
      fun first p₁ ⟨c', hc', hh, hk, hv₁, hsame, hne⟩ => ?_
    have hcs₁ : ∀ d ∈ cs, p₁.Holds d := fun d hd => hk.holds d (hcs d (List.mem_cons_of_mem _ hd)) fun x hx hxc =>
      hdis x hxc x (List.mem_flatMap.mpr ⟨d, hd, hx⟩) rfl
    refine .bind ((ihs (fun d hd => ih d (List.mem_cons_of_mem _ hd)) hcs₁ hncs (hv₁ ▸ hv)).when fun hG =>
      ⟨hG.1, fun d hd => hG.2 d (List.mem_cons_of_mem _ hd)⟩) fun rest p₂ ⟨cs', hcs', hhs, hks, hv₂, hsames, hnes⟩ => ?_
    refine .pure ⟨c' :: cs', .cons hc' hcs', fun d hd => ?_, ?_, hv₂.trans hv₁, fun h => ?_, fun hG h heq => ?_⟩
    · rcases List.mem_cons.mp hd with rfl | hd
      · refine hks.holds d hh fun x hx hxcs => ?_
        rw [(L.ids hc').2] at hx
        exact hdis x hx x hxcs rfl
      · exact hhs d hd
    · refine (hk.mono fun x hx _ => ?_).trans hks fun x hx _ => ?_
      · exact List.mem_append_left _ hx
      · exact List.mem_append_right _ hx
    · obtain ⟨hf, hr⟩ := Bool.or_eq_false_iff.mp h
      obtain ⟨rfl, rfl⟩ := hsame hf
      obtain ⟨rfl, rfl⟩ := hsames hr
      exact ⟨rfl, rfl⟩
    · obtain ⟨heq, heqs⟩ := List.cons.inj heq
      rcases Bool.or_eq_true_iff.mp h with h | h
      · exact hne hG h heq
      · exact hnes hG h heqs

theorem Relates.renameTree {t : Tree} (ht : p.Holds t) (hn : t.ids.Nodup) (hv : p.vars.type = types) :
    Halts (renameTree m t) p (L.Done t p) (G ∧ t.wellFormed) := by
  induction t using induct generalizing p with
  | node id op cs ih =>
    rw [ids_node] at hn
    obtain ⟨hid, hncs⟩ := List.nodup_cons.mp hn
    have hsub : ∀ x ∈ cs.flatMap Tree.ids, x ∈ (Tree.node id op cs).ids := fun x hx => by
      rw [ids_node]
      exact List.mem_cons_of_mem _ hx
    refine .bind ((L.renameAll (fun c hc p => ih c hc) (fun c hc => ht.of_mem hc) hncs hv).when fun hG =>
      ⟨hG.1, (wellFormed_node.mp hG.2).2⟩) fun below p₁ ⟨cs', hcs', hhs, hk, hv₁, hsames, hnes⟩ => ?_
    have hids : cs'.flatMap Tree.ids = cs.flatMap Tree.ids := by
      rw [List.flatMap_def, List.flatMap_def, map_eq_map_of_forall₂ (hcs'.flip.imp fun _ _ h => (L.ids h).2)]
    have hnot : ∀ c ∈ cs', id ∉ c.ids := fun c hc hidc => hid (hids ▸ List.mem_flatMap.mpr ⟨c, hc, hidc⟩)
    have hshows : p₁.Shows id op cs' := by
      obtain ⟨r, hr, ho, hch⟩ := ht.shows.node
      obtain ⟨r', hr', ho', hch'⟩ := hk.node _ r hr hid
      refine ⟨⟨r', hr', ho'.trans ho, ?_⟩, hhs⟩
      rw [hch', hch]
      exact map_eq_map_of_forall₂ (hcs'.imp fun _ _ h => (L.ids h).1.symm)
    refine .bind ((L.renameNode hshows hnot (hv₁ ▸ hv)).when fun hG => ⟨hG.1, hcs'.length_eq ▸ admits_of_wellFormed hG.2⟩)
      fun own p₂ ⟨op', hop', hk', hshows', hv₂, hsame, hne⟩ => ?_
    have hkeeps : Keeps {x | x ∈ (Tree.node id op cs).ids} p p₂ := by
      refine (hk.mono fun x hx _ => hsub x hx).trans hk' fun x hx _ => ?_
      obtain rfl : x = id := hx
      exact id_mem_ids (.node x op cs)
    have hT : T (.node id op cs) (.node id op' cs') := L.node hop' hcs'
    split
    · rename_i hyes
      refine .bind ((hshows'.recompute_works hnot).when fun hG => L.wellFormed hG.1 hT hG.2) fun _ p₃ ⟨hk₃, hh⟩ =>
        .pure ⟨_, hT, hh, hkeeps.and_then hk₃.keeps, hk₃.vars.trans (hv₂.trans hv₁), nofun, fun hG _ heq => ?_⟩
      obtain ⟨-, heq, heqs⟩ := Tree.node.inj heq
      rcases Bool.or_eq_true_iff.mp hyes with h | h
      · exact hnes hG h heqs
      · exact hne hG h heq
    · rename_i hno
      obtain ⟨hb, ho⟩ := Bool.or_eq_false_iff.mp (Bool.not_eq_true _ ▸ hno)
      obtain ⟨rfl, rfl⟩ := hsames hb
      obtain ⟨rfl, rfl⟩ := hsame ho
      exact .pure ⟨_, hT, ht, hkeeps, rfl, fun _ => ⟨rfl, rfl⟩, fun _ => nofun⟩

theorem Relates.renameSubtree (hrefl : m.size = 0 → ∀ t, T t t) {t : Tree} (ht : p.Holds t) (hn : t.ids.Nodup)
    (hv : p.vars.type = types) : Halts (renameSubtree m t.id) p (L.Done t p) (G ∧ t.wellFormed) := by
  rw [Plan.renameSubtree]
  split
  · rename_i hsize
    exact .pure ⟨t, hrefl hsize t, ht, .refl _ _, rfl, fun _ => ⟨rfl, rfl⟩, fun _ => nofun⟩
  · exact .read ht.tree_run (L.renameTree ht hn hv)

end Relates

/-! ### What renaming does -/

section Renewed
variable {n : NodeId} {op : Op} {cs : List Tree} {t : Tree}

theorem Renewed.relates (types : VarId → ScalarType) : Relates m types (Op.Renewed m) (Renewed m) False where
  op := .of_renamed?
  node := .node
  ids h := ⟨h.id, h.ids⟩
  runs := nofun
  kind := nofun
  wellFormed := nofun

theorem renameNode_halts (h : p.Shows n op cs) (hn : ∀ c ∈ cs, n ∉ c.ids) :
    Halts (renameNode m n) p fun _ p' => ∃ op', op.Renewed m op' ∧ Keeps {n} p p' ∧ p'.Shows n op' cs :=
  (((Renewed.relates p.vars.type).renameNode h hn rfl).when nofun).mono fun _ _ ⟨op', ho, hk, hs, _⟩ => ⟨op', ho, hk, hs⟩

theorem renameSubtree_halts (ht : p.Holds t) (hn : t.ids.Nodup) :
    Halts (renameSubtree m t.id) p fun _ p' => ∃ t', Renewed m t t' ∧ p'.Holds t' ∧ Keeps {x | x ∈ t.ids} p p' :=
  (((Renewed.relates p.vars.type).renameSubtree (fun _ => .refl) ht hn rfl).when nofun).mono fun _ _ ⟨t', hr, hh, hk, _⟩ => ⟨t', hr, hh, hk⟩

end Renewed

end Plan

end Planwright
