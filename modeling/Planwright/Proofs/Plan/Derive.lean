import Planwright.Proofs.Plan.Build

/-! Trees side by side. A rule takes a tree apart, changes some of the pieces and puts others together. In between, the
    pieces stand side by side in the plan, made of nodes of the tree and of new ones. -/

namespace Planwright.Plan

open Planwright.Tree

/-- The trees have no node in common, and none but the nodes `xs` of an earlier plan and new ones. -/
structure Derives (xs : List NodeId) (p p' : Plan) (ts : List Tree) : Prop where
  keeps : Keeps {x | x ∈ xs} p p'
  parts : Parts p.nodes.size xs (ts.flatMap Tree.ids)
  ids : (ts.flatMap Tree.ids).Nodup
  holds : ∀ t ∈ ts, p'.Holds t

namespace Derives

variable {xs : List NodeId} {p p' p'' : Plan} {d d' : Tree} {ts ts' : List Tree}

theorem start (hh : ∀ t ∈ ts, p.Holds t) (hn : (ts.flatMap Tree.ids).Nodup) : Derives (ts.flatMap Tree.ids) p p ts where
  keeps := .refl _ _
  parts := .refl hn
  ids := hn
  holds := hh

theorem self (hh : p.Holds d) (hn : d.ids.Nodup) : Derives d.ids p p [d] where
  keeps := .refl _ _
  parts := by simpa using Parts.refl hn
  ids := by simpa using hn
  holds := by simpa using hh

theorem lt (h : Derives xs p p' ts) : ∀ x ∈ ts.flatMap Tree.ids, x < p'.nodes.size := fun x hx => by
  obtain ⟨t, ht, hx⟩ := List.mem_flatMap.mp hx
  exact (h.holds t ht).ids_lt x hx

theorem grow {S : Set NodeId} {fs vs : List Nat} (h : Derives xs p p' ts) (hg : Grows S fs vs p' p'')
    (hS : ∀ x ∈ S, x ∈ ts.flatMap Tree.ids) (hh : ∀ t ∈ ts', p''.Holds t)
    (hids : ∀ x, (ts'.flatMap Tree.ids).count x ≤ fs.count x + (ts.flatMap Tree.ids).count x) : Derives xs p p'' ts' where
  keeps := h.keeps.trans hg.keeps fun x hx hlt => (h.parts.mem (hS x hx)).resolve_right (Nat.not_le.mpr hlt)
  parts := h.parts.trans (hg.nodes.parts h.lt hids) h.keeps.size
  ids := (hg.nodes.parts h.lt hids).nodup h.ids
  holds := hh

theorem still (h : Derives xs p p' ts) (hk : Keeps ∅ p' p'') : Derives xs p p'' ts :=
  h.grow hk.grows (fun _ h => h.elim) (fun t ht => hk.still (h.holds t ht)) fun _ => Nat.le_add_left _ _

theorem into (h : Derives xs p p' ts) (hh : ∀ t ∈ ts', p'.Holds t)
    (hids : ∀ x, (ts'.flatMap Tree.ids).count x ≤ (ts.flatMap Tree.ids).count x) : Derives xs p p' ts' :=
  h.grow (Keeps.refl ∅ _).grows (fun _ h => h.elim) hh fun x => by simpa using hids x

theorem perm (h : Derives xs p p' ts) (hp : ts.Perm ts') : Derives xs p p' ts' :=
  h.into (fun t ht => h.holds t (hp.mem_iff.mpr ht)) fun x => ((hp.flatMap_right Tree.ids).count_eq x).ge

theorem within {ys : List NodeId} (h : Derives xs p p' ts) (hxs : ∀ x, xs.count x ≤ ys.count x) : Derives ys p p' ts where
  keeps := h.keeps.mono fun x hx _ => List.count_pos_iff.mp (Nat.lt_of_lt_of_le (List.count_pos_iff.mpr hx) (hxs x))
  parts := ⟨fun x hx => Nat.le_trans (h.parts.old x hx) (hxs x), h.parts.new⟩
  ids := h.ids
  holds := h.holds

theorem change (h : Derives xs p p' (d :: ts)) (hk : Keeps {x | x ∈ d.ids} p' p'') (hh : p''.Holds d')
    (hp : Parts p'.nodes.size d.ids d'.ids) : Derives xs p p'' (d' :: ts) := by
  have hlt : ∀ x ∈ [] ++ (d :: ts).flatMap Tree.ids, x < p'.nodes.size := h.lt
  have hparts : Parts p'.nodes.size ((d :: ts).flatMap Tree.ids) ((d' :: ts).flatMap Tree.ids) :=
    Parts.set (f := Tree.ids) [] (show (d :: ts)[0]? = some d from rfl) hp hlt
  have hsep : ∀ t ∈ ts, ∀ x ∈ t.ids, x ∉ d.ids := fun t ht x hx hxd => by
    have := h.ids
    rw [List.flatMap_cons, List.nodup_append] at this
    exact this.2.2 x hxd x (List.mem_flatMap.mpr ⟨t, ht, hx⟩) rfl
  refine ⟨h.keeps.trans hk fun x hx hlt => ?_, h.parts.trans hparts h.keeps.size, hparts.nodup h.ids, List.forall_mem_cons.mpr ⟨hh, ?_⟩⟩
  · refine (h.parts.mem ?_).resolve_right (Nat.not_le.mpr hlt)
    rw [List.flatMap_cons]
    exact List.mem_append_left _ hx
  · exact fun t ht => hk.holds t (h.holds t (List.mem_cons_of_mem _ ht)) (hsep t ht)

theorem create {op : Op} {cs : List Tree} {n : NodeId} (h : Derives xs p p' (cs ++ ts)) (hn : Created p' op cs n p'') :
    Derives xs p p'' (.node n op cs :: ts) := by
  refine h.grow hn.grows (fun _ h => h.elim) (List.forall_mem_cons.mpr ⟨hn.holds, fun t ht => ?_⟩) fun x => ?_
  · exact hn.keeps.still (h.holds t (List.mem_append_right _ ht))
  · simp [List.count_cons]
    omega

end Derives

end Planwright.Plan
