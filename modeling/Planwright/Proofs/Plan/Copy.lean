import Planwright.Proofs.Plan.Halt
import Planwright.Proofs.Scope.Cover
import Planwright.Proofs.Tree.Mirror
import Planwright.Proofs.Tree.Outline

/-! Copies of trees. A copy has nodes of its own, brings a fresh variable into being for each of the original, and
    otherwise refers to what the original does. -/

namespace Planwright

open Run

namespace VarMap

theorem apply_insert (m : VarMap) (k v w : VarId) : (m.insert k v).apply w = if w = k then v else m.apply w := by
  rw [apply, get?_insert]
  split <;> rfl

theorem mem_put {k v : VarId} {es : List (VarId × VarId)} {e : VarId × VarId} (h : e ∈ put k v es) :
    e = (k, v) ∨ e ∈ es := by
  induction es with
  | nil => exact .inl (List.mem_singleton.mp h)
  | cons e' es ih =>
    rw [put] at h
    split at h
    · exact List.mem_cons.mp h
    · split at h
      · exact (List.mem_cons.mp h).imp_right (List.mem_cons_of_mem _)
      · rcases List.mem_cons.mp h with rfl | h
        · exact .inr List.mem_cons_self
        · exact (ih h).imp_right (List.mem_cons_of_mem _)

theorem mem_entries_ofList {es : List (VarId × VarId)} {e : VarId × VarId} (h : e ∈ (ofList es).entries) : e ∈ es := by
  have hfold : ∀ (es : List (VarId × VarId)) (m : VarMap),
      e ∈ (es.foldl (fun m p => m.insert p.1 p.2) m).entries → e ∈ m.entries ∨ e ∈ es := by
    intro es
    induction es with
    | nil => exact fun m h => .inl h
    | cons e' es ih =>
      intro m h
      rcases ih _ h with h | h
      · rcases mem_put h with rfl | h
        · exact .inr List.mem_cons_self
        · exact .inl h
      · exact .inr (List.mem_cons_of_mem _ h)
  exact (hfold es empty h).resolve_left (fun h => nomatch h)

theorem get?_ofList_ne_none {es : List (VarId × VarId)} {v : VarId} (h : v ∈ es.map (·.1)) :
    ∃ w, (ofList es).get? v = some w := by
  have hfold : ∀ (es : List (VarId × VarId)) (m : VarMap), (∃ w, m.get? v = some w) ∨ v ∈ es.map (·.1) →
      ∃ w, (es.foldl (fun m p => m.insert p.1 p.2) m).get? v = some w := by
    intro es
    induction es with
    | nil => exact fun m h => h.resolve_right (fun h => nomatch h)
    | cons e es ih =>
      intro m h
      refine ih _ ?_
      rw [get?_insert]
      split
      · exact .inl ⟨_, rfl⟩
      · rename_i hne
        exact h.imp_right fun hv => (List.mem_cons.mp hv).resolve_left hne
  exact hfold es empty (.inr h)

end VarMap

/-- An operator as it stands in a copy, with the fresh names that `m` gives. -/
structure Op.Copied (m : VarMap) (op op' : Op) : Prop where
  follows : op.Follows m.apply op'
  own : op'.own.Perm (op.own.map m.apply)
  regular : op.Regular → op'.Regular
  type : op'.type = op.type
  mirrors : op.Mirrors m.apply op'

namespace Tree

/-- The new tree is a copy of the old one, with the fresh names that `m` gives. -/
structure Copied (m : VarMap) (t t' : Tree) : Prop where
  covers : Covers m.apply t t'
  binds : t'.binds.Perm (t.binds.map m.apply)
  types : t'.subtrees.map (·.op.type) = t.subtrees.map (·.op.type)
  mirrors : t.Sorted → Mirrors m.apply t t'

variable {m m' : VarMap} {t t' : Tree}

theorem Copied.congr (h : Copied m t t') (hs : Scoped (·) t) (hb : ∀ v ∈ t.binds, m'.apply v = m.apply v)
    (hu : ∀ u, Uses (·) t u → m'.apply u = m.apply u) : Copied m' t t' where
  covers := h.covers.congr fun v hv => hb v (mem_binds_of_defines hs hv)
  binds := by
    rw [List.map_congr_left hb]
    exact h.binds
  types := h.types
  mirrors hsort := (h.mirrors hsort).congr fun _ hmem v hv => (mem_binds_or_uses hs hsort hmem hv).elim (hb v) (hu v)

theorem Copied.node {id id' : NodeId} {op op' : Op} {cs cs' : List Tree} (ho : op.Copied m op')
    (hcs : List.Forall₂ (Copied m) cs cs') : Copied m (.node id op cs) (.node id' op' cs') where
  covers := .node ho.follows (fun v hv => ho.own.mem_iff.mpr (List.mem_map_of_mem hv)) ho.regular (hcs.imp fun _ _ h => h.covers)
  binds := by
    rw [binds_node, binds_node, List.map_append, List.map_flatMap]
    refine ho.own.append ?_
    clear ho
    induction hcs with
    | nil => exact .nil
    | cons h _ ih => exact h.binds.append ih
  types := by
    rw [subtrees_node, subtrees_node, List.map_cons, List.map_cons, List.map_flatMap, List.map_flatMap, op_node, op_node, ho.type]
    refine congrArg _ ?_
    clear ho
    induction hcs with
    | nil => rfl
    | cons h _ ih => rw [List.flatMap_cons, List.flatMap_cons, h.types, ih]
  mirrors hsort := .node ho.mirrors (forall₂_imp_mem hcs fun c hc _ _ h => h.mirrors ((sorted_node.mp hsort).2 c hc))

end Tree

namespace Plan

open Planwright.Tree Op

variable {v w : VarId} {vs : List VarId} {l : VarMap} {ms : List VarMap} {t : Tree}
variable {p p' p'' : Plan} {m m' m'' : VarMap}

/-! ### The variables of a copy -/

/-- Nodes `fs` were made, and fresh variables `ws` for `vs`, each like the one that it stands for. The map gives them. -/
structure Registers (fs : List NodeId) (vs ws : List VarId) (m m' : VarMap) (p p' : Plan) : Prop where
  grows : Grows ∅ fs ws p p'
  length : ws.length = vs.length
  old : ∀ v, v < p.vars.size → p'.vars.get? v = p.vars.get? v
  others : ∀ v, v ∉ vs → m'.get? v = m.get? v
  fresh : ∀ v ∈ vs, v < p.vars.size → ∃ w, m'.get? v = some w ∧ w < p'.vars.size ∧ p'.vars.get? w = p.vars.get? v
  names : vs.Nodup → ws = vs.map m'.apply

namespace Registers

variable {fs gs : List NodeId} {us vs ws xs : List VarId}

theorem none (h : Grows ∅ fs [] p p') (hv : p'.vars = p.vars) : Registers fs [] [] m m p p' where
  grows := h
  length := rfl
  old v _ := by rw [hv]
  others _ _ := rfl
  fresh _ hv := nomatch hv
  names _ := rfl

theorem refl (m : VarMap) (p : Plan) : Registers [] [] [] m m p p := .none (Keeps.refl _ _).grows rfl

theorem agrees (h : Registers fs vs ws m m' p p') {u : VarId} (hu : u ∉ vs) : m'.apply u = m.apply u := by
  rw [VarMap.apply, VarMap.apply, h.others u hu]

theorem trans (h : Registers fs us ws m m' p p') (h' : Registers gs vs xs m' m'' p' p'') :
    Registers (fs ++ gs) (us ++ vs) (ws ++ xs) m m'' p p'' where
  grows := h.grows.and_then h'.grows
  length := by rw [List.length_append, List.length_append, h.length, h'.length]
  old v hv := by rw [h'.old v (Nat.lt_of_lt_of_le hv h.grows.keeps.vars), h.old v hv]
  others v hv := by
    rw [List.mem_append, not_or] at hv
    rw [h'.others v hv.2, h.others v hv.1]
  fresh v hv hlt := by
    by_cases hw : v ∈ vs
    · obtain ⟨w, hw', hlt', hlike⟩ := h'.fresh v hw (Nat.lt_of_lt_of_le hlt h.grows.keeps.vars)
      exact ⟨w, hw', hlt', by rw [hlike, h.old v hlt]⟩
    · obtain ⟨w, hw', hlt', hlike⟩ := h.fresh v ((List.mem_append.mp hv).resolve_right hw) hlt
      refine ⟨w, by rw [h'.others v hw, hw'], Nat.lt_of_lt_of_le hlt' h'.grows.keeps.vars, ?_⟩
      rw [h'.old w hlt', hlike]
  names hn := by
    obtain ⟨hu, hv, hdis⟩ := List.nodup_append.mp hn
    rw [List.map_append, ← h'.names hv, h.names hu]
    exact congrArg (· ++ xs) (List.map_congr_left fun v hv => (h'.agrees fun hmem => hdis v hv v hmem rfl).symm)

theorem swap (h : Registers (fs ++ gs) (us ++ vs) (ws ++ xs) m m' p p') (hlen : ws.length = us.length) :
    Registers (gs ++ fs) (vs ++ us) (xs ++ ws) m m' p p' where
  grows := h.grows.perm List.perm_append_comm List.perm_append_comm
  length := by rw [List.perm_append_comm.length_eq, h.length, List.perm_append_comm.length_eq]
  old := h.old
  others v hv := h.others v fun hmem => hv (List.perm_append_comm.mem_iff.mp hmem)
  fresh v hv := h.fresh v (List.perm_append_comm.mem_iff.mp hv)
  names hn := by
    obtain ⟨hws, hxs⟩ := List.append_inj ((h.names (List.nodup_append_comm.mp hn)).trans List.map_append) (by simpa using hlen)
    rw [List.map_append, hws, hxs]

theorem still (h : Registers fs vs ws m m' p p') (h' : Registers gs [] [] m' m'' p' p'') : Registers (fs ++ gs) vs ws m m'' p p'' := by
  simpa using h.trans h'

end Registers

theorem freshVar_works :
    HaltsIn (freshVar v) m p (fun w m' p' => Registers [] [v] [w] m m' p p') (v < p.vars.size) := by
  have hnew : Halts (newVarLike v) p (fun w p' => Grows ∅ [] [w] p p' ∧ p'.vars.get? w = p.vars.get? v ∧
      ∀ u, u < p.vars.size → p'.vars.get? u = p.vars.get? u) (v < p.vars.size) := by
    refine .get ?_
    split
    · rename_i x hx
      refine newVar_works.and fun w p' hrun => ?_
      cases hrun
      exact ⟨Array.getElem?_push_size.trans hx.symm, fun u hu => (Array.getElem?_push_lt hu).trans (Array.getElem?_eq_getElem hu).symm⟩
    · rename_i hx
      refine .throw nofun fun hv => ?_
      obtain ⟨x, hx'⟩ := exists_var hv
      exact nomatch hx.symm.trans hx'
  refine .step hnew fun w p₁ ⟨hg, hlike, hold⟩ => .bind (R := fun _ m' p' => p' = p₁ ∧ m' = m.insert v w) (.modify ⟨rfl, rfl⟩) ?_
  rintro _ _ _ ⟨rfl, rfl⟩
  refine .pure ⟨hg, rfl, hold, fun u hu => ?_, fun u hu _ => ?_, fun _ => ?_⟩
  · rw [VarMap.get?_insert, if_neg fun h => hu (List.mem_singleton.mpr h)]
  · obtain rfl := List.mem_singleton.mp hu
    exact ⟨w, by rw [VarMap.get?_insert, if_pos rfl], hg.vars.lt w List.mem_cons_self, hlike⟩
  · rw [List.map_cons, List.map_nil, VarMap.apply_insert, if_pos rfl]

theorem mapM_freshVar_works {β : Type} {f : VarId → CopyM β} {g : β → VarId} {R : VarMap → VarId → β → Prop}
    (hf : ∀ v m p, HaltsIn (f v) m p (fun b m' p' => Registers [] [v] [g b] m m' p p' ∧ R m' v b) (v < p.vars.size)) :
    HaltsIn (vs.mapM f) m p (fun bs m' p' => Registers [] vs (bs.map g) m m' p p' ∧
      List.Forall₂ (fun v b => (vs.Nodup → g b = m'.apply v) ∧ ∃ m₁ : VarMap, (∀ u, u ∉ vs → m₁.apply u = m.apply u) ∧ R m₁ v b) vs bs)
      (∀ v ∈ vs, v < p.vars.size) := by
  induction vs generalizing m p with
  | nil => exact .pure ⟨.refl m p, .nil⟩
  | cons v vs ih =>
    rw [List.mapM_cons]
    refine .bind ((hf v m p).when fun h => h v List.mem_cons_self) fun b m₁ p₁ ⟨h₁, hb⟩ => ?_
    have hagree : ∀ u, u ∉ v :: vs → m₁.apply u = m.apply u := fun u hu =>
      h₁.agrees fun hmem => hu (List.mem_cons.mpr (.inl (List.mem_singleton.mp hmem)))
    refine .bind (ih.when fun h u hu => Nat.lt_of_lt_of_le (h u (List.mem_cons_of_mem _ hu)) h₁.grows.keeps.vars)
      fun bs m₂ p₂ ⟨h₂, hbs⟩ => .pure ⟨h₁.trans h₂, .cons ⟨fun hn => ?_, m₁, hagree, hb⟩ (hbs.imp fun u b ⟨hname, m', hm', hR⟩ =>
        ⟨fun hn => hname (List.nodup_cons.mp hn).2, m', fun u hu => ?_, hR⟩)⟩
    · rw [h₂.agrees (List.nodup_cons.mp hn).1]
      simpa using h₁.names (List.nodup_singleton v)
    · rw [hm' u fun hmem => hu (List.mem_cons_of_mem _ hmem), hagree u hu]

section
variable {P : Prop}

theorem copiedVar_works : HaltsIn (copiedVar v) m p (fun w m' p' => m' = m ∧ p' = p ∧ w = m.apply v) P :=
  .get (.pure ⟨rfl, rfl, rfl⟩)

theorem mapM_copiedVar_works {α β : Type} {f : α → CopyM β} {g : VarMap → α → β} {as : List α}
    (hf : ∀ a m p, HaltsIn (f a) m p (fun b m' p' => m' = m ∧ p' = p ∧ b = g m a) P) :
    HaltsIn (as.mapM f) m p (fun bs m' p' => m' = m ∧ p' = p ∧ bs = as.map (g m)) P := by
  refine (HaltsIn.mapM (I := fun m' p' => m' = m ∧ p' = p) (R := fun a b => b = g m a) (fun a _ m' p' hI => ?_) ⟨rfl, rfl⟩).mono
    fun bs m' p' ⟨⟨hm, hp⟩, hbs⟩ => ⟨hm, hp, eq_map_of_forall₂ hbs⟩
  obtain ⟨rfl, rfl⟩ := hI
  exact (hf a m' p').mono fun b _ _ ⟨hm, hp, hb⟩ => ⟨⟨hm, hp⟩, hb⟩

theorem copiedSet_works {s : VarSet} : HaltsIn (copiedSet s) m p (fun s' m' p' => m' = m ∧ p' = p ∧ IsImage m.apply s s') P := by
  refine .bind (mapM_copiedVar_works fun _ _ _ => copiedVar_works) fun ws m₁ p₁ ⟨hm, hp, hws⟩ => .pure ⟨hm, hp, fun w => ?_⟩
  simp [hws]

theorem copiedKeys_works {keys : List SortKey} :
    HaltsIn (copiedKeys keys) m p (fun keys' m' p' => m' = m ∧ p' = p ∧ keys' = keys.map (SortKey.under m.apply)) P :=
  mapM_copiedVar_works (g := fun m => SortKey.under m.apply) fun _ _ _ => .bind copiedVar_works fun _ _ _ ⟨hm, hp, hw⟩ =>
    .pure ⟨hm, hp, by rw [hw, SortKey.under]⟩

end

/-! ### Operators in a copy -/

theorem newTableId_works {P : Prop} : HaltsIn (modifyGetThe Plan fun p => (p.tableCount, { p with tableCount := p.tableCount + 1 }) :
    CopyM Nat) m p (fun _ m' p' => Registers [] [] [] m m' p p') P := by
  have hkeeps : Keeps ∅ p { p with tableCount := p.tableCount + 1 } := .of_nodes rfl (Nat.le_refl p.vars.size)
  exact Halts.of_run (a := (p.tableCount, m)) rfl hkeeps.acyclic (.none hkeeps.grows rfl)

/-- What a set operator's map has for an output in a copy. -/
def entryIn (m l : VarMap) (v w : VarId) : VarMap :=
  match l.get? v with
  | some x => .ofList [(w, m.apply x)]
  | none => .empty

theorem copiedEntry_works {P : Prop} :
    HaltsIn (copiedEntry l v w) m p (fun e m' p' => m' = m ∧ p' = p ∧ e = entryIn m l v w) P := by
  rw [copiedEntry, entryIn]
  cases l.get? v with
  | some x => exact .bind copiedVar_works fun w m₁ p₁ ⟨hm, hp, hw⟩ => .pure ⟨hm, hp, by rw [hw]⟩
  | none => exact .pure ⟨rfl, rfl, rfl⟩

theorem entryIn_congr {m m' : VarMap} (h : ∀ x, l.get? v = some x → m'.apply x = m.apply x) :
    entryIn m' l v w = entryIn m l v w := by
  rw [entryIn, entryIn]
  split
  · rw [h _ ‹_›]
  · rfl

theorem mem_entryIn {e : VarId × VarId} (h : e ∈ (entryIn m l v w).entries) :
    ∃ x, l.get? v = some x ∧ e = (w, m.apply x) := by
  rw [entryIn] at h
  split at h
  · exact ⟨_, ‹_›, List.mem_singleton.mp h⟩
  · cases h

theorem mergeMaps_follows
    (h : List.Forall₂ (fun v e => e = entryIn m l v (m.apply v)) vs ms) :
    ∀ e' ∈ (mergeMaps ms).entries, ∃ e ∈ l.entries, m.apply e.2 = e'.2 := by
  intro e' he'
  obtain ⟨e, he, he'⟩ := List.mem_flatMap.mp (VarMap.mem_entries_ofList he')
  obtain ⟨v, -, rfl⟩ := exists_of_forall₂_right h he
  obtain ⟨x, hx, rfl⟩ := mem_entryIn he'
  exact ⟨(v, x), VarMap.mem_entries_of_get? hx, rfl⟩

theorem get?_mergeMaps
    (h : List.Forall₂ (fun v e => e = entryIn m l v (m.apply v)) vs ms) (hn : (vs.map m.apply).Nodup)
    (hv : v ∈ vs) : (mergeMaps ms).get? (m.apply v) = (l.get? v).map m.apply := by
  have hentry : ∀ w, (mergeMaps ms).get? (m.apply v) = some w → ∃ x, l.get? v = some x ∧ w = m.apply x := by
    intro w hw
    obtain ⟨e, he, hmem⟩ := List.mem_flatMap.mp (VarMap.mem_entries_ofList (VarMap.mem_entries_of_get? hw))
    obtain ⟨v', hv', rfl⟩ := exists_of_forall₂_right h he
    obtain ⟨x, hx, heq⟩ := mem_entryIn hmem
    obtain ⟨hname, rfl⟩ := Prod.mk.inj heq
    obtain rfl := List.inj_on_of_nodup_map hn hv hv' hname
    exact ⟨x, hx, rfl⟩
  cases hx : l.get? v with
  | none =>
    rw [Option.map_none, Option.eq_none_iff_forall_ne_some]
    intro w hw
    obtain ⟨x, hx', -⟩ := hentry w hw
    rw [hx] at hx'
    cases hx'
  | some x =>
    obtain ⟨e, he, rfl⟩ := exists_of_forall₂_right h.flip hv
    have hmem : m.apply v ∈ (ms.flatMap (·.entries)).map (·.1) :=
      List.mem_map.mpr ⟨(m.apply v, m.apply x), List.mem_flatMap.mpr ⟨_, he, by rw [entryIn, hx]; exact List.mem_singleton_self _⟩, rfl⟩
    obtain ⟨w, hw⟩ := VarMap.get?_ofList_ne_none hmem
    obtain ⟨x', hx', rfl⟩ := hentry w hw
    rw [hx] at hx'
    cases hx'
    exact hw

theorem isSome_mergeMaps (entries : List (VarId × VarMap))
    (h : List.Forall₂ (fun v b => ∃ m, b.2 = entryIn m l v b.1) vs entries) (hl : ∀ v ∈ vs, (l.get? v).isSome)
    (hw : w ∈ entries.map (·.1)) : ((mergeMaps (entries.map (·.2))).get? w).isSome := by
  obtain ⟨b, hb, rfl⟩ := List.mem_map.mp hw
  obtain ⟨v, hv, m, hx⟩ := exists_of_forall₂_right h hb
  obtain ⟨x, hvx⟩ := Option.isSome_iff_exists.mp (hl v hv)
  rw [Option.isSome_iff_exists]
  refine VarMap.get?_ofList_ne_none (List.mem_map.mpr ⟨(b.1, m.apply x), List.mem_flatMap.mpr ⟨b.2, List.mem_map_of_mem hb, ?_⟩, rfl⟩)
  rw [hx, entryIn, hvx]
  exact List.mem_singleton_self _

/-- The operator of a copy is of the same kind and fits where the original does. It is a copy where the original brings no variable
    into being twice and needs none of those itself. -/
structure CopiesOp (op op' : Op) (m m' : VarMap) (p p' : Plan) : Prop where
  registers : ∃ ws, Registers [] op.own ws m m' p p'
  kind : op'.kind = op.kind
  fits : ∀ ks, op.fits ks = true → op'.fits ks = true
  copied : op.own.Nodup → (∀ x ∈ op.needs, x.1 ∉ op.own) → op.Copied m' op'

theorem CopiesOp.still {op op' : Op} (h : op.Copied m op') (hown : op.own = []) (hkind : op'.kind = op.kind)
    (hfits : ∀ ks, op.fits ks = true → op'.fits ks = true) : CopiesOp op op' m m p p :=
  ⟨⟨[], hown ▸ .refl m p⟩, hkind, hfits, fun _ _ => h⟩

theorem copiedOp_works {op : Op} :
    HaltsIn (copiedOp op) m p (fun op' m' p' => CopiesOp op op' m m' p p') (∀ v ∈ op.own, v < p.vars.size) := by
  cases op with
  | scanTable t =>
    refine .bind (mapM_freshVar_works (g := fun w => w) (R := fun _ _ _ => True) fun v m p => freshVar_works.mono fun w m' p' h => ⟨h, trivial⟩) ?_
    rintro columns m₁ p₁ ⟨h₁, -⟩
    refine .bind copiedSet_works ?_
    rintro nonNullable m₂ p₂ ⟨hm, hp, hs⟩
    subst hm hp
    have hkeys {P : Prop} : HaltsIn (t.keys.mapM copiedSet) m₂ p₂ (fun keys m' p' => m' = m₂ ∧ p' = p₂ ∧
        Option.Rel (IsImage m₂.apply) t.keys keys) P := by
      cases t.keys with
      | none => exact .pure ⟨rfl, rfl, .none⟩
      | some keys =>
        rw [Option.mapM_some, map_eq_pure_bind]
        exact .bind copiedSet_works fun _ _ _ h => .pure ⟨h.1, h.2.1, .some h.2.2⟩
    refine .bind hkeys ?_
    rintro keys m₃ p₃ ⟨hm, hp, hk⟩
    subst hm hp
    refine .bind newTableId_works fun id m₄ p₄ h₄ => .pure ⟨⟨_, h₁.still h₄⟩, rfl, fun _ h => h, fun hn _ => ?_⟩
    have happly : m₃.apply = m₄.apply := funext fun v => (h₄.agrees List.not_mem_nil).symm
    rw [happly] at hs hk
    obtain rfl : columns = t.columns.map m₄.apply := by simpa [happly] using h₁.names hn
    refine ⟨.silent rfl rfl rfl fun _ => rfl, .refl _, fun hreg v hv => ?_, rfl, .scanTable rfl rfl fun _ => ⟨hs, hk⟩⟩
    obtain ⟨u, hu, rfl⟩ := (hs v).mp hv
    exact List.mem_map_of_mem (hreg u hu)
  | combine kind outputs left right =>
    refine .bind (mapM_freshVar_works (g := (·.1)) (R := fun m v b => b.2 = (entryIn m left v b.1, entryIn m right v b.1)) fun v m p => ?_) ?_
    · refine .bind freshVar_works fun w m₁ p₁ h₁ => .bind copiedEntry_works ?_
      rintro l' m₂ p₂ ⟨hm₂, hp, hl'⟩
      subst hm₂ hp
      refine .bind copiedEntry_works ?_
      rintro r' m₃ p₃ ⟨hm₃, hp, hr'⟩
      subst hm₃ hp
      exact .pure ⟨h₁, by rw [hl', hr']⟩
    rintro entries m₁ p₁ ⟨h₁, hentries⟩
    apply HaltsIn.pure
    have hfits : ∀ ks, (Op.combine kind outputs left right).fits ks → (Op.combine kind (.ofList (entries.map (·.1)))
        (mergeMaps (entries.map (·.2.1))) (mergeMaps (entries.map (·.2.2)))).fits ks = true := by
      intro ks hfits
      simp only [Op.fits, Bool.and_eq_true, List.all_eq_true] at hfits ⊢
      refine ⟨hfits.1, fun w hw => ?_⟩
      rw [VarSet.mem_toList, VarSet.mem_ofList] at hw
      have hls := isSome_mergeMaps (entries.map fun b => (b.1, b.2.1)) (List.forall₂_map_right_iff.mpr
        (hentries.imp fun v b h => h.2.imp fun m hm => by rw [hm.2])) (fun v hv => (hfits.2 v hv).1) (w := w) (by simpa using hw)
      have hrs := isSome_mergeMaps (entries.map fun b => (b.1, b.2.2)) (List.forall₂_map_right_iff.mpr
        (hentries.imp fun v b h => h.2.imp fun m hm => by rw [hm.2])) (fun v hv => (hfits.2 v hv).2) (w := w) (by simpa using hw)
      rw [List.map_map] at hls hrs
      exact ⟨hls, hrs⟩
    refine ⟨⟨_, h₁⟩, rfl, hfits, fun hn hneeds => ?_⟩
    have houts : entries.map (·.1) = outputs.toList.map m₁.apply := h₁.names hn
    have hnodup : (outputs.toList.map m₁.apply).Nodup := houts ▸ h₁.grows.vars.nodup
    -- The branches refer to none of the outputs, so their names are the same at every output.
    have hbranch {l : VarMap} (hl : ∀ e ∈ l.entries, e.2 ∉ outputs.toList) {m' : VarMap}
        (hm' : ∀ u, u ∉ outputs.toList → m'.apply u = m.apply u) (v w : VarId) : entryIn m' l v w = entryIn m₁ l v w :=
      entryIn_congr fun x hx => (hm' x (hl _ (VarMap.mem_entries_of_get? hx))).trans
        (h₁.agrees (hl _ (VarMap.mem_entries_of_get? hx))).symm
    have hl : ∀ e ∈ left.entries, e.2 ∉ outputs.toList := fun e he =>
      hneeds (e.2, [0]) (List.mem_append_left _ (List.mem_map.mpr ⟨e, he, rfl⟩))
    have hr : ∀ e ∈ right.entries, e.2 ∉ outputs.toList := fun e he =>
      hneeds (e.2, [1]) (List.mem_append_right _ (List.mem_map.mpr ⟨e, he, rfl⟩))
    have hnamed : List.Forall₂ (fun v b => b.2.1 = entryIn m₁ left v (m₁.apply v) ∧
        b.2.2 = entryIn m₁ right v (m₁.apply v)) outputs.toList entries := by
      refine hentries.imp ?_
      rintro v b ⟨hv, m', hm', hb⟩
      constructor
      · rw [hb, hv hn, hbranch hl hm']
      · rw [hb, hv hn, hbranch hr hm']
    have hleft : List.Forall₂ (fun v e => e = entryIn m₁ left v (m₁.apply v)) outputs.toList (entries.map (·.2.1)) :=
      List.forall₂_map_right_iff.mpr (hnamed.imp fun v b hb => hb.1)
    have hright : List.Forall₂ (fun v e => e = entryIn m₁ right v (m₁.apply v)) outputs.toList (entries.map (·.2.2)) :=
      List.forall₂_map_right_iff.mpr (hnamed.imp fun v b hb => hb.2)
    refine ⟨.combine (mergeMaps_follows hleft) (mergeMaps_follows hright), ?_, fun _ => trivial, rfl, .combine (fun w => ?_)
      (fun v hv => get?_mergeMaps hleft hnodup (VarSet.mem_toList.mpr hv))
      fun v hv => get?_mergeMaps hright hnodup (VarSet.mem_toList.mpr hv)⟩
    · rw [houts]
      exact VarSet.toList_ofList_perm hnodup
    · simp [houts]
  | varDef v =>
    refine .bind (freshVar_works.when fun h => h v (List.mem_singleton_self v)) fun w m₁ p₁ h =>
      .pure ⟨⟨_, h⟩, rfl, fun _ h => h, fun hn _ => ?_⟩
    have hw : w = m₁.apply v := by simpa using h.names hn
    subst hw
    exact ⟨.silent rfl rfl rfl fun _ => rfl, .refl _, id, rfl, .varDef v⟩
  | project outputs =>
    refine .bind copiedSet_works ?_
    rintro s m₁ p₁ ⟨hm, hp, hs⟩
    subst hm hp
    exact .pure (.still ⟨.project hs, .nil, id, rfl, .project hs⟩ rfl rfl fun _ => id)
  | distinct keys =>
    refine .bind copiedSet_works ?_
    rintro s m₁ p₁ ⟨hm, hp, hs⟩
    subst hm hp
    exact .pure (.still ⟨.distinct hs, .nil, id, rfl, .distinct hs⟩ rfl rfl fun _ => id)
  | groupBy keys outputs =>
    refine .bind copiedSet_works ?_
    rintro keys' m₁ p₁ ⟨hm, hp, hk⟩
    subst hm hp
    refine .bind copiedSet_works ?_
    rintro s m₁ p₁ ⟨hm, hp, hs⟩
    subst hm hp
    exact .pure (.still ⟨.groupBy hk hs, .nil, id, rfl, .groupBy hk hs⟩ rfl rfl fun _ => id)
  | sort keys =>
    refine .bind copiedKeys_works ?_
    rintro s m₁ p₁ ⟨hm, hp, hkeys⟩
    subst hm hp hkeys
    exact .pure (.still ⟨.silent rfl rfl rfl fun _ => rfl, .nil, id, rfl, .sort keys⟩ rfl rfl fun _ => id)
  | constrainedSort keys =>
    refine .bind copiedKeys_works ?_
    rintro s m₁ p₁ ⟨hm, hp, hkeys⟩
    subst hm hp hkeys
    exact .pure (.still ⟨.silent rfl rfl rfl fun _ => rfl, .nil, id, rfl, .constrainedSort keys⟩ rfl rfl fun _ => id)
  | varRef v type =>
    refine .bind copiedVar_works ?_
    rintro w m₁ p₁ ⟨hm, hp, hw⟩
    subst hm hp hw
    exact .pure (.still ⟨.silent rfl rfl rfl fun _ => rfl, .nil, id, rfl, .varRef v type type⟩ rfl rfl fun _ => id)
  | _ => exact .pure (.still ⟨.plain rfl, .nil, id, rfl, .plain rfl⟩ rfl rfl fun _ => id)

/-! ### Trees in a copy -/

/-- A copy of a tree was made below a node, with nodes of its own, as many fresh variables as the tree brings into being and the same
    kinds of operators. -/
structure CopiedTo (m m' : VarMap) (p p' : Plan) (t t' : Tree) (ws : List VarId) : Prop where
  holds : p'.Holds t'
  registers : Registers t'.ids t.binds ws m m' p p'
  alike : t.Alike t'
  copied : ∀ k, Valid k (·) t → t.Copied m' t'

theorem copyAll_eq_mapM (cs : List Tree) : copyTree.copyAll cs = cs.mapM copyTree := by
  induction cs with
  | nil => rfl
  | cons c cs ih => rw [copyTree.copyAll, ih, List.mapM_cons]

/-- Copies of trees are made one after the other. Where no tree refers to what a later one brings into being,
    they are copies under the names of the last. -/
theorem mapM_copyTree_works {cs : List Tree} (ih : ∀ c ∈ cs, ∀ m p, HaltsIn (copyTree c) m p (fun n m' p' =>
      ∃ c' ws, c'.id = n ∧ CopiedTo m m' p p' c c' ws) (c.wellFormed ∧ ∀ v ∈ c.binds, v < p.vars.size)) :
    HaltsIn (cs.mapM copyTree) m p (fun ns m' p' => ∃ (cs' : List Tree) (ws : List VarId), ns = cs'.map Tree.id ∧
      (∀ c' ∈ cs', p'.Holds c') ∧ Registers (cs'.flatMap Tree.ids) (cs.flatMap Tree.binds) ws m m' p p' ∧ List.Forall₂ Alike cs cs' ∧
      ((∀ c ∈ cs, ∃ k, Valid k (·) c) → cs.Pairwise (fun c d => ∀ v ∈ c.binds, v ∉ d.binds) →
        cs.Pairwise (fun c d => ∀ u, Uses (·) c u → u ∉ d.binds) → List.Forall₂ (Tree.Copied m') cs cs'))
      (∀ c ∈ cs, c.wellFormed ∧ ∀ v ∈ c.binds, v < p.vars.size) := by
  induction cs generalizing m p with
  | nil => exact .pure ⟨[], [], rfl, nofun, .refl m p, .nil, fun _ _ _ => .nil⟩
  | cons c cs ihs =>
    rw [List.mapM_cons]
    refine .bind ((ih c List.mem_cons_self m p).when fun h => h c List.mem_cons_self) fun n m₁ p₁ ⟨c', ws, hid, h⟩ => ?_
    refine .bind ((ihs fun d hd => ih d (List.mem_cons_of_mem _ hd)).when fun h d hd =>
      (h d (List.mem_cons_of_mem _ hd)).imp_right fun h v hv => Nat.lt_of_lt_of_le (h v hv) ‹CopiedTo ..›.registers.grows.keeps.vars)
      fun ns m₂ p₂ ⟨cs', xs, hns, hh, h₂, halike, hcs'⟩ =>
        .pure ⟨c' :: cs', ws ++ xs, ?_, ?_, h.registers.trans h₂, .cons h.alike halike, fun hvalid hbinds huses => ?_⟩
    · rw [hns, ← hid, List.map_cons]
    · exact List.forall_mem_cons.mpr ⟨h₂.grows.keeps.still h.holds, hh⟩
    · obtain ⟨hbc, hbinds⟩ := List.pairwise_cons.mp hbinds
      obtain ⟨huc, huses⟩ := List.pairwise_cons.mp huses
      obtain ⟨⟨k, hk⟩, hvalid⟩ := List.forall_mem_cons.mp hvalid
      refine .cons ((h.copied k hk).congr hk.inScope (fun v hv => h₂.agrees fun hmem => ?_) fun u hu => h₂.agrees fun hmem => ?_)
        (hcs' hvalid hbinds huses)
      · obtain ⟨d, hd, hvd⟩ := List.mem_flatMap.mp hmem
        exact hbc d hd v hv hvd
      · obtain ⟨d, hd, hud⟩ := List.mem_flatMap.mp hmem
        exact huc d hd u hu hud

theorem copyTree_works : HaltsIn (copyTree t) m p (fun n m' p' => ∃ t' ws, t'.id = n ∧ CopiedTo m m' p p' t t' ws)
    (t.wellFormed ∧ ∀ v ∈ t.binds, v < p.vars.size) := by
  induction t using induct generalizing m p with
  | node id op cs ih =>
    rw [copyTree, copyAll_eq_mapM]
    refine .bind ((mapM_copyTree_works fun c hc m p => ih c hc).when fun h c hc =>
      ⟨(wellFormed_node.mp h.1).2 c hc, fun v hv => h.2 v (mem_binds_of_mem hc hv)⟩) ?_
    rintro ns m₁ p₁ ⟨cs', ws, hns, hh, h₁, halike, hcs'⟩
    refine .bind (copiedOp_works.when fun h v hv => Nat.lt_of_lt_of_le (h.2 v (mem_binds_of_own hv)) h₁.grows.keeps.vars) ?_
    rintro op' m₂ p₂ ⟨⟨xs, h₂⟩, hkind, hfits, ho⟩
    subst hns
    refine .lift (((create_works cs' fun c hc => h₂.grows.keeps.still (hh c hc)).when fun h => ?_).mono fun n p₃ hn =>
      ⟨.node n op' cs', xs ++ ws, rfl, hn.holds, ?_, .node hkind hfits halike, fun k hk => ?_⟩)
    · rw [hkind, ← halike.length_eq]
      exact admits_of_wellFormed h.1
    · rw [binds_node, ids_node]
      exact (h₁.trans (h₂.still (.none hn.grows hn.vars))).swap h₁.length
    · obtain ⟨hown, -, hpair, hdis⟩ := nodup_binds_node.mp hk.nodup
      obtain ⟨-, hneeds, hscoped⟩ := scoped_node.mp hk.inScope
      have huses : cs.Pairwise fun c d => ∀ u, Uses (·) c u → u ∉ d.binds := by
        refine List.pairwise_iff_getElem.mpr fun i j hi hj hlt u hu hb => ?_
        have hc : cs[i]? = some cs[i] := List.getElem?_eq_getElem hi
        have hd : cs[j]? = some cs[j] := List.getElem?_eq_getElem hj
        rcases uses_child hc hu with hu | ⟨l, e, he, hsees, hdu⟩
        · exact hk.closed u hu (mem_binds_of_mem (List.getElem_mem hj) hb)
        · obtain rfl := eq_of_mem_binds hk.nodup he hd (mem_binds_of_defines (hscoped e (List.mem_of_getElem? he)) hdu) hb
          have := sees_lt hsees
          omega
      have hvalid : ∀ c ∈ cs, ∃ k, Valid k (·) c := fun c hc => by
        obtain ⟨i, hi⟩ := List.mem_iff_getElem?.mp hc
        exact ⟨k, hk.child hi⟩
      refine .node (ho hown fun x hx hmem => ?_) (forall₂_imp_mem (hcs' hvalid hpair huses) fun c hc c' _ h =>
        h.congr (hscoped c hc) (fun v hv => h₂.agrees fun hmem => hdis v hmem c hc hv) fun u hu => h₂.agrees fun hmem => ?_)
      · obtain ⟨i, c, hc, -, hd⟩ := hneeds x hx
        have hc := List.mem_of_getElem? hc
        exact hdis x.1 hmem c hc (mem_binds_of_defines (hscoped c hc) hd)
      · obtain ⟨i, hi⟩ := List.mem_iff_getElem?.mp hc
        rcases uses_child hi hu with hu | ⟨j, d, hd, -, hdu⟩
        · exact hk.closed u hu (mem_binds_of_own hmem)
        · have hd := List.mem_of_getElem? hd
          exact hdis u hmem d hd (mem_binds_of_defines (hscoped d hd) hdu)

/-- The second tree is a copy of the first, with `vs` in place of what that brings into being. -/
structure Replicates (t t' : Tree) (vs : List VarId) : Prop where
  alike : t.Alike t'
  mirrors : ∀ k, Valid k (·) t → t.Sorted → ∃ μ, Mirrors μ t t' ∧ vs = t.binds.map μ ∧ ∀ u, Uses (·) t u → μ u = u

theorem CopiedTo.replicates {t' : Tree} {ws : List VarId} (h : CopiedTo .empty m p p' t t' ws) : Replicates t t' ws where
  alike := h.alike
  mirrors k hk hsort := ⟨m.apply, (h.copied k hk).mirrors hsort, h.registers.names hk.nodup, fun u hu => h.registers.agrees (hk.closed u hu)⟩

theorem copySubtree_works (hh : p.Holds t) : Halts (copySubtree t.id) p (fun out p' =>
    ∃ t' ws, t'.id = out.1 ∧ CopiedTo .empty out.2 p p' t t' ws) (t.wellFormed ∧ ∀ v ∈ t.binds, v < p.vars.size) :=
  .read hh.tree_run copyTree_works

end Plan

end Planwright
