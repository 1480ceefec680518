import Planwright.Proofs.Semantics.Swap

/-! What is never null at a place. The relations above the place are asked, innermost first, and the input that
    shows the variable decides: what is never null in a relation is so in any part that has it, and no relation
    between the input and the place knows the variable. -/

namespace Planwright

namespace Tree

def NeverNull (t : Tree) (v : VarId) : Prop := t.IsRelational ∧ ∃ i, t.analysis = .ok i ∧ v ∈ i.nonNullable

variable {t c d : Tree} {id : NodeId} {op : Op} {cs : List Tree} {v : VarId}

theorem neverNull_iff (hrel : t.IsRelational) {i : Info} (hi : t.analysis = .ok i) : t.NeverNull v ↔ v ∈ i.nonNullable :=
  (and_iff_right hrel).trans (Run.exists_ok_iff hi)

theorem NeverNull.mem_binds (h : t.NeverNull v) (ht : t.wellFormed) (hs : Scoped (·) t) : v ∈ t.binds := by
  obtain ⟨hrel, i, hi, hv⟩ := h
  exact mem_binds_of_defines hs ((analysis_scope ht hi v).1.mp (nonNullable_defined ht hrel hs hi hv))

/-- Where the variables come from that the analysis of a node tells of. -/
structure Traces (op : Op) (cs : List Tree) (i : Info) (v : VarId) : Prop where
  nonNullable : v ∈ i.nonNullable →
    v ∈ op.own ∨ (∃ c ∈ cs, c.NeverNull v) ∨ ∃ c ∈ cs, c.kind = .varDefList ∧ Defines (·) c v
  visible : v ∈ i.nonNullableVisible → ∃ c ∈ cs, c.NeverNull v
  seen : ∀ {k j : Nat} {d : Tree}, cs[j]? = some d → op.sees k j = true → d.NeverNull v → v ∈ i.nonNullableVisible
  locals : v ∈ i.locals → v ∈ op.own ∨ ∃ c ∈ cs, ∃ j, c.analysis = .ok j ∧ v ∈ j.locals

namespace Traces

variable {i : Info}

theorem of_own (hi : v ∈ i.nonNullable → v ∈ op.own) (hvisible : i.nonNullableVisible = .empty) (hsees : op.sees = fun _ _ => false)
    (hlocals : v ∈ i.locals → v ∈ op.own ∨ ∃ c ∈ cs, ∃ j, c.analysis = .ok j ∧ v ∈ j.locals) : Traces op cs i v where
  nonNullable h := .inl (hi h)
  visible h := absurd (hvisible ▸ h) (VarSet.not_mem_empty v)
  seen _ h := by
    rw [hsees] at h
    cases h
  locals := hlocals

theorem of_nothing (hi : i.nonNullable = .empty) (hvisible : i.nonNullableVisible = .empty) (hsees : op.sees = fun _ _ => false)
    (hlocals : i.locals = .empty) : Traces op cs i v :=
  .of_own (fun h => absurd (hi ▸ h) (VarSet.not_mem_empty v)) hvisible hsees fun h =>
    absurd (hlocals ▸ h) (VarSet.not_mem_empty v)

theorem of_input {x : Tree} {rest : List Tree} {ix : Info} (hx : x.IsRelational) (hix : x.analysis = .ok ix)
    (hi : v ∈ i.nonNullable → v ∈ ix.nonNullable ∨ ∃ c ∈ rest, c.kind = .varDefList ∧ Defines (·) c v)
    (hvisible : v ∈ i.nonNullableVisible ↔ v ∈ ix.nonNullable) (hsees : ∀ {k j}, op.sees k j = true → j = 0)
    (hlocals : v ∈ i.locals → ∃ c ∈ rest, ∃ j, c.analysis = .ok j ∧ v ∈ j.locals) : Traces op (x :: rest) i v where
  nonNullable h := by
    rcases hi h with hv | ⟨c, hc, hd⟩
    · exact .inr (.inl ⟨x, List.mem_cons_self, hx, ix, hix, hv⟩)
    · exact .inr (.inr ⟨c, List.mem_cons_of_mem _ hc, hd⟩)
  visible h := ⟨x, List.mem_cons_self, hx, ix, hix, hvisible.mp h⟩
  seen hd h hn := by
    obtain rfl := hsees h
    cases hd
    exact hvisible.mpr ((neverNull_iff hx hix).mp hn)
  locals h := by
    obtain ⟨c, hc, hj⟩ := hlocals h
    exact .inr ⟨c, List.mem_cons_of_mem _ hc, hj⟩

theorem of_pair {x y : Tree} {rest : List Tree} {ix iy : Info} (hx : x.IsRelational) (hy : y.IsRelational)
    (hix : x.analysis = .ok ix) (hiy : y.analysis = .ok iy) (hi : v ∈ i.nonNullable → v ∈ ix.nonNullable ∨ v ∈ iy.nonNullable)
    (hvisible : i.nonNullableVisible = ix.nonNullable ∪ iy.nonNullable) (hsees : ∀ {k j}, op.sees k j = true → j = 0 ∨ j = 1)
    (hlocals : i.locals = .empty) : Traces op (x :: y :: rest) i v where
  nonNullable h := .inr (.inl ((hi h).elim (fun hv => ⟨x, by simp, hx, ix, hix, hv⟩) fun hv => ⟨y, by simp, hy, iy, hiy, hv⟩))
  visible h := by
    rw [hvisible] at h
    exact (VarSet.mem_union.mp h).elim (fun hv => ⟨x, by simp, hx, ix, hix, hv⟩) fun hv => ⟨y, by simp, hy, iy, hiy, hv⟩
  seen hd h hn := by
    rw [hvisible, VarSet.mem_union]
    rcases hsees h with rfl | rfl <;> cases hd
    · exact .inl ((neverNull_iff hx hix).mp hn)
    · exact .inr ((neverNull_iff hy hiy).mp hn)
  locals h := absurd (hlocals ▸ h) (VarSet.not_mem_empty v)

end Traces

theorem foldl_definitions {chs : List Child} {i i' : Info} (h : chs.foldl Info.withDefinition i = i') :
    i'.nonNullable = i.nonNullable ∧ i'.nonNullableVisible = i.nonNullableVisible ∧
      (v ∈ i'.locals → v ∈ i.locals ∨ ∃ d ∈ chs, v ∈ d.info.locals) := by
  induction chs generalizing i with
  | nil => exact h ▸ ⟨rfl, rfl, .inl⟩
  | cons d chs ih =>
    obtain ⟨hn, hvis, hlocals⟩ := ih h
    refine ⟨hn, hvis, fun hv => ?_⟩
    simpa [Info.withDefinition, or_assoc] using hlocals hv

theorem defines_of_neverNullDefs (ht : d.wellFormed) (hk : d.kind = .varDefList) {j : Info} {known acc s : VarSet}
    (h : Op.neverNullDefs known acc (d.asChild j).inner = .ok s) (hv : v ∈ s) : v ∈ acc ∨ Defines (·) d v := by
  have hmem := (Run.exists_ok_iff h).mp (Op.neverNullDefs_ok (defines_of_varDefList ht hk j) acc)
  refine ((hmem v).mp hv).imp_right ?_
  rintro ⟨e, he, -⟩
  rw [inner_of_varDefList ht hk, List.mem_map] at he
  obtain ⟨x, hx, heq⟩ := he
  cases heq
  exact (defines_iff_definitions ht hk).mpr ⟨x.2, hx⟩

/-- What the analysis of a node tells of comes from its children or is its own. -/
theorem traces (ht : (node id op cs).wellFormed) (hs : Scoped (·) (node id op cs)) {i : Info}
    (h : (node id op cs).analysis = .ok i) (v : VarId) : Traces op cs i v := by
  obtain ⟨hf, hcs⟩ := wellFormed_node.mp ht
  obtain ⟨hregular, -, -⟩ := scoped_node.mp hs
  cases shape_of_fits hf with
  | scanTable t =>
    cases analysis_none.mp h
    exact .of_own (hregular v) rfl rfl fun hv => .inl (VarSet.mem_ofList.mp hv)
  | singleRowTable =>
    cases analysis_none.mp h
    exact .of_nothing rfl rfl rfl rfl
  | @filter input predicate hi =>
    obtain ⟨ii, ip, hii, -, ⟨⟩⟩ := analysis_two.mp h
    refine .of_input hi hii ?_ ?_ ?_ ?_ <;> simp +contextual [Info.refer, Info.inherit, Info.blank, asChild]
  | @project outputs input defs hi hk =>
    obtain ⟨ii, id, hii, hid, h⟩ := analysis_two.mp h
    obtain ⟨known, hknown, ⟨⟩⟩ := Run.bind_ok.mp h
    refine .of_input hi hii (fun hv => ?_) Iff.rfl (by simp +contextual) fun hv => ⟨defs, by simp, id, hid, hv⟩
    exact (defines_of_neverNullDefs (hcs defs (by simp)) hk hknown (VarSet.mem_inter.mp hv).1).imp_right fun hd =>
      ⟨defs, by simp, hk, hd⟩
  | @crossJoin left right hl hr | @crossApply left right hl hr =>
    obtain ⟨il, ir, hil, hir, ⟨⟩⟩ := analysis_two.mp h
    exact .of_pair hl hr hil hir VarSet.mem_union.mp rfl (by simp +contextual) rfl
  | @innerJoin left right predicate hl hr =>
    obtain ⟨il, ir, ip, hil, hir, -, ⟨⟩⟩ := analysis_three.mp h
    exact .of_pair hl hr hil hir VarSet.mem_union.mp rfl (by simp +contextual) rfl
  | @leftOuterJoin left right predicate hl hr =>
    obtain ⟨il, ir, ip, hil, hir, -, ⟨⟩⟩ := analysis_three.mp h
    exact .of_pair hl hr hil hir .inl rfl (by simp +contextual) rfl
  | @outerApply left right hl hr =>
    obtain ⟨il, ir, hil, hir, ⟨⟩⟩ := analysis_two.mp h
    exact .of_pair hl hr hil hir .inl rfl (by simp +contextual) rfl
  | @combine kind outputs lm rm left right hl hr hlm hrm =>
    obtain ⟨il, ir, -, -, h⟩ := analysis_two.mp h
    obtain ⟨known, hk, h⟩ := Run.bind_ok.mp h
    have hmem := (Run.exists_ok_iff hk).mp (Op.neverNullOutputs_ok hlm hrm)
    cases kind <;> cases h <;>
      exact .of_own (fun hv => VarSet.mem_toList.mpr ((hmem v).mp hv).1) rfl rfl fun hv => .inl (VarSet.mem_toList.mpr hv)
  | @distinct keys input hi =>
    obtain ⟨ii, hii, ⟨⟩⟩ := analysis_one.mp h
    exact .of_input hi hii (fun hv => .inl (VarSet.mem_inter.mp hv).1) Iff.rfl (by simp) fun hv => absurd hv (VarSet.not_mem_empty v)
  | @groupBy keys outputs input keyDefs aggregates hi hk ha =>
    obtain ⟨ii, ik, ia, hii, hik, hia, h⟩ := analysis_three.mp h
    obtain ⟨known, hknown, ⟨⟩⟩ := Run.bind_ok.mp h
    refine .of_input hi hii (fun hv => ?_) Iff.rfl (by simp +contextual) fun hv => ?_
    · exact (defines_of_neverNullDefs (hcs keyDefs (by simp)) hk hknown (VarSet.mem_inter.mp hv).1).imp
        (fun hv => (VarSet.mem_inter.mp hv).2) fun hd => ⟨keyDefs, by simp, hk, hd⟩
    · rcases VarSet.mem_union.mp hv with hv | hv
      · exact ⟨keyDefs, by simp, ik, hik, hv⟩
      · exact ⟨aggregates, by simp, ia, hia, hv⟩
  | @sort keys input hi =>
    obtain ⟨ii, hii, ⟨⟩⟩ := analysis_one.mp h
    refine .of_input hi hii ?_ ?_ ?_ ?_ <;> simp +contextual [Info.inherit, Info.blank, asChild]
  | @constrainedSort keys input skip limit hi =>
    obtain ⟨ii, is, il, hii, -, -, ⟨⟩⟩ := analysis_three.mp h
    refine .of_input hi hii ?_ ?_ ?_ ?_ <;> simp +contextual [Info.refer, Info.inherit, Info.blank, asChild]
  | varDefList =>
    obtain ⟨is, his, h⟩ := analysis_eq_ok.mp h
    obtain ⟨hn, hvisible, hlocals⟩ : i.nonNullable = .empty ∧ i.nonNullableVisible = .empty ∧ _ :=
      foldl_definitions (v := v) (Except.ok.inj h)
    refine .of_own (fun hv => absurd (hn ▸ hv) (VarSet.not_mem_empty v)) hvisible rfl fun hv => .inr ?_
    rw [← exists_analyzed_iff his (P := fun j => v ∈ j.locals) fun c _ j hj =>
      (Run.exists_ok_iff (P := fun j => v ∈ j.locals) hj).symm]
    exact (hlocals hv).resolve_left (VarSet.not_mem_empty v)
  | varDef =>
    obtain ⟨ie, -, ⟨⟩⟩ := analysis_one.mp h
    exact .of_own (fun hv => absurd hv (VarSet.not_mem_empty v)) rfl rfl fun hv => .inl (by simpa [Info.blank] using hv)
  | element =>
    obtain ⟨ie, -, ⟨⟩⟩ := analysis_one.mp h
    exact .of_nothing rfl rfl rfl rfl
  | scalar hs =>
    obtain ⟨is, -, h⟩ := analysis_eq_ok.mp h
    cases op with
    | combine kind => cases kind <;> cases hs
    | scalar kind type =>
      cases (if_pos hs).symm.trans h
      exact .of_nothing rfl rfl rfl rfl
    | varRef | constant | null | internalConstant | nullSentinel | constantPredicate | aggregate =>
      cases h
      exact .of_nothing rfl rfl rfl rfl
    | _ => cases hs

/-! ### Never null above and below -/

theorem mem_binds_of_locals (ht : t.wellFormed) (hs : Scoped (·) t) {i : Info} (h : t.analysis = .ok i)
    (hv : v ∈ i.locals) : v ∈ t.binds := by
  induction t using induct generalizing i with
  | node id op cs ih =>
    rcases (traces ht hs h v).locals hv with hown | ⟨c, hc, j, hj, hv⟩
    · exact mem_binds_of_own hown
    · exact mem_binds_of_mem hc (ih c hc ((wellFormed_node.mp ht).2 c hc) ((scoped_node.mp hs).2.2 c hc) hj hv)

/-- A variable that a list defines is not brought into being in any relation inside the list. -/
theorem not_mem_binds_of_definition (ht : t.wellFormed) (hk : t.kind = .varDefList) (hd : t.binds.Nodup)
    (hv : Defines (·) t v) {s : Tree} (hs : s ∈ t.subtrees) (hrel : s.IsRelational) : v ∉ s.binds := by
  obtain ⟨hop, hdefs⟩ := definitions_spec ht hk
  obtain ⟨e, hx⟩ := (defines_iff_definitions ht hk).mp hv
  obtain ⟨d, hdc, id', rfl, -⟩ := Run.exists_of_forall₂_right hdefs hx
  obtain ⟨id, op, cs⟩ := t
  obtain rfl : op = .varDefList := hop
  intro hvs
  rcases mem_subtrees_node.mp hs with rfl | ⟨c, hc, hs⟩
  · cases hrel
  -- The definition is the only child with the variable, and its expression has it not.
  obtain rfl := child_eq_of_mem_binds hd hc hdc (binds_of_mem_subtrees hs hvs) (by simp)
  rcases mem_subtrees_node.mp hs with rfl | ⟨e', he', hs⟩
  · cases hrel
  · exact (nodup_binds_node.mp ((nodup_binds_node.mp hd).2.1 _ hc)).2.2.2 v (by simp) e' he' (binds_of_mem_subtrees hs hvs)

/-- A variable that is never null in a relation is so in all relations inside it that bring it into being. -/
theorem NeverNull.inside (h : t.NeverNull v) (ht : t.wellFormed) (hs : Scoped (·) t) (hd : t.binds.Nodup) {s : Tree}
    (hmem : s ∈ t.subtrees) (hrel : s.IsRelational) (hv : v ∈ s.binds) : s.NeverNull v := by
  induction t using induct with
  | node id op cs ih =>
    rcases mem_subtrees_node.mp hmem with rfl | ⟨c, hc, hmem⟩
    · exact h
    obtain ⟨-, hcs⟩ := wellFormed_node.mp ht
    obtain ⟨-, -, hscoped⟩ := scoped_node.mp hs
    obtain ⟨-, hnodup, -, hown⟩ := nodup_binds_node.mp hd
    have hvc : v ∈ c.binds := binds_of_mem_subtrees hmem hv
    obtain ⟨-, i, hi, hvi⟩ := h
    rcases (traces ht hs hi v).nonNullable hvi with hvo | ⟨e, he, hn⟩ | ⟨e, he, hk, hdef⟩
    · exact absurd hvc (hown v hvo c hc)
    · obtain rfl := child_eq_of_mem_binds hd he hc (hn.mem_binds (hcs e he) (hscoped e he)) hvc
      exact ih e he hn (hcs e he) (hscoped e he) (hnodup e he) hmem
    · obtain rfl := child_eq_of_mem_binds hd he hc (mem_binds_of_defines (hscoped e he) hdef) hvc
      exact absurd hv (not_mem_binds_of_definition (hcs e he) hk (hnodup e he) hdef hmem hrel)

/-! ### The relations above a place -/

/-- The relations that a place is in, innermost first. -/
def above : Tree → List Nat → List Tree
  | _, [] => []
  | node id op cs, i :: path =>
    (match cs[i]? with
      | some c => above c path
      | none => []) ++ if op.kind.isRelational then [node id op cs] else []

variable {path : List Nat} {i : Nat}

theorem above_child (hc : cs[i]? = some c) : (node id op cs).above (i :: path) =
    c.above path ++ if op.kind.isRelational then [node id op cs] else [] := by
  rw [above, hc]

theorem mem_above {a : Tree} (ha : a ∈ t.above path) : a ∈ t.subtrees ∧ a.IsRelational := by
  induction path generalizing t with
  | nil => cases ha
  | cons i path ih =>
    obtain ⟨id, op, cs⟩ := t
    rw [above, List.mem_append] at ha
    rcases ha with ha | ha
    · split at ha
      · rename_i c hc
        exact (ih ha).imp_left (mem_subtrees_of_mem (List.mem_of_getElem? hc))
      · cases ha
    · split at ha
      · rename_i hrel
        obtain rfl := List.mem_singleton.mp ha
        exact ⟨by simp, hrel⟩
      · cases ha

/-- The relation says that the variable is never null where its own expressions see it. -/
def ShowsNeverNull (t : Tree) (v : VarId) : Prop := ∃ i, t.analysis = .ok i ∧ v ∈ i.nonNullableVisible

def HasLocal (t : Tree) (v : VarId) : Prop := ∃ i, t.analysis = .ok i ∧ v ∈ i.locals

/-- Of the relations from the first on, up to one that defines the variable itself, one says that it is never null. -/
def Answers (v : VarId) : List Tree → Prop
  | [] => False
  | a :: rest => a.ShowsNeverNull v ∨ ¬a.HasLocal v ∧ Answers v rest

variable {as bs : List Tree}

theorem Answers.append (h : Answers v as) : Answers v (as ++ bs) := by
  induction as with
  | nil => cases h
  | cons a as ih => exact h.imp_right fun ⟨hno, h⟩ => ⟨hno, ih h⟩

theorem Answers.of_append (h : Answers v (as ++ bs)) : Answers v as ∨ Answers v bs := by
  induction as with
  | nil => exact .inr h
  | cons a as ih =>
    rcases h with h | ⟨hno, h⟩
    · exact .inl (.inl h)
    · exact (ih h).imp_left fun h => .inr ⟨hno, h⟩

theorem answers_append (h : ∀ a ∈ as, ¬a.ShowsNeverNull v ∧ ¬a.HasLocal v) : Answers v (as ++ bs) ↔ Answers v bs := by
  induction as with
  | nil => exact Iff.rfl
  | cons a as ih =>
    obtain ⟨hshows, hlocal⟩ := h a List.mem_cons_self
    rw [List.cons_append, Answers, ih fun a ha => h a (List.mem_cons_of_mem _ ha)]
    simp [hshows, hlocal]

theorem ShowsNeverNull.input (h : (node id op cs).ShowsNeverNull v) (ht : (node id op cs).wellFormed)
    (hs : Scoped (·) (node id op cs)) : ∃ c ∈ cs, c.NeverNull v ∧ v ∈ c.binds := by
  obtain ⟨i, hi, hv⟩ := h
  obtain ⟨c, hc, hn⟩ := (traces ht hs hi v).visible hv
  exact ⟨c, hc, hn, hn.mem_binds ((wellFormed_node.mp ht).2 c hc) ((scoped_node.mp hs).2.2 c hc)⟩

theorem ShowsNeverNull.mem_binds (h : t.ShowsNeverNull v) (ht : t.wellFormed) (hs : Scoped (·) t) : v ∈ t.binds := by
  obtain ⟨id, op, cs⟩ := t
  obtain ⟨c, hc, -, hv⟩ := h.input ht hs
  exact mem_binds_of_mem hc hv

theorem HasLocal.mem_binds (h : t.HasLocal v) (ht : t.wellFormed) (hs : Scoped (·) t) : v ∈ t.binds := by
  obtain ⟨i, hi, hv⟩ := h
  exact mem_binds_of_locals ht hs hi hv

/-- A node shows a variable of one of its inputs as never null exactly if it is never null there. -/
theorem showsNeverNull_iff (ht : (node id op cs).wellFormed) (hs : Scoped (·) (node id op cs))
    (hd : (node id op cs).binds.Nodup) {j k : Nat} (hdj : cs[j]? = some d) (hsees : op.sees k j = true) (hv : v ∈ d.binds) :
    (node id op cs).ShowsNeverNull v ↔ d.NeverNull v := by
  constructor
  · intro h
    obtain ⟨c, hc, hn, hvc⟩ := h.input ht hs
    exact child_eq_of_mem_binds hd hc (List.mem_of_getElem? hdj) hvc hv ▸ hn
  · intro hn
    obtain ⟨i, hi⟩ := exists_analysis ht
    exact ⟨i, hi, (traces ht hs hi v).seen hdj hsees hn⟩

/-- The question is settled by the input that shows the variable. -/
theorem answers_iff (hsees : Sees t path d) (ht : t.wellFormed) (hs : Scoped (·) t) (hd : t.binds.Nodup)
    (hv : Defines (·) d v) : Answers v (t.above path) ↔ d.NeverNull v := by
  have hrel : d.IsRelational := hsees.isRelational ht
  have hvd : v ∈ d.binds := mem_binds_of_defines (hs.of_mem_subtrees hsees.mem_subtrees) hv
  induction hsees with
  | @here id op cs i j c d path hc hdj hsees =>
    have hmem := List.mem_of_getElem? hc
    have hvc : v ∉ c.binds := fun hvc => Nat.ne_of_gt (sees_lt hsees) (eq_of_mem_binds hd hc hdj hvc hvd)
    have hwf := (wellFormed_node.mp ht).2 c hmem
    have hscoped := (scoped_node.mp hs).2.2 c hmem
    -- No relation on the way to the place has anything to say about the variable.
    rw [above_child hc, if_pos (Op.isRelational_of_sees hsees), answers_append fun a ha => ?_]
    · simp only [Answers, and_false, or_false]
      exact showsNeverNull_iff ht hs hd hdj hsees hvd
    · obtain ⟨ha, -⟩ := mem_above ha
      have hwfa := wellFormed_of_mem_subtrees hwf ha
      have hsa := hscoped.of_mem_subtrees ha
      exact ⟨fun h => hvc (binds_of_mem_subtrees ha (h.mem_binds hwfa hsa)),
        fun h => hvc (binds_of_mem_subtrees ha (h.mem_binds hwfa hsa))⟩
  | @child id op cs i c d path hc hsees ih =>
    have hmem := List.mem_of_getElem? hc
    have hwf := (wellFormed_node.mp ht).2 c hmem
    have hscoped := (scoped_node.mp hs).2.2 c hmem
    have hnodup := (nodup_binds_node.mp hd).2.1 c hmem
    rw [above_child hc]
    constructor
    · intro h
      rcases h.of_append with h | h
      · exact (ih hwf hscoped hnodup hv hrel hvd).mp h
      · split at h
        · -- What is never null in an input is so in all relations inside it that bring it into being.
          obtain ⟨e, he, hn, hve⟩ := (h.resolve_right (by simp [Answers])).input ht hs
          obtain rfl := child_eq_of_mem_binds hd he hmem hve (binds_of_mem_subtrees hsees.mem_subtrees hvd)
          exact hn.inside hwf hscoped hnodup hsees.mem_subtrees hrel hvd
        · cases h
    · exact fun h => ((ih hwf hscoped hnodup hv hrel hvd).mpr h).append

/-- What the analysis of the relation says is never null has a value in every row. -/
def Reliable (I : Interpretation) (db : Database) (t : Tree) : Prop :=
  ∀ v, t.NeverNull v → ∀ outer, ∀ r ∈ t.rows I db outer, (r.read v).isNull = false

theorem reliable_of_honest {I : Interpretation} {db : Database} (ht : t.wellFormed) (hs : Scoped (·) t) (hd : t.binds.Nodup)
    (honest : ∀ s ∈ t.subtrees, s.Honest) (hdb : ∀ s ∈ t.subtrees, ∀ table, s.op = .scanTable table → table.Respected db) :
    ∀ s ∈ t.subtrees, s.Reliable I db := by
  induction t using induct with
  | node id op cs ih =>
    intro s hmem
    rcases mem_subtrees_node.mp hmem with rfl | ⟨c, hc, hmem⟩
    · rintro v ⟨hrel, i, hi, hv⟩ outer r hr
      exact (gives_of_analysis ht hrel hs hd honest hdb hi hr v hv).read
    · exact ih c hc ((wellFormed_node.mp ht).2 c hc) ((scoped_node.mp hs).2.2 c hc) ((nodup_binds_node.mp hd).2.1 c hc)
        (fun s hs => honest s (mem_subtrees_of_mem hc hs)) (fun s hs => hdb s (mem_subtrees_of_mem hc hs)) s hmem

end Tree

namespace RuleM

open Run Plan Planwright.Tree

variable {c : Context} {p : Plan} {v : VarId}

theorem ask_runsTo {as : List Tree} (h : ∀ a ∈ as, p.Holds a ∧ a.wellFormed ∧ a.IsRelational) :
    RunsTo (isNeverNull.ask v (as.map Tree.id)) c p fun answer c' _ => c' = c ∧ (answer = true ↔ Answers v as) := by
  induction as generalizing p with
  | nil => exact .pure ⟨rfl, by simp [Answers]⟩
  | cons a as ih =>
    obtain ⟨ha, hwf, hrel⟩ := h a List.mem_cons_self
    obtain ⟨id, op, cs⟩ := a
    obtain ⟨_, p₁, hrecompute, hk₁⟩ := ha.recompute_reaches hwf
    obtain ⟨i, p₂, hask, hk₂, hi⟩ := (hk₁.still ha).relationInfo_reaches hwf hrel
    have hshows : (node id op cs).ShowsNeverNull v ↔ v ∈ i.nonNullableVisible := Run.exists_ok_iff hi
    have hlocal : (node id op cs).HasLocal v ↔ v ∈ i.locals := Run.exists_ok_iff hi
    refine .read hrecompute (.read hask ?_)
    rw [Answers, hshows, hlocal]
    split
    · rename_i hv
      exact .pure ⟨rfl, iff_of_true rfl (.inl hv)⟩
    · rename_i hv
      split
      · rename_i hl
        exact .pure ⟨rfl, iff_of_false nofun fun h => h.elim hv fun h => h.1 hl⟩
      · rename_i hl
        refine (ih fun a ha => ?_).mono fun answer c' p' ⟨hc, hanswer⟩ => ⟨hc, hanswer.trans ?_⟩
        · obtain ⟨hh, hrest⟩ := h a (List.mem_cons_of_mem _ ha)
          exact ⟨hk₂.still (hk₁.still hh), hrest⟩
        · exact ⟨fun h => .inr ⟨hl, h⟩, fun h => (h.resolve_left hv).2⟩

section Place
variable {t d : Tree} {path : List Nat}

theorem isNeverNull_answers (ht : p.Holds t) (hwf : t.wellFormed) (hs : t.Scoped (·)) (hd : t.binds.Nodup)
    (hc : c.ancestors = (t.above path).map Tree.id) (hsees : t.Sees path d) (hv : d.Defines (·) v) :
    ∃ answer p', isNeverNull v c p = .ok ((answer, c), p') ∧ (answer = true ↔ d.NeverNull v) := by
  have held : ∀ a ∈ t.above path, p.Holds a ∧ a.wellFormed ∧ a.IsRelational := by
    intro a ha
    obtain ⟨ha, hrel⟩ := mem_above ha
    exact ⟨ht.of_mem_subtrees ha, wellFormed_of_mem_subtrees hwf ha, hrel⟩
  obtain ⟨answer, c', p', hrun, rfl, hanswer⟩ := ask_runsTo (v := v) (c := c) held
  rw [← hc] at hrun
  exact ⟨answer, p', hrun, hanswer.trans (answers_iff hsees hwf hs hd hv)⟩

/-- Asking whether a variable is never null ends without a fault. The answer is yes exactly if the analysis of the input that shows
    the variable at the place says so. If what analyses say is never null has a value in every row, then the variable has one
    wherever the place is evaluated, unless the place may lack a row of the input and has none. A test for null at a place that
    lacks none means the same as `false`. -/
theorem isNeverNull_sound (ht : p.Holds t) (hwf : t.wellFormed = true) (hs : t.Scoped (·)) (hd : t.binds.Nodup)
    (hc : c.ancestors = (t.above path).map Tree.id) (hsees : t.Sees path d) (hv : d.Defines (·) v) :
    ∃ answer p', isNeverNull v c p = .ok ((answer, c), p') ∧ (answer = true ↔ d.NeverNull v) ∧
      (answer = true → ∀ (I : Interpretation) (db : Database), (∀ s ∈ t.subtrees, s.Reliable I db) →
        (∀ outer env group, t.Evaluates I db path outer [] env group →
          (env.read v).isNull = false ∨ t.Lacks path d ∧ env v = none) ∧
        (¬t.Lacks path d → ∀ {m n k t' type type'},
          Swaps (.node m (.scalar .isNull type) [.node n (.varRef v type') []]) (.node k (.constantPredicate false) []) t path t' →
            ∀ outer, t'.rows I db outer = t.rows I db outer)) := by
  obtain ⟨answer, p', hrun, hanswer⟩ := isNeverNull_answers ht hwf hs hd hc hsees hv
  refine ⟨answer, p', hrun, hanswer, fun hyes I db htrue => ?_⟩
  have value : ∀ outer env group, t.Evaluates I db path outer [] env group →
      (env.read v).isNull = false ∨ t.Lacks path d ∧ env v = none := by
    intro outer env group he
    refine (he.of_sees hsees hwf hs.backed hd hv).imp_left ?_
    rintro ⟨outer', r, hr, heq⟩
    rw [Row.read, heq]
    exact htrue d hsees.mem_subtrees v (hanswer.mp hyes) outer' r hr
  refine ⟨value, fun hlacks m n k t' type type' hswap outer => ?_⟩
  have hagrees : (t.meaning I db).AgreesAt (t'.meaning I db) outer [] := hswap.agreesAt hwf rfl fun env group he => by
    have hread := (value outer env group he).resolve_right fun h => hlacks h.1
    exact ⟨.nil, congrArg Value.boolean hread, .nil⟩
  exact (Row.forall₂_resembles_eq hagrees.rows).symm

end Place

/-- A run that has come to a place with these ancestors. -/
def beneath (ancestors : List NodeId) : Context := { Context.start .standard with ancestors }

def paddedRight : Tree := .node 1 (.scanTable ⟨1, "u", [1], .ofList [1], none⟩) []

def paddedJoin : Tree :=
  .node 4 .leftOuterJoin [.node 0 (.scanTable ⟨0, "t", [0], .empty, none⟩) [], paddedRight,
    .node 3 (.scalar .isNull .boolean) [.node 2 (.varRef 1 .int32) []]]

/-- `Filter(LeftOuterJoin(t, u, b IS NULL), b IS NULL)`, where `u.b` is never null. -/
def paddedTree : Tree := .node 7 .filter [paddedJoin, .node 6 (.scalar .isNull .boolean) [.node 5 (.varRef 1 .int32) []]]

def padded : Plan := paddedTree.plan 2 [⟨.column, "t.a", .int32⟩, ⟨.column, "u.b", .int32⟩]

/-- What the right side of the join gives is never null in the condition of the join, but may be above it. -/
theorem isNeverNull_sound_padded : ∃ p' p'',
    isNeverNull 1 (beneath [4, 7]) padded = .ok ((true, beneath [4, 7]), p') ∧
    isNeverNull 1 (beneath [7]) padded = .ok ((false, beneath [7]), p'') ∧
    ∀ (I : Interpretation) (outer env : Row) (group : List Row),
      paddedTree.Evaluates I (fun _ => [[.int32 3]]) [0, 2] outer [] env group → (env.read 1).isNull = false := by
  have hheld : padded.Holds paddedTree := holds_of_view (by decide) (show padded.tree? 7 = some paddedTree from rfl)
  have hwf : paddedTree.wellFormed = true := by decide
  have hd : paddedTree.binds.Nodup := by decide
  have hs : paddedTree.Scoped (·) := by
    simp [paddedTree, paddedJoin, paddedRight, scoped_node, defines_node, or_imp, forall_and]
  have hright : paddedTree.Sees [0, 2] paddedRight := .child rfl (.here (j := 1) rfl rfl rfl)
  have hjoin : paddedTree.Sees [1] paddedJoin := .here (j := 0) rfl rfl rfl
  obtain ⟨answer, p', hrun, hanswer, hsound⟩ := isNeverNull_sound (c := beneath [4, 7])
    hheld hwf hs hd rfl hright (v := 1) (by simp [paddedRight, defines_node])
  obtain ⟨answer', p'', hrun', hanswer', -⟩ := isNeverNull_sound (c := beneath [7])
    hheld hwf hs hd rfl hjoin (v := 1) (by simp [paddedJoin, paddedRight, defines_node])
  obtain rfl : answer = true := hanswer.mpr ⟨rfl, _, rfl, by decide⟩
  obtain rfl : answer' = false := by
    rw [← Bool.not_eq_true, hanswer', neverNull_iff (t := paddedJoin) rfl rfl]
    decide
  refine ⟨p', p'', hrun, hrun', fun I outer env group he => ?_⟩
  have htrue : ∀ s ∈ paddedTree.subtrees, s.Reliable I fun _ => [[.int32 3]] := by
    refine reliable_of_honest hwf hs hd ?_ ?_
    · simp [paddedTree, paddedJoin, paddedRight, Tree.Honest]
    · simp [paddedTree, paddedJoin, paddedRight, Table.Respected, Table.row, Row.read, Value.isNull]
  have hlacks : ¬paddedTree.Lacks [0, 2] paddedRight := by
    rintro (_ | _ | ⟨hc, h⟩)
    cases hc
    obtain _ | _ | ⟨hc, h⟩ := h
    cases hc
    cases h
  exact ((hsound rfl I _ htrue).1 outer env group he).resolve_right fun h => hlacks h.1

def ungroupedInput : Tree := .node 0 (.scanTable ⟨0, "t", [0], .ofList [0], none⟩) []

/-- `GroupBy(t, [], [x := a IS NULL], keys [], outputs [x])`, where `t.a` is never null. -/
def ungroupedTree : Tree :=
  .node 6 (.groupBy .empty (.ofList [1])) [ungroupedInput, .node 1 .varDefList [], .node 5 .varDefList [.node 4 (.varDef 1)
    [.node 3 (.scalar .isNull .boolean) [.node 2 (.varRef 0 .int32) []]]]]

def ungrouped : Plan := ungroupedTree.plan 1 [⟨.column, "t.a", .int32⟩, ⟨.computed, "", .boolean⟩]

/-- Without keys there is a group of no rows, for which what the input shows as never null is null. -/
theorem isNeverNull_ungrouped : ungrouped.tree? 6 = some ungroupedTree ∧ ungroupedTree.wellFormed = true ∧
    ungroupedTree.Scoped (·) ∧ ungroupedTree.binds.Nodup ∧ ungroupedTree.Sees [2, 0, 0] ungroupedInput ∧
    ungroupedInput.Defines (·) 0 ∧ (ungroupedTree.above [2, 0, 0]).map Tree.id = [6] ∧
    (∃ p', isNeverNull 0 (beneath [6]) ungrouped = .ok ((true, beneath [6]), p')) ∧
    ∀ I : Interpretation, (∀ s ∈ ungroupedTree.subtrees, s.Reliable I fun _ => []) ∧ ∃ env group,
      ungroupedTree.Evaluates I (fun _ => []) [2, 0, 0] .empty [] env group ∧ env.read 0 = .null := by
  have hwf : ungroupedTree.wellFormed = true := by decide
  have hs : ungroupedTree.Scoped (·) := by
    simp [ungroupedTree, ungroupedInput, scoped_node, defines_node, or_imp, forall_and]
  have hd : ungroupedTree.binds.Nodup := by decide
  have hview : ungrouped.tree? 6 = some ungroupedTree := rfl
  have hsees : ungroupedTree.Sees [2, 0, 0] ungroupedInput := .here (j := 0) rfl rfl rfl
  have hv : ungroupedInput.Defines (·) 0 := by simp [ungroupedInput, defines_node]
  obtain ⟨answer, p', hrun, hanswer⟩ := isNeverNull_answers (c := beneath [6])
    (holds_of_view (by decide) hview) hwf hs hd rfl hsees hv
  obtain rfl : answer = true := hanswer.mpr ⟨rfl, _, rfl, by decide⟩
  refine ⟨hview, hwf, hs, hd, hsees, hv, rfl, ⟨p', hrun⟩, fun I => ⟨?_, ?_⟩⟩
  · refine reliable_of_honest hwf hs hd ?_ ?_
    · simp [ungroupedTree, ungroupedInput, Tree.Honest, definitions]
    · simp [ungroupedTree, ungroupedInput, Table.Respected]
  · refine ⟨_, _, .child rfl (.rows (List.mem_singleton.mpr rfl))
      (.child rfl (.operand rfl (by rintro ⟨⟩)) (.child rfl (.operand rfl (by rintro ⟨⟩)) .here)), ?_⟩
    simp [ungroupedInput, rows, Op.meaning, Meaning.relation, Row.read, Row.empty]

end RuleM

end Planwright
