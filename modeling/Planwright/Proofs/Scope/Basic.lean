import Mathlib.Data.List.Nodup
import Planwright.Proofs.Analysis.Basic

/-! Scopes. Each operator brings variables into being, shows some to the operators above it and lets some of its
    children see what others define. All references are read through a renaming `ρ`, since a run renames
    variables long before it renames the references to them. -/

namespace Planwright

namespace Op

/-- The variables an operator brings into being. -/
@[simp] def own : Op → List VarId
  | scanTable t => t.columns
  | combine _ outputs _ _ => outputs.toList
  | varDef v => [v]
  | _ => []

/-- The variables an operator shows in place of those of its children. -/
@[simp] def shown : Op → Option VarSet
  | project outputs => some outputs
  | groupBy _ outputs => some outputs
  | distinct keys => some keys
  | _ => none

/-- Whether what a child defines is seen above the operator, if it shows nothing in its place. -/
@[simp] def passes : Op → Nat → Bool
  | filter, i | sort _, i | constrainedSort _, i => i == 0
  | crossJoin, i | innerJoin, i | leftOuterJoin, i | crossApply, i | outerApply, i => i == 0 || i == 1
  | varDefList, _ => true
  | _, _ => false

/-- Whether a child sees what another defines. -/
@[simp] def sees : Op → Nat → Nat → Bool
  | filter, i, j | project _, i, j | groupBy _ _, i, j | constrainedSort _, i, j | crossApply, i, j
  | outerApply, i, j => j == 0 && i != 0
  | innerJoin, i, j | leftOuterJoin, i, j => i == 2 && (j == 0 || j == 1)
  | _, _, _ => false

/-- The variables an operator names, each with the children of which one must define it. -/
@[simp] def needs : Op → List (VarId × List Nat)
  | project outputs => outputs.toList.map (·, [0, 1])
  | groupBy keys outputs => keys.toList.map (·, [0, 1]) ++ outputs.toList.map (·, [0, 1, 2])
  | distinct keys => keys.toList.map (·, [0])
  | combine _ _ left right => left.entries.map (fun e => (e.2, [0])) ++ right.entries.map (fun e => (e.2, [1]))
  | _ => []

@[simp] def Regular : Op → Prop
  | scanTable t => ∀ v ∈ t.nonNullable, v ∈ t.columns
  | _ => True

end Op

namespace Tree

variable {cs : List Tree} {t : Tree} {Q : Tree → Prop} {chs : List Child} {i : Info}

/-- All variables that are brought into being in a tree. -/
def binds (t : Tree) : List VarId := t.subtrees.flatMap (·.op.own)

@[simp] theorem binds_node (id : NodeId) (op : Op) (cs : List Tree) :
    (node id op cs).binds = op.own ++ cs.flatMap binds := by
  rw [binds, subtrees_node, List.flatMap_cons, List.flatMap_assoc]
  rfl

theorem nodup_binds_node {id : NodeId} {op : Op} : (node id op cs).binds.Nodup ↔ op.own.Nodup ∧
    (∀ c ∈ cs, c.binds.Nodup) ∧ cs.Pairwise (fun a b => ∀ v ∈ a.binds, v ∉ b.binds) ∧
      ∀ v ∈ op.own, ∀ c ∈ cs, v ∉ c.binds := by
  rw [binds_node, List.nodup_append, List.nodup_flatMap, and_assoc]
  refine and_congr_right fun _ => and_congr_right fun _ => and_congr Iff.rfl ⟨?_, ?_⟩
  · intro h v hv c hc hvc
    exact h v hv v (List.mem_flatMap.mpr ⟨c, hc, hvc⟩) rfl
  · rintro h v hv w hw rfl
    obtain ⟨c, hc, hvc⟩ := List.mem_flatMap.mp hw
    exact h v hv c hc hvc

theorem mem_binds_of_own {id : NodeId} {op : Op} {v : VarId} (hv : v ∈ op.own) :
    v ∈ (node id op cs).binds := by
  rw [binds_node]
  exact List.mem_append_left _ hv

theorem mem_binds_of_mem {id : NodeId} {op : Op} {c : Tree} (hc : c ∈ cs) {v : VarId}
    (hv : v ∈ c.binds) : v ∈ (node id op cs).binds := by
  rw [binds_node]
  exact List.mem_append_right _ (List.mem_flatMap.mpr ⟨c, hc, hv⟩)

theorem binds_of_mem_subtrees {s : Tree} (hs : s ∈ t.subtrees) {v : VarId} (hv : v ∈ s.binds) : v ∈ t.binds :=
  of_mem_subtrees (P := fun s => ∀ v ∈ s.binds, v ∈ t.binds) (fun _ _ _ h _ hc v hv => h v (mem_binds_of_mem hc hv)) hs (fun _ h => h) v hv

variable (ρ : VarId → VarId)

/-- The definitions of a tree that are seen above it. -/
inductive Defines : Tree → VarId → Prop
  | shown {id : NodeId} {op : Op} {cs : List Tree} {vs : VarSet} {v : VarId} :
      op.shown = some vs → v ∈ vs → Defines (node id op cs) (ρ v)
  | own {id : NodeId} {op : Op} {cs : List Tree} {v : VarId} :
      op.shown = none → v ∈ op.own → Defines (node id op cs) v
  | passed {id : NodeId} {op : Op} {cs : List Tree} {i : Nat} {c : Tree} {v : VarId} :
      op.shown = none → cs[i]? = some c → op.passes i = true → Defines c v → Defines (node id op cs) v

/-- The variables a tree uses and does not define. -/
inductive Uses : Tree → VarId → Prop
  | reference {id : NodeId} {v : VarId} {type : ScalarType} {cs : List Tree} :
      Uses (node id (.varRef v type) cs) (ρ v)
  | passed {id : NodeId} {op : Op} {cs : List Tree} {i : Nat} {c : Tree} {v : VarId} :
      cs[i]? = some c → Uses c v → (∀ j d, cs[j]? = some d → op.sees i j = true → ¬Defines ρ d v) →
        Uses (node id op cs) v

/-- Every variable an operator names is defined by one of its children. -/
inductive Scoped : Tree → Prop
  | node {id : NodeId} {op : Op} {cs : List Tree} :
      op.Regular → (∀ x ∈ op.needs, ∃ i c, cs[i]? = some c ∧ i ∈ x.2 ∧ Defines ρ c (ρ x.1)) → (∀ c ∈ cs, Scoped c) →
        Scoped (node id op cs)

variable {ρ} {id : NodeId} {v : VarId}

/-! ### Operator by operator -/

theorem defines_node {op : Op} : Defines ρ (node id op cs) v ↔
    match op.shown with
    | some vs => ∃ w ∈ vs, ρ w = v
    | none => v ∈ op.own ∨ ∃ i c, cs[i]? = some c ∧ op.passes i = true ∧ Defines ρ c v := by
  constructor
  · intro h
    cases h with
    | shown hs hv => simp only [hs]; exact ⟨_, hv, rfl⟩
    | own hs hv => simp only [hs]; exact .inl hv
    | passed hs hc hp hv => simp only [hs]; exact .inr ⟨_, _, hc, hp, hv⟩
  · intro h
    split at h
    · obtain ⟨w, hw, rfl⟩ := h
      exact .shown ‹_› hw
    · rcases h with hv | ⟨i, c, hc, hp, hv⟩
      · exact .own ‹_› hv
      · exact .passed ‹_› hc hp hv

theorem uses_node {op : Op} : Uses ρ (node id op cs) v ↔
    (∃ w type, op = .varRef w type ∧ ρ w = v) ∨
      ∃ i c, cs[i]? = some c ∧ Uses ρ c v ∧ ∀ j d, cs[j]? = some d → op.sees i j = true → ¬Defines ρ d v := by
  constructor
  · intro h
    cases h with
    | reference => exact .inl ⟨_, _, rfl, rfl⟩
    | passed hc hu hd => exact .inr ⟨_, _, hc, hu, hd⟩
  · rintro (⟨w, type, rfl, rfl⟩ | ⟨i, c, hc, hu, hd⟩)
    · exact .reference
    · exact .passed hc hu hd

theorem scoped_node {op : Op} : Scoped ρ (node id op cs) ↔ op.Regular ∧
    (∀ x ∈ op.needs, ∃ i c, cs[i]? = some c ∧ i ∈ x.2 ∧ Defines ρ c (ρ x.1)) ∧ ∀ c ∈ cs, Scoped ρ c :=
  ⟨fun | .node hr hn hc => ⟨hr, hn, hc⟩, fun ⟨hr, hn, hc⟩ => .node hr hn hc⟩

section Children
variable {P : Nat → Tree → Prop} {c : Tree} {cs : List Tree}

@[simp] theorem exists_child_cons :
    (∃ i d, (c :: cs)[i]? = some d ∧ P i d) ↔ P 0 c ∨ ∃ i d, cs[i]? = some d ∧ P (i + 1) d := by
  constructor
  · rintro ⟨_ | i, d, hd, h⟩
    · cases hd
      exact .inl h
    · exact .inr ⟨i, d, hd, h⟩
  · rintro (h | ⟨i, d, hd, h⟩)
    · exact ⟨0, c, rfl, h⟩
    · exact ⟨i + 1, d, hd, h⟩

@[simp] theorem forall_child_cons :
    (∀ i d, (c :: cs)[i]? = some d → P i d) ↔ P 0 c ∧ ∀ i d, cs[i]? = some d → P (i + 1) d := by
  constructor
  · intro h
    exact ⟨h 0 c rfl, fun i d hd => h (i + 1) d hd⟩
  · rintro ⟨h0, h⟩ (_ | i) d hd
    · cases hd
      exact h0
    · exact h i d hd

end Children

theorem exists_child_mem :
    (∃ (i : Nat) (d : Tree), cs[i]? = some d ∧ Q d) ↔ ∃ d ∈ cs, Q d := by
  constructor
  · rintro ⟨i, d, hd, h⟩
    exact ⟨d, List.mem_of_getElem? hd, h⟩
  · rintro ⟨d, hd, h⟩
    obtain ⟨i, hi⟩ := List.mem_iff_getElem?.mp hd
    exact ⟨i, d, hi, h⟩

theorem defines_varDefList : Defines ρ (node id .varDefList cs) v ↔ ∃ d ∈ cs, Defines ρ d v := by
  simp [defines_node, exists_child_mem]

theorem uses_varDefList : Uses ρ (node id .varDefList cs) v ↔ ∃ d ∈ cs, Uses ρ d v := by
  simp [uses_node, exists_child_mem]

theorem not_defines_of_isExpression (h : t.IsExpression) : ¬Defines ρ t v := by
  obtain ⟨id, op, cs⟩ := t
  cases op with
  | combine kind => cases kind <;> cases h
  | varRef | constant | null | internalConstant | nullSentinel | constantPredicate | aggregate | scalar =>
    simp [defines_node]
  | _ => cases h

theorem uses_of_isScalar {op : Op} (h : op.kind.isScalar) : Uses ρ (node id op cs) v ↔
    (∃ w type, op = .varRef w type ∧ ρ w = v) ∨ ∃ d ∈ cs, Uses ρ d v := by
  have hs : ∀ i j, op.sees i j = false := by
    cases op with
    | combine kind => cases kind <;> cases h
    | varRef | constant | null | internalConstant | nullSentinel | constantPredicate | aggregate | scalar =>
      exact fun _ _ => rfl
    | _ => cases h
  simp only [uses_node, hs, Bool.false_eq_true, false_implies, implies_true, and_true, exists_child_mem]

theorem own_of_isScalar {op : Op} (h : op.kind.isScalar) : op.own = [] := by
  cases op with
  | combine kind => cases kind <;> cases h
  | scanTable | varDef => cases h
  | _ => rfl

theorem needs_of_isScalar {op : Op} (h : op.kind.isScalar) : op.needs = [] := by
  cases op with
  | combine kind => cases kind <;> cases h
  | project | groupBy | distinct => cases h
  | _ => rfl

theorem regular_of_isScalar {op : Op} (h : op.kind.isScalar) : op.Regular := by
  cases op with
  | scanTable => cases h
  | _ => trivial

theorem isExpression_of_isScalar (h : t.isScalar) : t.IsExpression := by
  obtain ⟨id, op, cs⟩ := t
  exact (isScalar_node.mp h).1

theorem isScalar_of_mem_subtrees {s : Tree} (h : t.isScalar) (hs : s ∈ t.subtrees) : s.kind.isScalar :=
  isExpression_of_isScalar (of_mem_subtrees (fun _ _ _ h => (isScalar_node.mp h).2) hs h)

theorem binds_of_isScalar (h : t.isScalar) : t.binds = [] :=
  List.flatMap_eq_nil_iff.mpr fun _ hs => own_of_isScalar (isScalar_of_mem_subtrees h hs)

theorem scoped_of_isScalar (h : t.isScalar) : Scoped ρ t := by
  induction t using induct with
  | node id op cs ih =>
    obtain ⟨ho, hcs⟩ := isScalar_node.mp h
    refine .node (regular_of_isScalar ho) (fun x hx => ?_) fun c hc => ih c hc (hcs c hc)
    rw [needs_of_isScalar ho] at hx
    cases hx

theorem exists_needs_of_shown {op : Op} {vs : VarSet} (hs : op.shown = some vs) (hv : v ∈ vs) :
    ∃ x ∈ op.needs, x.1 = v := by
  cases op with
  | project | distinct =>
    cases hs
    simpa using hv
  | groupBy keys outputs =>
    cases hs
    exact ⟨(v, [0, 1, 2]), by simp [hv], rfl⟩
  | _ => cases hs

variable (ρ) in
/-- Every variable that an operator shows in place of those of its children is defined by one of them. This is less than
    `Scoped` asks for: nothing is said of keys and of the maps of set operators. -/
def Backed (t : Tree) : Prop :=
  ∀ s ∈ t.subtrees, ∀ vs, s.op.shown = some vs → ∀ v ∈ vs, ∃ c ∈ s.children, Defines ρ c (ρ v)

theorem backed_node {op : Op} : Backed ρ (node id op cs) ↔
    (∀ vs, op.shown = some vs → ∀ v ∈ vs, ∃ c ∈ cs, Defines ρ c (ρ v)) ∧ ∀ c ∈ cs, Backed ρ c :=
  forall_subtrees_node

theorem Scoped.backed (h : Scoped ρ t) : Backed ρ t := by
  induction t using induct with
  | node id op cs ih =>
    obtain ⟨-, hneeds, hcs⟩ := scoped_node.mp h
    refine backed_node.mpr ⟨fun vs hvs v hv => ?_, fun c hc => ih c hc (hcs c hc)⟩
    obtain ⟨x, hx, rfl⟩ := exists_needs_of_shown hvs hv
    obtain ⟨i, c, hc, -, hd⟩ := hneeds x hx
    exact ⟨c, List.mem_of_getElem? hc, hd⟩

theorem Backed.mem_binds (hs : Backed ρ t) (hv : Defines ρ t v) : v ∈ t.binds := by
  induction t using induct generalizing v with
  | node id op cs ih =>
    obtain ⟨hshown, hcs⟩ := backed_node.mp hs
    rw [binds_node, List.mem_append, List.mem_flatMap]
    cases hv with
    | shown hvs hw =>
      obtain ⟨c, hc, hd⟩ := hshown _ hvs _ hw
      exact .inr ⟨c, hc, ih c hc (hcs c hc) hd⟩
    | own _ hv => exact .inl hv
    | passed _ hc _ hd =>
      have hmem := List.mem_of_getElem? hc
      exact .inr ⟨_, hmem, ih _ hmem (hcs _ hmem) hd⟩

theorem mem_binds_of_defines (hs : Scoped ρ t) (hv : Defines ρ t v) : v ∈ t.binds := hs.backed.mem_binds hv

theorem Scoped.of_mem_subtrees {s : Tree} (h : Scoped ρ t) (hs : s ∈ t.subtrees) : Scoped ρ s :=
  Tree.of_mem_subtrees (fun _ _ _ h => (scoped_node.mp h).2.2) hs h

/-! ### The analysis -/

theorem mem_definitions_foldl :
    v ∈ (chs.foldl Info.withDefinition i).definitions ↔ v ∈ i.definitions ∨ ∃ d ∈ chs, v ∈ d.info.definitions := by
  induction chs generalizing i with
  | nil => simp
  | cons d chs ih => simp [ih, Info.withDefinition, or_assoc]

theorem mem_external_foldl : v ∈ (chs.foldl Info.withDefinition i).external ↔ v ∈ i.external ∨ ∃ d ∈ chs, v ∈ d.info.external := by
  induction chs generalizing i with
  | nil => simp
  | cons d chs ih => simp [ih, Info.withDefinition, or_assoc]

theorem exists_analyzed_iff {is : List Info} (his : Analyzed cs is) {P : Info → Prop}
    (h : ∀ c ∈ cs, ∀ j, c.analysis = .ok j → (P j ↔ Q c)) :
    (∃ d ∈ List.zipWith asChild cs is, P d.info) ↔ ∃ c ∈ cs, Q c := by
  induction his with
  | nil => simp
  | cons hc _ ih =>
    simp only [List.zipWith_cons_cons, List.mem_cons, exists_eq_or_imp]
    exact or_congr (h _ List.mem_cons_self _ hc) (ih fun c hc => h c (List.mem_cons_of_mem _ hc))

theorem analysis_scope (ht : t.wellFormed) (h : t.analysis = .ok i) (v : VarId) :
    (v ∈ i.definitions ↔ Defines (·) t v) ∧ (v ∈ i.external ↔ Uses (·) t v) := by
  induction t using induct generalizing i with
  | node id op cs ih =>
    obtain ⟨hf, hcs⟩ := wellFormed_node.mp ht
    have child := fun c hc j (hj : c.analysis = .ok j) => ih c hc (hcs c hc) hj
    cases shape_of_fits hf with
    | scanTable t | singleRowTable =>
      cases analysis_none.mp h
      simp [defines_node, uses_node, Info.blank]
    | @filter input predicate hi hp =>
      obtain ⟨ii, ip, hii, hip, ⟨⟩⟩ := analysis_two.mp h
      simp [defines_node, uses_node, Info.blank, Info.inherit, Info.refer, asChild, child input _ ii hii,
        child predicate _ ip hip]
    | @project outputs input defs hi hd =>
      obtain ⟨ii, id, hii, hid, h⟩ := analysis_two.mp h
      obtain ⟨known, -, ⟨⟩⟩ := Run.bind_ok.mp h
      simp [defines_node, uses_node, Info.blank, Info.refer, asChild, child input _ ii hii, child defs _ id hid]
    | @crossJoin left right hl hr | @crossApply left right hl hr | @outerApply left right hl hr =>
      obtain ⟨il, ir, hil, hir, ⟨⟩⟩ := analysis_two.mp h
      simp [defines_node, uses_node, Info.blank, Op.analyze.pairUp, asChild, child left _ il hil, child right _ ir hir]
    | @innerJoin left right predicate hl hr hp | @leftOuterJoin left right predicate hl hr hp =>
      obtain ⟨il, ir, ip, hil, hir, hip, ⟨⟩⟩ := analysis_three.mp h
      simp [defines_node, uses_node, Info.blank, Op.analyze.pairUp, asChild, child left _ il hil, child right _ ir hir,
        child predicate _ ip hip, or_assoc]
    | @combine kind outputs lm rm left right hl hr =>
      obtain ⟨il, ir, hil, hir, h⟩ := analysis_two.mp h
      obtain ⟨known, -, h⟩ := Run.bind_ok.mp h
      cases kind <;> cases h <;> simp [defines_node, uses_node, asChild, child left _ il hil, child right _ ir hir]
    | @distinct keys input hi =>
      obtain ⟨ii, hii, ⟨⟩⟩ := analysis_one.mp h
      simp [defines_node, uses_node, asChild, child input _ ii hii]
    | @groupBy keys outputs input keyDefs aggregates hi hk ha =>
      obtain ⟨ii, ik, ia, hii, hik, hia, h⟩ := analysis_three.mp h
      obtain ⟨known, -, ⟨⟩⟩ := Run.bind_ok.mp h
      simp [defines_node, uses_node, Info.blank, Info.refer, asChild, child input _ ii hii, child keyDefs _ ik hik,
        child aggregates _ ia hia]
      tauto
    | @sort keys input hi =>
      obtain ⟨ii, hii, ⟨⟩⟩ := analysis_one.mp h
      simp [defines_node, uses_node, Info.blank, Info.inherit, asChild, child input _ ii hii]
    | @constrainedSort keys input skip limit hi hs hl =>
      obtain ⟨ii, is, il, hii, his, hil, ⟨⟩⟩ := analysis_three.mp h
      simp [defines_node, uses_node, Info.blank, Info.inherit, Info.refer, asChild, child input _ ii hii,
        child skip _ is his, child limit _ il hil]
      tauto
    | varDefList hd =>
      obtain ⟨is, his, h⟩ := analysis_eq_ok.mp h
      cases h
      rw [defines_varDefList, uses_varDefList]
      simp only [mem_definitions_foldl, mem_external_foldl, Info.blank, VarSet.not_mem_empty, false_or]
      exact ⟨exists_analyzed_iff his fun c hc j hj => (child c hc j hj).1,
        exists_analyzed_iff his fun c hc j hj => (child c hc j hj).2⟩
    | @varDef w expr he =>
      obtain ⟨ie, hie, ⟨⟩⟩ := analysis_one.mp h
      simp [defines_node, uses_node, Info.blank, asChild, child expr _ ie hie]
    | @element type input hi =>
      obtain ⟨ii, hii, ⟨⟩⟩ := analysis_one.mp h
      simp [defines_node, uses_node, Info.blank, asChild, child input _ ii hii]
    | scalar hs _ ha =>
      obtain ⟨is, his, h⟩ := analysis_eq_ok.mp h
      have hd : ¬Defines (·) (node id op cs) v := not_defines_of_isExpression hs
      rw [uses_of_isScalar hs, ← exists_analyzed_iff his fun c hc j hj => (child c hc j hj).2, iff_false_right hd]
      -- All but references gather what their operands use.
      have gather : ∀ s : VarSet, v ∈ (List.zipWith asChild cs is).foldl (fun s c => s ∪ c.info.external) s ↔
          v ∈ s ∨ ∃ d ∈ List.zipWith asChild cs is, v ∈ d.info.external := by
        generalize List.zipWith asChild cs is = chs
        induction chs with
        | nil => simp
        | cons d chs ih => simp [ih, or_assoc]
      cases op with
      | combine kind => cases kind <;> cases hs
      | varRef w type =>
        cases h
        obtain rfl : cs = [] := List.length_eq_zero_iff.mp (length_eq_of_admits rfl ha)
        simp [Info.blank, eq_comm]
      | scalar kind type =>
        cases (if_pos hs).symm.trans h
        simp [Info.blank, gather]
      | constant | null | internalConstant | nullSentinel | constantPredicate | aggregate =>
        cases h
        simp [Info.blank, gather]
      | _ => cases hs

theorem nonNullable_defined (ht : t.wellFormed) (hrel : t.IsRelational) (hs : Scoped ρ t)
    (h : t.analysis = .ok i) (hv : v ∈ i.nonNullable) : v ∈ i.definitions := by
  induction t using induct generalizing i with
  | node id op cs ih =>
    obtain ⟨hf, hcs⟩ := wellFormed_node.mp ht
    obtain ⟨hregular, -, hscoped⟩ := scoped_node.mp hs
    have child := fun c hc (hrc : c.IsRelational) j (hj : c.analysis = .ok j) (hv : v ∈ j.nonNullable) =>
      ih c hc (hcs c hc) hrc (hscoped c hc) hj hv
    cases shape_of_fits hf with
    | scanTable t =>
      cases analysis_none.mp h
      exact VarSet.mem_ofList.mpr (hregular v hv)
    | singleRowTable =>
      cases analysis_none.mp h
      cases VarSet.not_mem_empty _ hv
    | @filter input predicate hi =>
      obtain ⟨ii, ip, hii, -, ⟨⟩⟩ := analysis_two.mp h
      simp only [Info.refer, Info.inherit, Info.blank, VarSet.mem_union, VarSet.not_mem_empty, false_or] at hv ⊢
      exact child input (by simp) hi ii hii hv
    | project outputs =>
      obtain ⟨ii, id, -, -, h⟩ := analysis_two.mp h
      obtain ⟨known, -, ⟨⟩⟩ := Run.bind_ok.mp h
      exact (VarSet.mem_inter.mp hv).2
    | @crossJoin left right hl hr | @crossApply left right hl hr =>
      obtain ⟨il, ir, hil, hir, ⟨⟩⟩ := analysis_two.mp h
      exact VarSet.mem_union.mpr ((VarSet.mem_union.mp hv).imp (child left (by simp) hl il hil)
        (child right (by simp) hr ir hir))
    | @innerJoin left right predicate hl hr =>
      obtain ⟨il, ir, ip, hil, hir, -, ⟨⟩⟩ := analysis_three.mp h
      exact VarSet.mem_union.mpr ((VarSet.mem_union.mp hv).imp (child left (by simp) hl il hil)
        (child right (by simp) hr ir hir))
    | @leftOuterJoin left right predicate hl =>
      obtain ⟨il, ir, ip, hil, -, -, ⟨⟩⟩ := analysis_three.mp h
      exact VarSet.mem_union.mpr (.inl (child left (by simp) hl il hil hv))
    | @outerApply left right hl =>
      obtain ⟨il, ir, hil, -, ⟨⟩⟩ := analysis_two.mp h
      exact VarSet.mem_union.mpr (.inl (child left (by simp) hl il hil hv))
    | @combine kind outputs lm rm left right _ _ hlm hrm =>
      obtain ⟨il, ir, -, -, h⟩ := analysis_two.mp h
      obtain ⟨known, hk, h⟩ := Run.bind_ok.mp h
      have hmem := (Run.exists_ok_iff hk).mp (Op.neverNullOutputs_ok hlm hrm)
      cases kind <;> cases h <;> exact ((hmem v).mp hv).1
    | distinct keys =>
      obtain ⟨ii, -, ⟨⟩⟩ := analysis_one.mp h
      exact (VarSet.mem_inter.mp hv).2
    | groupBy keys outputs =>
      obtain ⟨ii, ik, ia, -, -, -, h⟩ := analysis_three.mp h
      obtain ⟨known, -, ⟨⟩⟩ := Run.bind_ok.mp h
      exact (VarSet.mem_inter.mp hv).2
    | @sort keys input hi =>
      obtain ⟨ii, hii, ⟨⟩⟩ := analysis_one.mp h
      simp only [Info.inherit, Info.blank, VarSet.mem_union, VarSet.not_mem_empty, false_or] at hv ⊢
      exact child input (by simp) hi ii hii hv
    | @constrainedSort keys input skip limit hi =>
      obtain ⟨ii, is, il, hii, -, -, ⟨⟩⟩ := analysis_three.mp h
      simp only [Info.refer, Info.inherit, Info.blank, VarSet.mem_union, VarSet.not_mem_empty, false_or] at hv ⊢
      exact child input (by simp) hi ii hii hv
    | varDefList | varDef | element => cases hrel
    | scalar hs => exact absurd hrel (not_isRelational_of_isScalar hs)

end Tree

end Planwright
