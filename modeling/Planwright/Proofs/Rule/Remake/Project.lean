import Planwright.Proofs.Plan.Defs
import Planwright.Proofs.Rule.Remake

/-! What rules make of projections and distincts. -/

namespace Planwright

open Run Planwright.Tree Plan RuleM

/-- The renamings with one more, unless it renames nothing. -/
def VarMap.renaming (m : VarMap) (old new : VarId) : VarMap := if old = new then m else m.insert old new

theorem RuleM.rename_halts {c : Context} {p : Plan} {old new : VarId} : HaltsIn (RuleM.rename old new) c p fun _ c' p' =>
    p' = p ∧ c' = { c with mappings := c.mappings.renaming old new } := by
  rw [RuleM.rename, VarMap.renaming]
  split
  · exact .pure ⟨rfl, rfl⟩
  · exact .modify ⟨rfl, rfl⟩

namespace Tree

/-! ### Definitions dropped -/

/-- What is left of renamings and outputs when definitions are dropped, each in favour of another variable: the renamings
    with those added, and the outputs with `hide` done to them. -/
def dropAll (drop : Def → Option VarId) (hide : VarSet → VarId → VarId → VarSet) : VarMap → VarSet → List Def → VarMap × VarSet
  | m, outputs, [] => (m, outputs)
  | m, outputs, d :: ds =>
    match drop d with
    | none => dropAll drop hide m outputs ds
    | some w => dropAll drop hide (m.renaming d.var w) (hide outputs d.var w) ds

def keptOf (drop : Def → Option VarId) (ds : List Def) : List Def := ds.filter fun d => (drop d).isNone

/-- A projection without the definitions that are dropped. -/
inductive Drops (drop : Def → Option VarId) (hide : VarSet → VarId → VarId → VarSet) (mm : VarMap) (outputs : VarSet) (x : Tree)
    (ds : List Def) : VarMap → Tree → Prop
  | intro (n m : NodeId) : (∃ d ∈ ds, drop d ≠ none) → Drops drop hide mm outputs x ds (dropAll drop hide mm outputs ds).1
      (.node n (.project (dropAll drop hide mm outputs ds).2) [x, defs m (keptOf drop ds)])

theorem dropAll_of_none {drop : Def → Option VarId} {hide : VarSet → VarId → VarId → VarSet} {m : VarMap} {outputs : VarSet}
    {ds : List Def} (h : ∀ d ∈ ds, drop d = none) : dropAll drop hide m outputs ds = (m, outputs) := by
  induction ds with
  | nil => rfl
  | cons d ds ih =>
    rw [List.forall_mem_cons] at h
    rw [dropAll, h.1]
    exact ih h.2

theorem keptOf_sublist (drop : Def → Option VarId) (ds : List Def) : (keptOf drop ds).Sublist ds := List.filter_sublist

theorem keptOf_length {drop : Def → Option VarId} {ds : List Def} (h : ∃ d ∈ ds, drop d ≠ none) :
    (keptOf drop ds).length < ds.length := by
  obtain ⟨d, hd, hdrop⟩ := h
  refine List.length_filter_lt_length_iff_exists.mpr ⟨d, hd, ?_⟩
  simpa [Option.isNone_iff_eq_none] using hdrop

/-- A definition that is a plain reference to one of the variables. -/
def referenceIn (definitions : VarSet) (d : Def) : Option VarId :=
  match d.expr.op with
  | .varRef w _ => if definitions.has w then some w else none
  | _ => none

def sentinelFor (chosen : VarId) (d : Def) : Option VarId :=
  if d.expr.kind = .nullSentinel ∧ d.var ≠ chosen then some chosen else none

/-- The definition is a constant, and not null. -/
def Def.IsConstant (d : Def) : Prop := ∃ a, d.expr.op.value? = some a ∧ a.isNull = false

end Tree

namespace Rules

variable {definitions : VarSet} {d : Def} {b : Def → Bool} {σ : List (VarId × Tree)}
variable {c : Context} {p : Plan} {n m : NodeId} {outputs keys : VarSet} {x : Tree} {ds : List Def}

/-! ### Looking at definitions -/

section Looks
variable {ns : List NodeId}

theorem scalarReferences_looks : Looks (scalarReferences ns) := by
  induction ns with
  | nil => exact .pure
  | cons d ns ih =>
    refine .bind child_looks fun e => .bind tree_looks fun t => ?_
    split
    · exact .pure
    · exact .bind ih fun _ => .pure

theorem plainReference?_looks : Looks (plainReference? definitions n) := by
  refine .bind child_looks fun e => .bind op_looks fun o => ?_
  split <;> exact .pure

theorem sentinel?_looks {chosen : VarId} : Looks (sentinel? chosen n) :=
  .bind definedVar_looks fun _ => .bind child_looks fun _ => .bind kind_looks fun _ => .pure

theorem constantVars_looks : Looks (constantVars ns) := by
  refine .bind (.mapM (fun d => .bind child_looks fun e => .bind op_looks fun o => ?_) _) fun _ => .pure
  have one : Looks (do return [← definedVar d]) := .bind definedVar_looks fun _ => .pure
  split
  · split
    · exact .pure
    · exact one
  · split
    · exact .pure
    · exact one
  · exact one
  · exact .pure

end Looks

/-! ### Projections that define nothing, and distincts -/

theorem exists_project {t : Tree} (hwf : t.wellFormed) (hk : t.kind = .project) :
    ∃ n outputs x m ds, t = .node n (.project outputs) [x, defs m ds] := by
  obtain ⟨n, outputs, x, d, rfl⟩ := looks hwf hk
  obtain ⟨⟨-, hd⟩, -, hwfd⟩ := wellFormed_project.mp hwf
  obtain ⟨m, ds, rfl⟩ := exists_defs hwfd hd
  exact ⟨n, outputs, x, m, ds, rfl⟩

theorem projectWithNoLocalDefinitions_makes :
    projectWithNoLocalDefinitions.Rebuilds fun t t' => ∃ n outputs m, t = .node n (.project outputs) [t', defs m []] := by
  rintro c p t - ⟨ht, -, hwf⟩ hfits
  obtain ⟨n, outputs, x, m, ds, rfl⟩ := exists_project hwf (kind_of_fits hfits)
  obtain ⟨hx, hds⟩ := ht.two
  refine .read (ht.child_run rfl) (.read hds.defs_run ?_)
  split
  · rename_i hempty
    obtain rfl : ds = [] := by simpa using hempty
    refine .read (ht.child_run rfl) (.pure ⟨x, [], rfl, ⟨hx, ⟨[], (Keeps.refl _ _).grows, fun y => ?_⟩, rfl⟩, rfl, rfl, n, outputs, m, rfl⟩)
    simp [List.count_cons]
    omega
  · exact .pure ⟨rfl, .refl _ _⟩

theorem distinctOpOfKeys_makes : distinctOpOfKeys.Rebuilds fun t t' => ∃ n keys x i known n' m', t = .node n (.distinct keys) [x] ∧
    x.analysis = .ok i ∧ i.keys = some known ∧ (∀ v ∈ known, v ∈ keys) ∧ t' = .node n' (.project keys) [x, defs m' []] := by
  rintro c p t - ⟨ht, -, hwf⟩ hfits
  obtain ⟨n, keys, x, rfl⟩ := looks hwf (kind_of_fits hfits)
  have hx := ht.one
  refine .read (ht.child_run rfl) (.step (relationInfo_halts x.id p) fun i p₁ ⟨h₁, hi⟩ => .read (h₁.still ht).op_run ?_)
  have hi := hi x hx rfl
  dsimp only [op_node]
  split
  · exact .pure ⟨rfl, h₁⟩
  · rename_i known hknown
    split
    · exact .pure ⟨rfl, h₁⟩
    · rename_i hsub
      have hsub : ∀ v ∈ known, v ∈ keys := VarSet.isSubset_iff.mp (by simpa using hsub)
      refine .step (varDefList_halts [] nofun) fun m' p₂ ⟨h₂, hm⟩ => ?_
      refine .step (create_halts [x, defs m' []] ?_) fun n' p₃ h₃ => .pure ?_
      · simpa using ⟨h₂.keeps.still (h₁.still hx), hm⟩
      · have hg := (h₁.grows.and_then h₂).and_then h₃.grows
        refine .of_grows h₃.holds hg (fun y => ?_) ⟨rfl, rfl, n, keys, x, i, known, n', m', rfl, hi, hknown, hsub, rfl⟩
        simp [List.count_cons]
        omega

/-! ### Definitions that are dropped -/

theorem plainReference?_run (h : p.Holds d.tree) :
    plainReference? definitions d.node p = .ok (referenceIn definitions d, p) := by
  refine bind_run_ok.mpr ⟨_, p, h.child_run (c := d.expr) rfl, bind_run_ok.mpr ⟨_, p, h.expr.op_run, ?_⟩⟩
  rw [referenceIn]
  cases d.expr.op <;> rfl

section Drop
variable {standIn? : NodeId → PlanM (Option VarId)} {drop : Def → Option VarId} {hide : VarSet → VarId → VarId → VarSet}

theorem dropDefs_halts (h : ∀ d ∈ ds, p.Holds d.tree) (hrun : ∀ d ∈ ds, standIn? d.node p = .ok (drop d, p)) :
    HaltsIn (dropDefs standIn? hide outputs (ds.map Def.node)) c p fun out c' p' => p' = p ∧
      c' = { c with mappings := (dropAll drop hide c.mappings outputs ds).1 } ∧
      out = ((dropAll drop hide c.mappings outputs ds).2, (keptOf drop ds).map Def.node, ds.any fun d => (drop d).isSome) := by
  induction ds generalizing c outputs with
  | nil => exact .pure ⟨rfl, rfl, rfl⟩
  | cons d ds ih =>
    obtain ⟨hd, hds⟩ := List.forall_mem_cons.mp h
    obtain ⟨hrd, hrds⟩ := List.forall_mem_cons.mp hrun
    rw [List.map_cons, dropDefs]
    refine .read hrd ?_
    cases hdrop : drop d with
    | none =>
      refine .bind (ih hds hrds) ?_
      rintro _ _ _ ⟨rfl, rfl, rfl⟩
      refine .pure ⟨rfl, ?_, ?_⟩ <;> simp [dropAll, keptOf, hdrop]
    | some w =>
      refine .read (definedVar_run hd) (.bind rename_halts ?_)
      rintro _ _ _ ⟨rfl, rfl⟩
      refine .bind (ih hds hrds) ?_
      rintro _ _ _ ⟨rfl, rfl, rfl⟩
      refine .pure ⟨rfl, ?_, ?_⟩ <;> simp [dropAll, keptOf, hdrop]

theorem dropFrom_halts {p₁ : Plan} {P : List VarId → VarMap → Tree → Prop} (hk : Keeps ∅ p p₁)
    (ht : p.Holds (.node n (.project outputs) [x, defs m ds])) (hrun : ∀ d ∈ ds, standIn? d.node p₁ = .ok (drop d, p₁))
    (hP : ∀ mm t', Drops drop hide c.mappings outputs x ds mm t' → P [] mm t') :
    HaltsIn (dropFrom n x.id (ds.map Def.node) standIn? hide) c p₁
      (Remade c p (.node n (.project outputs) [x, defs m ds]) P) := by
  obtain ⟨hx, hds⟩ := (hk.still ht).two
  refine .read (hk.still ht).op_run (.bind (dropDefs_halts (fun d hd => hds.member hd) hrun) ?_)
  rintro _ _ p₁ ⟨rfl, rfl, rfl⟩
  dsimp only
  split
  · rename_i hnone
    rw [dropAll_of_none (by simpa using hnone)]
    exact .pure ⟨rfl, hk⟩
  rename_i hany
  have hsome : ∃ d ∈ ds, drop d ≠ none := by simpa [Option.isSome_iff_ne_none] using hany
  have hkept : ∀ d ∈ keptOf drop ds, p₁.Holds d.tree := fun d hd => hds.member ((keptOf_sublist drop ds).subset hd)
  refine .step (varDefList_halts _ hkept) fun m' p₂ ⟨h₂, hm⟩ => ?_
  refine .step (create_halts [x, defs m' (keptOf drop ds)] ?_) fun n' p₃ h₃ => .pure ?_
  · simpa using ⟨h₂.keeps.still hx, hm⟩
  · have hg := (hk.grows.and_then h₂).and_then h₃.grows
    refine ⟨_, [], rfl, ⟨h₃.holds, ⟨_, hg.mono fun _ h => h.elim, fun y => ?_⟩, rfl⟩, hP _ _ ⟨n', m', hsome⟩⟩
    have := ((keptOf_sublist drop ds).flatMap Def.ids).count_le y
    simp [List.count_cons]
    omega

end Drop

theorem anyM_run {test : NodeId → RuleM Bool} (h : ∀ d ∈ ds, HaltsIn (test d.node) c p fun out c' p' =>
    p' = p ∧ c' = c ∧ out = b d) : HaltsIn ((ds.map Def.node).anyM test) c p fun out c' p' =>
      p' = p ∧ c' = c ∧ out = ds.any b := by
  induction ds with
  | nil => exact .pure ⟨rfl, rfl, rfl⟩
  | cons d ds ih =>
    obtain ⟨hd, hds⟩ := List.forall_mem_cons.mp h
    rw [List.map_cons, List.anyM]
    refine .bind hd ?_
    rintro _ _ _ ⟨rfl, rfl, rfl⟩
    cases hb : b d with
    | true => exact .pure ⟨rfl, rfl, by simp [hb]⟩
    | false => simpa [hb] using ih hds

theorem projectWithSimpleVarRedefinitions_makes : projectWithSimpleVarRedefinitions.Makes fun c _ t vs mm t' => vs = [] ∧
    ∃ n outputs x m ds i, t = .node n (.project outputs) [x, defs m ds] ∧ x.analysis = .ok i ∧
      Drops (referenceIn i.definitions) showAs c.mappings outputs x ds mm t' := by
  rintro c p t - ⟨ht, -, hwf⟩ hfits
  obtain ⟨n, outputs, x, m, ds, rfl⟩ := exists_project hwf (kind_of_fits hfits)
  obtain ⟨hx, hds⟩ := ht.two
  refine .read (ht.child_run rfl) (.step (relationInfo_halts x.id p) fun i p₁ ⟨h₁, hi⟩ => ?_)
  have hds₁ := h₁.still hds
  refine .read ((h₁.still ht).child_run rfl) (.read hds₁.defs_run ?_)
  exact dropFrom_halts h₁ ht (fun d hd => plainReference?_run (hds₁.member hd)) fun mm t' hdrops =>
    ⟨rfl, n, outputs, x, m, ds, i, rfl, hi x hx rfl, hdrops⟩

/-! ### Null sentinels -/

theorem canChangeSentinel_quiet : Quiet canChangeSentinel := by
  have hbeside : ∀ as rest : List NodeId, Quiet (besideCompares as rest) := by
    intro as rest
    induction rest with
    | nil => exact .pure
    | cons a rest ih =>
      refine .bind (.plan kind_looks) fun k => ?_
      split
      · refine .bind (.plan child_looks) fun right => .bind (.plan tree_looks) fun t => ?_
        split
        · exact .pure
        · exact ih
      · exact ih
  refine .get fun c => .bind (.anyM fun a => .bind (.plan kind_looks) fun _ => .pure) fun compares => ?_
  split
  · exact .pure
  · exact .bind (hbeside _ _) fun _ => .pure

theorem constantVar_halts (h : p.Holds d.tree) :
    Halts (constantVar d.node) p fun vs p' => p' = p ∧ ∀ v ∈ vs, d.var = v ∧ d.IsConstant := by
  have none : Halts (pure [] : PlanM (List VarId)) p fun vs p' => p' = p ∧ ∀ v ∈ vs, d.var = v ∧ d.IsConstant := .pure ⟨rfl, nofun⟩
  have one : d.IsConstant → Halts (do return [← definedVar d.node]) p fun vs p' => p' = p ∧ ∀ v ∈ vs, d.var = v ∧ d.IsConstant :=
    fun hd => .read (definedVar_run h) (.pure ⟨rfl, by simpa using hd⟩)
  refine .read (h.child_run (c := d.expr) rfl) (.read h.expr.op_run ?_)
  split
  · rename_i a ha
    split
    · exact none
    · exact one ⟨a, by rw [ha]; rfl, by simpa using ‹¬a.isNull = true›⟩
  · rename_i a ha
    split
    · exact none
    · exact one ⟨a, by rw [ha]; rfl, by simpa using ‹¬a.isNull = true›⟩
  · rename_i hs
    exact one ⟨.int32 1, by rw [hs]; rfl, rfl⟩
  · exact none

theorem constantVars_halts (h : ∀ d ∈ ds, p.Holds d.tree) : Halts (constantVars (ds.map Def.node)) p fun vs p' =>
    p' = p ∧ ∀ v ∈ vs, ∃ d ∈ ds, d.var = v ∧ d.IsConstant := by
  refine .bind (R := fun found p' => p' = p ∧ ∀ vs ∈ found, ∀ v ∈ vs, ∃ d ∈ ds, d.var = v ∧ d.IsConstant) ?_
    fun found p' ⟨hp, hf⟩ => .pure ⟨hp, ?_⟩
  · induction ds with
    | nil => exact .pure ⟨rfl, nofun⟩
    | cons d ds ih =>
      obtain ⟨hd, hds⟩ := List.forall_mem_cons.mp h
      rw [List.map_cons, List.mapM_cons]
      refine .bind (constantVar_halts hd) ?_
      rintro vs p ⟨rfl, hvs⟩
      refine .bind (ih hds) fun rest p₂ ⟨hp, hrest⟩ => .pure ⟨hp, List.forall_mem_cons.mpr ⟨fun v hv => ?_, fun ws hws v hv => ?_⟩⟩
      · exact ⟨d, List.mem_cons_self, hvs v hv⟩
      · obtain ⟨e, he, heq⟩ := hrest ws hws v hv
        exact ⟨e, List.mem_cons_of_mem _ he, heq⟩
  · intro v hv
    obtain ⟨vs, hvs, hv⟩ := List.mem_flatten.mp hv
    exact hf vs hvs v hv

theorem sentinel?_run {chosen : VarId} (h : p.Holds d.tree) : sentinel? chosen d.node p = .ok (sentinelFor chosen d, p) := by
  refine bind_run_ok.mpr ⟨_, p, definedVar_run h, bind_run_ok.mpr ⟨_, p, h.child_run (c := d.expr) rfl,
    bind_run_ok.mpr ⟨_, p, h.expr.kind_run, ?_⟩⟩⟩
  exact congrArg (fun s => Except.ok (s, p)) (by simp [sentinelFor])

/-- Null sentinels are dropped in favour of a variable that is never null. -/
def Unmarked (c : Context) (_ : Plan) (t : Tree) (vs : List VarId) (mm : VarMap) (t' : Tree) : Prop :=
  vs = [] ∧ ∃ n outputs x m ds i chosen, t = .node n (.project outputs) [x, defs m ds] ∧ x.analysis = .ok i ∧
    (chosen ∈ i.nonNullable ∨ ∃ d ∈ ds, d.var = chosen ∧ d.IsConstant) ∧
    Drops (sentinelFor chosen) showAsIf c.mappings outputs x ds mm t'

theorem projectOpWithNullSentinel_makes : projectOpWithNullSentinel.Makes Unmarked := by
  rintro c p t - ⟨ht, -, hwf⟩ hfits
  obtain ⟨n, outputs, x, m, ds, rfl⟩ := exists_project hwf (kind_of_fits hfits)
  obtain ⟨hx, hds⟩ := ht.two
  refine .read (ht.child_run rfl) (.read hds.defs_run (.bind (anyM_run (b := fun d => d.expr.kind == .nullSentinel) fun d hd =>
    .read ((hds.member hd).child_run (c := d.expr) rfl) (.read (hds.member hd).expr.kind_run (.pure ⟨rfl, rfl, rfl⟩))) ?_))
  rintro _ c p ⟨rfl, rfl, rfl⟩
  split
  · exact .pure ⟨rfl, .refl _ _⟩
  · refine .quiet canChangeSentinel_quiet fun may p₁ h₁ => ?_
    split
    · exact .pure ⟨rfl, h₁⟩
    · refine .read ((h₁.still ht).child_run rfl) (.step (relationInfo_halts x.id p₁) fun i p₂ ⟨h₂, hi⟩ => ?_)
      have hi := hi x (h₁.still hx) rfl
      have h₂ := h₁.and_then h₂
      refine .getPlan ?_
      have rest : ∀ v, (v ∈ i.nonNullable ∨ ∃ d ∈ ds, d.var = v ∧ d.IsConstant) →
          HaltsIn (dropFrom n x.id (ds.map Def.node) (sentinel? v) showAsIf) c p₂ (Remade c p (.node n (.project outputs) [x, defs m ds])
            (Unmarked c p (.node n (.project outputs) [x, defs m ds]))) := fun v hv =>
        dropFrom_halts h₂ ht (fun d hd => sentinel?_run ((h₂.still hds).member hd)) fun mm t' hdrops =>
          ⟨rfl, n, outputs, x, m, ds, i, v, rfl, hi, hv, hdrops⟩
      dsimp only
      split
      · rename_i v hv
        exact rest v (.inl (VarSet.mem_toList.mp (List.mem_of_find?_eq_some hv)))
      · refine .step (constantVars_halts fun d hd => (h₂.still hds).member hd) ?_
        rintro vs p₂ ⟨rfl, hvs⟩
        split
        · rename_i v hv
          exact rest v (.inr (hvs v (List.mem_of_find?_eq_some hv)))
        · exact .pure ⟨rfl, h₂⟩

/-! ### Projections over projections -/

theorem scalarReferences_halts (h : ∀ d ∈ ds, p.Holds d.tree) : Halts (scalarReferences (ds.map Def.node)) p fun out p' =>
    p' = p ∧ ∀ refs, out = some refs → ∀ d ∈ ds, d.expr.isScalar := by
  induction ds with
  | nil => exact .pure ⟨rfl, nofun⟩
  | cons d ds ih =>
    obtain ⟨hd, hds⟩ := List.forall_mem_cons.mp h
    rw [List.map_cons, scalarReferences]
    refine .read (hd.child_run (c := d.expr) rfl) (.bind hd.expr.tree_halts ?_)
    rintro _ p ⟨rfl, rfl⟩
    split
    · exact .pure ⟨rfl, nofun⟩
    · rename_i hs
      refine .bind (ih hds) fun rest p' ⟨hp, hrest⟩ => .pure ⟨hp, fun refs hrefs => ?_⟩
      obtain ⟨refs, hsome, -⟩ := Option.map_eq_some_iff.mp hrefs
      exact List.forall_mem_cons.mpr ⟨by simpa using hs, hrest refs hsome⟩

theorem filterM_run {test : NodeId → RuleM Bool} (h : ∀ d ∈ ds, HaltsIn (test d.node) c p fun out c' p' =>
    p' = p ∧ c' = c ∧ out = b d) : HaltsIn ((ds.map Def.node).filterM test) c p fun out c' p' =>
      p' = p ∧ c' = c ∧ out = (ds.filter b).map Def.node := by
  have aux : ∀ acc, HaltsIn ((ds.map Def.node).filterAuxM test acc) c p fun out c' p' =>
      p' = p ∧ c' = c ∧ out = ((ds.filter b).map Def.node).reverse ++ acc := by
    induction ds with
    | nil => exact fun acc => .pure ⟨rfl, rfl, rfl⟩
    | cons d ds ih =>
      intro acc
      obtain ⟨hd, hds⟩ := List.forall_mem_cons.mp h
      rw [List.map_cons, List.filterAuxM]
      refine .bind hd ?_
      rintro _ _ _ ⟨rfl, rfl, rfl⟩
      refine (ih hds _).mono ?_
      rintro _ _ _ ⟨rfl, rfl, rfl⟩
      refine ⟨rfl, rfl, ?_⟩
      cases hb : b d <;> simp [hb]
  refine .bind (aux []) ?_
  rintro _ _ _ ⟨rfl, rfl, rfl⟩
  exact .pure ⟨rfl, rfl, by simp⟩

/-- Definitions with expressions put in for variables. -/
def Moved (σ : List (VarId × Tree)) : List Def → List Def → Prop :=
  List.Forall₂ fun d d' => d'.var = d.var ∧ d.expr.Substituted σ d'.expr

theorem redefine_halts (hσ : p.Offers σ) (hdis : ∀ x ∈ σ, ∀ y ∈ x.2.ids, y ∉ d.ids)
    (hd : p.Holds d.tree) (hn : d.ids.Nodup) (hs : d.expr.isScalar) (hwf : d.expr.wellFormed) :
    Halts (redefine (σ.map fun x => (x.1, x.2.id)) d.node) p fun n p' => ∃ (d' : Def) (fs : List NodeId),
      d'.node = n ∧ d'.var = d.var ∧ d.expr.Substituted σ d'.expr ∧ p'.Holds d'.tree ∧
      Grows {x | x ∈ d.ids} fs [] p p' ∧ ∀ x, d'.ids.count x ≤ fs.count x + d.ids.count x := by
  obtain ⟨hnot, hn⟩ := List.nodup_cons.mp hn
  have hout : ∀ x ∈ d.expr.ids, x ∈ d.ids := fun x hx => List.mem_cons_of_mem _ hx
  refine .read (hd.child_run (c := d.expr) rfl) (.bind (substitute_halts hσ (fun x hx y hy hye =>
    hdis x hx y hy (hout y hye)) hd.expr hn hs hwf) fun e p₁ ⟨e', gs, he⟩ => ?_)
  obtain rfl := he.id
  obtain ⟨r, hr, ho, -⟩ := hd.shows.node
  obtain ⟨r', hr', ho', -⟩ := he.grows.keeps.node d.node r hr hnot
  refine .read (definedVar_of_found hr' (ho'.trans ho)) ((create_halts [e'] (by simpa using he.holds)).mono fun n p₂ h₂ =>
    ⟨⟨n, d.var, e'⟩, gs ++ [n], rfl, rfl, he.substituted, h₂.holds, ?_, fun x => ?_⟩)
  · exact (he.grows.mono fun x hx _ => hout x hx).and_then h₂.grows
  · have := he.ids x
    simp only [Def.ids, List.count_cons, List.count_append, List.count_nil]
    omega

theorem redefineAll_halts (hσ : p.Offers σ)
    (hdis : ∀ x ∈ σ, ∀ y ∈ x.2.ids, y ∉ ds.flatMap Def.ids) (h : ∀ d ∈ ds, p.Holds d.tree)
    (hn : (ds.flatMap Def.ids).Nodup) (hs : ∀ d ∈ ds, d.expr.isScalar ∧ d.expr.wellFormed) :
    HaltsIn ((ds.map Def.node).mapM fun d => (redefine (σ.map fun x => (x.1, x.2.id)) d : RuleM NodeId)) c p fun ns c' p' =>
      c' = c ∧ ∃ ds' fs, ns = ds'.map Def.node ∧ Moved σ ds ds' ∧ (∀ d ∈ ds', p'.Holds d.tree) ∧
        Grows {x | x ∈ ds.flatMap Def.ids} fs [] p p' ∧
        ∀ x, (ds'.flatMap Def.ids).count x ≤ fs.count x + (ds.flatMap Def.ids).count x := by
  induction ds generalizing p with
  | nil => exact .pure ⟨rfl, [], [], rfl, .nil, nofun, (Keeps.refl _ _).grows, fun x => by simp⟩
  | cons d ds ih =>
    obtain ⟨hd, hds⟩ := List.forall_mem_cons.mp h
    obtain ⟨⟨hscalar, hwf⟩, hs⟩ := List.forall_mem_cons.mp hs
    rw [List.flatMap_cons] at hn hdis
    obtain ⟨hnd, hnds, hsep⟩ := List.nodup_append.mp hn
    rw [List.map_cons, List.mapM_cons]
    refine .step (redefine_halts hσ (fun x hx y hy hyd => hdis x hx y hy (List.mem_append_left _ hyd)) hd hnd hscalar hwf) ?_
    rintro _ p₁ ⟨d', gs, rfl, hvar, hsub, hheld, hg, hids⟩
    have hkeep : ∀ t : Tree, (∀ y ∈ t.ids, y ∉ d.ids) → p.Holds t → p₁.Holds t := fun t hdis ht => hg.keeps.holds t ht hdis
    refine .bind (ih (fun x hx => ?_) (fun x hx y hy hmem => hdis x hx y hy (List.mem_append_right _ hmem)) (fun e he => ?_)
      hnds hs) ?_
    · obtain ⟨hheld, hrest⟩ := hσ x hx
      exact ⟨hkeep x.2 (fun y hy hyd => hdis x hx y hy (List.mem_append_left _ hyd)) hheld, hrest⟩
    · refine hkeep e.tree (fun y hy hyd => ?_) (hds e he)
      exact hsep y hyd y (List.mem_flatMap.mpr ⟨e, he, by simpa using hy⟩) rfl
    · rintro _ c p₂ ⟨rfl, ds', fs, rfl, hmoved, hheld', hg', hids'⟩
      refine .pure ⟨rfl, d' :: ds', gs ++ fs, rfl, .cons ⟨hvar, hsub⟩ hmoved, ?_, ?_, fun x => ?_⟩
      · -- What was made of the first has no nodes of the others.
        refine List.forall_mem_cons.mpr ⟨hg'.keeps.holds d'.tree hheld fun y hy hmem => ?_, hheld'⟩
        obtain ⟨e, he, hye⟩ := List.mem_flatMap.mp hmem
        have hlt := (hds e he).ids_lt y (by simpa using hye)
        rcases (hg.nodes.parts (fun z hz => hd.ids_lt z (by simpa using hz)) hids).mem (by simpa using hy) with hyd | hge
        · exact hsep y hyd y hmem rfl
        · exact absurd hlt (Nat.not_lt.mpr hge)
      · refine (hg.mono fun x hx _ => ?_).trans hg' fun x hx _ => ?_
        · exact List.mem_append_left _ hx
        · exact List.mem_append_right _ hx
      · have := hids x
        have := hids' x
        simp only [List.flatMap_cons, List.count_append]
        omega

theorem projectOverProject_makes : projectOverProject.Rebuilds fun t t' => ∃ n outer n₂ inner x m₂ ds₂ m₁ ds₁ s σ moved n' m',
    t = .node n (.project outer) [.node n₂ (.project inner) [x, defs m₂ ds₂], defs m₁ ds₁] ∧ Collected [] ds₂ s σ ∧
      (∀ d ∈ ds₁, d.expr.isScalar) ∧ Moved σ ds₁ moved ∧
      t' = .node n' (.project outer) [x, defs m' (moved ++ ds₂.filter fun d => outer.has d.var)] := by
  rintro c p t - ⟨ht, hn, hwf⟩ hfits
  obtain ⟨n, outer, t, m₁, ds₁, rfl⟩ := exists_project hwf (kind_of_fits hfits)
  obtain ⟨-, hwfin, hwf₁⟩ := wellFormed_project.mp hwf
  obtain ⟨n₂, inner, x, m₂, ds₂, rfl⟩ := exists_project hwfin (kind_of_fits (Pattern.fits_two hfits).1)
  obtain ⟨-, -, hwf₂⟩ := wellFormed_project.mp hwfin
  obtain ⟨hin, hds₁⟩ := ht.two
  obtain ⟨-, hds₂⟩ := hin.two
  have hsep : ∀ y ∈ (Tree.node n₂ (.project inner) [x, defs m₂ ds₂]).ids, y ∉ ds₁.flatMap Def.ids := fun y hy hmem =>
    disjoint_ids hn (i := 0) (j := 1) rfl rfl nofun y hy (by simp [hmem])
  have hn₁ : (ds₁.flatMap Def.ids).Nodup := by
    have := nodup_ids_of_mem hn (d := defs m₁ ds₁) (by simp)
    rw [ids_defs] at this
    exact (List.nodup_cons.mp this).2
  refine .read (ht.child_run rfl) (.read ht.op_run (.read (ht.child_run rfl) (.read hds₁.defs_run
    (.step (scalarReferences_halts fun d hd => hds₁.member hd) ?_))))
  rintro refs p ⟨rfl, hrefs⟩
  cases refs with
  | none => exact .pure ⟨rfl, .refl _ _⟩
  | some refs =>
    refine .read (hin.child_run rfl) (.bind (substitution?_halts hds₂) ?_)
    rintro s c p ⟨rfl, rfl, hs⟩
    cases s with
    | none => exact .pure ⟨rfl, .refl _ _⟩
    | some s =>
      obtain ⟨σ, hσ⟩ := hs s rfl
      obtain rfl := hσ.eq
      have hscalar := hrefs refs rfl
      refine .bind (redefineAll_halts (hσ.offers hds₂ hwf₂) (fun y hy z hz hmem => ?_) (fun d hd => hds₁.member hd) hn₁
        fun d hd => ⟨hscalar d hd, (wellFormed_defs.mp hwf₁ d hd).2⟩) ?_
      · exact hsep z (ids_subset_of_child (i := 1) rfl z (hσ.mem_ids hy hz)) hmem
      · rintro _ c p₁ ⟨rfl, moved, fs, rfl, hmoved, hheld, hg, hids⟩
        have hin₁ := hg.keeps.holds _ hin hsep
        have hx₁ : p₁.Holds x := hin₁.of_mem (by simp)
        have hds₂' : p₁.Holds (defs m₂ ds₂) := hin₁.of_mem (by simp)
        refine .read hds₂'.defs_run (.bind (filterM_run (b := fun d => outer.has d.var) fun d hd =>
          .read (definedVar_run (hds₂'.member hd)) (.pure ⟨rfl, rfl, rfl⟩)) ?_)
        rintro _ c p₁ ⟨rfl, rfl, rfl⟩
        rw [← List.map_append]
        refine .step (varDefList_halts _ fun d hd => ?_) fun m' p₂ ⟨h₂, hm⟩ => ?_
        · rcases List.mem_append.mp hd with hd | hd
          · exact hheld d hd
          · exact hds₂'.member (List.mem_of_mem_filter hd)
        · refine .read ((h₂.keeps.still hin₁).child_run rfl) ?_
          refine .step (create_halts [x, defs m' (moved ++ ds₂.filter fun d => outer.has d.var)] ?_) fun n' p₃ h₃ => .pure ?_
          · simpa using ⟨h₂.keeps.still hx₁, hm⟩
          · refine ⟨_, [], rfl, ⟨h₃.holds, ⟨_, ((hg.mono ?_).and_then h₂).and_then h₃.grows, fun y => ?_⟩, rfl⟩, rfl, rfl,
              n, outer, n₂, inner, x, m₂, ds₂, m₁, ds₁, _, σ, moved, n', m', rfl, hσ, hscalar, hmoved, rfl⟩
            · intro y hy _
              simp at hy ⊢
              exact .inr (.inr (.inr (.inr (.inr (.inr hy)))))
            · have := hids y
              have := ((List.filter_sublist (p := fun d => outer.has d.var) (l := ds₂)).flatMap Def.ids).count_le y
              simp [List.count_cons]
              omega

end Rules

end Planwright
