import Planwright.Proofs.Plan.Rename
import Planwright.Proofs.Rule.Remake.Project
import Planwright.Proofs.Rule.Remake.Scalar

/-! What rules make of applies. -/

namespace Planwright

open Run Planwright.Tree Plan RuleM

/-- A marker that was made stands in for its own constant. -/
def Rules.Marker.StandsIn (m : Rules.Marker) (d : Def) : Prop :=
  m.constant.isSome = true ∧ d.expr.op.value? = some (.int32 1)

namespace Tree

/-- The analysis of the first finds no reference to what that of the second shows. -/
def Apart (y x : Tree) : Prop :=
  ∃ i j, y.analysis = .ok i ∧ x.analysis = .ok j ∧ i.external.overlaps j.definitions = false

/-- An expression that is null wherever the marker is: the marker itself, where it may stand in, or a test of it before
    another. -/
inductive Guards (s : VarId) (standsIn : Prop) (e : Tree) : Tree → Prop
  | marker (n : NodeId) (type : ScalarType) : standsIn → Guards s standsIn e (.node n (.varRef s type) [])
  | test (n a b r : NodeId) (type type' : ScalarType) : Guards s standsIn e
      (.node n (.scalar .caseWhen type) [.node a (.scalar .isNull .boolean) [.node r (.varRef s type') []],
        .node b (.null type) [], e])

theorem Guards.wellFormed {s : VarId} {standsIn : Prop} {e e' : Tree} (h : Guards s standsIn e e') (he : e.IsExpression)
    (hwf : e.wellFormed) : e'.IsExpression ∧ e'.wellFormed := by
  cases h with
  | marker => exact ⟨rfl, wellFormed_leaf rfl⟩
  | test n a b r type type' =>
    have htest : (Tree.node a (.scalar .isNull .boolean) [.node r (.varRef s type') []]).wellFormed = true :=
      wellFormed_iff.mpr ⟨.scalar rfl (by decide) rfl (List.forall_mem_singleton.mpr rfl), List.forall_mem_singleton.mpr (wellFormed_leaf rfl)⟩
    refine ⟨rfl, wellFormed_iff.mpr ⟨.scalar rfl ?_ ?_ ?_, ?_⟩⟩
    · simp [Op.kind, ScalarKind.kind]
    · simp [Op.kind, ScalarKind.kind, OpKind.admits, OpKind.arity?]
    · simpa [Op.kind, ScalarKind.kind, OpKind.isScalar, OpKind.isRelational] using he
    · simpa [hwf] using ⟨htest, wellFormed_leaf rfl⟩

/-- A definition above an outer apply: a plain reference to what the input shows stays, anything else is guarded by the
    marker. -/
inductive Raised (shown : VarSet) (k : Rules.Marker) (d : Def) : Def → Prop
  | stays {v : VarId} {type : ScalarType} : d.expr.op = .varRef v type → v ∈ shown → Raised shown k d d
  | guarded {v : VarId} {n : NodeId} {e : Tree} : k.sentinel = some v → Guards v (k.StandsIn d) d.expr e →
      Raised shown k d ⟨n, d.var, e⟩

/-- The analyses of an input that is moved out of an apply. -/
structure Movable (x y : Tree) (outputs : VarSet) (i j : Info) : Prop where
  input : y.analysis = .ok i
  left : x.analysis = .ok j
  outputs : outputs.overlaps j.definitions = false
  apart : i.external.overlaps j.definitions = false

/-- What becomes of an outer apply over a constant that is defined over a filter. -/
inductive ConstantLifted (x y q : Tree) (outputs : VarSet) (m : NodeId) (d : Def) : Tree → Prop
  | below {i j k : Info} {n g : NodeId} : Movable x y outputs i j → q.analysis = .ok k → ConstantLifted x y q outputs m d
      (.node n .leftOuterJoin [x, .node g (.project (outputs ∪ (k.external ∩ i.definitions))) [y, defs m [d]], q])
  | above {i j k : Info} {s : VarId} {e : Tree} {n l m' h : NodeId} : Movable x y outputs i j → s ∈ i.nonNullable →
      Guards s (d.expr.op = .nullSentinel) d.expr e → (Tree.node l .leftOuterJoin [x, y, q]).analysis = .ok k →
      ConstantLifted x y q outputs m d
        (.node n (.project (outputs ∪ k.definitions)) [.node l .leftOuterJoin [x, y, q], defs m' [⟨h, d.var, e⟩]])

end Tree

namespace Rules

variable {f g m : NodeId} {e q : Tree} {s : VarId} {outputs : VarSet} {ds : List Def}
variable {c : Context} {p : Plan} {n : NodeId} {x y : Tree}
variable {t : Tree} {name : String}

theorem eq_nullSentinel {op : Op} (h : op.kind = .nullSentinel) : op = .nullSentinel := by
  cases op with
  | combine kind | scalar kind => cases kind <;> cases h
  | nullSentinel => rfl
  | _ => cases h

/-! ### Applies that become joins -/

theorem exists_apply {op : Op} (hwf : t.wellFormed) (hop : op = .crossApply ∨ op = .outerApply) (hk : t.kind = op.kind) :
    ∃ n x y, t = .node n op [x, y] := by
  rcases hop with rfl | rfl <;> exact looks hwf hk

theorem wellFormed_apply {op : Op} (hop : op = .crossApply ∨ op = .outerApply) : (Tree.node n op [x, y]).wellFormed ↔
    (x.IsRelational ∧ y.IsRelational) ∧ x.wellFormed ∧ y.wellFormed := by
  rcases hop with rfl | rfl
  · exact wellFormed_crossApply
  · exact wellFormed_outerApply

theorem overFilter_makes {op : Op} (hop : op = .crossApply ∨ op = .outerApply) :
    (Rule.simple name (matching op.kind [.wildcard, matching .filter [.wildcard, .wildcard]]) overFilter).Rebuilds fun t t' =>
      ∃ n x f y q n', t = .node n op [x, .node f .filter [y, q]] ∧ Apart y x ∧
        t' = .node n' (if op = .crossApply then .innerJoin else .leftOuterJoin) [x, y, q] := by
  rintro c p t - ⟨ht, -, hwf⟩ hfits
  obtain ⟨n, x, f, rfl⟩ := exists_apply hwf hop (kind_of_fits hfits)
  obtain ⟨f, y, q, rfl⟩ := looks ((wellFormed_apply hop).mp hwf).2.2 (kind_of_fits (Pattern.fits_two hfits).2)
  obtain ⟨hx, hf⟩ := ht.two
  obtain ⟨hy, hq⟩ := hf.two
  refine .read (ht.child_run rfl) (.read (ht.child_run rfl) (.read (hf.child_run rfl) ?_))
  refine .step (info_halts y.id p) fun i p₁ ⟨h₁, hi⟩ => .step (relationInfo_halts x.id p₁) fun j p₂ ⟨h₂, hj⟩ => ?_
  have hk₂ := h₁.and_then h₂
  split
  · exact .pure ⟨rfl, hk₂⟩
  · rename_i hno
    have hapart : Apart y x := ⟨i, j, hi y hy rfl, hj x (h₁.still hx) rfl, by simpa using hno⟩
    refine .read ((hk₂.still hf).child_run rfl) (.read (hk₂.still ht).kind_run ?_)
    have held : ∀ d ∈ [x, y, q], p₂.Holds d := by
      simpa using ⟨hk₂.still hx, hk₂.still hy, hk₂.still hq⟩
    rcases hop with rfl | rfl
    all_goals
      refine .step (create_halts [x, y, q] held) fun n' p₃ h₃ => .pure ?_
      refine .of_grows h₃.holds (hk₂.grows.and_then h₃.grows) (fun z => ?_) ⟨rfl, rfl, n, x, f, y, q, n', rfl, hapart, rfl⟩
      simp [List.count_cons]
      omega

/-- The analysis finds that there is always a row. -/
def AlwaysRow (y : Tree) : Prop := ∃ i, y.analysis = .ok i ∧ RowCount.one.rank ≤ i.minRows.rank

theorem overAnything_makes {op : Op} (hop : op = .crossApply ∨ op = .outerApply) :
    (Rule.simple name (matching op.kind [.wildcard, .wildcard]) overAnything).Rebuilds fun t t' => ∃ n x y, t = .node n op [x, y] ∧
      ((op = .outerApply ∧ AlwaysRow y ∧ ∃ n', t' = .node n' .crossApply [x, y]) ∨
        Apart y x ∧ (((op = .outerApply → AlwaysRow y) ∧ ∃ n', t' = .node n' .crossJoin [x, y]) ∨
          op = .outerApply ∧ ∃ n' b, t' = .node n' .leftOuterJoin [x, y, .node b (.constantPredicate true) []])) := by
  rintro c p t - ⟨ht, -, hwf⟩ hfits
  obtain ⟨n, x, y, rfl⟩ := exists_apply hwf hop (kind_of_fits hfits)
  obtain ⟨hx, hy⟩ := ht.two
  refine .read (ht.child_run rfl) (.read (ht.child_run rfl) ?_)
  refine .step (relationInfo_halts x.id p) ?_
  rintro j p₁ ⟨h₁, hj⟩
  refine .step (relationInfo_halts y.id p₁) ?_
  rintro i p₂ ⟨h₂, hi⟩
  have hk₂ := h₁.and_then h₂
  have hi := hi y (h₁.still hy) rfl
  refine .read (hk₂.still ht).kind_run ?_
  have held : ∀ d ∈ [x, y], p₂.Holds d := by
    simpa using ⟨hk₂.still hx, hk₂.still hy⟩
  have made : ∀ {op' n' p₃}, Created p₂ op' [x, y] n' p₃ → Remakes c p (.node n op [x, y]) c p₃ (.node n' op' [x, y]) [] := by
    intro op' n' p₃ h₃
    refine ⟨h₃.holds, ⟨_, (hk₂.grows.and_then h₃.grows).mono fun _ h => h.elim, fun z => ?_⟩, rfl⟩
    simp [List.count_cons]
    omega
  dsimp only
  split
  · split
    · rename_i hconv
      have houter : op = .outerApply := by
        rcases hop with rfl | rfl
        · simp [Op.kind] at hconv
        · rfl
      have hrow : AlwaysRow y := ⟨i, hi, by simpa using (Bool.and_eq_true_iff.mp hconv).2⟩
      exact .step (create_halts [x, y] held) fun n' p₃ h₃ => .pure ⟨_, [], rfl, made h₃, rfl, rfl, n, x, y, rfl, .inl ⟨houter, hrow, n', rfl⟩⟩
    · exact .pure ⟨rfl, hk₂⟩
  · rename_i hno
    have hapart : Apart y x := ⟨i, j, hi, hj x hx rfl, by simpa using hno⟩
    split
    · rename_i hconv
      have hrow : op = .outerApply → AlwaysRow y := by
        rintro rfl
        exact ⟨i, hi, by simpa [Op.kind] using hconv⟩
      exact .step (create_halts [x, y] held) fun n' p₃ h₃ =>
        .pure ⟨_, [], rfl, made h₃, rfl, rfl, n, x, y, rfl, .inr ⟨hapart, .inl ⟨hrow, n', rfl⟩⟩⟩
    · rename_i hconv
      have houter : op = .outerApply := by
        rcases hop with rfl | rfl
        · simp [Op.kind] at hconv
        · rfl
      refine .step (create_halts [] (List.forall_mem_nil _)) fun b p₃ h₃ => ?_
      refine .step (create_halts [x, y, .node b (.constantPredicate true) []] ?_) fun n' p₄ h₄ => .pure ?_
      · have hx₃ := h₃.keeps.still (hk₂.still hx)
        have hy₃ := h₃.keeps.still (hk₂.still hy)
        simpa using ⟨hx₃, hy₃, h₃.holds⟩
      · have hg := (hk₂.grows.and_then h₃.grows).and_then h₄.grows
        refine .of_grows h₄.holds hg (fun z => ?_) ⟨rfl, rfl, n, x, y, rfl, .inr ⟨hapart, .inr ⟨houter, n', b, rfl⟩⟩⟩
        simp [List.count_cons]
        omega

theorem crossApplyOverLeftOuterJoinOverSingleRowTable_makes : crossApplyOverLeftOuterJoinOverSingleRowTable.Rebuilds fun t t' =>
    ∃ n x j s y q n', t = .node n .crossApply [x, .node j .leftOuterJoin [.node s .singleRowTable [], y,
      .node q (.constantPredicate true) []]] ∧ t' = .node n' .outerApply [x, y] := by
  rintro c p t - ⟨ht, -, hwf⟩ hfits
  obtain ⟨n, x, j, rfl⟩ := looks hwf (kind_of_fits hfits)
  obtain ⟨-, -, hwfj⟩ := wellFormed_crossApply.mp hwf
  have hfitsj := (Pattern.fits_two hfits).2
  obtain ⟨j, s, y, q, rfl⟩ := looks hwfj (kind_of_fits hfitsj)
  obtain ⟨-, hwfs, -, hwfq⟩ := wellFormed_leftOuterJoin.mp hwfj
  obtain ⟨hs, -, hfitsq⟩ : (Pattern.ofKind .singleRowTable).fits s = true ∧ Pattern.wildcard.fits y = true ∧
      (Pattern.ofKind .constantPredicate).fits q = true := by
    simpa using (Pattern.fits_matching.mp hfitsj).2
  obtain ⟨s, rfl⟩ := looks hwfs (kind_of_fits hs)
  obtain ⟨q, b, rfl⟩ := looks hwfq (kind_of_fits hfitsq)
  obtain ⟨hx, hj⟩ := ht.two
  obtain ⟨-, hy, hq⟩ := hj.three
  refine .read (ht.child_run rfl) (.read (hj.child_run rfl) (.read hq.op_run ?_))
  split
  · exact .pure ⟨rfl, .refl _ _⟩
  · rename_i hfalse
    obtain rfl : b = true := by simpa [Op.isFalse] using hfalse
    refine .read (ht.child_run rfl) (.read (hj.child_run rfl) ?_)
    refine .step (create_halts [x, y] (by simpa using ⟨hx, hy⟩)) fun n' p₁ h₁ => .pure ?_
    refine .of_grows h₁.holds h₁.grows (fun z => ?_) ⟨rfl, rfl, n, x, j, s, y, q, n', rfl, rfl⟩
    simp [List.count_cons]
    omega

/-! ### Projections that move above -/

theorem crossApplyOverProject_makes : crossApplyOverProject.Rebuilds fun t t' => ∃ n x g outputs y d i n' a,
    t = .node n .crossApply [x, .node g (.project outputs) [y, d]] ∧ t.analysis = .ok i ∧
      t' = .node n' (.project (outputs ∪ i.definitions)) [.node a .crossApply [x, y], d] := by
  rintro c p t - ⟨ht, -, hwf⟩ hfits
  obtain ⟨n, x, g, rfl⟩ := looks hwf (kind_of_fits hfits)
  obtain ⟨g, outputs, y, d, rfl⟩ := looks (wellFormed_crossApply.mp hwf).2.2 (kind_of_fits (Pattern.fits_two hfits).2)
  obtain ⟨hx, hg⟩ := ht.two
  obtain ⟨hy, hd⟩ := hg.two
  refine .read (ht.child_run rfl) (.read hg.op_run (.step (relationInfo_halts n p) fun i p₁ ⟨h₁, hi⟩ => ?_))
  refine .read ((h₁.still ht).child_run rfl) (.read ((h₁.still hg).child_run rfl) ?_)
  refine .step (create_halts [x, y] (by simpa using ⟨h₁.still hx, h₁.still hy⟩)) fun a p₂ h₂ => ?_
  have hk₂ := h₁.and_then h₂.keeps
  refine .read ((hk₂.still hg).child_run rfl) ?_
  refine .step (create_halts [.node a .crossApply [x, y], d] (by simpa using ⟨h₂.holds, hk₂.still hd⟩)) fun n' p₃ h₃ => .pure ?_
  have hgrows := (h₁.grows.and_then h₂.grows).and_then h₃.grows
  refine .of_grows h₃.holds hgrows (fun z => ?_) ⟨rfl, rfl, n, x, g, outputs, y, d, i, n', a, rfl, hi _ ht rfl, rfl⟩
  simp [List.count_cons]
  omega

theorem nullIf_halts (standsIn : Prop) (he : p.Holds e) : Halts (nullIf s e.id) p fun n p' => ∃ e' fs, e'.id = n ∧
    p'.Holds e' ∧ Guards s standsIn e e' ∧ Grows ∅ fs [] p p' ∧ ∀ x, e'.ids.count x ≤ fs.count x + e.ids.count x := by
  refine .read he.op_run (.bind varRef_halts fun r p₁ ⟨type, h₁⟩ => ?_)
  refine .bind (create_halts [.node r (.varRef s type) []] (by simpa using h₁.holds)) fun a p₂ h₂ => ?_
  refine .bind (create_halts [] nofun) fun b p₃ h₃ => ?_
  have hk := (h₁.keeps.and_then h₂.keeps).and_then h₃.keeps
  refine (create_halts [.node a (.scalar .isNull .boolean) [.node r (.varRef s type) []], .node b (.null e.op.type) [], e]
    ?_).mono fun n p₄ h₄ => ⟨_, [r] ++ [a] ++ [b] ++ [n], rfl, h₄.holds, .test .., ?_, fun x => ?_⟩
  · simpa using ⟨h₃.keeps.still h₂.holds, h₃.holds, hk.still he⟩
  · exact ((h₁.grows.and_then h₂.grows).and_then h₃.grows).and_then h₄.grows
  · simp [List.count_cons]
    omega

/-- A definition was guarded by the marker. -/
def Guarded (v : VarId) (standsIn : Prop) (d : Def) (p : Plan) (n : NodeId) (p' : Plan) : Prop :=
  ∃ e fs, Guards v standsIn d.expr e ∧ p'.Holds (Def.mk n d.var e).tree ∧ Grows ∅ fs [] p p' ∧
    ∀ z, (Def.mk n d.var e).ids.count z ≤ fs.count z + d.ids.count z

theorem guardDef_halts {d : Def} {standsIn : Prop} {marked : Bool} (hm : marked = true → standsIn) (hd : p.Holds d.tree) :
    Halts (guardDef s marked d.node d.expr.id) p fun n p' => Guarded s standsIn d p n p' := by
  have define {e : Tree} {p₁ : Plan} {fs : List NodeId} (he : p₁.Holds e) (hg : Guards s standsIn d.expr e)
      (h : Grows ∅ fs [] p p₁) (hids : ∀ z, e.ids.count z ≤ fs.count z + d.expr.ids.count z) :
      Halts (do varDef (← definedVar d.node) e.id) p₁ fun n p' => Guarded s standsIn d p n p' := by
    refine .read (definedVar_run (h.keeps.still hd)) ((create_halts [e] (by simpa using he)).mono fun n p₂ h₂ => ?_)
    refine ⟨e, fs ++ [n], hg, h₂.holds, h.and_then h₂.grows, fun z => ?_⟩
    have := hids z
    simp [List.count_cons, Def.ids]
    omega
  cases marked with
  | true =>
    refine .bind varRef_halts ?_
    rintro n p₁ ⟨type, h₁⟩
    exact define h₁.holds (.marker _ _ (hm rfl)) h₁.grows fun x => by simp
  | false =>
    refine .bind (nullIf_halts standsIn hd.expr) ?_
    rintro _ p₁ ⟨e, fs, rfl, he, hg, h₁, hids⟩
    exact define he hg h₁ hids

theorem canMark_quiet {int32 : Option VarId} : Quiet (canMark int32 n) := by
  refine .bind (.plan kind_looks) fun k => ?_
  split
  · exact canChangeSentinel_quiet
  · exact .pure

theorem canMark_halts {int32 : Option VarId} (he : p.Holds e) : HaltsIn (canMark int32 e.id) c p fun marked c' p' =>
    c' = c ∧ Keeps ∅ p p' ∧ (marked = true → e.op = .nullSentinel) := by
  refine .read he.kind_run (.ite (fun hsentinel => ?_) fun _ => .pure ⟨rfl, .refl _ _, by simp⟩)
  have hop : e.op = .nullSentinel := eq_nullSentinel (beq_iff_eq.mp (Bool.and_eq_true_iff.mp hsentinel).1)
  exact (canChangeSentinel_quiet c p).mono fun _ _ _ ⟨hc, hs⟩ => ⟨hc, hs.keeps, fun _ => hop⟩

theorem exists_constantProject {k : OpKind} (hwf : t.wellFormed) (hfits : (constantProjectPattern k).fits t) :
    ∃ n x g outputs f y q m d, t = .node n .outerApply [x, .node g (.project outputs) [.node f .filter [y, q], defs m [d]]] ∧
      d.expr.kind = k := by
  obtain ⟨n, x, g, rfl⟩ := looks hwf (kind_of_fits hfits)
  obtain ⟨-, -, hwfg⟩ := wellFormed_outerApply.mp hwf
  have hfits := (Pattern.fits_two hfits).2
  obtain ⟨g, outputs, f, m, ds, rfl⟩ := exists_project hwfg (kind_of_fits hfits)
  obtain ⟨hff, hfd⟩ := Pattern.fits_two hfits
  obtain ⟨f, y, q, rfl⟩ := looks (wellFormed_project.mp hwfg).2.1 (kind_of_fits hff)
  have hone := (Pattern.fits_matching.mp hfd).2.resolve_left (List.cons_ne_nil _ _)
  obtain ⟨d, rfl⟩ : ∃ d, ds = [d] := List.length_eq_one_iff.mp (by simpa [Tree.defs] using hone.length_eq.symm)
  obtain ⟨hd, -⟩ := List.forall₂_cons.mp hone
  have hexpr := (Pattern.fits_matching.mp hd).2.resolve_left (List.cons_ne_nil _ _)
  obtain ⟨hexpr, -⟩ := List.forall₂_cons.mp hexpr
  exact ⟨n, x, g, outputs, f, y, q, m, d, rfl, kind_of_fits hexpr⟩

theorem overConstantProject_makes {k : OpKind} :
    (Rule.simple name (constantProjectPattern k) overConstantProject).Rebuilds fun t t' => ∃ n x g outputs f y q m d,
      t = .node n .outerApply [x, .node g (.project outputs) [.node f .filter [y, q], defs m [d]]] ∧ d.expr.kind = k ∧
        ConstantLifted x y q outputs m d t' := by
  rintro c p t - ⟨ht, -, hwf⟩ hfits
  obtain ⟨n, x, g, outputs, f, y, q, m, d, rfl, hkind⟩ := exists_constantProject hwf hfits
  obtain ⟨hx, hg⟩ := ht.two
  obtain ⟨hf, hds⟩ := hg.two
  obtain ⟨hy, hq⟩ := hf.two
  refine .read (ht.child_run rfl) (.read (ht.child_run rfl) (.read hg.op_run (.read (hg.child_run rfl) (.read (hf.child_run rfl) ?_))))
  refine .step (relationInfo_halts y.id p) fun i p₁ ⟨h₁, hi⟩ => .step (relationInfo_halts x.id p₁) fun j p₂ ⟨h₂, hj⟩ => ?_
  have hk₂ := h₁.and_then h₂
  split
  · exact .pure ⟨rfl, hk₂⟩
  · rename_i hno
    obtain ⟨hno₁, hno₂⟩ : outputs.overlaps j.definitions = false ∧ i.external.overlaps j.definitions = false := by
      simpa using hno
    have hmovable : Movable x y outputs i j := ⟨hi y hy rfl, hj x (h₁.still hx) rfl, hno₁, hno₂⟩
    refine .read ((hk₂.still hf).child_run rfl) (.getPlan ?_)
    dsimp only
    split
    · refine .step (info_halts q.id p₂) fun k p₃ ⟨h₃, hk⟩ => ?_
      have hk₃ := hk₂.and_then h₃
      refine .read ((hk₃.still hg).child_run rfl) ?_
      refine .step (create_halts [y, defs m [d]] (by simpa using ⟨hk₃.still hy, hk₃.still hds⟩)) fun g' p₄ h₄ => ?_
      have hk₄ := hk₃.and_then h₄.keeps
      refine .step (create_halts [x, .node g' _ [y, defs m [d]], q]
        (by simpa using ⟨hk₄.still hx, h₄.holds, hk₄.still hq⟩)) fun n' p₅ h₅ => .pure ?_
      have hgrows := (hk₃.grows.and_then h₄.grows).and_then h₅.grows
      refine .of_grows h₅.holds hgrows (fun z => ?_) ⟨rfl, rfl, n, x, g, outputs, f, y, q, m, d, rfl, hkind,
        .below hmovable (hk q (hk₂.still hq) rfl)⟩
      simp [List.count_cons]
      omega
    · rename_i s hs
      have hmem : s ∈ i.nonNullable := by
        rcases Option.or_eq_some_iff.mp hs with h | ⟨-, h⟩
        · exact VarSet.mem_toList.mp (List.mem_of_find?_eq_some h)
        · exact VarSet.first?_eq_some h
      have hd := (hk₂.still hds).member (List.mem_singleton_self d)
      refine .read ((hk₂.still hg).child_run rfl) (.read ((hk₂.still hds).child_run rfl) (.read (hd.child_run (c := d.expr) rfl)
        (.bind (canMark_halts hd.expr) ?_)))
      rintro marked c p₃ ⟨rfl, h₃, hmarked⟩
      refine .step (guardDef_halts (s := s) hmarked (h₃.still hd)) fun h p₄ ⟨e, fs, hguards, he, h₄, hids⟩ => ?_
      refine .step (varDefList_halts [⟨h, d.var, e⟩] (List.forall_mem_singleton.mpr he)) fun m' p₅ ⟨h₅, hm'⟩ => ?_
      have hk₅ := ((hk₂.and_then h₃).and_then h₄.keeps).and_then h₅.keeps
      refine .step (create_halts [x, y, q] (by simpa using ⟨hk₅.still hx, hk₅.still hy, hk₅.still hq⟩)) fun j' p₆ h₆ => ?_
      refine .step (relationInfo_halts j' p₆) fun k p₇ ⟨h₇, hk⟩ => ?_
      refine .step (create_halts [.node j' .leftOuterJoin [x, y, q], defs m' [⟨h, d.var, e⟩]] ?_) fun n' p₈ h₈ => .pure ?_
      · simpa using ⟨h₇.still h₆.holds, h₇.still (h₆.keeps.still hm')⟩
      · have hgrows := (((((hk₂.and_then h₃).grows.and_then h₄).and_then h₅).and_then h₆.grows).still h₇).and_then h₈.grows
        refine .of_grows h₈.holds hgrows (fun z => ?_) ⟨rfl, rfl, n, x, g, outputs, f, y, q, m, d, rfl, hkind,
          .above hmovable hmem hguards (hk _ h₆.holds rfl)⟩
        have := hids z
        simp [List.count_cons]
        omega

/-! ### Outer applies over projections -/

/-- The input of an outer apply once definitions are moved above it: it is as before, or without a column of its own that is
    never null it shows a marker too that is not one of the first `size` variables. -/
inductive Marks (size : Nat) (i : Info) (y : Tree) : Marker → Tree → Prop
  | plain : Marks size i y ⟨i.nonNullable.first?, none, none⟩ y
  | made (v : VarId) (k g m h : NodeId) : i.nonNullable.first? = none → size ≤ v → Marks size i y ⟨some v, some k, some g⟩
      (.node g (.project (VarSet.empty.insert v ∪ i.definitions)) [y, defs m [⟨h, v, .node k (.internalConstant (.int32 1)) []⟩]])

section Raise
variable {k : NodeId} {v : VarId} {d : Def} {fs : List NodeId}
variable {i : Info} {m : Marker} {y' : Tree} {size : Nat}

theorem Marks.eq_of_none (h : Marks size i y m y') (hm : m.sentinel = none) : i.nonNullable.first? = none ∧ y' = y := by
  cases h with
  | plain => exact ⟨hm, rfl⟩
  | made => cases hm

theorem Marks.constant (h : Marks size i y m y') (hy : p.Holds y') (hk : m.constant = some k) :
    p.Holds (.node k (.internalConstant (.int32 1)) []) := by
  cases h with
  | plain => cases hk
  | made v k' g l h =>
    obtain rfl : k' = k := Option.some.inj hk
    have hl : p.Holds (defs l [⟨h, v, .node k' (.internalConstant (.int32 1)) []⟩]) := hy.of_mem (by simp)
    exact (hl.member (List.mem_singleton_self _)).expr

theorem value?_of_equivalent {a : Int32} (hk : p.Holds (.node k (.internalConstant (.int32 a)) []))
    (he : p.Holds e) (h : (Tree.node k (.internalConstant (.int32 a)) []).equivalent e = .ok true) : e.op.value? = some (.int32 a) := by
  obtain ⟨l, op, cs⟩ := e
  by_cases hid : k = l
  · rw [he.unique hk hid.symm]
    rfl
  · rw [Tree.equivalent, if_neg hid] at h
    have hop : Op.equivalent (.internalConstant (.int32 a)) op = .ok true := by
      obtain ⟨same, hsame, h⟩ := bind_ok.mp h
      cases same with
      | true => exact hsame
      | false => cases h
    cases op with
    | combine kind | scalar kind => cases kind <;> cases hop
    | internalConstant w =>
      cases w with
      | int32 b =>
        have horder : (compare a.toInt b.toInt == .eq) := Except.ok.inj hop
        rw [Int32.toInt_inj.mp (compare_eq_iff_eq.mp (beq_iff_eq.mp horder))]
        rfl
      | _ => cases hop
    | _ => cases hop

theorem covers_halts (hd : p.Holds d.tree) (hm : Marks size i y m y') (hy : p.Holds y') :
    HaltsIn (m.covers d.expr.id d.expr.op.kind) c p fun b c' p' => c' = c ∧ p' = p ∧ (b = true → m.StandsIn d) := by
  rw [Marker.covers]
  cases hk : m.constant with
  | none => exact .pure ⟨rfl, rfl, by simp⟩
  | some k =>
    have hconstant := hm.constant hy hk
    have hmade : m.constant.isSome := by rw [hk, Option.isSome_some]
    refine .step hconstant.tree_halts ?_
    rintro _ p ⟨rfl, rfl⟩
    refine .step hd.expr.tree_halts ?_
    rintro _ p ⟨rfl, rfl⟩
    refine .bind (R := fun same c' p' => c' = c ∧ p' = p ∧ (same = true → d.expr.op.value? = some (.int32 1))) ?_ ?_
    · cases heq : (Tree.node k (.internalConstant (.int32 1)) []).equivalent d.expr with
      | error e => exact .throw fun h => equivalent_spares (heq.trans (congrArg _ h))
      | ok same => exact .pure ⟨rfl, rfl, fun h => value?_of_equivalent hconstant hd.expr (heq.trans (congrArg _ h))⟩
    · rintro same c p ⟨rfl, rfl, hsame⟩
      refine .ite (fun h => .pure ⟨rfl, rfl, fun _ => ⟨hmade, hsame h⟩⟩) fun _ => .pure ⟨rfl, rfl, fun h => ⟨hmade, ?_⟩⟩
      rw [eq_nullSentinel (beq_iff_eq.mp h)]
      rfl

/-- What moving definitions has made so far. -/
structure Raises (size : Nat) (i : Info) (y : Tree) (m : Marker) (y' : Tree) (ds : List Def) (p : Plan) (m' : Marker) (y'' : Tree)
    (ds' : List Def) (fs : List NodeId) (vs : List VarId) (p' : Plan) : Prop where
  marks : Marks size i y m' y''
  right : p'.Holds y''
  raised : List.Forall₂ (Raised i.definitions m') ds ds'
  holds : ∀ d ∈ ds', p'.Holds d.tree
  grows : Grows ∅ fs vs p p'
  ids : ∀ z, (ds'.flatMap Def.ids).count z + y''.ids.count z ≤ fs.count z + (ds.flatMap Def.ids).count z + y'.ids.count z
  same : ∀ v, m.sentinel = some v → m' = m

theorem Raises.guard {m₁ : Marker} {y₁ : Tree} {vs : List VarId} {p₁ p₂ : Plan}
    (h : Raises size i y m y' [] p m₁ y₁ [] fs vs p₁) (hv : m₁.sentinel = some v)
    (hg : Guarded v (m₁.StandsIn d) d p₁ n p₂) : ∃ d' gs, n = d'.node ∧ Raises size i y m y' [d] p m₁ y₁ [d'] gs vs p₂ := by
  obtain ⟨e, gs, hguards, hheld, hgrows, hids⟩ := hg
  refine ⟨⟨n, d.var, e⟩, fs ++ gs, rfl, h.marks, hgrows.keeps.still h.right, .cons (.guarded hv hguards) .nil,
    List.forall_mem_singleton.mpr hheld, ?_, fun z => ?_, h.same⟩
  · simpa using h.grows.and_then hgrows
  · have := h.ids z
    have := hids z
    simp only [List.flatMap_nil, List.count_nil, List.flatMap_singleton, List.count_append] at *
    omega

theorem withSentinel_halts (hm : Marks size i y m y') (hsize : size ≤ p.vars.size) (hy : p.Holds y) (hy' : p.Holds y') :
    HaltsIn (m.withSentinel y.id i) c p fun out c' p' => c' = c ∧ out.1.sentinel = some out.2 ∧ ∃ y₁ fs vs,
      Raises size i y m y' [] p out.1 y₁ [] fs vs p' := by
  rw [Marker.withSentinel]
  cases hs : m.sentinel with
  | some v =>
    exact .pure ⟨rfl, hs, y', [], [], hm, hy', .nil, List.forall_mem_nil _, (Keeps.refl _ _).grows, fun z => by simp, fun _ _ => rfl⟩
  | none =>
    obtain ⟨hfirst, rfl⟩ := hm.eq_of_none hs
    refine .step (create_halts [] (List.forall_mem_nil _)) fun k p₁ h₁ => .step (computedVarDef_halts h₁.holds) ?_
    rintro ⟨h, v⟩ p₂ ⟨h₂, hout⟩
    refine .step (varDefList_halts [⟨h, v, .node k (.internalConstant (.int32 1)) []⟩]
      (List.forall_mem_singleton.mpr hout)) fun l p₃ ⟨h₃, hl⟩ => ?_
    have hk₃ := (h₁.keeps.and_then h₂.keeps).and_then h₃.keeps
    have hnew : size ≤ v := hsize.trans ((h₁.grows.and_then h₂).vars.ge v (by simp))
    refine .step (create_halts [y', defs l [⟨h, v, .node k (.internalConstant (.int32 1)) []⟩]]
      (by simpa using ⟨hk₃.still hy, hl⟩)) fun g p₄ h₄ => ?_
    refine .pure ⟨rfl, rfl, _, [k] ++ [h] ++ [l] ++ [g], [] ++ [v] ++ [] ++ [], .made v k g l h hfirst hnew, h₄.holds, .nil,
      List.forall_mem_nil _, ((h₁.grows.and_then h₂).and_then h₃).and_then h₄.grows, fun z => ?_, fun v hv => ?_⟩
    · simp [List.count_cons, Def.ids]
      omega
    · cases hs.symm.trans hv

theorem moveDef_halts (hd : p.Holds d.tree) (hm : Marks size i y m y') (hsize : size ≤ p.vars.size)
    (hy : p.Holds y) (hy' : p.Holds y') :
    HaltsIn (moveDef y.id i m d.node) c p fun out c' p' => c' = c ∧ ∃ y'' d' fs vs, out.2 = d'.node ∧
      Raises size i y m y' [d] p out.1 y'' [d'] fs vs p' := by
  refine .read (hd.child_run (c := d.expr) rfl) (.read hd.expr.op_run (.ite (fun hstays => ?_) fun _ => ?_))
  · refine .pure ⟨rfl, y', d, [], [], rfl, hm, hy', .cons ?_ .nil, by simpa using hd, (Keeps.refl _ _).grows, fun z => by simp,
      fun _ _ => rfl⟩
    split at hstays
    · rename_i v type hop
      exact .stays hop hstays
    · cases hstays
  refine .bind (withSentinel_halts hm hsize hy hy') ?_
  rintro ⟨m₁, v⟩ c p₁ ⟨rfl, hv, y₁, fs, vs, h⟩
  refine .bind (covers_halts (h.grows.keeps.still hd) h.marks h.right) ?_
  rintro marked c p₁ ⟨rfl, rfl, hmarked⟩
  refine .step (guardDef_halts hmarked (h.grows.keeps.still hd)) fun n p₂ hg => .pure ⟨rfl, ?_⟩
  obtain ⟨d', gs, rfl, hr⟩ := h.guard hv hg
  exact ⟨y₁, d', gs, vs, rfl, hr⟩

theorem moveDefs_halts {ds : List Def} (hds : ∀ d ∈ ds, p.Holds d.tree) (hm : Marks size i y m y')
    (hsize : size ≤ p.vars.size) (hy : p.Holds y)
    (hy' : p.Holds y') : HaltsIn (moveDefs y.id i m (ds.map Def.node)) c p fun out c' p' => c' = c ∧ ∃ y'' ds' fs vs,
      out.2 = ds'.map Def.node ∧ Raises size i y m y' ds p out.1 y'' ds' fs vs p' ∧ (ds = [] → y'' = y') := by
  induction ds generalizing p m y' with
  | nil =>
    exact .pure ⟨rfl, y', [], [], [], rfl, ⟨hm, hy', .nil, nofun, (Keeps.refl _ _).grows, fun z => by simp, fun _ _ => rfl⟩,
      fun _ => rfl⟩
  | cons d ds ih =>
    obtain ⟨hd, hds⟩ := List.forall_mem_cons.mp hds
    rw [List.map_cons, moveDefs]
    refine .bind (moveDef_halts hd hm hsize hy hy') ?_
    rintro ⟨m₁, n⟩ c p₁ ⟨rfl, y₁, d', fs, vs, rfl, h₁⟩
    have hk := h₁.grows.keeps
    have hsame : ∀ v, m.sentinel = some v → m₁ = m := h₁.same
    refine .bind (ih (fun e he => hk.still (hds e he)) h₁.marks (hsize.trans hk.vars) (hk.still hy) h₁.right) ?_
    rintro ⟨m₂, ns⟩ c p₂ ⟨rfl, y₂, ds', gs, ws, rfl, h₂, -⟩
    refine .pure ⟨rfl, y₂, d' :: ds', fs ++ gs, vs ++ ws, rfl, ⟨h₂.marks, h₂.right, .cons ?_ h₂.raised, ?_, h₁.grows.and_then h₂.grows,
      fun z => ?_, fun v hv => (h₂.same v (hsame v hv ▸ hv)).trans (hsame v hv)⟩, nofun⟩
    · -- A marker that guards the first definition stays the marker.
      obtain ⟨hraised, -⟩ := List.forall₂_cons.mp h₁.raised
      cases hraised with
      | stays hop hv => exact .stays hop hv
      | guarded hs hg =>
        obtain rfl := h₂.same _ hs
        exact .guarded hs hg
    · exact List.forall_mem_cons.mpr ⟨h₂.grows.keeps.still (h₁.holds d' (List.mem_singleton_self _)), h₂.holds⟩
    · have := h₁.ids z
      have := h₂.ids z
      simp only [List.flatMap_cons, List.flatMap_nil, List.append_nil, List.count_append] at *
      omega

end Raise

/-- The projection may not be moved: it defines a marker alone, over an input without one. -/
def isMarkerAlone (i : Info) : List Def → Bool
  | [d] => i.nonNullable.first?.isNone && (d.expr.kind == .internalConstant || d.expr.kind == .nullSentinel)
  | _ => false

/-- What becomes of an outer apply over a projection. -/
inductive DefsLifted (size : Nat) (x y : Tree) (outputs : VarSet) (ds : List Def) : Tree → Prop
  | intro {i j : Info} {k : Marker} {y' : Tree} {ds' : List Def} {n a m : NodeId} : y.analysis = .ok i → x.analysis = .ok j →
      isMarkerAlone i ds = false → Marks size i y k y' → List.Forall₂ (Raised i.definitions k) ds ds' → (ds = [] → y' = y) →
      DefsLifted size x y outputs ds
        (.node n (.project (outputs ∪ j.definitions)) [.node a .outerApply [x, y'], defs m ds'])

/-- The definitions of a projection are lifted above an outer apply. -/
def Lifted (c : Context) (p : Plan) (t : Tree) (_ : List VarId) (mm : VarMap) (t' : Tree) : Prop :=
  mm = c.mappings ∧ ∃ n x g outputs y m ds, t = .node n .outerApply [x, .node g (.project outputs) [y, defs m ds]] ∧
    DefsLifted p.vars.size x y outputs ds t'

theorem isLoneMarker_halts {i : Info} (h : ∀ d ∈ ds, p.Holds d.tree) :
    HaltsIn (isLoneMarker i.nonNullable.first? (ds.map Def.node)) c p fun b c' p' => c' = c ∧ p' = p ∧ b = isMarkerAlone i ds := by
  obtain _ | ⟨d, _ | ⟨e, ds⟩⟩ := ds
  · exact .pure ⟨rfl, rfl, rfl⟩
  · have hd := h d (List.mem_singleton_self d)
    refine .ite (fun hsome => .pure ⟨rfl, rfl, ?_⟩) fun hnone => ?_
    · rw [isMarkerAlone, Option.isNone_eq_false_iff.mpr hsome, Bool.false_and]
    · refine .read (hd.child_run (c := d.expr) rfl) (.read hd.expr.kind_run (.pure ⟨rfl, rfl, ?_⟩))
      rw [isMarkerAlone, Option.isNone_iff_eq_none.mpr (by simpa using hnone), Bool.true_and]
  · exact .pure ⟨rfl, rfl, rfl⟩

theorem outerApplyOverProject_makes : outerApplyOverProject.Makes Lifted := by
  rintro c p t - ⟨ht, -, hwf⟩ hfits
  obtain ⟨n, x, g, rfl⟩ := looks hwf (kind_of_fits hfits)
  obtain ⟨g, outputs, y, m, ds, rfl⟩ := exists_project (wellFormed_outerApply.mp hwf).2.2 (kind_of_fits (Pattern.fits_two hfits).2)
  obtain ⟨hx, hg⟩ := ht.two
  obtain ⟨hy, hds⟩ := hg.two
  refine .read (ht.child_run rfl) (.read hg.op_run (.read (hg.child_run rfl) (.read hds.defs_run (.read (hg.child_run rfl) ?_))))
  refine .step (relationInfo_halts y.id p) fun i p₁ ⟨h₁, hi⟩ => ?_
  refine .bind (isLoneMarker_halts fun d hd => h₁.still (hds.member hd)) ?_
  rintro _ c p₁ ⟨rfl, rfl, rfl⟩
  refine .ite (fun _ => .pure ⟨rfl, h₁⟩) fun halone => ?_
  refine .bind (moveDefs_halts (fun d hd => h₁.still (hds.member hd)) .plain h₁.vars (h₁.still hy) (h₁.still hy)) ?_
  rintro ⟨k, ns⟩ c p₂ ⟨rfl, y', ds', fs, vs, rfl, h₂, hempty⟩
  have hk₂ := h₁.and_then h₂.grows.keeps
  have hid : k.projection.getD y.id = y'.id := by
    cases h₂.marks <;> rfl
  refine .read ((hk₂.still ht).child_run rfl) ?_
  dsimp only
  rw [hid]
  refine .step (create_halts [x, y'] (by simpa using ⟨hk₂.still hx, h₂.right⟩)) fun a p₃ h₃ => ?_
  refine .step (relationInfo_halts x.id p₃) fun j p₄ ⟨h₄, hj⟩ => ?_
  have hk₄ := h₃.keeps.and_then h₄
  refine .step (varDefList_halts ds' fun d hd => hk₄.still (h₂.holds d hd)) fun m' p₅ ⟨h₅, hm'⟩ => ?_
  refine .step (create_halts [.node a .outerApply [x, y'], defs m' ds'] ?_) fun n' p₆ h₆ => .pure ?_
  · simpa using ⟨h₅.keeps.still (h₄.still h₃.holds), hm'⟩
  · have hgrows := ((((h₁.grows.and_then h₂.grows).and_then h₃.grows).still h₄).and_then h₅).and_then h₆.grows
    have hgrows : Grows ∅ _ vs p p₆ := hgrows.perm .rfl (by simp)
    refine .of_grows h₆.holds hgrows (fun z => ?_)
      ⟨rfl, n, x, g, outputs, y, m, ds, rfl,
        .intro (hi y hy rfl) (hj x (h₃.keeps.still (hk₂.still hx)) rfl) (by simpa using halone) h₂.marks h₂.raised hempty⟩
    have := h₂.ids z
    simp [List.count_cons]
    omega

/-! ### Applies that become elements -/

/-- A single column with at most one row, exactly one for a cross apply. -/
structure IsSingle (op : Op) (i : Info) : Prop where
  size : i.definitions.size = 1
  maxRows : i.maxRows = .one
  minRows : op = .crossApply → i.minRows = .one

/-- What becomes of an apply with a single value on its right. The value gets a variable of its own, and what is below it
    is a copy. -/
inductive IntoElement (op : Op) (m : VarMap) (x y : Tree) : List VarId → VarMap → Tree → Prop
  | intro {i j : Info} {old new : VarId} {y₁ y₂ : Tree} {vs : List VarId} {n d e l : NodeId} {type : ScalarType} :
      y.analysis = .ok i → x.analysis = .ok j → IsSingle op i → i.definitions.first? = some old → Renewed m y y₁ →
      Replicates y₁ y₂ vs → IntoElement op m x y (vs ++ [new]) (m.renaming old new)
        (.node n (.project (j.definitions.insert new)) [x, defs l [⟨d, new, .node e (.scalar .element type) [y₂]⟩]])

theorem isElement_quiet {k : OpKind} {right : NodeId} : Quiet (isElement k right) := by
  refine .bind (.plan relationInfo_looks) fun i => ?_
  split
  · exact .pure
  · split
    · exact .pure
    · exact .bind (.plan tree_looks) fun _ => .pure

theorem isElement_halts {op : Op} (hy : p.Holds y) : HaltsIn (isElement op.kind y.id) c p fun out c' p' => c' = c ∧ Keeps ∅ p p' ∧
    (out = true → ∃ i, y.analysis = .ok i ∧ IsSingle op i) := by
  refine .step (relationInfo_halts y.id p) fun i p₁ ⟨h₁, hi⟩ => .ite (fun _ => .pure ⟨rfl, h₁, nofun⟩) fun hsize => ?_
  refine .ite (fun _ => .pure ⟨rfl, h₁, nofun⟩) fun hmin => .step (h₁.still hy).tree_halts ?_
  rintro _ p₁ ⟨rfl, -⟩
  obtain ⟨hsize, hmax⟩ : i.definitions.size = 1 ∧ i.maxRows = .one := by simpa using hsize
  refine .pure ⟨rfl, h₁, fun _ => ⟨i, hi y hy rfl, hsize, hmax, ?_⟩⟩
  rintro rfl
  simpa [Op.kind] using hmin

theorem intoElement_makes {op : Op} (hop : op = .crossApply ∨ op = .outerApply) :
    (Rule.simple name (matching op.kind [.wildcard, .wildcard]) intoElement).Makes fun c _ t vs mm t' =>
      ∃ n x y, t = .node n op [x, y] ∧ IntoElement op c.mappings x y vs mm t' := by
  rintro c p t - ⟨ht, hn, hwf⟩ hfits
  obtain ⟨n, x, y, rfl⟩ := exists_apply hwf hop (kind_of_fits hfits)
  obtain ⟨hx, hy⟩ := ht.two
  refine .read (ht.child_run rfl) (.read ht.kind_run (.bind (isElement_halts hy) ?_))
  rintro single c p₁ ⟨rfl, h₁, hsingle⟩
  refine .ite (fun _ => .pure ⟨rfl, h₁⟩) fun hyes => ?_
  obtain ⟨i, hi, hsize⟩ := hsingle (by simpa using hyes)
  refine .read ((h₁.still ht).child_run rfl) ?_
  refine .step (relationInfo_halts x.id p₁) ?_
  rintro j p₂ ⟨h₂, hj⟩
  refine .step (relationInfo_halts y.id p₂) ?_
  rintro i' p₃ ⟨h₃, hi'⟩
  have hk₃ := (h₁.and_then h₂).and_then h₃
  obtain rfl : i' = i := Except.ok.inj ((hi' y (h₂.still (h₁.still hy)) rfl).symm.trans hi)
  have hj := hj x (h₁.still hx) rfl
  split
  · rename_i old hold
    have hnx : ∀ z ∈ x.ids, z ∉ y.ids := disjoint_ids hn (i := 0) (j := 1) rfl rfl (by decide)
    -- The right side is brought up to date and then copied.
    refine .bind (R := fun _ c' p' => c' = c ∧ ∃ y₁, Renewed c.mappings y y₁ ∧ p'.Holds y₁ ∧ Keeps {z | z ∈ y.ids} p₃ p') ?_ ?_
    · exact .get (.step (renameSubtree_halts (hk₃.still hy) (nodup_ids_of_mem hn (by simp))) fun _ p₄ h => .pure ⟨rfl, h⟩)
    · rintro _ c p₄ ⟨rfl, y₁, hnew, hy₁, h₄⟩
      have hx₄ := h₄.holds x (hk₃.still hx) hnx
      rw [← hnew.id]
      refine .step ((copySubtree_works hy₁).when False.elim) ?_
      rintro ⟨_, m'⟩ p₅ ⟨y₂, vs, rfl, h₅⟩
      refine .read rfl (.step (create_halts [y₂] (by simpa using h₅.holds)) fun e p₆ h₆ => ?_)
      refine .step (computedVarDef_halts h₆.holds) ?_
      rintro out p₇ ⟨h₇, hd⟩
      refine .bind rename_halts ?_
      rintro _ _ p₇ ⟨rfl, rfl⟩
      refine .step (varDefList_halts [⟨out.1, out.2, .node e (.scalar .element (p₅.vars.type old)) [y₂]⟩]
        (List.forall_mem_singleton.mpr hd)) ?_
      rintro l p₈ ⟨h₈, hl⟩
      have hk₈ := ((h₅.registers.grows.keeps.and_then h₆.keeps).and_then h₇.keeps).and_then h₈.keeps
      refine .step (create_halts [x, defs l [⟨out.1, out.2, .node e (.scalar .element (p₅.vars.type old)) [y₂]⟩]]
        (by simpa using ⟨hk₈.still hx₄, hl⟩)) fun n' p₉ h₉ => .pure ?_
      have hgrows := ((((((hk₃.mono fun _ h => h.elim).trans h₄ fun _ h _ => h).grows.and_then h₅.registers.grows).and_then
        h₆.grows).and_then h₇).and_then h₈).and_then h₉.grows
      refine ⟨_, vs ++ [out.2], rfl, ⟨h₉.holds, ⟨_, (hgrows.mono fun z hz _ => ?_).perm .rfl (by simp), fun z => ?_⟩, rfl⟩,
        n, x, y, rfl, .intro hi hj hsize hold hnew h₅.replicates⟩
      · exact ids_subset_of_child (i := 1) rfl z hz
      · simp [List.count_cons, Def.ids]
        omega
  · exact .throw (by simp)

end Rules

end Planwright
