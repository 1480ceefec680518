import Planwright.Proofs.Rule.Remake.Project

/-! What rules make of filters. Predicates are split into what goes below an operator and what stays above it. -/

namespace Planwright

open Run Planwright.Tree Plan RuleM

namespace Tree

/-- The parts of a predicate that are split off, and the others. -/
structure Split (q : Tree) (ds es : List Tree) : Prop where
  parts : PartsOf q (ds ++ es)
  sums : ∀ {M : Type} [AddCommMonoid M] {f : Tree → M}, Conjunctive f → (ds.map f).sum + (es.map f).sum = f q

theorem Split.of_perm {q : Tree} {ds es : List Tree} (hwf : q.wellFormed) (he : q.IsExpression)
    (h : (ds ++ es).Perm q.conjuncts) : Split q ds es where
  parts := (PartsOf.conjuncts hwf he).perm h.symm
  sums hf := by
    rw [← hf.conjuncts (q := q), ← List.sum_append, ← List.map_append]
    exact (h.map _).sum_eq

theorem Split.whole {q : Tree} (hwf : q.wellFormed) (he : q.IsExpression) : Split q [q] [] where
  parts := .self hwf he
  sums _ := by simp

/-- What is left of a predicate stays above. -/
inductive Rests (es : List Tree) (gs : List NodeId) (t : Tree) : Tree → Prop
  | nothing : es = [] → Rests es gs t t
  | filter {n : NodeId} {b : Tree} : Conjoins es b gs → Rests es gs t (.node n .filter [t, b])

end Tree

/-- The renamings with more of them, one after the other. -/
def VarMap.renamingAll (m : VarMap) (es : List (VarId × VarId)) : VarMap := es.foldl (fun m e => m.renaming e.1 e.2) m

theorem Plan.Holds.conjuncts {p : Plan} {q : Tree} (h : p.Holds q) : ∀ d ∈ q.conjuncts, p.Holds d :=
  forall_conjuncts (P := p.Holds) (fun h => ⟨h.of_mem (by simp), h.of_mem (by simp)⟩) h

namespace Rules

variable {c : Context} {p : Plan} {n : NodeId} {x q : Tree}

/-! ### Splitting predicates -/

/-- What the parts that are split off refer to. -/
def Fits (columns : Option VarSet) (x : Tree) (u : VarId) : Prop :=
  match columns with
  | some columns => u ∈ columns
  | none => Defines (·) x u

/-- A predicate is split into what refers to nothing but some variables and the rest. -/
def Parted (q : Tree) (V : VarId → Prop) (p : Plan) (out : Option NodeId × Option NodeId) (p' : Plan) : Prop :=
  ∃ ds es fs gs, Split q ds es ∧ (∀ d ∈ ds, ∀ u, Uses (·) d u → V u) ∧ Grows ∅ (fs ++ gs) [] p p' ∧ Built ds fs p' out.1 ∧
    Built es gs p' out.2

theorem splitBy_halts {p₁ : Plan} {columns : VarSet} {V : VarId → Prop} (hk : Keeps ∅ p p₁) (hq : p.Holds q) (hwf : q.wellFormed)
    (he : q.IsExpression) (hV : ∀ u ∈ columns, V u) : HaltsIn (splitBy q.id columns) c p₁ fun out c' p' => c' = c ∧ Parted q V p out p' := by
  refine .tree (hk.still hq) ?_
  refine .step (splitByTable_halts (hk.still hq).conjuncts fun d hd => (wellFormed_conjuncts hwf he d hd).1) ?_
  rintro ⟨⟨ds⟩, ⟨es⟩⟩ p₂ ⟨h₂, hperm, huses⟩
  have hsplit := Split.of_perm hwf he hperm
  have hheld : ∀ d ∈ ds ++ es, p₂.Holds d := fun d hd => h₂.still ((hk.still hq).conjuncts d (hperm.mem_iff.mp hd))
  refine .step (build_halts hsplit.parts.left fun d hd => hheld d (List.mem_append_left _ hd)) ?_
  rintro pushed p₃ ⟨fs, h₃, hb₃⟩
  refine .step (build_halts hsplit.parts.right fun d hd => h₃.keeps.still (hheld d (List.mem_append_right _ hd))) ?_
  rintro rest p₄ ⟨gs, h₄, hb₄⟩
  refine .pure ⟨rfl, ds, es, fs, gs, hsplit, fun d hd u hu => hV u (huses d hd u hu), ?_, hb₃.still h₄.keeps, hb₄⟩
  simpa using (hk.and_then h₂).grows.and_then (h₃.and_then h₄)

theorem splitPredicate_halts {columns : Option VarSet} (ht : p.Holds (.node n .filter [x, q]))
    (hwf : (Tree.node n .filter [x, q]).wellFormed) :
    HaltsIn (splitPredicate n columns) c p fun out c' p' => c' = c ∧ Parted q (Fits columns x) p out p' := by
  obtain ⟨hx, hq⟩ := ht.two
  obtain ⟨⟨-, he⟩, hwfx, hwfq⟩ := wellFormed_filter.mp hwf
  refine .read (ht.child_run rfl) ?_
  cases columns with
  | some s => exact splitBy_halts (.refl _ _) hq hwfq he fun u hu => hu
  | none =>
    refine .step (relationInfo_halts n p) ?_
    rintro i p₁ ⟨h₁, hi⟩
    refine .ite (fun hempty => ?_) fun _ => ?_
    · refine .pure ⟨rfl, [q], [], [], [], .whole hwfq he, ?_, h₁.grows, ⟨q, rfl, h₁.still hq, .single hwfq he⟩, rfl⟩
      intro d hd u hu
      rw [List.mem_singleton] at hd
      subst hd
      have hno := VarSet.isEmpty_iff.mp hempty u
      rw [(analysis_scope hwf (hi _ ht rfl) u).2, uses_node] at hno
      simp at hno
      exact hno.2 hu
    · refine .read ((h₁.still ht).child_run rfl) (.step (relationInfo_halts x.id p₁) ?_)
      rintro j p₂ ⟨h₂, hj⟩
      exact splitBy_halts (h₁.and_then h₂) hq hwfq he fun u hu => (analysis_scope hwfx (hj x (h₁.still hx) rfl) u).1.mp hu

theorem withRest_halts {es : List Tree} {gs : List NodeId} {t : Tree} {rest : Option NodeId} (ht : p.Holds t)
    (hb : Built es gs p rest) : Halts (withRest t.id rest) p fun n p' => ∃ t' fs, t'.id = n ∧ p'.Holds t' ∧ Rests es gs t t' ∧
      Grows ∅ fs [] p p' ∧ ∀ z, t'.ids.count z ≤ fs.count z + gs.count z + (es.flatMap Tree.ids).count z + t.ids.count z := by
  cases rest with
  | none => exact .pure ⟨t, [], rfl, ht, .nothing hb, (Keeps.refl _ _).grows, fun z => by omega⟩
  | some r =>
    obtain ⟨b, rfl, hheld, hc⟩ := hb
    refine (create_halts [t, b] (by simpa using ⟨ht, hheld⟩)).mono fun n p₁ h₁ => ⟨_, [n], rfl, h₁.holds, .filter hc, h₁.grows, fun z => ?_⟩
    have := hc.ids z
    simp [List.count_cons]
    omega

/-! ### Filters over filters and distincts -/

theorem exists_filter {t : Tree} {k : OpKind} {count : Nat} (hwf : t.wellFormed) (h : (filterPattern k count).fits t) :
    ∃ n a q, t = .node n .filter [a, q] ∧ a.kind = k ∧ a.wellFormed ∧ q.IsExpression ∧ q.wellFormed := by
  obtain ⟨n, a, q, rfl⟩ := looks hwf (kind_of_fits h)
  obtain ⟨⟨-, hq⟩, hwfa, hwfq⟩ := wellFormed_filter.mp hwf
  exact ⟨n, a, q, rfl, kind_of_fits (Pattern.fits_two h).1, hwfa, hq, hwfq⟩

theorem filterOverFilter_makes : filterOverFilter.Rebuilds fun t t' => ∃ n m x q' q n' b,
    t = .node n .filter [.node m .filter [x, q'], q] ∧ t' = .node n' .filter [x, .node b (.scalar .and .boolean) [q', q]] := by
  rintro c p t - ⟨ht, -, hwf⟩ hfits
  obtain ⟨n, a, q, rfl, hk, hwfa, -, -⟩ := exists_filter hwf hfits
  obtain ⟨m, x, q', rfl⟩ := looks hwfa hk
  obtain ⟨hin, hq⟩ := ht.two
  obtain ⟨hx, -⟩ := hin.two
  have hq' : p.Holds q' := hin.of_mem (by simp)
  refine .read (ht.child_run rfl) (.read (hin.child_run rfl) (.read (ht.child_run rfl) ?_))
  refine .step (create_halts [q', q] (by simpa using ⟨hq', hq⟩)) fun b p₁ h₁ => .read ((h₁.keeps.still hin).child_run rfl) ?_
  refine .step (create_halts [x, .node b (.scalar .and .boolean) [q', q]] ?_) fun n' p₂ h₂ => .pure ?_
  · simpa using ⟨h₁.keeps.still hx, h₁.holds⟩
  · refine .of_grows h₂.holds (h₁.grows.and_then h₂.grows) (fun z => ?_) ⟨rfl, rfl, n, m, x, q', q, n', b, rfl, rfl⟩
    simp [List.count_cons]
    omega

/-- A filter over an operator, once a part of its predicate has gone below: `above` makes the operator over what is below. -/
inductive Pushed (q : Tree) (fits : VarId → Prop) (above : Tree → Tree → Prop) : Tree → Prop
  | intro {ds es : List Tree} {fs gs : List NodeId} {b t t' : Tree} : Split q ds es → (∀ d ∈ ds, ∀ u, Uses (·) d u → fits u) →
      Conjoins ds b fs → above b t → Rests es gs t t' → Pushed q fits above t'

theorem filterOverDistinct_makes : filterOverDistinct.Rebuilds fun t t' => ∃ n m keys x q,
    t = .node n .filter [.node m (.distinct keys) [x], q] ∧ Pushed q (Defines (·) (.node m (.distinct keys) [x]))
      (fun b t => ∃ k l, t = .node k (.distinct keys) [.node l .filter [x, b]]) t' := by
  rintro c p t - ⟨ht, -, hwf⟩ hfits
  obtain ⟨n, a, q, rfl, hk, hwfa, -, -⟩ := exists_filter hwf hfits
  obtain ⟨m, keys, x, rfl⟩ := looks hwfa hk
  refine .bind (splitPredicate_halts ht hwf) ?_
  rintro ⟨pushed, rest⟩ c p₁ ⟨rfl, ds, es, fs, gs, hsplit, huses, h₁, hb₁, hb₂⟩
  cases pushed with
  | none => exact .pure ⟨rfl, h₁.keeps⟩
  | some b =>
    obtain ⟨b, rfl, hb, hc⟩ := hb₁
    have ht₁ := h₁.keeps.still ht
    have hin : p₁.Holds (.node m (.distinct keys) [x]) := ht₁.of_mem (by simp)
    have hx := hin.one
    refine .read (ht₁.child_run rfl) (.read (hin.child_run rfl) ?_)
    refine .step (create_halts [x, b] (by simpa using ⟨hx, hb⟩)) fun l p₂ h₂ => .read (h₂.keeps.still hin).op_run ?_
    refine .step (create_halts [.node l .filter [x, b]] (by simpa using h₂.holds)) fun k p₃ h₃ => ?_
    refine .step (withRest_halts h₃.holds (hb₂.still (h₂.keeps.and_then h₃.keeps))) ?_
    rintro _ p₄ ⟨t', hs, rfl, hheld, hrests, h₄, hids⟩
    have hgrows := ((h₁.and_then h₂.grows).and_then h₃.grows).and_then h₄
    refine .pure (.of_grows hheld hgrows (fun z => ?_) ⟨rfl, rfl, n, m, keys, x, q, rfl, .intro hsplit huses hc ⟨k, l, rfl⟩ hrests⟩)
    have := hids z
    have := hc.ids z
    have := hsplit.parts.ids z
    simp [List.count_cons] at *
    omega

/-! ### Filters over projections and groupings -/

theorem filterOverProject_makes : filterOverProject.Rebuilds fun t t' => ∃ n g outputs x m ds q s σ q' n' l,
    t = .node n .filter [.node g (.project outputs) [x, defs m ds], q] ∧ q.isScalar ∧ Collected [] ds s σ ∧ q.Substituted σ q' ∧
      t' = .node n' (.project outputs) [.node l .filter [x, q'], defs m ds] := by
  rintro c p t - ⟨ht, hn, hwf⟩ hfits
  obtain ⟨n, a, q, rfl, hk, hwfg, -, hwfq⟩ := exists_filter hwf hfits
  obtain ⟨g, outputs, x, m, ds, rfl⟩ := exists_project hwfg hk
  obtain ⟨hg, hq⟩ := ht.two
  obtain ⟨-, hds⟩ := hg.two
  obtain ⟨-, -, hwfds⟩ := wellFormed_project.mp hwfg
  have hsep : ∀ z ∈ (Tree.node g (.project outputs) [x, defs m ds]).ids, z ∉ q.ids :=
    disjoint_ids hn (i := 0) (j := 1) rfl rfl nofun
  refine .read (ht.child_run rfl) (.read hq.kind_run (.ite (fun _ => .pure ⟨rfl, .refl _ _⟩) fun _ => .tree hq ?_))
  refine .ite (fun _ => .pure ⟨rfl, .refl _ _⟩) fun hscalar => ?_
  have hscalar : q.isScalar := by simpa using hscalar
  refine .read (ht.child_run rfl) (.read (hg.child_run rfl) (.bind (substitution?_halts hds) ?_))
  rintro s c p ⟨rfl, rfl, hs⟩
  cases s with
  | none => exact .pure ⟨rfl, .refl _ _⟩
  | some s =>
    obtain ⟨σ, hσ⟩ := hs s rfl
    obtain rfl := hσ.eq
    refine .step (substitute_halts (hσ.offers hds hwfds) (fun y hy z hz => ?_) hq (nodup_ids_of_mem hn (by simp)) hscalar hwfq) ?_
    · exact hsep z (ids_subset_of_child (i := 1) rfl z (hσ.mem_ids hy hz))
    · rintro _ p₁ ⟨q', fs, hsub⟩
      obtain rfl := hsub.id
      have hg₁ := hsub.grows.keeps.holds _ hg hsep
      have hx₁ : p₁.Holds x := hg₁.of_mem (by simp)
      refine .read (hg₁.child_run rfl) ?_
      refine .step (create_halts [x, q'] (by simpa using ⟨hx₁, hsub.holds⟩)) fun l p₂ h₂ => .read (h₂.keeps.still hg₁).op_run ?_
      have hds₂ : p₂.Holds (defs m ds) := (h₂.keeps.still hg₁).of_mem (by simp)
      refine .step (create_halts [.node l .filter [x, q'], defs m ds] (by simpa using ⟨h₂.holds, hds₂⟩)) fun n' p₃ h₃ => .pure ?_
      have hgrows := (hsub.grows.and_then h₂.grows).and_then h₃.grows
      refine ⟨_, [], rfl, ⟨h₃.holds, ⟨_, hgrows.mono fun z hz _ => ?_, fun z => ?_⟩, rfl⟩, rfl, rfl, n, g, outputs, x, m, ds, q, _, σ,
        q', n', l, rfl, hscalar, hσ, hsub.substituted, rfl⟩
      · exact ids_subset_of_child (i := 1) rfl z hz
      · have := hsub.ids z
        simp [List.count_cons]
        omega

theorem filterOverGroupBy_makes : filterOverGroupBy.Rebuilds fun t t' => ∃ n g keys outputs x m ds y q,
    t = .node n .filter [.node g (.groupBy keys outputs) [x, defs m ds, y], q] ∧ keys.isEmpty = false ∧ q.isScalar ∧
      Pushed q (· ∈ keys) (fun b t => ∃ s σ b' k l, Collected [] ds s σ ∧ b.Substituted σ b' ∧
        t = .node k (.groupBy keys outputs) [.node l .filter [x, b'], defs m ds, y]) t' := by
  rintro c p t - ⟨ht, hn, hwf⟩ hfits
  obtain ⟨n, a, q, rfl, hk, hwfg, -, -⟩ := exists_filter hwf hfits
  obtain ⟨g, keys, outputs, x, d, y, rfl⟩ := looks hwfg hk
  obtain ⟨⟨-, hd, -⟩, -, hwfds, -⟩ := wellFormed_groupBy.mp hwfg
  obtain ⟨m, ds, rfl⟩ := exists_defs hwfds hd
  obtain ⟨hg, hq⟩ := ht.two
  obtain ⟨-, hds, -⟩ := hg.three
  have hsep : ∀ z ∈ (Tree.node g (.groupBy keys outputs) [x, defs m ds, y]).ids, z ∉ q.ids :=
    disjoint_ids hn (i := 0) (j := 1) rfl rfl nofun
  refine .read (ht.child_run rfl) (.read hg.op_run (.ite (fun _ => .pure ⟨rfl, .refl _ _⟩) fun hkeys => ?_))
  have hkeys : keys.isEmpty = false := by simpa using hkeys
  refine .read (ht.child_run rfl) (.tree hq ?_)
  refine .ite (fun _ => .pure ⟨rfl, .refl _ _⟩) fun hscalar => ?_
  have hscalar : q.isScalar := by simpa using hscalar
  refine .bind (splitPredicate_halts ht hwf) ?_
  rintro ⟨pushed, rest⟩ c p₁ ⟨rfl, es, rs, fs, gs, hsplit, huses, h₁, hb₁, hb₂⟩
  cases pushed with
  | none => exact .pure ⟨rfl, h₁.keeps⟩
  | some b =>
    obtain ⟨b, rfl, hb, hc⟩ := hb₁
    have hg₁ := h₁.keeps.still hg
    have hds₁ := h₁.keeps.still hds
    refine .read (hg₁.child_run rfl) (.bind (substitution?_halts hds₁) ?_)
    rintro s c p₁ ⟨rfl, rfl, hs⟩
    cases s with
    | none => exact .pure ⟨rfl, h₁.keeps⟩
    | some s =>
      obtain ⟨σ, hσ⟩ := hs s rfl
      obtain rfl := hσ.eq
      -- The part that is pushed is made of old nodes of the predicate and of new ones.
      have hqn : q.ids.Nodup := nodup_ids_of_mem hn (by simp)
      have hqlt := hq.ids_lt
      have hparts : Parts p.nodes.size q.ids b.ids := h₁.nodes.parts hqlt fun z => by
        have := hc.ids z
        have := hsplit.parts.left.ids z
        simp only [List.count_append]
        omega
      have hsepb : ∀ z ∈ (Tree.node g (.groupBy keys outputs) [x, defs m ds, y]).ids, z ∉ b.ids := fun z hz hzb =>
        (hparts.mem hzb).elim (hsep z hz) fun hge => Nat.not_lt.mpr hge (hg.ids_lt z hz)
      refine .step (substitute_halts (hσ.offers hds₁ hwfds) (fun y hy z hz => ?_) hb (hparts.nodup hqn)
        (hc.scalar (hsplit.parts.left.scalar hscalar)) hc.wellFormed) ?_
      · exact hsepb z (ids_subset_of_child (i := 1) rfl z (hσ.mem_ids hy hz))
      · rintro _ p₂ ⟨b', hs', hsub⟩
        obtain rfl := hsub.id
        have hg₂ := hsub.grows.keeps.holds _ hg₁ hsepb
        have hx₂ : p₂.Holds x := hg₂.of_mem (by simp)
        have hds₂ : p₂.Holds (defs m ds) := hg₂.of_mem (by simp)
        have hy₂ : p₂.Holds y := hg₂.of_mem (by simp)
        have hb₂' : Built rs gs p₂ rest := by
          cases rest with
          | none => exact hb₂
          | some r =>
            obtain ⟨r, hid, hr, hcr⟩ := hb₂
            exact ⟨r, hid, hsub.grows.keeps.holds r hr (hc.disjoint hcr hsplit.parts hqn hqlt h₁.nodes), hcr⟩
        refine .read (hg₂.child_run rfl) ?_
        refine .step (create_halts [x, b'] (by simpa using ⟨hx₂, hsub.holds⟩)) fun l p₃ h₃ => ?_
        refine .read ((h₃.keeps.still hg₂).child_run rfl) ?_
        refine .step (create_halts [.node l .filter [x, b'], defs m ds, y] ?_) fun k p₄ h₄ => ?_
        · simpa using ⟨h₃.holds, h₃.keeps.still hds₂, h₃.keeps.still hy₂⟩
        · refine .step (withRest_halts h₄.holds (hb₂'.still (h₃.keeps.and_then h₄.keeps))) ?_
          rintro _ p₅ ⟨t', us, rfl, hheld, hrests, h₅, hids⟩
          have hgrows := ((((h₁.mono fun _ h => h.elim).trans hsub.grows (S := {z | z ∈ q.ids}) fun z hz hlt =>
            (hparts.mem hz).resolve_right (Nat.not_le.mpr hlt)).and_then h₃.grows).and_then h₄.grows).and_then h₅
          refine .pure ⟨t', [], rfl, ⟨hheld, ⟨_, hgrows.mono fun z hz _ => ?_, fun z => ?_⟩, rfl⟩, rfl, rfl, n, g, keys, outputs, x, m,
            ds, y, q, rfl, hkeys, hscalar, .intro hsplit huses hc ⟨_, σ, b', k, l, hσ, hsub.substituted, rfl⟩ hrests⟩
          · exact ids_subset_of_child (i := 1) rfl z hz
          · have := hids z
            have := hc.ids z
            have := hsub.ids z
            have := hsplit.parts.ids z
            simp [List.count_cons] at *
            omega

/-- A predicate holds for no row with nulls for all that a relation defines. -/
def Rejects (q y : Tree) : Prop :=
  ∃ i ansi, y.analysis = .ok i ∧ (Predicate.ofTree q).preservesNulls i.definitions ansi = false

theorem filterOverOuterApply_makes : filterOverOuterApply.Rebuilds fun t t' => ∃ n a x y q n' a',
    t = .node n .filter [.node a .outerApply [x, y], q] ∧ Rejects q y ∧ t' = .node n' .filter [.node a' .crossApply [x, y], q] := by
  rintro c p t - ⟨ht, -, hwf⟩ hfits
  obtain ⟨n, a, q, rfl, hk, hwfa, -, -⟩ := exists_filter hwf hfits
  obtain ⟨a, x, y, rfl⟩ := looks hwfa hk
  obtain ⟨ha, hq⟩ := ht.two
  obtain ⟨hx, hy⟩ := ha.two
  refine .read (ht.child_run rfl) (.read (ha.child_run rfl) (.step (relationInfo_halts y.id p) fun i p₁ ⟨h₁, hi⟩ => ?_))
  refine .read ((h₁.still ht).child_run rfl) (.tree (h₁.still hq) (.get (.ite (fun _ => .pure ⟨rfl, h₁⟩) fun hno => ?_)))
  have hrejects : Rejects q y := ⟨i, _, hi y hy rfl, by simpa using hno⟩
  refine .read ((h₁.still ha).child_run rfl) ?_
  refine .step (create_halts [x, y] (by simpa using ⟨h₁.still hx, h₁.still hy⟩)) fun a' p₂ h₂ => ?_
  refine .step (create_halts [.node a' .crossApply [x, y], q] ?_) fun n' p₃ h₃ => .pure ?_
  · simpa using ⟨h₂.holds, h₂.keeps.still (h₁.still hq)⟩
  · have hgrows := (h₁.grows.and_then h₂.grows).and_then h₃.grows
    refine .of_grows h₃.holds hgrows (fun z => ?_) ⟨rfl, rfl, n, a, x, y, q, n', a', rfl, hrejects, rfl⟩
    simp [List.count_cons]
    omega

/-! ### Constant predicates -/

def IsNull (d : Def) : Prop := ∃ k type, d.expr = .node k (.null type) []

theorem bindNull_halts {β : Type} {type : ScalarType} {f : NodeId × VarId → RuleM β} {Q : β → Context → Plan → Prop}
    (hf : ∀ (d : Def) (fs : List NodeId) (p' : Plan), IsNull d → p'.Holds d.tree → Grows ∅ fs [d.var] p p' →
      (∀ z, d.ids.count z ≤ fs.count z) → HaltsIn (f (d.node, d.var)) c p' Q) :
    HaltsIn (do
      let null ← (Plan.null type : RuleM NodeId)
      let out ← (computedVarDef null : RuleM (NodeId × VarId))
      f out) c p Q := by
  refine .step (create_halts [] nofun) fun k p₁ h₁ => .step (computedVarDef_halts h₁.holds) fun out p₂ ⟨h₂, hd⟩ => ?_
  refine hf ⟨out.1, out.2, .node k (.null type) []⟩ ([k] ++ [out.1]) p₂ ⟨k, type, rfl⟩ hd (h₁.grows.and_then h₂) fun z => ?_
  simp [List.count_cons, Def.ids]
  omega

theorem nullDefs_halts {us : List VarId} : HaltsIn (nullDefs us) c p fun out c' p' => ∃ (ds : List Def) (fs : List NodeId),
    out = (ds.map Def.node, ds.map Def.var) ∧ ds.length = us.length ∧ (∀ d ∈ ds, IsNull d ∧ p'.Holds d.tree) ∧
    Grows ∅ fs (ds.map Def.var) p p' ∧ (∀ z, (ds.flatMap Def.ids).count z ≤ fs.count z) ∧
    c' = { c with mappings := c.mappings.renamingAll (us.zip (ds.map Def.var)) } := by
  induction us generalizing c p with
  | nil => exact .pure ⟨[], [], rfl, rfl, nofun, (Keeps.refl _ _).grows, fun z => by simp, rfl⟩
  | cons u us ih =>
    refine .read rfl (bindNull_halts fun d fs p₁ hnull hd h₁ hids => .bind rename_halts ?_)
    rintro _ _ p₁ ⟨rfl, rfl⟩
    refine .bind ih ?_
    rintro _ _ p₂ ⟨ds, gs, rfl, hlen, hds, h₂, hids', rfl⟩
    refine .pure ⟨d :: ds, fs ++ gs, rfl, by simp [hlen], ?_, h₁.and_then h₂, fun z => ?_, rfl⟩
    · exact List.forall_mem_cons.mpr ⟨⟨hnull, h₂.keeps.still hd⟩, hds⟩
    · have := hids z
      have := hids' z
      simp only [List.flatMap_cons, List.count_append]
      omega

/-- What becomes of a filter with a constant predicate. -/
inductive Constant (m : VarMap) (x q : Tree) : List VarId → VarMap → Tree → Prop
  | always : q.op.isTrue = true → Constant m x q [] m x
  | never {i : Info} {ds : List Def} {es : List (VarId × VarId)} {n l k s : NodeId} : q.op.isTrue = false →
      x.kind ≠ .singleRowTable → (∀ y, x.kind = .project → x.children[0]? = some y → y.kind ≠ .singleRowTable) →
      x.analysis = .ok i → (∀ d ∈ ds, IsNull d) →
      (es = i.definitions.toList.zip (ds.map Def.var) ∧ ds.length = i.definitions.toList.length ∧ ds ≠ [] ∨
        es = [] ∧ i.definitions.toList = [] ∧ ds.length = 1) →
      Constant m x q (ds.map Def.var) (m.renamingAll es)
        (.node n (.project (VarSet.ofList (ds.map Def.var))) [.node l .filter [.node s .singleRowTable [], q], defs k ds])

theorem isEmptied_halts (hx : p.Holds x) (hwf : x.wellFormed) : HaltsIn (isEmptied x.id) c p fun b c' p' => c' = c ∧ p' = p ∧
    (b = false → x.kind ≠ .singleRowTable ∧ ∀ y, x.kind = .project → x.children[0]? = some y → y.kind ≠ .singleRowTable) := by
  refine .read hx.kind_run ?_
  split
  · exact .pure ⟨rfl, rfl, by simp⟩
  · rename_i hproj
    obtain ⟨g, outputs, y, d, rfl⟩ := looks hwf hproj
    refine .read (hx.child_run rfl) (.read (hx.two.1).kind_run (.pure ⟨rfl, rfl, fun hno => ⟨by simp [Op.kind], fun y' _ hy' => ?_⟩⟩))
    cases hy'
    simpa using hno
  · rename_i hne hnp
    exact .pure ⟨rfl, rfl, fun _ => ⟨hne, fun _ hp => absurd hp hnp⟩⟩

theorem emptied_halts {c' : Context} {p₁ : Plan} {i : Info} (ds : List Def) (es : List (VarId × VarId)) {fs : List NodeId}
    (ht : p.Holds (.node n .filter [x, q])) (hfalse : q.op.isTrue = false) (hk₁ : x.kind ≠ .singleRowTable)
    (hk₂ : ∀ y, x.kind = .project → x.children[0]? = some y → y.kind ≠ .singleRowTable) (hi : x.analysis = .ok i)
    (hds : ∀ d ∈ ds, IsNull d ∧ p₁.Holds d.tree) (h₁ : Grows ∅ fs (ds.map Def.var) p p₁)
    (hids : ∀ z, (ds.flatMap Def.ids).count z ≤ fs.count z)
    (hes : es = i.definitions.toList.zip (ds.map Def.var) ∧ ds.length = i.definitions.toList.length ∧ ds ≠ [] ∨
      es = [] ∧ i.definitions.toList = [] ∧ ds.length = 1) (hc : c' = { c with mappings := c.mappings.renamingAll es }) :
    HaltsIn (emptied q.id (ds.map Def.node) (ds.map Def.var)) c' p₁
      (Remade c p (.node n .filter [x, q]) (Constant c.mappings x q)) := by
  subst hc
  refine .step (create_halts [] (List.forall_mem_nil _)) fun s p₂ h₂ => ?_
  refine .step (create_halts [.node s .singleRowTable [], q] ?_) fun l p₃ h₃ => ?_
  · simpa using ⟨h₂.holds, h₂.keeps.still (h₁.keeps.still ht.two.2)⟩
  have hk₃ := h₂.keeps.and_then h₃.keeps
  refine .step (varDefList_halts ds fun d hd => hk₃.still (hds d hd).2) fun k p₄ ⟨h₄, hk⟩ => ?_
  refine .step (create_halts [.node l .filter [.node s .singleRowTable [], q], defs k ds] ?_) fun n' p₅ h₅ => .pure ?_
  · simpa using ⟨h₄.keeps.still h₃.holds, hk⟩
  · have hgrows := (((h₁.and_then h₂.grows).and_then h₃.grows).and_then h₄).and_then h₅.grows
    refine ⟨_, ds.map Def.var, rfl, ⟨h₅.holds, ⟨_, (hgrows.mono fun _ h => h.elim).perm .rfl (by simp), fun z => ?_⟩, rfl⟩,
      .never hfalse hk₁ hk₂ hi (fun d hd => (hds d hd).1) hes⟩
    have := hids z
    simp [List.count_cons]
    omega

theorem filterWithConstantPredicate_makes : filterWithConstantPredicate.Makes fun c _ t vs mm t' => ∃ n x q,
    t = .node n .filter [x, q] ∧ q.kind = .constantPredicate ∧ Constant c.mappings x q vs mm t' := by
  rintro c p t - ⟨ht, -, hwf⟩ hfits
  obtain ⟨n, x, q, rfl⟩ := looks hwf (kind_of_fits hfits)
  have hconstant := kind_of_fits (Pattern.fits_two hfits).2
  suffices h : HaltsIn (overConstantPredicate n) c p (Remade c p (.node n .filter [x, q]) (Constant c.mappings x q)) from
    h.mono fun _ _ _ h => h.mono fun _ _ _ hmade => ⟨n, x, q, rfl, hconstant, hmade⟩
  obtain ⟨hx, hq⟩ := ht.two
  refine .read (ht.child_run rfl) (.read (ht.child_run rfl) (.read hq.op_run (.ite (fun htrue => ?_) fun hfalse => ?_)))
  · refine .pure ⟨x, [], rfl, ⟨hx, ⟨[], (Keeps.refl _ _).grows, fun z => ?_⟩, rfl⟩, .always htrue⟩
    simp [List.count_cons]
    omega
  have hfalse : q.op.isTrue = false := by simpa using hfalse
  refine .bind (isEmptied_halts hx (wellFormed_filter.mp hwf).2.1) ?_
  rintro found _ _ ⟨rfl, rfl, hk⟩
  refine .ite (fun _ => .pure ⟨rfl, .refl _ _⟩) fun hno => ?_
  obtain ⟨hk₁, hk₂⟩ := hk (by simpa using hno)
  refine .step (relationInfo_halts x.id _) fun i p₁ ⟨h₁, hi⟩ => .bind nullDefs_halts ?_
  rintro _ _ p₂ ⟨ds, fs, rfl, hlen, hds, h₂, hids, rfl⟩
  have hi := hi x hx rfl
  refine .ite (fun hempty => ?_) fun hsome => ?_
  · obtain rfl : ds = [] := by simpa using hempty
    have hnone : i.definitions.toList = [] := List.length_eq_zero_iff.mp hlen.symm
    refine bindNull_halts fun d gs p₃ hnull hd h₃ hids' => ?_
    refine emptied_halts [d] [] ht hfalse hk₁ hk₂ hi (by simpa using ⟨hnull, hd⟩)
      (by simpa using (h₁.and_then h₂.keeps).grows.and_then h₃) (by simpa using hids') (.inr ⟨rfl, hnone, rfl⟩) ?_
    simp [hnone, VarMap.renamingAll]
  · refine emptied_halts ds _ ht hfalse hk₁ hk₂ hi hds (by simpa using h₁.grows.and_then h₂) hids (.inl ⟨rfl, hlen, ?_⟩) rfl
    rintro rfl
    exact hsome rfl

end Rules

end Planwright
