import Mathlib.Algebra.BigOperators.Group.List.Basic
import Mathlib.Data.List.Flatten
import Planwright.Predicate
import Planwright.Proofs.Plan.Halt
import Planwright.Proofs.Scope.Basic

/-! Predicates taken apart. The parts of a conjunction use no more than the whole, and what is built from some of them
    has no nodes but theirs and new ones. -/

namespace Planwright

open Run

namespace Tree

variable {b d : Tree} {fs : List NodeId}
variable {q : Tree} {ds es : List Tree}

/-- Expressions that are found in another, each in a place of its own. -/
structure PartsOf (q : Tree) (ds : List Tree) : Prop where
  wellFormed : ∀ d ∈ ds, d.wellFormed = true
  isExpression : ∀ d ∈ ds, d.IsExpression
  inScope : Scoped (·) q → ∀ d ∈ ds, Scoped (·) d
  scalar : q.isScalar = true → ∀ d ∈ ds, d.isScalar = true
  uses : ∀ d ∈ ds, ∀ u, Uses (·) d u → Uses (·) q u
  ids : ∀ x, (ds.flatMap Tree.ids).count x ≤ q.ids.count x

theorem PartsOf.self (hwf : q.wellFormed) (he : q.IsExpression) : PartsOf q [q] := by
  constructor <;> simp_all

theorem PartsOf.perm (h : PartsOf q ds) (hp : ds.Perm es) : PartsOf q es where
  wellFormed d hd := h.wellFormed d (hp.mem_iff.mpr hd)
  isExpression d hd := h.isExpression d (hp.mem_iff.mpr hd)
  inScope hs d hd := h.inScope hs d (hp.mem_iff.mpr hd)
  scalar hs d hd := h.scalar hs d (hp.mem_iff.mpr hd)
  uses d hd := h.uses d (hp.mem_iff.mpr hd)
  ids x := (hp.flatMap_right Tree.ids).count_eq x ▸ h.ids x

theorem PartsOf.left (h : PartsOf q (ds ++ es)) : PartsOf q ds where
  wellFormed d hd := h.wellFormed d (List.mem_append_left _ hd)
  isExpression d hd := h.isExpression d (List.mem_append_left _ hd)
  inScope hs d hd := h.inScope hs d (List.mem_append_left _ hd)
  scalar hs d hd := h.scalar hs d (List.mem_append_left _ hd)
  uses d hd := h.uses d (List.mem_append_left _ hd)
  ids x := by
    have := h.ids x
    rw [List.flatMap_append, List.count_append] at this
    omega

theorem PartsOf.right (h : PartsOf q (ds ++ es)) : PartsOf q es := (h.perm List.perm_append_comm).left

theorem PartsOf.sublist (h : PartsOf q ds) (hs : es.Sublist ds) : PartsOf q es where
  wellFormed d hd := h.wellFormed d (hs.subset hd)
  isExpression d hd := h.isExpression d (hs.subset hd)
  inScope hq d hd := h.inScope hq d (hs.subset hd)
  scalar hq d hd := h.scalar hq d (hs.subset hd)
  uses d hd := h.uses d (hs.subset hd)
  ids x := Nat.le_trans ((hs.flatMap _).count_le x) (h.ids x)

theorem PartsOf.only (h : PartsOf q ds) (hd : d ∈ ds) : PartsOf q [d] :=
  h.sublist (List.singleton_sublist.mpr hd)

theorem PartsOf.nil : PartsOf q [] where
  wellFormed := nofun
  isExpression := nofun
  inScope _ := nofun
  scalar _ := nofun
  uses := nofun
  ids _ := Nat.zero_le _

theorem PartsOf.expand {e : Tree} (h : PartsOf q (ds ++ [e])) (he : PartsOf e es) : PartsOf q (ds ++ es) where
  wellFormed d hd := (List.mem_append.mp hd).elim (h.left.wellFormed d) (he.wellFormed d)
  isExpression d hd := (List.mem_append.mp hd).elim (h.left.isExpression d) (he.isExpression d)
  inScope hq d hd := (List.mem_append.mp hd).elim (h.left.inScope hq d) (he.inScope (h.right.inScope hq e (by simp)) d)
  scalar hq d hd := (List.mem_append.mp hd).elim (h.left.scalar hq d) (he.scalar (h.right.scalar hq e (by simp)) d)
  uses d hd u hu := (List.mem_append.mp hd).elim (fun hd => h.left.uses d hd u hu) fun hd =>
    h.right.uses e (by simp) u (he.uses d hd u hu)
  ids x := by
    have := h.ids x
    have := he.ids x
    simp only [List.flatMap_append, List.flatMap_singleton, List.count_append] at *
    omega

theorem PartsOf.operands (hop : q.IsExpression) (hne : q.kind ≠ .element) (hwf : q.wellFormed) :
    PartsOf q q.children := by
  obtain ⟨n, op, args⟩ := q
  obtain ⟨hf, hwfs⟩ := wellFormed_node.mp hwf
  have hargs : ∀ a ∈ args, a.IsExpression := by
    cases shape_of_fits hf with
    | scalar _ _ _ h => exact h
    | element => exact absurd rfl hne
    | combine kind => cases kind <;> cases hop
    | _ => cases hop
  refine ⟨hwfs, hargs, fun hs => (scoped_node.mp hs).2.2, fun hq => (isScalar_node.mp hq).2, fun d hd u hu => ?_, fun x => ?_⟩
  · exact (uses_of_isScalar hop).mpr (.inr ⟨d, hd, hu⟩)
  · rw [ids_node, List.count_cons]
    exact Nat.le_add_right _ _

theorem forall_conjuncts {P : Tree → Prop} (hP : ∀ {id type a b}, P (node id (.scalar .and type) [a, b]) → P a ∧ P b)
    (hq : P q) : ∀ d ∈ q.conjuncts, P d := by
  fun_induction conjuncts q with
  | case1 id type a b iha ihb =>
    obtain ⟨ha, hb⟩ := hP hq
    intro d hd
    rcases List.mem_append.mp hd with hd | hd
    · exact iha ha d hd
    · exact ihb hb d hd
  | case2 q => simpa using hq

theorem count_conjuncts (x : NodeId) : (q.conjuncts.flatMap Tree.ids).count x ≤ q.ids.count x := by
  fun_induction conjuncts q with
  | case1 id type a b iha ihb =>
    simp only [List.flatMap_append, List.count_append, ids_node, List.flatMap_cons, List.flatMap_nil, List.append_nil, List.count_cons]
    omega
  | case2 q => simp

theorem wellFormed_conjuncts (hwf : q.wellFormed) (he : q.IsExpression) :
    ∀ d ∈ q.conjuncts, d.wellFormed ∧ d.IsExpression := by
  refine forall_conjuncts (P := fun d => d.wellFormed = true ∧ d.IsExpression) (fun ⟨hwf, _⟩ => ?_) ⟨hwf, he⟩
  obtain ⟨hf, hwf⟩ := wellFormed_node.mp hwf
  cases shape_of_fits hf with
  | scalar _ _ _ hargs => exact ⟨⟨hwf _ (by simp), hargs _ (by simp)⟩, hwf _ (by simp), hargs _ (by simp)⟩

theorem PartsOf.conjuncts (hwf : q.wellFormed) (he : q.IsExpression) : PartsOf q q.conjuncts where
  wellFormed d hd := (wellFormed_conjuncts hwf he d hd).1
  isExpression d hd := (wellFormed_conjuncts hwf he d hd).2
  inScope := by
    refine forall_conjuncts (P := Scoped (·)) (fun h => ?_)
    have := (scoped_node.mp h).2.2
    exact ⟨this _ (by simp), this _ (by simp)⟩
  scalar := by
    refine forall_conjuncts (P := fun d => d.isScalar = true) (fun h => ?_)
    have := (isScalar_node.mp h).2
    exact ⟨this _ (by simp), this _ (by simp)⟩
  uses := by
    refine forall_conjuncts (P := fun d => ∀ u, Uses (·) d u → Uses (·) q u) (fun h => ?_) fun _ h => h
    exact ⟨fun u hu => h u ((uses_of_isScalar rfl).mpr (.inr ⟨_, by simp, hu⟩)),
      fun u hu => h u ((uses_of_isScalar rfl).mpr (.inr ⟨_, by simp, hu⟩))⟩
  ids := count_conjuncts

/-- A measure of expressions that a conjunction has from its two sides. -/
def Conjunctive {M : Type} [AddCommMonoid M] (f : Tree → M) : Prop :=
  ∀ id type a b, f (node id (.scalar .and type) [a, b]) = f a + f b

theorem Conjunctive.conjuncts {M : Type} [AddCommMonoid M] {f : Tree → M} (hf : Conjunctive f) : (q.conjuncts.map f).sum = f q := by
  fun_induction Tree.conjuncts q with
  | case1 id type a b iha ihb => rw [List.map_append, List.sum_append, iha, ihb, hf]
  | case2 q => simp

/-- An expression that holds where all of the parts do. -/
structure Conjoins (ds : List Tree) (b : Tree) (fs : List NodeId) : Prop where
  wellFormed : b.wellFormed = true
  isExpression : b.IsExpression
  inScope : (∀ d ∈ ds, Scoped (·) d) → Scoped (·) b
  scalar : (∀ d ∈ ds, d.isScalar = true) → b.isScalar = true
  uses : ∀ u, Uses (·) b u → ∃ d ∈ ds, Uses (·) d u
  ids : ∀ x, b.ids.count x ≤ fs.count x + (ds.flatMap Tree.ids).count x
  conjuncts : b.conjuncts = ds.flatMap Tree.conjuncts

theorem Conjoins.sums {M : Type} [AddCommMonoid M] {f : Tree → M} (h : Conjoins ds b fs)
    (hf : Conjunctive f) : f b = (ds.map f).sum := by
  rw [← hf.conjuncts, h.conjuncts, List.map_flatMap, List.flatMap, List.sum_flatten, List.map_map]
  exact congrArg List.sum (List.map_congr_left fun _ _ => hf.conjuncts)

/-- The same, where there may be no parts and then no expression. -/
def Conjunction (ds : List Tree) (fs : List NodeId) : Option Tree → Prop
  | none => ds = []
  | some b => Conjoins ds b fs

theorem Conjunction.sums {M : Type} [AddCommMonoid M] {f : Tree → M} {b : Option Tree} (h : Conjunction ds fs b)
    (hf : Conjunctive f) : (b.toList.map f).sum = (ds.map f).sum := by
  cases b with
  | none =>
    obtain rfl : ds = [] := h
    rfl
  | some b => simpa using Conjoins.sums h hf

theorem Conjunction.ids {b : Option Tree} (h : Conjunction ds fs b) (x : NodeId) :
    (b.toList.flatMap Tree.ids).count x ≤ fs.count x + (ds.flatMap Tree.ids).count x := by
  cases b with
  | none => exact Nat.zero_le _
  | some b => simpa using Conjoins.ids h x

theorem Conjunction.wellFormed {b : Option Tree} (h : Conjunction ds fs b) :
    ∀ e ∈ b, e.IsExpression ∧ e.wellFormed := by
  rintro e rfl
  exact ⟨Conjoins.isExpression h, Conjoins.wellFormed h⟩

theorem Conjoins.single (hwf : d.wellFormed) (he : d.IsExpression) : Conjoins [d] d [] where
  wellFormed := hwf
  isExpression := he
  inScope hs := hs d (by simp)
  scalar hs := hs d (by simp)
  uses u hu := ⟨d, by simp, hu⟩
  ids x := by simp
  conjuncts := by simp

theorem Conjoins.and {a : NodeId} (h : Conjoins ds b fs) (hwf : d.wellFormed)
    (he : d.IsExpression) : Conjoins (ds ++ [d]) (.node a (.scalar .and .boolean) [b, d]) (fs ++ [a]) where
  wellFormed := by
    refine wellFormed_node.mpr ⟨fits_of_shape (.scalar rfl nofun rfl ?_), ?_⟩
    · simpa using ⟨h.isExpression, he⟩
    · simpa using ⟨h.wellFormed, hwf⟩
  isExpression := rfl
  inScope hs := by simpa [scoped_node] using ⟨h.inScope fun e he => hs e (by simp [he]), hs d (by simp)⟩
  scalar hs := by
    refine isScalar_node.mpr ⟨rfl, ?_⟩
    simpa using ⟨h.scalar fun e he => hs e (by simp [he]), hs d (by simp)⟩
  uses u hu := by
    rcases (uses_of_isScalar rfl).mp hu with ⟨w, type, heq, -⟩ | ⟨e, he, hue⟩
    · cases heq
    · simp only [List.mem_cons, List.not_mem_nil, or_false] at he
      rcases he with rfl | rfl
      · obtain ⟨d', hd', hud⟩ := h.uses u hue
        exact ⟨d', by simp [hd'], hud⟩
      · exact ⟨e, by simp, hue⟩
  ids x := by
    have := h.ids x
    simp [List.count_cons] at this ⊢
    omega
  conjuncts := by
    rw [Tree.conjuncts, h.conjuncts]
    simp

theorem Conjoins.disjoint {b' : Tree} {gs : List NodeId} {k k' : Nat} (h : Conjoins ds b fs) (h' : Conjoins es b' gs)
    (hq : PartsOf q (ds ++ es)) (hn : q.ids.Nodup) (hlt : ∀ x ∈ q.ids, x < k) (hf : Fresh k k' (fs ++ gs)) :
    ∀ x ∈ b'.ids, x ∉ b.ids := by
  have hparts : Parts k q.ids (b.ids ++ b'.ids) := hf.parts hlt fun x => by
    have := h.ids x
    have := h'.ids x
    have := hq.ids x
    simp only [List.flatMap_append, List.count_append] at *
    omega
  exact fun x hx hxb => (List.nodup_append.mp (hparts.nodup hn)).2.2 x hxb x hx rfl

end Tree

theorem Predicate.parts_foldl_addPart (ts : List Tree) (q : Predicate) :
    (ts.foldl addPart q).parts = q.parts ++ ts.flatMap Tree.conjuncts := by
  induction ts generalizing q with
  | nil => simp
  | cons t ts ih => simp [ih, addPart]

namespace Plan

open Planwright.Tree

variable {fs : List NodeId} {out : Option NodeId} {table : VarSet}
variable {p : Plan} {q : Tree} {ds : List Tree}

/-- The conjunction of no parts is missing. -/
def Built (ds : List Tree) (fs : List NodeId) (p : Plan) : Option NodeId → Prop
  | none => ds = []
  | some n => ∃ b, b.id = n ∧ p.Holds b ∧ Conjoins ds b fs

theorem Built.still {p' : Plan} (h : Built ds fs p out) (hk : Keeps ∅ p p') :
    Built ds fs p' out := by
  cases out with
  | none => exact h
  | some n =>
    obtain ⟨b, hid, hb, hc⟩ := h
    exact ⟨b, hid, hk.still hb, hc⟩

theorem Built.exists_tree (h : Built ds fs p out) :
    ∃ b, out = Option.map Tree.id b ∧ (∀ t ∈ b, p.Holds t) ∧ Conjunction ds fs b := by
  cases out with
  | none => exact ⟨none, rfl, nofun, h⟩
  | some n =>
    obtain ⟨b, rfl, hb, hc⟩ := h
    exact ⟨some b, rfl, fun t ht => Option.some.inj ht ▸ hb, hc⟩

theorem foldlM_and_reaches {es : List Tree} {b : Tree} {p₀ : Plan} (hb : p.Holds b) (h : Conjoins ds b fs)
    (hg : Grows ∅ fs [] p₀ p) (hes : ∀ e ∈ es, p.Holds e ∧ e.wellFormed ∧ e.IsExpression) :
    Reaches (es.foldlM (fun acc part => Plan.and acc part.id) b.id) p fun n p' => ∃ b' gs, b'.id = n ∧ p'.Holds b' ∧
      Grows ∅ gs [] p₀ p' ∧ Conjoins (ds ++ es) b' gs := by
  induction es generalizing p b fs ds with
  | nil => exact .pure ⟨b, fs, rfl, hb, hg, by rwa [List.append_nil]⟩
  | cons e es ih =>
    rw [List.foldlM_cons]
    obtain ⟨⟨he, hwf, hexp⟩, hes⟩ := List.forall_mem_cons.mp hes
    refine .bind ((create_works [b, e] (by simpa using ⟨hb, he⟩)).reaches rfl) fun a p₁ ha => ?_
    refine (ih ha.holds (h.and hwf hexp) (by simpa using hg.and_then ha.grows) fun d hd =>
      ⟨ha.keeps.still (hes d hd).1, (hes d hd).2⟩).mono fun n p₂ ⟨b', gs, hid, hb', hg', hc⟩ => ⟨b', gs, hid, hb', hg', ?_⟩
    rwa [List.append_assoc] at hc

theorem build_reaches (h : ∀ d ∈ ds, p.Holds d ∧ d.wellFormed ∧ d.IsExpression) :
    Reaches (Predicate.build ⟨ds⟩) p fun out p' => ∃ fs, Grows ∅ fs [] p p' ∧ Built ds fs p' out := by
  cases ds with
  | nil => exact .pure ⟨[], (Keeps.refl _ _).grows, rfl⟩
  | cons d ds =>
    obtain ⟨⟨hd, hwf, he⟩, hds⟩ := List.forall_mem_cons.mp h
    refine .bind (foldlM_and_reaches hd (.single hwf he) (Keeps.refl _ _).grows hds)
      fun n p₁ ⟨b, fs, hid, hb, hg, hc⟩ => .pure ⟨fs, hg, b, hid, hb, hc⟩

theorem build_halts (h : PartsOf q ds) (hh : ∀ d ∈ ds, p.Holds d) :
    Halts (Predicate.build ⟨ds⟩) p fun out p' => ∃ fs, Grows ∅ fs [] p p' ∧ Built ds fs p' out :=
  (build_reaches fun d hd => ⟨hh d hd, h.wellFormed d hd, h.isExpression d hd⟩).halts fun ⟨_, hg, _⟩ => hg.keeps.acyclic

/-- The parts that pass a test and the others, each in order. -/
def halves (test : Tree → Bool) (ds : List Tree) : Predicate × Predicate := (⟨ds.filter test⟩, ⟨ds.filter (!test ·)⟩)

theorem halves_perm (test : Tree → Bool) (ds : List Tree) : ((halves test ds).1.parts ++ (halves test ds).2.parts).Perm ds :=
  List.filter_append_perm _ _

/-- Parts that are told apart by marks. -/
def marked (ms : List (Tree × Bool)) : Predicate × Predicate := (⟨(ms.filter (·.2)).map (·.1)⟩, ⟨(ms.filter (!·.2)).map (·.1)⟩)

theorem marked_perm (ms : List (Tree × Bool)) : ((marked ms).1.parts ++ (marked ms).2.parts).Perm (ms.map (·.1)) := by
  rw [marked, ← List.map_append]
  exact (List.filter_append_perm _ _).map _

theorem marked_eq {test : Tree → Bool} {ms : List (Tree × Bool)} (h : ∀ m ∈ ms, m.2 = test m.1) :
    marked ms = halves test (ms.map (·.1)) := by
  rw [marked, halves, List.filter_map, List.filter_map]
  have hfirst : ms.filter (·.2) = ms.filter (test ∘ (·.1)) := List.filter_congr h
  have hsecond : ms.filter (!·.2) = ms.filter ((!test ·) ∘ (·.1)) := List.filter_congr fun m hm => by rw [h m hm]; rfl
  rw [hfirst, hsecond]

theorem splitByTable_marks (table : VarSet) (ds : List Tree) (p : Plan) :
    Halts (Predicate.splitByTable table ⟨ds⟩) p (fun out p' => Keeps ∅ p p' ∧ ∃ ms, out = marked ms ∧ ms.map (·.1) = ds ∧
      ∀ m ∈ ms, p.Holds m.1 → m.1.wellFormed → (m.2 = true ↔ ∀ u, Uses (·) m.1 u → u ∈ table))
      (∀ d ∈ ds, p.Holds d ∧ d.wellFormed) := by
  refine .bind ((mapM_meets (R := fun p d m => m.1 = d ∧
    (p.Holds d → d.wellFormed = true → (m.2 = true ↔ ∀ u, Uses (·) d u → u ∈ table)))
    (E := fun e => (p.Acyclic → e ≠ .outOfFuel) ∧ ¬∀ d ∈ ds, p.Holds d ∧ d.wellFormed = true) (fun d hd q hq => ?_)
      fun hk ⟨heq, hm⟩ => ⟨heq, fun hd => hm (hk.still hd)⟩).halts (fun _ he => he) fun h => h.1.keeps.acyclic)
        fun ms p₁ ⟨hk, hm⟩ => .pure ⟨hk.keeps, ms, rfl, ?_, fun m hmem => ?_⟩
  · refine (Halts.bind ((info_works d.id q).bind fun i p₁ ⟨hk, hi⟩ => .pure ⟨hk, fun hd hwf => ?_⟩ :
      Halts _ q (fun b p' => Same q p' ∧ (q.Holds d → d.wellFormed = true → (b = true ↔ ∀ u, Uses (·) d u → u ∈ table))) _)
        fun b p₁ ⟨hk, hb⟩ => .pure ⟨hk, rfl, hb⟩).meets.mono (fun e he => ⟨fun hac => he.1 (hq.keeps.acyclic hac), fun h => he.2 ?_⟩)
          fun _ _ h => h
    · rw [VarSet.isSubset_iff]
      exact forall_congr' fun u => by rw [(analysis_scope hwf (hi d hd rfl) u).2]
    · exact ⟨d, hq.still (h d hd).1, rfl, (h d hd).2⟩
  · exact (map_eq_map_of_forall₂ (hm.imp fun d m h => h.1.symm)).symm.trans (List.map_id ds)
  · obtain ⟨d, -, rfl, hm⟩ := exists_of_forall₂_right hm hmem
    exact hm

theorem splitByTable_reaches (hh : ∀ d ∈ ds, p.Holds d) (hwf : ∀ d ∈ ds, d.wellFormed) :
    Reaches (Predicate.splitByTable table ⟨ds⟩) p fun out p' => Keeps ∅ p p' ∧ ∃ test, out = halves test ds ∧
      ∀ d ∈ ds, test d = true ↔ ∀ u, Uses (·) d u → u ∈ table := by
  classical
  refine ((splitByTable_marks table ds p).reaches fun d hd => ⟨hh d hd, hwf d hd⟩).mono ?_
  rintro out p' ⟨hk, ms, rfl, rfl, hm⟩
  have hmem (m) (hm : m ∈ ms) : m.1 ∈ ms.map (·.1) := List.mem_map_of_mem hm
  refine ⟨hk, fun d => decide (∀ u, Uses (·) d u → u ∈ table), marked_eq fun m h => ?_, fun d _ => decide_eq_true_iff⟩
  rw [Bool.eq_iff_iff, decide_eq_true_iff, hm m h (hh _ (hmem m h)) (hwf _ (hmem m h))]

theorem splitByTable_halts (hh : ∀ d ∈ ds, p.Holds d) (hwf : ∀ d ∈ ds, d.wellFormed) :
    Halts (Predicate.splitByTable table ⟨ds⟩) p fun out p' => Keeps ∅ p p' ∧ (out.1.parts ++ out.2.parts).Perm ds ∧
      ∀ d ∈ out.1.parts, ∀ u, Uses (·) d u → u ∈ table := by
  refine ((splitByTable_reaches hh hwf).halts fun h => h.1.acyclic).mono ?_
  rintro out p' ⟨hk, test, rfl, htest⟩
  refine ⟨hk, halves_perm test ds, fun d hd => ?_⟩
  obtain ⟨hmem, hd⟩ := List.mem_filter.mp hd
  exact (htest d hmem).mp hd

theorem splitByJoin_eq (left right : VarSet) (ds : List Tree) :
    Predicate.splitByJoin left right ⟨ds⟩ = halves (fun d => (d.equiJoin? left right).isSome) ds := by
  have hmarks : (ds.mapM fun d => do return (d, ← (pure (d.equiJoin? left right).isSome : Id Bool)) : Id _).run =
      ds.map fun d => (d, (d.equiJoin? left right).isSome) := by
    simp
  have heq : marked (ds.map fun d => (d, (d.equiJoin? left right).isSome)) =
      halves (fun d => (d.equiJoin? left right).isSome) _ := marked_eq (by simp)
  rw [List.map_map, ← hmarks] at heq
  exact heq.trans (congrArg _ (List.map_id ds))

theorem splitByJoin_perm (left right : VarSet) (ds : List Tree) : ((Predicate.splitByJoin left right ⟨ds⟩).1.parts ++
    (Predicate.splitByJoin left right ⟨ds⟩).2.parts).Perm ds := by
  rw [splitByJoin_eq]
  exact halves_perm _ ds

end Plan

end Planwright
