import Planwright.Proofs.Plan.Derive
import Planwright.Proofs.Rule.Remake.Filter

/-! What rules make of filters over joins. Each part of the predicate goes to the side that it refers to, or into the join
    condition; the sides are settled in between, so that the rule falls into what it does before and after. -/

namespace Planwright

open Run Planwright.Tree Plan RuleM

namespace Rules

variable {c : Context} {p : Plan} {n : NodeId} {x y q : Tree}

/-! ### Before the sides are settled -/

theorem splitSide_halts {ds : List Tree} {i : Info} (hx : p.Holds x) (hwf : x.wellFormed) (hi : x.analysis = .ok i)
    (hds : PartsOf q ds) (hheld : ∀ d ∈ ds, p.Holds d) : HaltsIn (splitSide x.id i.definitions ⟨ds⟩) c p fun out c' p' =>
      c' = c ∧ ∃ ds₁ es fs, out.2 = ⟨es⟩ ∧ (ds₁ ++ es).Perm ds ∧ (∀ d ∈ ds₁, ∀ u, Uses (·) d u → Defines (·) x u) ∧
        Grows ∅ fs [] p p' ∧ Built ds₁ fs p' out.1 := by
  refine .read hx.kind_run (.ite (fun _ => ?_) fun _ => ?_)
  · exact .pure ⟨rfl, [], ds, [], rfl, .rfl, nofun, (Keeps.refl _ _).grows, rfl⟩
  · refine .step (splitByTable_halts hheld hds.wellFormed) ?_
    rintro ⟨⟨ds₁⟩, ⟨es⟩⟩ p₁ ⟨h₁, hperm, huses⟩
    have hparts := hds.perm hperm.symm
    refine .step (build_halts hparts.left fun d hd => ?_) fun out p₂ ⟨fs, h₂, hb⟩ => ?_
    · exact h₁.still (hheld d (hperm.mem_iff.mp (List.mem_append_left _ hd)))
    · refine .pure ⟨rfl, ds₁, es, fs, rfl, hperm, fun d hd u hu => ?_, by simpa using h₁.grows.and_then h₂, hb⟩
      exact (analysis_scope hwf hi u).1.mp (huses d hd u hu)

/-- The parts of the predicate. -/
structure Splits (j : NodeId) (op op' : Op) (x y q : Tree) (p p' : Plan) (s : JoinSplit) (ds₁ ds₂ ds₃ es : List Tree)
    (fs₁ fs₂ fs₃ : List NodeId) : Prop where
  join : s.join = j
  left : s.left = x.id
  right : s.right = y.id
  rest : s.rest = ⟨es⟩
  kind : s.kind = op'.kind
  rejects : op' = op ∧ s.rejects = false ∨ op.kind = .leftOuterJoin ∧ op' = .innerJoin ∧ s.rejects = true ∧ Rejects q y
  perm : (ds₁ ++ (ds₂ ++ (ds₃ ++ es))).Perm q.conjuncts
  leftUses : ∀ d ∈ ds₁, ∀ u, Uses (·) d u → Defines (·) x u
  rightUses : ∀ d ∈ ds₂, ∀ u, Uses (·) d u → Defines (·) y u
  outer : op'.kind = .leftOuterJoin → ds₂ = [] ∧ ds₃ = []
  leftPart : Built ds₁ fs₁ p' s.leftPart
  rightPart : Built ds₂ fs₂ p' s.rightPart
  joinPart : Built ds₃ fs₃ p' s.joinPart
  grows : Grows ∅ (fs₁ ++ (fs₂ ++ fs₃)) [] p p'

theorem splitJoin_halts {j : NodeId} {op : Op} {zs : List Tree} (ht : p.Holds (.node n .filter [.node j op (x :: y :: zs), q]))
    (hwf : (Tree.node n .filter [.node j op (x :: y :: zs), q]).wellFormed) :
    HaltsIn (splitJoin n) c p fun out c' p' => c' = c ∧ Keeps ∅ p p' ∧ ∀ s, out = some s →
      ∃ op' ds₁ ds₂ ds₃ es fs₁ fs₂ fs₃, Splits j op op' x y q p p' s ds₁ ds₂ ds₃ es fs₁ fs₂ fs₃ := by
  obtain ⟨hj, hq⟩ := ht.two
  have hx : p.Holds x := hj.of_mem (by simp)
  have hy : p.Holds y := hj.of_mem (by simp)
  obtain ⟨⟨-, heq⟩, hwfj, hwfq⟩ := wellFormed_filter.mp hwf
  have hwfs := (wellFormed_node.mp hwfj).2
  have hwfx := hwfs x (by simp)
  have hwfy := hwfs y (by simp)
  refine .bind (R := fun _ c' p' => c' = c ∧ p' = p) (.get (.pure ⟨rfl, rfl⟩)) ?_
  rintro _ c p ⟨rfl, rfl⟩
  refine .ite (fun _ => .pure ⟨rfl, .refl _ _, nofun⟩) fun _ => ?_
  refine .read (ht.child_run rfl) (.read hj.kind_run (.read (hj.child_run rfl) (.read (hj.child_run rfl) ?_)))
  refine .step (relationInfo_halts x.id p) fun i p₁ ⟨h₁, hi⟩ => .step (relationInfo_halts y.id p₁) fun k p₂ ⟨h₂, hk⟩ => ?_
  have hi := hi x hx rfl
  have hk := hk y (h₁.still hy) rfl
  have h₁₂ := h₁.and_then h₂
  refine .read ((h₁₂.still ht).child_run rfl) (.tree (h₁₂.still hq) ?_)
  refine .bind (R := fun _ c' p' => c' = c ∧ p' = p₂) (.get (.pure ⟨rfl, rfl⟩)) ?_
  rintro options c p₂ ⟨rfl, rfl⟩
  dsimp only
  generalize hr : ((Tree.node j op (x :: y :: zs)).kind == .leftOuterJoin && _) = rejects
  obtain ⟨op', hkind, hrejects⟩ : ∃ op' : Op, (if rejects = true then .innerJoin else (Tree.node j op (x :: y :: zs)).kind) = op'.kind ∧
      (op' = op ∧ rejects = false ∨ op.kind = .leftOuterJoin ∧ op' = .innerJoin ∧ rejects = true ∧ Rejects q y) := by
    cases rejects with
    | false => exact ⟨op, rfl, .inl ⟨rfl, rfl⟩⟩
    | true =>
      obtain ⟨houter, hno⟩ := Bool.and_eq_true_iff.mp hr
      exact ⟨.innerJoin, rfl, .inr ⟨beq_iff_eq.mp houter, rfl, rfl, k, _, hk, by simpa using hno⟩⟩
  rw [hkind]
  have hparts := PartsOf.conjuncts hwfq heq
  refine .bind (splitSide_halts (h₁₂.still hx) hwfx hi hparts (h₁₂.still hq).conjuncts) ?_
  rintro ⟨leftPart, _⟩ c p₃ ⟨rfl, ds₁, es₁, fs₁, rfl, hperm₁, huses₁, h₃, hb₁⟩
  have hheld₃ : ∀ d ∈ es₁, p₃.Holds d := fun d hd =>
    h₃.keeps.still ((h₁₂.still hq).conjuncts d (hperm₁.mem_iff.mp (List.mem_append_right _ hd)))
  have hes₁ := (hparts.perm hperm₁.symm).right
  refine .ite (fun hout => ?_) fun hin => ?_
  · simp only [hout, if_true, pure_bind]
    have hgrows : Grows ∅ fs₁ [] p p₃ := by simpa using h₁₂.grows.and_then h₃
    refine .pure ⟨rfl, hgrows.keeps, fun s hs => ⟨op', ds₁, [], [], es₁, fs₁, [], [], ?_⟩⟩
    cases hs
    exact ⟨rfl, rfl, rfl, rfl, rfl, hrejects, hperm₁, huses₁, nofun, fun _ => ⟨rfl, rfl⟩, hb₁, rfl, rfl, by simpa using hgrows⟩
  · refine .bind (splitSide_halts (h₃.keeps.still (h₁₂.still hy)) hwfy hk hes₁ hheld₃) ?_
    rintro ⟨rightPart, _⟩ c p₄ ⟨rfl, ds₂, es₂, fs₂, rfl, hperm₂, huses₂, h₄, hb₂⟩
    have hperm₃ := splitByJoin_perm i.definitions k.definitions es₂
    rw [if_neg hin]
    dsimp only
    generalize Predicate.splitByJoin i.definitions k.definitions ⟨es₂⟩ = equal at hperm₃ ⊢
    obtain ⟨⟨ds₃⟩, ⟨es⟩⟩ := equal
    have hes₂ := (hes₁.perm hperm₂.symm).right.perm hperm₃.symm
    refine .step (build_halts hes₂.left fun d hd => ?_) fun joinPart p₅ ⟨fs₃, h₅, hb₃⟩ => ?_
    · refine h₄.keeps.still (hheld₃ d (hperm₂.mem_iff.mp (List.mem_append_right _ ?_)))
      exact hperm₃.mem_iff.mp (List.mem_append_left _ hd)
    · have hgrows : Grows ∅ (fs₁ ++ (fs₂ ++ fs₃)) [] p p₅ := by simpa using ((h₁₂.grows.and_then h₃).and_then h₄).and_then h₅
      refine .pure ⟨rfl, hgrows.keeps, fun s hs => ⟨op', ds₁, ds₂, ds₃, es, fs₁, fs₂, fs₃, ?_⟩⟩
      cases hs
      refine ⟨rfl, rfl, rfl, rfl, rfl, hrejects, ?_, huses₁, huses₂, fun hout => absurd (beq_iff_eq.mpr hout) hin,
        hb₁.still (h₄.keeps.and_then h₅.keeps), hb₂.still h₅.keeps, hb₃, hgrows⟩
      exact (((hperm₃.append_left ds₂).trans hperm₂).append_left ds₁).trans hperm₁

/-! ### After the sides are settled -/

/-- The join over its new sides: with no condition, with one that was split off, with its own, or with both. -/
inductive Joins (op : Op) (condition equal : Option Tree) (x y : Tree) : Tree → Prop
  | cross {k : NodeId} : op = .crossJoin → equal = none → Joins op condition equal x y (.node k .crossJoin [x, y])
  | equal {k : NodeId} {b : Tree} : op = .crossJoin → equal = some b → Joins op condition equal x y (.node k .innerJoin [x, y, b])
  | same {k : NodeId} {e : Tree} : condition = some e → equal = none → Joins op condition equal x y (.node k op [x, y, e])
  | both {k a : NodeId} {e b : Tree} : condition = some e → equal = some b →
      Joins op condition equal x y (.node k op [x, y, .node a (.scalar .and .boolean) [e, b]])

def Conditioned (p : Plan) (j : NodeId) (op : Op) (condition : Option Tree) : Prop :=
  op = .crossJoin ∧ condition = none ∨ (op = .innerJoin ∨ op = .leftOuterJoin) ∧
    ∃ e, condition = some e ∧ Plan.child j 2 p = .ok (e.id, p)

structure Rejoined (xs : List NodeId) (p₀ : Plan) (s : JoinSplit) (J : Tree → Prop) (es : List Tree) (c : Context) (p : Plan)
    (out : Option NodeId) (c' : Context) (p' : Plan) : Prop where
  steps : c'.steps = c.steps
  none : out = none → s.changed = false ∧ Keeps ∅ p p'
  some : ∀ n, out = some n → s.changed = true ∧ ∃ t t' gs, t'.id = n ∧ J t ∧ Rests es gs t t' ∧ Derives xs p₀ p' [t']

section Again
variable {xs : List NodeId} {p₀ p₁ : Plan} {s : JoinSplit} {op : Op} {j : NodeId} {condition equal : Option Tree} {es : List Tree}

theorem filterRest_halts {J : Tree → Prop} (cs : List Tree) (hrest : s.rest = ⟨es⟩) (hes : PartsOf q es) (hchanged : ¬(!s.changed))
    (h : Derives xs p₀ p₁ (cs ++ es)) (hJ : ∀ k, J (.node k op cs)) : HaltsIn (do
      let newJoin ← (create op (cs.map Tree.id) : RuleM NodeId)
      filterRest newJoin s.rest) c p₁ (Rejoined xs p₀ s J es c p) := by
  have hchanged : s.changed := by simpa using hchanged
  refine .step (create_halts _ fun t ht => h.holds t (List.mem_append_left _ ht)) fun k p₂ hk => ?_
  have h₂ := h.create hk
  rw [hrest]
  refine .step (build_halts hes fun d hd => h₂.holds d (List.mem_cons_of_mem _ hd)) fun rest p₃ ⟨gs, h₃, hb⟩ => ?_
  cases rest with
  | none =>
    obtain rfl : es = [] := hb
    refine .pure ⟨rfl, by simp, ?_⟩
    rintro _ ⟨⟩
    exact ⟨hchanged, _, _, gs, rfl, hJ k, .nothing rfl, h₂.still h₃.keeps⟩
  | some r =>
    obtain ⟨r, rfl, hr, hc⟩ := hb
    have h₃' : Derives xs p₀ p₃ ([.node k op cs, r] ++ []) := by
      refine h₂.grow h₃ (fun _ h => h.elim) ?_ fun z => ?_
      · simpa using ⟨h₃.keeps.still hk.holds, hr⟩
      · have := hc.ids z
        simp [List.count_cons] at *
        omega
    refine .step (create_halts [.node k op cs, r] fun t ht => h₃'.holds t (by simpa using ht)) fun n' p₄ h₄ => ?_
    refine .bind (.modify (Q := fun _ c' p' => c'.steps = c.steps ∧ p' = p₄) ⟨rfl, rfl⟩) ?_
    rintro _ c' p₄ ⟨hsteps, rfl⟩
    refine .pure ⟨hsteps, by simp, ?_⟩
    rintro _ ⟨⟩
    exact ⟨hchanged, _, _, gs, rfl, hJ k, .filter hc, h₃'.create h₄⟩

theorem condition_halts (hjoin : s.join = j) (hkind : s.kind = op.kind) (hequal : s.joinPart = equal.map Tree.id)
    (hcond : Conditioned p j op condition) (h : Derives xs p₀ p ([x, y] ++ (condition.toList ++ (equal.toList ++ es)))) :
    HaltsIn s.condition c p fun out c' p' => c' = c ∧ Keeps ∅ p p' ∧ ∃ op' cs, Derives xs p₀ p' (cs ++ es) ∧
      joinOf x.id y.id out.1 out.2 = create op' (cs.map Tree.id) ∧ ∀ k, Joins op condition equal x y (.node k op' cs) := by
  rw [JoinSplit.condition, hequal, hkind, hjoin]
  rcases hcond with ⟨rfl, rfl⟩ | ⟨hop, e, rfl, hchild⟩
  · cases equal with
    | none => exact .pure ⟨rfl, .refl _ _, _, [x, y], h, rfl, fun k => .cross rfl rfl⟩
    | some b => exact .pure ⟨rfl, .refl _ _, _, [x, y, b], h, rfl, fun k => .equal rfl rfl⟩
  · have hne : ¬(op.kind == .crossJoin) := by rcases hop with rfl | rfl <;> decide
    have hjoinOf : ∀ e, joinOf x.id y.id op.kind (some e) = create op [x.id, y.id, e] := by
      rcases hop with rfl | rfl <;> exact fun _ => rfl
    cases equal with
    | none =>
      refine .ite (fun h => absurd h hne) fun _ => .read hchild ?_
      exact .pure ⟨rfl, .refl _ _, op, [x, y, e], h, hjoinOf e.id, fun k => .same rfl rfl⟩
    | some b =>
      refine .ite (fun h => absurd h hne) fun _ => .read hchild ?_
      have h₁ : Derives xs p₀ p ([e, b] ++ ([x, y] ++ es)) := h.perm (List.perm_append_comm_assoc [x, y] [e, b] es)
      refine .step (create_halts [e, b] fun t ht => h₁.holds t (List.mem_append_left _ ht)) fun a p₁ ha => ?_
      exact .pure ⟨rfl, ha.keeps, op, [x, y, .node a (.scalar .and .boolean) [e, b]],
        (h₁.create ha).perm (List.perm_append_comm_assoc [_] [x, y] es), hjoinOf a, fun k => .both rfl rfl⟩

theorem joinAgain_halts (hjoin : s.join = j) (hkind : s.kind = op.kind) (hrest : s.rest = ⟨es⟩)
    (hequal : s.joinPart = equal.map Tree.id) (hcond : Conditioned p j op condition) (hes : PartsOf q es)
    (h : Derives xs p₀ p ([x, y] ++ (condition.toList ++ (equal.toList ++ es)))) :
    HaltsIn (joinAgain s x.id y.id) c p (Rejoined xs p₀ s (Joins op condition equal x y) es c p) := by
  refine .bind (condition_halts hjoin hkind hequal hcond h) ?_
  rintro ⟨k, cond⟩ c p₁ ⟨rfl, hkeeps, op', cs, h₁, hjoinOf, hJ⟩
  refine .ite (fun hno => .pure ⟨rfl, fun _ => ⟨by simpa using hno, hkeeps⟩, by simp⟩) fun hyes => ?_
  rw [show joinOf x.id y.id k cond = _ from hjoinOf]
  exact filterRest_halts cs hrest hes hyes h₁ hJ

end Again

end Rules

end Planwright
