import Planwright.Proofs.Plan.Copy
import Planwright.Proofs.Semantics.Equivalence

/-! Equivalence, hashes and copies go together. Where tables are known by their numbers and no constant is a
    float, equivalent trees have the same hash, and a copy of an expression is equivalent to it. -/

namespace Planwright

open Run

namespace Op

variable {a b op : Op} (H : List UInt8 → UInt64)

/-- The hash of a node under any hash of bytes. -/
def hashWith (op : Op) (children : List UInt64) : UInt64 :=
  H (intBytes op.kind.code ++ op.payloadBytes ++ children.flatMap SipHash.wordBytes)

def byteHash : List UInt8 → UInt64 := SipHash.hash 0x6f63746f706c616e 0x7265777269746573

theorem Agrees.symm (h : a.Agrees b) : b.Agrees a := by
  cases h with
  | same => exact .same a
  | constant h => exact .constant h.symm
  | internalConstant h => exact .internalConstant h.symm

theorem Agrees.trans {c : Op} (h : a.Agrees b) (h' : b.Agrees c) : a.Agrees c := by
  cases h with
  | same => exact h'
  | constant h =>
    cases h' with
    | same => exact .constant h
    | constant h' => exact .constant (h.trans h')
  | internalConstant h =>
    cases h' with
    | same => exact .internalConstant h
    | internalConstant h' => exact .internalConstant (h.trans h')

theorem Agrees.value?_eq_any (h : a.Agrees b) : a.value? = some .any ↔ b.value? = some .any := by
  cases h with
  | same => rfl
  | constant h | internalConstant h => cases h <;> simp [value?]

theorem valueBytes_eq {v w : Value} (h : v.Coincides w) : valueBytes v = valueBytes w := by
  cases h with
  | refl => rfl
  | time h => simp only [valueBytes, h]; rfl

theorem Agrees.hashWith_eq (h : a.Agrees b) (children : List UInt64) : a.hashWith H children = b.hashWith H children := by
  cases h with
  | same => rfl
  | constant h | internalConstant h => simp [hashWith, payloadBytes, kind, type, value?, h.type, valueBytes_eq h]

theorem equivalent_ends (h : a.value? ≠ some .any) (b : Op) : ∃ same, a.equivalent b = .ok same := by
  unfold equivalent
  split
  · exact ⟨_, rfl⟩
  · split
    all_goals try exact ⟨_, rfl⟩
    split
    · rename_i v w hv _
      unfold Value.equals
      split
      · rw [Value.compare, if_neg fun hany : v = .any ∧ w = .any => h (hany.1 ▸ hv)]
        exact ⟨_, rfl⟩
      · exact ⟨_, rfl⟩
    · exact ⟨_, rfl⟩

theorem hash_of_analyze {children : List Child} {i : Info} (h : op.analyze children = .ok i) :
    i.hash = op.hashWith byteHash (children.map (·.info.hash)) := by
  unfold analyze at h
  extract_lets i₀ at h
  have hi₀ : i₀.hash = op.hashWith byteHash (children.map (·.info.hash)) := rfl
  split at h
  all_goals try (cases h; exact hi₀)
  all_goals try (obtain ⟨_, -, h⟩ := bind_ok.mp h; cases h; exact hi₀)
  · cases h
    exact List.foldlRecOn (motive := fun j : Info => j.hash = _) children _ hi₀ fun j hj _ _ => hj
  · obtain ⟨_, -, h⟩ := bind_ok.mp h
    cases h
    cases ‹SetKind› <;> exact hi₀
  · split at h
    · cases h
      exact hi₀
    · cases h

end Op

namespace Tree

variable (H : List UInt8 → UInt64)
variable {cs : List Tree}

def hashWith : Tree → UInt64
  | node _ op cs => op.hashWith H (hashes cs)
where
  hashes : List Tree → List UInt64
    | [] => []
    | c :: cs => hashWith c :: hashes cs

theorem hashWith_node {id : NodeId} {op : Op} : (node id op cs).hashWith H = op.hashWith H (cs.map (hashWith H)) := by
  have hmap : ∀ cs, hashWith.hashes H cs = cs.map (hashWith H) := by
    intro cs
    induction cs with
    | nil => rfl
    | cons c cs ih => rw [hashWith.hashes, ih, List.map_cons]
  rw [hashWith, hmap]

theorem map_asChild {f : Info → UInt64} {g : Tree → UInt64} {is : List Info}
    (h : List.Forall₂ (fun c i => f i = g c) cs is) : (List.zipWith asChild cs is).map (fun c => f c.info) = cs.map g := by
  induction h with
  | nil => rfl
  | cons h _ ih => rw [List.zipWith_cons_cons, List.map_cons, ih, List.map_cons, ← h]; rfl

theorem hash_of_analysis {t : Tree} {i : Info} (h : t.analysis = .ok i) : i.hash = t.hashWith Op.byteHash := by
  induction t using induct generalizing i with
  | node id op cs ih =>
    obtain ⟨is, his, h⟩ := analysis_eq_ok.mp h
    rw [Op.hash_of_analyze h, hashWith_node, map_asChild (forall₂_imp_mem his fun c hc i _ h => ih c hc h)]

theorem each_ends (h : ∀ c ∈ cs, ∀ t : Tree, ∃ same, c.equivalent t = .ok same) (ds : List Tree) :
    ∃ same, equivalent.each cs ds = .ok same := by
  induction cs generalizing ds with
  | nil => exact ⟨true, rfl⟩
  | cons c cs ih =>
    cases ds with
    | nil => exact ⟨true, rfl⟩
    | cons d ds =>
      obtain ⟨hc, hcs⟩ := List.forall_mem_cons.mp h
      obtain ⟨same, hsame⟩ := hc d
      rw [equivalent.each, hsame]
      cases same with
      | false => exact ⟨false, rfl⟩
      | true => exact ih hcs ds

theorem equivalent_ends {s : Tree} (h : ∀ v ∈ s.constants, v ≠ .any) (t : Tree) : ∃ same, s.equivalent t = .ok same := by
  induction s using induct generalizing t with
  | node i a cs ih =>
    obtain ⟨j, b, ds⟩ := t
    have hop : a.value? ≠ some .any := fun ha => h _ (List.mem_filterMap.mpr ⟨node i a cs, by simp, ha⟩) rfl
    have hcs (c) (hc : c ∈ cs) (t : Tree) := ih c hc (fun v hv => h v (mem_filterMap_subtrees hc hv)) t
    obtain ⟨same, hsame⟩ := Op.equivalent_ends hop b
    rw [equivalent, hsame]
    split
    · exact ⟨_, rfl⟩
    · cases same with
      | false => exact ⟨_, rfl⟩
      | true =>
        simp only [bind, Except.bind, Bool.not_true, Bool.false_or]
        split
        · exact ⟨_, rfl⟩
        · exact each_ends hcs ds

end Tree

namespace Plan

open Planwright.Tree

variable {p : Plan} {a b c : Tree}

def NumbersTables (p : Plan) : Prop := ∀ r ∈ p.nodes, ∀ r' ∈ p.nodes, ∀ x y, r.op = .scanTable x → r'.op = .scanTable y → x.id = y.id → x = y

/-- The plan holds a tree without floats. -/
structure HoldsExact (p : Plan) (t : Tree) : Prop where
  held : p.Holds t
  exact : ∀ v ∈ t.constants, v.type ≠ .float

theorem HoldsExact.of_mem (h : p.HoldsExact a) (hc : c ∈ a.children) : p.HoldsExact c := by
  obtain ⟨id, op, cs⟩ := a
  exact ⟨h.held.of_mem hc, fun v hv => h.exact v (mem_filterMap_subtrees hc hv)⟩

theorem HoldsExact.equivalent_op (ha : p.HoldsExact a) (hb : p.HoldsExact b) (htables : p.NumbersTables) :
    a.op.equivalent b.op = .ok true ↔ a.op.Agrees b.op ∧ a.op.value? ≠ some .any := by
  obtain ⟨i, o, cs⟩ := a
  refine Op.equivalent_eq_ok (fun v hv => ha.exact v (List.mem_filterMap.mpr ⟨_, by simp, hv⟩)) fun s t hs ht => ?_
  obtain ⟨r, hr⟩ := ha.held.has
  obtain ⟨r', hr'⟩ := hb.held.has
  exact htables r (Array.mem_of_getElem? hr.found) r' (Array.mem_of_getElem? hr'.found) s t (hr.op.trans hs) (hr'.op.trans ht)

theorem equivalent_symm (htables : p.NumbersTables) (ha : p.HoldsExact a) (hb : p.HoldsExact b)
    (h : a.equivalent b = .ok true) : b.equivalent a = .ok true := by
  induction a using induct generalizing b with
  | node i o cs ih =>
    obtain ⟨j, o', ds⟩ := b
    refine equivalent_node.mpr ((equivalent_node.mp h).imp Eq.symm fun ⟨hop, hcs⟩ => ⟨?_, ?_⟩)
    · obtain ⟨hagrees, hany⟩ := (ha.equivalent_op hb htables).mp hop
      exact (hb.equivalent_op ha htables).mpr ⟨hagrees.symm, fun h => hany (hagrees.value?_eq_any.mpr h)⟩
    · exact (forall₂_imp_mem hcs fun c hc d hd h => ih c hc (ha.of_mem hc) (hb.of_mem hd) h).flip

theorem forall₂_comp {R S T : Tree → Tree → Prop} {as bs cs : List Tree} (h : List.Forall₂ R as bs) (h' : List.Forall₂ S bs cs)
    (hT : ∀ a ∈ as, ∀ b ∈ bs, ∀ c ∈ cs, R a b → S b c → T a c) : List.Forall₂ T as cs := by
  induction h generalizing cs with
  | nil =>
    cases h'
    exact .nil
  | cons hab _ ih =>
    cases h' with
    | cons hbc h' =>
      refine .cons (hT _ (by simp) _ (by simp) _ (by simp) hab hbc) (ih h' fun a ha b hb c hc => ?_)
      exact hT a (List.mem_cons_of_mem _ ha) b (List.mem_cons_of_mem _ hb) c (List.mem_cons_of_mem _ hc)

theorem equivalent_trans (htables : p.NumbersTables) (ha : p.HoldsExact a) (hb : p.HoldsExact b) (hd : p.HoldsExact c)
    (hab : a.equivalent b = .ok true) (hbc : b.equivalent c = .ok true) : a.equivalent c = .ok true := by
  induction a using induct generalizing b c with
  | node i o cs ih =>
    obtain ⟨j, o', ds⟩ := b
    obtain ⟨k, o'', es⟩ := c
    rcases equivalent_node.mp hab with hid | ⟨hop, hcs⟩
    · exact ha.held.unique hb.held hid ▸ hbc
    · rcases equivalent_node.mp hbc with hid | ⟨hop', hds⟩
      · exact hb.held.unique hd.held hid ▸ hab
      · obtain ⟨hagrees, hany⟩ := (ha.equivalent_op hb htables).mp hop
        obtain ⟨hagrees', -⟩ := (hb.equivalent_op hd htables).mp hop'
        refine equivalent_node.mpr (.inr ⟨(ha.equivalent_op hd htables).mpr ⟨hagrees.trans hagrees', hany⟩, ?_⟩)
        exact forall₂_comp hcs hds fun x hx y hy z hz => ih x hx (ha.of_mem hx) (hb.of_mem hy) (hd.of_mem hz)

theorem hashWith_eq_of_equivalent (H : List UInt8 → UInt64) (htables : p.NumbersTables) (ha : p.HoldsExact a) (hb : p.HoldsExact b)
    (h : a.equivalent b = .ok true) : a.hashWith H = b.hashWith H := by
  induction a using induct generalizing b with
  | node i o cs ih =>
    obtain ⟨j, o', ds⟩ := b
    rcases equivalent_node.mp h with hid | ⟨hop, hcs⟩
    · rw [ha.held.unique hb.held hid]
    · have hchildren : cs.map (hashWith H) = ds.map (hashWith H) :=
        map_eq_map_of_forall₂ (forall₂_imp_mem hcs fun c hc d hd h => ih c hc (ha.of_mem hc) (hb.of_mem hd) h)
      rw [hashWith_node, hashWith_node, hchildren]
      exact ((ha.equivalent_op hb htables).mp hop).1.hashWith_eq H _

theorem copiedOp_of_isScalar {op : Op} (h : op.kind.isScalar) : copiedOp op .empty p = .ok ((op, .empty), p) := by
  cases op with
  | combine kind => cases kind <;> cases h
  | scanTable | project | distinct | groupBy | sort | constrainedSort | varDef => cases h
  | _ => rfl

def BothWays (a b : Tree) : Prop := a.equivalent b = .ok true ∧ b.equivalent a = .ok true

theorem mapM_copyTree_equivalent {cs : List Tree} (ih : ∀ c ∈ cs, ∀ p, RunsTo (copyTree c) .empty p fun n m p' =>
      m = .empty ∧ Keeps ∅ p p' ∧ ∃ d, d.id = n ∧ p'.Holds d ∧ BothWays c d) : RunsTo (cs.mapM copyTree) .empty p fun ns m p' =>
      m = .empty ∧ Keeps ∅ p p' ∧ ∃ ds : List Tree, ns = ds.map Tree.id ∧ (∀ d ∈ ds, p'.Holds d) ∧ List.Forall₂ BothWays cs ds := by
  induction cs generalizing p with
  | nil => exact .pure ⟨rfl, .refl _ _, [], rfl, nofun, .nil⟩
  | cons c cs ihs =>
    obtain ⟨hc, hcs⟩ := List.forall_mem_cons.mp ih
    rw [List.mapM_cons]
    refine .bind (hc p) ?_
    rintro _ _ p₁ ⟨rfl, h₁, d, rfl, hd, hcd⟩
    refine .bind (ihs hcs) ?_
    rintro _ _ p₂ ⟨rfl, h₂, ds, rfl, hds, hcds⟩
    exact .pure ⟨rfl, h₁.and_then h₂, d :: ds, rfl, List.forall_mem_cons.mpr ⟨h₂.still hd, hds⟩, .cons hcd hcds⟩

theorem copyTree_equivalent (hwf : a.wellFormed) (hs : a.isScalar)
    (hvalues : ∀ v ∈ a.constants, v.type ≠ .float ∧ v ≠ .any) : RunsTo (copyTree a) .empty p fun n m p' =>
      m = .empty ∧ Keeps ∅ p p' ∧ ∃ b, b.id = n ∧ p'.Holds b ∧ BothWays a b := by
  induction a using induct generalizing p with
  | node i op cs ih =>
    obtain ⟨hop, hcs⟩ := isScalar_node.mp hs
    obtain ⟨-, hwfs⟩ := wellFormed_node.mp hwf
    have hself : op.equivalent op = .ok true := by
      have hown (v) (hv : op.value? = some v) := hvalues v (List.mem_filterMap.mpr ⟨.node i op cs, by simp, hv⟩)
      refine (Op.equivalent_eq_ok (fun v hv => (hown v hv).1) fun s t hs ht _ => ?_).mpr ⟨.same op, fun hv => (hown _ hv).2 rfl⟩
      cases hs.symm.trans ht
      rfl
    rw [copyTree, copyAll_eq_mapM]
    refine .bind (mapM_copyTree_equivalent fun c hc p =>
      ih c hc (hwfs c hc) (hcs c hc) fun v hv => hvalues v (mem_filterMap_subtrees hc hv)) ?_
    rintro _ _ p₁ ⟨rfl, h₁, ds, rfl, hds, hcds⟩
    refine .bind (R := fun op' m p' => op' = op ∧ m = .empty ∧ p' = p₁) ⟨op, .empty, p₁, copiedOp_of_isScalar hop, rfl, rfl, rfl⟩ ?_
    rintro _ _ _ ⟨rfl, rfl, rfl⟩
    obtain ⟨n, p₂, hrun, hn⟩ := (create_works ds hds).reaches (by rw [← hcds.length_eq]; exact admits_of_wellFormed hwf)
    refine .lift hrun ⟨rfl, h₁.and_then hn.keeps, _, rfl, hn.holds, ?_, ?_⟩
    · exact equivalent_node.mpr (.inr ⟨hself, hcds.imp fun _ _ h => h.1⟩)
    · exact equivalent_node.mpr (.inr ⟨hself, (hcds.imp fun _ _ h => h.2).flip⟩)

/-- On trees without floats equivalence is reflexive, symmetric and transitive, and gives an answer where no constant is of type
    `Any`; equivalent trees have the same hash, whatever hashes the bytes, and so it is in their analyses; and an expression
    without constants of type `Any` is equivalent to its copy. -/
theorem equivalent_lawful (htables : p.NumbersTables) :
    (∀ a : Tree, a.equivalent a = .ok true) ∧
    (∀ a b : Tree, (∀ v ∈ a.constants, v ≠ .any) → ∃ same, a.equivalent b = .ok same) ∧
    (∀ a b, p.HoldsExact a → p.HoldsExact b → (a.equivalent b = .ok true ↔ b.equivalent a = .ok true)) ∧
    (∀ a b c, p.HoldsExact a → p.HoldsExact b → p.HoldsExact c → a.equivalent b = .ok true → b.equivalent c = .ok true →
      a.equivalent c = .ok true) ∧
    (∀ a b, p.HoldsExact a → p.HoldsExact b → a.equivalent b = .ok true →
      (∀ H, a.hashWith H = b.hashWith H) ∧ (a.wellFormed = true → b.wellFormed = true → ∃ i p₁ j p₂,
        info a.id p = .ok (i, p₁) ∧ info b.id p = .ok (j, p₂) ∧ i.hash = j.hash ∧ i.hash = a.hashWith Op.byteHash)) ∧
    ∀ a, p.HoldsExact a → a.wellFormed = true → a.isScalar = true → (∀ v ∈ a.constants, v ≠ .any) → ∃ b m p',
      copySubtree a.id p = .ok ((b.id, m), p') ∧ p'.Holds a ∧ p'.Holds b ∧ a.equivalent b = .ok true ∧ b.equivalent a = .ok true := by
  refine ⟨fun a => ?_, fun a b h => equivalent_ends h b, fun a b ha hb => ?_, fun a b c => equivalent_trans htables,
    fun a b ha hb h => ⟨fun H => hashWith_eq_of_equivalent H htables ha hb h, fun hwfa hwfb => ?_⟩, fun a ha hwf hs hany => ?_⟩
  · obtain ⟨i, o, cs⟩ := a
    exact equivalent_node.mpr (.inl rfl)
  · exact ⟨equivalent_symm htables ha hb, equivalent_symm htables hb ha⟩
  · obtain ⟨i, p₁, hi, -, hianalysis⟩ := ha.held.info_reaches hwfa
    obtain ⟨j, p₂, hj, -, hjanalysis⟩ := hb.held.info_reaches hwfb
    have hhash := hash_of_analysis hianalysis
    refine ⟨i, p₁, j, p₂, hi, hj, ?_, hhash⟩
    rw [hhash, hash_of_analysis hjanalysis, hashWith_eq_of_equivalent _ htables ha hb h]
  · obtain ⟨_, m, p', hrun, -, hk, b, rfl, hb, hab, hba⟩ := copyTree_equivalent (p := p) hwf hs fun v hv => ⟨ha.exact v hv, hany v hv⟩
    exact ⟨b, m, p', bind_run_ok.mpr ⟨a, p, ha.held.tree_run, hrun⟩, hk.still ha.held, hb, hab, hba⟩

/-- `NOT (12:00 IS NULL)`, and the same with the time of another zone and the same instant. -/
def dialled : Plan :=
  { vars := ⟨#[]⟩
    nodes := #[⟨.constant (.time ⟨2024, 1, 1, 12, 0, 0, 0, 0⟩), [], none⟩, ⟨.scalar .isNull .boolean, [0], none⟩,
      ⟨.scalar .not .boolean, [1], none⟩, ⟨.constant (.time ⟨2024, 1, 1, 13, 0, 0, 0, 60⟩), [], none⟩,
      ⟨.scalar .isNull .boolean, [3], none⟩, ⟨.scalar .not .boolean, [4], none⟩]
    tableCount := 0
    root := 5 }

theorem equivalent_lawful_dialled : ∃ i p₁ j p₂ s b m p', info 2 dialled = .ok (i, p₁) ∧ info 5 dialled = .ok (j, p₂) ∧
    i.hash = j.hash ∧ dialled.tree? 2 = some s ∧ copySubtree 2 dialled = .ok ((b.id, m), p') ∧ s.equivalent b = .ok true := by
  have hp : ∀ r ∈ dialled.nodes, r.info = none := by decide
  have hkinds : ∀ r ∈ dialled.nodes, r.op.kind ≠ .scanTable := by decide
  have htables : dialled.NumbersTables := fun r hr _ _ x _ hx => absurd (by rw [hx]; rfl) (hkinds r hr)
  obtain ⟨s, hs⟩ : ∃ s, dialled.tree? 2 = some s := ⟨_, rfl⟩
  obtain ⟨t, ht⟩ : ∃ t, dialled.tree? 5 = some t := ⟨_, rfl⟩
  have hs' : dialled.HoldsExact s := ⟨holds_of_view hp hs, by cases hs; decide⟩
  have ht' : dialled.HoldsExact t := ⟨holds_of_view hp ht, by cases ht; decide⟩
  obtain ⟨-, -, -, -, hhash, hcopy⟩ := equivalent_lawful htables
  cases hs
  cases ht
  obtain ⟨i, p₁, j, p₂, hi, hj, hij, -⟩ := (hhash _ _ hs' ht' (by decide +kernel)).2 (by decide) (by decide)
  obtain ⟨b, m, p', hrun, -, -, hb, -⟩ := hcopy _ hs' (by decide) (by decide) (by decide)
  exact ⟨i, p₁, j, p₂, _, b, m, p', hi, hj, hij, rfl, hrun, hb⟩

/-- `NOT (TRUE IS NULL)`, `NOT (FALSE IS NULL)` and a constant of type `Any`. -/
def lapsed : Plan :=
  { vars := ⟨#[]⟩
    nodes := #[⟨.constantPredicate true, [], none⟩, ⟨.scalar .isNull .boolean, [0], none⟩, ⟨.scalar .not .boolean, [1], none⟩,
      ⟨.constantPredicate false, [], none⟩, ⟨.scalar .isNull .boolean, [3], none⟩, ⟨.scalar .not .boolean, [4], none⟩,
      ⟨.constant .any, [], none⟩]
    tableCount := 0
    root := 2 }

/-- Whether two trees are equivalent and have the same hash, after one is made like the other below what is remembered of it. -/
def overtaken : PlanM (Bool × Bool) := do
  let _ ← info 2
  setChild 1 0 3
  let same ← (← tree 2).equivalent (← tree 5)
  return (same, (← info 2).hash == (← info 5).hash)

/-- What is remembered of a tree may not be so any more, and then equivalent trees have different hashes; and a constant of type
    `Any` is not compared with its copy. -/
theorem equivalent_unlawful : (overtaken.run' lapsed).toOption = some (true, false) ∧
    ∃ p', copySubtree 6 lapsed = .ok ((7, .empty), p') ∧ p'.tree? 7 = some (.node 7 (.constant .any) []) ∧
      (Tree.node 6 (.constant .any) []).equivalent (.node 7 (.constant .any) []) = .error .anyCompared := by
  refine ⟨by decide +kernel, { lapsed with nodes := lapsed.nodes.push ⟨.constant .any, [], none⟩ }, rfl, rfl, rfl⟩

end Plan

end Planwright
