import Planwright.Proofs.Ledger.Basic

/-! What the steps of rules make of what is at hand: reading, building, copying, renaming and putting expressions in the
    place of variables. -/

namespace Planwright.Ledger

open Run Plan Asset

variable {b : Option Plan} {x y : RuleM (Option NodeId)} {μ : VarMap} {c : Context} {F : Multiset Asset} {s : Substitution}
  {q : Predicate}
variable {α β : Type} {l : Ledger} {A A₁ A₂ : Multiset Asset} {B : α → Multiset Asset} {n m : NodeId} {k : OpKind} {cs : List NodeId}
  {i : Nat} {ρ : Role}

/-! ### Steps that change nothing -/

/-- What is at hand may be counted in another way. -/
def Yields (l : Ledger) (A B : Multiset Asset) : Prop := ∀ c p F, l.Owns c p (A + F) → l.Owns c p (B + F)

theorem yields_of_le (h : A₂ ≤ A₁) : l.Yields A₁ A₂ := fun _ _ F ho => l.weaken (add_le_add_left h F) ho

theorem Yields.trans {A₃ : Multiset Asset} (h : l.Yields A₁ A₂) (h' : l.Yields A₂ A₃) : l.Yields A₁ A₃ := fun c p F ho =>
  h' c p F (h c p F ho)

theorem Yields.frame (h : l.Yields A₁ A₂) (A : Multiset Asset) : l.Yields (A₁ + A) (A₂ + A) := fun c p F ho => by
  rw [add_assoc] at ho ⊢
  exact h c p _ ho

theorem yields_view : l.Yields {.tree ρ n} ({.view ρ n} + {.tree ρ n}) := fun c p F ho => by
  rw [add_assoc]
  exact l.shows ho

theorem yields_views : l.Yields {.view ρ n} ({.view ρ n} + {.view ρ n}) := fun c p F ho => by
  rw [add_assoc]
  exact l.again ho

theorem Yields.makes {x : PlanM α} (h : l.Yields A₁ A₂) (hx : l.Makes A₂ x B) : l.Makes A₁ x B := fun c p F ho =>
  hx c p F (h c p F ho)

theorem Yields.makesIn {x : RuleM α} (h : l.Yields A₁ A₂) (hx : l.MakesIn A₂ x B) : l.MakesIn A₁ x B := fun c p F ho =>
  hx c p F (h c p F ho)

theorem Yields.agree {x y : RuleM α} (h : l.Yields A₁ A₂) (hx : l.Agree A₂ x y B) : l.Agree A₁ x y B := fun c p F ho =>
  hx c p F (h c p F ho)

theorem Yields.concur (h : l.Yields A₁ A₂) (hx : l.Concur b A₂ ρ x y) :
    l.Concur b A₁ ρ x y := fun c p F hb ho => hx c p F hb (h c p F ho)

theorem Concur.sees (ρ' : Role) (n : NodeId) (A₂ : Multiset Asset)
    (hA : A = {.tree ρ' n} + A₂)
    (h : l.Concur b ({.view ρ' n} + ({.tree ρ' n} + A₂)) ρ x y) : l.Concur b A ρ x y := by
  subst hA
  rw [← add_assoc] at h
  exact (yields_view.frame A₂).concur h

theorem Makes.of_eq {x : PlanM α} (hx : l.Makes A₁ x B) (h : A = A₁) : l.Makes A x B := h ▸ hx

theorem deals_of_keeps {x : PlanM α} (hx : ∀ p, Ends x p fun _ p' => Keeps ∅ p p') : l.Deals A x fun _ => A := fun _ p _ h =>
  (hx p).mono fun _ _ hk => l.adds hk.adds h

/-! ### Reading in rules -/

section Reading
variable {b : Option Plan} {p : Plan} {f g : α → RuleM (Option NodeId)}

theorem Concur.make {x : PlanM α} (hx : l.Makes A₁ x B) (A₂ : Multiset Asset) (hA : A = A₁ + A₂)
    (hf : ∀ a, l.Concur b (B a + A₂) ρ (f a) (g a)) : l.Concur b A ρ (liftM x >>= f) (liftM x >>= g) :=
  .step hx.lift A₂ hA hf

theorem Concur.look {x : PlanM α} (hx : Looks x) (hf : ∀ a, l.Concur b A ρ (f a) (g a)) :
    l.Concur b A ρ (liftM x >>= f) (liftM x >>= g) :=
  .quiet (.plan hx) hf

theorem Concur.read {x : PlanM α} {a : α} (hx : ∀ p', Adds p p' → x p' = .ok (a, p')) (hf : l.Concur (some p) A ρ (f a) (g a)) :
    l.Concur (some p) A ρ (liftM x >>= f) (liftM x >>= g) := by
  intro c p' F hb ho
  have hrun := hx p' hb.adds
  refine bind_both ⟨rfl, .lift (R := fun a' c' p'' => a' = a ∧ c' = c ∧ p'' = p') fun a' p'' h => ?_⟩ ?_
  · rw [hrun] at h
    cases h
    exact ⟨rfl, rfl, rfl⟩
  · rintro a' c' p'' ⟨rfl, rfl, rfl⟩
    exact hf c' p'' F hb ho

theorem Concur.readChild {f g : NodeId → RuleM (Option NodeId)} {c : NodeId} (ha : p.At n k cs) (hc : cs[i]? = some c)
    (hf : l.Concur (some p) A ρ (f c) (g c)) : l.Concur (some p) A ρ (liftM (child n i) >>= f) (liftM (child n i) >>= g) :=
  .read (fun _ hp => (ha.adds hp).child_run hc) hf

theorem Concur.readChildren {f g : List NodeId → RuleM (Option NodeId)} (ha : p.At n k cs)
    (hf : l.Concur (some p) A ρ (f cs) (g cs)) : l.Concur (some p) A ρ (liftM (children n) >>= f) (liftM (children n) >>= g) :=
  .read (fun _ hp => (ha.adds hp).children_run) hf

theorem Concur.readKind {f g : OpKind → RuleM (Option NodeId)} (ha : p.At n k cs) (hf : l.Concur (some p) A ρ (f k) (g k)) :
    l.Concur (some p) A ρ (liftM (kind n) >>= f) (liftM (kind n) >>= g) :=
  .read (fun _ hp => (ha.adds hp).kind_run) hf

theorem Concur.opens {x y : RuleM (Option NodeId)} {ρ' : Role} (ha : p.At n k cs) (A₂ : Multiset Asset)
    (hA : A = {.tree ρ' n} + A₂) (h : l.Concur (some p) ({.cell k n cs} + trees k 0 cs + A₂) ρ x y) : l.Concur (some p) A ρ x y := by
  intro c p' F hb ho
  subst hA
  refine h c p' F hb ?_
  rw [add_assoc] at ho
  have := l.opens ho (ha.adds hb.adds).known
  simpa only [add_assoc] using this

section Opens
variable {x y : RuleM (Option NodeId)} {a b d : NodeId} {ρ' : Role}

theorem Concur.opensOne (ρ₁ : Role) (ha : p.At n k [a]) (A₂ : Multiset Asset) (hA : A = {.tree ρ' n} + A₂)
    (h : l.Concur (some p) ({.cell k n [a]} + {.tree ρ₁ a} + A₂) ρ x y) (h₁ : k.wants 0 = ρ₁) :
    l.Concur (some p) A ρ x y := by
  subst h₁
  refine .opens ha A₂ hA ?_
  rwa [trees_one]

theorem Concur.opensTwo (ρ₁ ρ₂ : Role) (ha : p.At n k [a, b]) (A₂ : Multiset Asset) (hA : A = {.tree ρ' n} + A₂)
    (h : l.Concur (some p) ({.cell k n [a, b]} + {.tree ρ₁ a} + {.tree ρ₂ b} + A₂) ρ x y) (h₁ : k.wants 0 = ρ₁)
    (h₂ : k.wants 1 = ρ₂) : l.Concur (some p) A ρ x y := by
  subst h₁ h₂
  refine .opens ha A₂ hA ?_
  rwa [trees_two, ← add_assoc ({_} : Multiset Asset)]

theorem Concur.opensThree (ρ₁ ρ₂ ρ₃ : Role) (ha : p.At n k [a, b, d]) (A₂ : Multiset Asset) (hA : A = {.tree ρ' n} + A₂)
    (h : l.Concur (some p) ({.cell k n [a, b, d]} + {.tree ρ₁ a} + {.tree ρ₂ b} + {.tree ρ₃ d} + A₂) ρ x y)
    (h₁ : k.wants 0 = ρ₁) (h₂ : k.wants 1 = ρ₂) (h₃ : k.wants 2 = ρ₃) :
    l.Concur (some p) A ρ x y := by
  subst h₁ h₂ h₃
  refine .opens ha A₂ hA ?_
  rwa [trees_three, ← add_assoc ({_} : Multiset Asset), ← add_assoc ({_} : Multiset Asset)]

theorem Concur.opensAll (ρ₁ : Role) (hw : ∀ i, k.wants i = ρ₁) (ha : p.At n k cs) (A₂ : Multiset Asset) (hA : A = {.tree ρ' n} + A₂)
    (h : l.Concur (some p) ({.cell k n cs} + all ρ₁ cs + A₂) ρ x y) : l.Concur (some p) A ρ x y := by
  refine .opens ha A₂ hA ?_
  rwa [trees_eq_all hw]

end Opens

theorem Concur.readOp {f g : Op → RuleM (Option NodeId)} (cs : List NodeId) (A₂ : Multiset Asset) (hA : A = {.cell k n cs} + A₂)
    (hf : ∀ op, l.Fits k op → l.Concur b A ρ (f op) (g op)) : l.Concur b A ρ (liftM (op n) >>= f) (liftM (op n) >>= g) := by
  intro c p F hb ho
  have hends : EndsIn (liftM (Plan.op n) : RuleM Op) c p fun o c' p' => l.Fits k o ∧ c' = c ∧ p' = p := by
    refine .lift (.bind (R := fun r p' => p' = p ∧ l.Fits k r.op) (fun r p' h => ?_) fun _ _ ⟨hp, h⟩ => .pure ⟨h, rfl, hp⟩)
    obtain ⟨rfl, hr⟩ := found_of_node h
    have hcell : l.Owns c p' ({.cell k n cs} + (A₂ + F)) := by rwa [← add_assoc, ← hA]
    exact ⟨rfl, l.fits hcell hr⟩
  refine bind_both ⟨rfl, hends⟩ ?_
  rintro o _ _ ⟨h, rfl, rfl⟩
  exact hf o h _ _ F hb ho

theorem Concur.of_kind {x y : RuleM (Option NodeId)} (ha : p.At n k cs) (h : l.Concur (some p) {.tree k.role n} k.role x y) :
    l.Concur (some p) {.tree ρ n} ρ x y := by
  intro c p' F hb ho
  have hsame := l.same (l.shows ho) (ha.adds hb.adds)
  obtain ⟨heq, hends⟩ := h c p' F hb (l.retag hsame ho)
  refine ⟨heq, hends.mono fun out _ p'' hout => ?_⟩
  cases out with
  | none => exact hout
  | some m => exact l.retag (l.symm hsame) hout

theorem Concur.givesChild {ρ' : Role} {c : NodeId} (ha : p.At n k cs) (hc : cs[i]? = some c) :
    l.Concur (some p) {.tree ρ' n} (k.wants i) (pure (some c)) (pure (some c)) := by
  refine .opens ha 0 (add_zero _).symm ?_
  rw [trees_eq hc, Nat.zero_add]
  exact .gives ({.cell k n cs} + treesBut k 0 i cs) (by abel)

theorem Concur.inspect {f g : OpKind → RuleM (Option NodeId)}
    (hf : ∀ p' k cs, Adds p p' → p'.At n k cs → l.Concur (some p') A ρ (f k) (g k)) :
    l.Concur (some p) A ρ (liftM (kind n) >>= f) (liftM (kind n) >>= g) := by
  intro c p₁ F hb ho
  have hends : EndsIn (liftM (Plan.kind n) : RuleM OpKind) c p₁ fun k c' p' => c' = c ∧ p' = p₁ ∧ ∃ cs, p₁.At n k cs := by
    refine .lift (.bind op_ends fun o p' ⟨hp, r, hr, ho⟩ => .pure ⟨rfl, hp, r.children, r, hr, ?_, rfl⟩)
    rw [ho]
  refine bind_both ⟨rfl, hends⟩ ?_
  rintro k _ _ ⟨rfl, rfl, cs, hat⟩
  exact (hf _ k cs hb.adds hat _ _ F (.refl _) ho).imp_right fun hnext => hnext.mono fun _ _ _ h => h.rebase hb

theorem concurs_matching {name : String} {ps : List Pattern} {f : (NodeId → RuleM NodeId) → NodeId → RuleM (Option NodeId)}
    (h : ∀ {settle settle' p n}, l.Settles settle settle' → (matching k ps).holds p n →
      l.Concur (some p) {.tree k.role n} k.role (f settle n) (f settle' n)) :
    l.Concurs ⟨name, matching k ps, f⟩ ⟨name, matching k ps, f⟩ := by
  refine ⟨rfl, rfl, fun hset hm => ?_⟩
  obtain ⟨cs, hat, -⟩ := Pattern.holds_matching hm
  exact .of_kind hat (h hset hm)

theorem concurs_simple {name : String} {ps : List Pattern} {f : NodeId → RuleM (Option NodeId)}
    (h : ∀ p n, (matching k ps).holds p n → l.Works (some p) {.tree k.role n} k.role (f n)) :
    l.Concurs (.simple name (matching k ps) f) (.simple name (matching k ps) f) :=
  concurs_matching fun _ hm => h _ _ hm

end Reading

/-! ### Trees taken apart -/

section Parts

theorem child_again {d : NodeId} (hd : cs[i]? = some d) (hρ : k.wants i = ρ) : l.Makes ({.cell k n cs} + {.tree ρ d}) (child n i)
    fun c => {.cell k n (cs.set i c)} + {.tree ρ c} := by
  intro c p F ho
  subst hρ
  refine .bind children_ends fun ds p' ⟨hp, r, hr, hds⟩ => ?_
  subst hp hds
  split
  · rename_i c hc
    refine .pure ⟨.refl _, ?_⟩
    rw [add_assoc] at ho ⊢
    exact l.rereads ho hd hr hc
  · exact .throw

theorem child_makes (hi : i < cs.length) : l.Makes ({.cell k n cs} + trees k 0 cs) (child n i)
    fun c => {.cell k n (cs.set i c)} + ({.tree (k.wants i) c} + treesBut k 0 i cs) := by
  have hd : cs[i]? = some cs[i] := List.getElem?_eq_getElem hi
  refine ((child_again (k := k) hd rfl).frame (treesBut k 0 i cs) ?_).mono fun c => le_of_eq ?_
  · rw [trees_eq hd, Nat.zero_add, add_assoc]
  · rw [add_assoc]

theorem child_tree {d : NodeId} (hd : cs[i]? = some d) (hρ : k.wants i = ρ) : l.Makes ({.cell k n cs} + {.tree ρ d}) (child n i)
    fun c => {.tree ρ c} :=
  (child_again hd hρ).mono fun _ => le_add_self

theorem children_makes (hρ : ρ.Only k) : l.Makes {.tree ρ n} (children n) fun cs => {.cell k n cs} + trees k 0 cs := by
  intro c p F ho
  refine .bind node_ends fun r p' ⟨hp, hr⟩ => .pure ⟨hp ▸ .refl _, ?_⟩
  subst hp
  rw [add_assoc]
  exact l.opens ho ⟨r, hr, rfl, .inr hρ⟩

theorem defs_makes : l.Makes (defList n) (children n) fun ds => all .varDef ds :=
  (children_makes Role.only_varDefList).mono fun ds => by
    rw [trees_eq_all (ρ := .varDef) fun _ => rfl]
    exact le_add_self

theorem expr_makes : l.Makes (definition n) (child n 0) expr := by
  refine .bind (children_makes Role.only_varDef) fun cs => ?_
  split
  · rename_i c hc
    refine (yields_of_le ?_).makes (.pure rfl)
    rw [trees_eq hc]
    exact le_add_left le_self_add
  · exact .throw

theorem yields_closed : l.Yields ({.cell k n cs} + trees k 0 cs) {.tree k.role n} := fun c p F ho => by
  rw [add_assoc] at ho
  exact l.closes ho

/-- The expression of a definition is looked at before it is clear what becomes of the definition. -/
theorem Agree.peek {f g : NodeId → RuleM β} {D : β → Multiset Asset} (A₂ : Multiset Asset) (hA : A = definition n + A₂)
    (hf : ∀ cs e, cs[0]? = some e → l.Agree ({.cell .varDef n cs} + trees .varDef 0 cs + A₂) (f e) (g e) D) :
    l.Agree A (liftM (child n 0) >>= f) (liftM (child n 0) >>= g) D := fun c p F ho => by
  subst hA
  rw [add_assoc] at ho
  have hends : EndsIn (liftM (child n 0) : RuleM NodeId) c p fun e c' p' => c' = c ∧ ∃ cs, cs[0]? = some e ∧
      l.Owns c p' ({.cell .varDef n cs} + trees .varDef 0 cs + A₂ + F) := by
    refine .lift (.bind (children_makes (l := l) Role.only_varDef c p (A₂ + F) ho) fun cs p₁ ⟨_, h⟩ => ?_)
    split
    · exact .pure ⟨rfl, cs, ‹_›, l.of_eq h (add_assoc ..).symm⟩
    · exact .throw
  refine bind_both ⟨rfl, hends⟩ ?_
  rintro e _ p₁ ⟨rfl, cs, hc, h⟩
  exact hf cs e hc _ p₁ F h

end Parts

/-! ### Building -/

theorem create_makes {op : Op} (hf : l.Fits k op) (hA : trees k 0 cs = A) (hρ : k.role = ρ) :
    l.Makes A (create op cs) fun n => {.tree ρ n} := fun c p F ho n p' hrun => by
  obtain ⟨ha, rfl, hnode, hadm⟩ := create_adds n p' hrun
  subst hA hρ
  exact ⟨create_builds p _ p' hrun, l.creates (r := ⟨op, cs, none⟩) hf ha hnode hadm ho⟩

theorem create_plain (op : Op) (hop : ∀ kind outputs left right, op ≠ .combine kind outputs left right)
    (hA : trees op.kind 0 cs = A) (hρ : op.kind.role = ρ) : l.Makes A (create op cs) fun n => {.tree ρ n} :=
  create_makes (l.fits_of hop) hA hρ

section Build
variable {a b d : NodeId} {v : VarId} {outputs : VarSet} {type : ScalarType} {ds : List NodeId}

theorem filter_makes : l.Makes (relation a + expr b) (filter a b) relation :=
  create_plain .filter nofun trees_two rfl

theorem project_makes : l.Makes (relation a + defList b) (project a b outputs) relation :=
  create_plain (.project outputs) nofun trees_two rfl

theorem crossJoin_makes : l.Makes (relation a + relation b) (crossJoin a b) relation :=
  create_plain .crossJoin nofun trees_two rfl

theorem innerJoin_makes : l.Makes (relation a + relation b + expr d) (innerJoin a b d) relation :=
  create_plain .innerJoin nofun trees_three rfl

theorem leftOuterJoin_makes : l.Makes (relation a + relation b + expr d) (leftOuterJoin a b d) relation :=
  create_plain .leftOuterJoin nofun trees_three rfl

theorem crossApply_makes : l.Makes (relation a + relation b) (crossApply a b) relation :=
  create_plain .crossApply nofun trees_two rfl

theorem outerApply_makes : l.Makes (relation a + relation b) (outerApply a b) relation :=
  create_plain .outerApply nofun trees_two rfl

theorem singleRowTable_makes : l.Makes 0 singleRowTable relation :=
  create_plain .singleRowTable nofun rfl rfl

theorem varDefList_makes : l.Makes (all .varDef ds) (varDefList ds) defList :=
  create_plain .varDefList nofun (trees_eq_all fun _ => rfl) rfl

theorem singleDef_makes : l.Makes (definition a) (varDefList [a]) defList :=
  varDefList_makes.of_eq (by rw [all_cons, all_nil, add_zero])

theorem varDef_makes : l.Makes (expr a) (varDef v a) definition :=
  create_plain (.varDef v) nofun trees_one rfl

theorem computedVarDef_deals : l.Deals (expr a) (computedVarDef a) fun out => definition out.1 :=
  .quiet op_looks fun _ => .bind (deals_of_keeps fun _ => (newVar_works (P := False)).ends.mono fun _ _ h => h.keeps) fun _ =>
    .bind varDef_makes.deals fun _ => .pure rfl

theorem varRef_makes : l.Makes 0 (varRef v) expr := fun c p F ho =>
  .get (create_plain (.varRef v (p.vars.type v)) nofun rfl rfl c p F ho)

theorem null_makes : l.Makes 0 (Plan.null type) expr := create_plain (.null type) nofun rfl rfl

theorem internalConstant_makes {value : Value} : l.Makes 0 (internalConstant value) expr :=
  create_plain (.internalConstant value) nofun rfl rfl

theorem predicate_makes {holds : Bool} : l.Makes 0 (predicate holds) expr :=
  create_plain (.constantPredicate holds) nofun rfl rfl

theorem and_makes : l.Makes (expr a + expr b) (Plan.and a b) expr :=
  create_plain (.scalar .and .boolean) nofun trees_two rfl

theorem isNull_makes : l.Makes (expr a) (isNull a) expr :=
  create_plain (.scalar .isNull .boolean) nofun trees_one rfl

theorem caseWhen_makes : l.Makes (all .scalar ds) (caseWhen type ds) expr :=
  create_plain (.scalar .caseWhen type) nofun (trees_eq_all fun _ => rfl) rfl

theorem element_makes : l.Makes (relation a) (element a type) expr :=
  create_plain (.scalar .element type) nofun trees_one rfl

theorem nullIf_makes : l.Makes (expr a) (RuleM.nullIf v a) expr := by
  refine .quiet op_looks fun _ => .step varRef_makes (expr a) (zero_add _).symm fun r => ?_
  refine .step isNull_makes (expr a) rfl fun t => .step null_makes _ (zero_add _).symm fun z => ?_
  exact caseWhen_makes.of_eq (by simp only [all_cons, all_nil]; abel)

end Build

/-! ### Copies -/

theorem copySubtree_deals : l.Deals {.view ρ n} (copySubtree n) fun out => {.tree ρ out.1} := fun c p F ho => by
  refine .bind tree_ends fun t p₁ ⟨hp, ht⟩ => ?_
  subst hp
  intro out p' h
  obtain ⟨t', vs, hid, hd⟩ := copyTree_works.ends out.1 out.2 p' h
  have hcopy := l.copies ho ht hd
  rwa [hid] at hcopy

theorem copyExpr_deals : l.Deals {.view ρ n} (copyExpr n) fun m => {.tree ρ m} := fun c p F ho => by
  refine .bind op_ends fun o p₁ ⟨hp, r, hr, ho'⟩ => ?_
  subst hp ho'
  split
  · rename_i v type hop
    -- A reference is scalar, whatever the sight of it is said to be.
    have hat : p₁.At n .varRef r.children := ⟨r, hr, by rw [hop]; rfl, rfl⟩
    have hsame : l.Same ρ .scalar := l.same ho hat
    refine (varRef_makes c p₁ F (l.weaken ?_ ho)).mono fun m p' ⟨_, hm⟩ => l.retag (l.symm hsame) hm
    rw [zero_add]
    exact le_add_self
  · have hcopy : l.Deals {.view ρ n} (do return (← copySubtree n).1) fun m => {.tree ρ m} :=
      .bind copySubtree_deals fun _ => .pure rfl
    exact hcopy c p₁ F ho

/-! ### Renaming -/

theorem renameNode_deals : l.Deals A (renameNode μ n) fun _ => A := fun c p F ho => by
  refine .get (.bind op_ends fun o p₁ ⟨hp, r, hr, ho'⟩ => ?_)
  subst hp ho'
  refine .bind (.lift (R := fun o p' => p' = p₁ ∧ r.op.renamed? μ p₁.vars.type = .ok o) fun o h => ⟨rfl, h⟩) fun o p₂ ⟨hp, hop⟩ => ?_
  subst hp
  split
  · rename_i op
    obtain ⟨hkind, hfits⟩ := Op.renamed?_fits hop
    refine .bind (R := fun _ p' => l.Owns c p' (A + F)) (.bind node_ends fun r' p₃ ⟨hp, hr'⟩ => ?_) fun _ _ h => .pure h
    subst hp
    obtain rfl : r = r' := Option.some.inj (hr.symm.trans hr')
    refine .bind (R := fun _ p' => p' = p₃) ?_ fun _ p₄ hp => hp ▸ .modify (l.renames ho hr hkind hfits)
    rw [checkCount]
    split
    · exact .pure rfl
    · exact .throw
  · exact .pure ho

theorem renameTree_deals {t : Tree} : l.Deals A (renameTree μ t) fun _ => A := by
  induction t using Tree.induct with
  | node id op cs ih =>
    have hall : ∀ ds : List Tree, (∀ d ∈ ds, d ∈ cs) → l.Deals A (renameTree.renameAll μ ds) fun _ => A := by
      intro ds
      induction ds with
      | nil => exact fun _ => .pure rfl
      | cons d ds ihs =>
        intro hds
        refine .bind (ih d (hds d List.mem_cons_self)) fun _ => ?_
        exact .bind (ihs fun e he => hds e (List.mem_cons_of_mem _ he)) fun _ => .pure rfl
    refine .bind (hall cs fun _ h => h) fun below => .bind renameNode_deals fun own => ?_
    split
    · exact .quiet recompute_looks fun _ => .pure rfl
    · exact .pure rfl

theorem renameSubtree_deals : l.Deals A (renameSubtree μ n) fun _ => A := by
  rw [renameSubtree]
  split
  · exact .pure rfl
  · exact .quiet tree_looks fun _ => renameTree_deals

theorem rename_agree {old new : VarId} : l.DealsIn A (RuleM.rename old new) fun _ => A := by
  rw [RuleM.rename]
  split
  · exact .pure rfl
  · exact agree_write fun c => ⟨c.mappings.insert old new, c.suppressed, rfl⟩

theorem suppress_agree : l.DealsIn A (RuleM.suppress n) fun _ => A := agree_write fun c => ⟨c.mappings, n :: c.suppressed, rfl⟩

theorem renameSubtree_agree : l.DealsIn A (RuleM.renameSubtree n) fun _ => A := fun c p F ho =>
  ⟨rfl, .get (.step (renameSubtree_deals c p F ho) fun _ _ h => .pure h)⟩

/-! ### Nodes whose children are replaced -/

/-- A node with so many children is taken apart. -/
def Opened (l : Ledger) (c : Context) (p : Plan) (k : OpKind) (n : NodeId) (count : Nat) (F : Multiset Asset) : Prop :=
  ∃ cs : List NodeId, cs.length = count ∧ l.Owns c p ({.cell k n cs} + trees k 0 cs + F)

theorem setChild_deals : l.Deals ({.cell k n cs} + {.tree (k.wants i) m}) (setChild n i m)
    fun _ => {.cell k n (cs.set i m)} + {.tree (k.wants i) m} := fun c p F ho => by
  refine .bind node_ends fun r p₁ ⟨hp, hr⟩ => ?_
  subst hp
  split
  · rename_i hi
    rw [add_assoc] at ho
    refine .modify ?_
    rw [add_assoc]
    exact l.sets ho hr hi
  · exact .throw

theorem trees_set (hi : i < cs.length) : trees k 0 (cs.set i m) = {.tree (k.wants i) m} + treesBut k 0 i cs := by
  rw [trees_eq (List.getElem?_set_self hi), treesBut_set, Nat.zero_add]

theorem opened_set {p : Plan} (m : NodeId) (hi : i < cs.length)
    (h : l.Owns c p ({.cell k n (cs.set i m)} + ({.tree (k.wants i) m} + treesBut k 0 i cs) + F)) : l.Opened c p k n cs.length F :=
  ⟨cs.set i m, List.length_set, by rwa [trees_set hi]⟩

/-! ### Expressions in the place of variables -/

def exprs (s : Substitution) : Multiset Asset := (s.map fun x => Asset.view .scalar x.2 : List Asset)

theorem exprs_append {s' : Substitution} : exprs (s ++ s') = exprs s + exprs s' := by
  rw [exprs, exprs, exprs, List.map_append, Multiset.coe_add]

theorem yields_expr {v : VarId} (h : s.lookup v = some m) : l.Yields (exprs s) ({.view .scalar m} + exprs s) := by
  obtain ⟨s₁, s₂, rfl, -⟩ := List.lookup_eq_some_iff.mp h
  have hs : exprs (s₁ ++ (v, m) :: s₂) = {.view .scalar m} + (exprs s₁ + exprs s₂) := by
    rw [exprs_append, show exprs ((v, m) :: s₂) = {.view .scalar m} + exprs s₂ from rfl]
    abel
  rw [hs, ← add_assoc ({.view .scalar m} : Multiset Asset) {.view .scalar m}]
  exact yields_views.frame _

section Walk
variable {f : NodeId → PlanM NodeId} {s : Context} {p : Plan} {S F : Multiset Asset} {count j : Nat}

theorem Opened.step (hf : ∀ c, l.Deals (S + {.tree (k.wants i) c}) (f c) fun c' => S + {.tree (k.wants i) c'})
    (h : l.Opened s p k n count (S + F)) (hi : i < count) : Ends (do
      let c ← f (← child n i)
      setChild n i c) p fun _ p' => l.Opened s p' k n count (S + F) := by
  obtain ⟨cs, rfl, ho⟩ := h
  refine .bind (child_makes hi s p _ ho) fun c p₁ ⟨_, h₁⟩ => ?_
  refine .bind (hf c s p₁ ({.cell k n (cs.set i c)} + treesBut k 0 i cs + F) ?_) fun c' p₂ h₂ => ?_
  · refine l.of_eq h₁ ?_
    beta_reduce
    abel
  have h₂' : l.Owns s p₂ ({.cell k n (cs.set i c)} + {.tree (k.wants i) c'} + (treesBut k 0 i cs + (S + F))) := by
    refine l.of_eq h₂ ?_
    beta_reduce
    abel
  refine (setChild_deals s p₂ _ h₂').mono fun _ p₃ h₃ => opened_set c' hi ?_
  rw [List.set_set] at h₃
  refine l.of_eq h₃ ?_
  beta_reduce
  abel

theorem Opened.walk (hf : ∀ i c, l.Deals (S + {.tree (k.wants i) c}) (f c) fun c' => S + {.tree (k.wants i) c'})
    (h : l.Opened s p k n count (S + F)) (hcount : i + j = count) : Ends ((List.range' i j).forM fun i => do
      let c ← f (← child n i)
      setChild n i c) p fun _ p' => l.Opened s p' k n count (S + F) := by
  induction j generalizing i p with
  | zero => exact .pure h
  | succ j ih =>
    rw [List.range'_succ, List.forM]
    exact .bind (h.step (hf i) (by omega)) fun _ _ h₁ => ih h₁ (by omega)

theorem Opened.closes (h : l.Opened s p k n count F) : l.Owns s p ({.tree k.role n} + F) := by
  obtain ⟨cs, -, ho⟩ := h
  rw [add_assoc] at ho
  exact l.closes ho

end Walk

theorem substituteWithin_deals {fuel : Nat} : l.Deals (exprs s + {.tree ρ n}) (substituteWithin s fuel n)
    fun m => exprs s + {.tree ρ m} := by
  induction fuel generalizing n ρ with
  | zero => exact .throw
  | succ fuel ih =>
    intro c p F ho
    refine .bind node_ends fun r p₁ ⟨hp, hr⟩ => ?_
    subst hp
    by_cases hscalar : r.op.kind.isScalar = true
    swap
    · simp only [hscalar, Bool.not_false, if_true]
      exact .bind (R := fun _ _ => False) .throw fun _ _ h => h.elim
    simp only [hscalar, Bool.not_true, Bool.false_eq_true, if_false]
    have hat : p₁.At n r.op.kind r.children := ⟨r, hr, rfl, rfl⟩
    have hrole : r.op.kind.role = .scalar := OpKind.role_of_isScalar hscalar
    have ho' : l.Owns c p₁ ({.tree ρ n} + (exprs s + F)) := by rwa [← add_assoc, add_comm {_}]
    have hsame : l.Same ρ .scalar := hrole ▸ l.same (l.shows ho') hat
    split
    · rename_i v type hop
      split
      · rename_i m hm
        refine (copyExpr_deals (l := l) (ρ := .scalar) c p₁ (exprs s + F) ?_).mono fun m' p' h' => ?_
        · rw [← add_assoc]
          refine yields_expr hm c p₁ F (l.weaken ?_ ho)
          exact add_le_add_left le_self_add F
        · have := l.retag (l.symm hsame) h'
          rwa [← add_assoc, add_comm {_}] at this
      · exact .pure ho
    · have hopened : l.Opened c p₁ r.op.kind n r.children.length (exprs s + F) := ⟨r.children, rfl, by
        rw [add_assoc]
        exact l.opens ho' hat.known⟩
      rw [List.range_eq_range']
      refine .bind (hopened.walk (fun i _ => ih) (Nat.zero_add _)) fun _ p₂ h₂ => ?_
      refine .bind (recompute_halts n p₂).ends fun _ p₃ hk => .pure ?_
      have hclosed := l.adds hk.keeps.adds h₂.closes
      rw [hrole] at hclosed
      have := l.retag (l.symm hsame) hclosed
      rwa [← add_assoc, add_comm {_}] at this

theorem substitute_deals : l.Deals (exprs s + {.tree ρ n}) (substitute s n) fun m => exprs s + {.tree ρ m} :=
  fun c p F ho => .get (substituteWithin_deals c p F ho)

/-! ### Definitions as a substitution -/

def glances (ρ : Role) (ns : List NodeId) : Multiset Asset := (ns.map (Asset.view ρ) : List Asset)

theorem glances_cons : glances ρ (n :: cs) = {.view ρ n} + glances ρ cs := rfl

theorem glances_makes : l.Makes {.view .varDefList n} (children n) fun ds => glances .varDef ds := fun c p F ho => by
  refine .bind node_ends fun r p₁ ⟨hp, hr⟩ => .pure ⟨hp ▸ .refl _, ?_⟩
  subst hp
  have hall : ∀ ds, (∀ d ∈ ds, d ∈ r.children) → l.Owns c p₁ ({.view .varDefList n} + (glances .varDef ds + F)) := by
    intro ds
    induction ds with
    | nil =>
      intro _
      rwa [show glances .varDef [] = 0 from rfl, zero_add]
    | cons d ds ih =>
      intro hds
      obtain ⟨i, hi⟩ := List.mem_iff_getElem?.mp (hds d List.mem_cons_self)
      have hknown : p₁.Known .varDefList n .varDefList r.children := ⟨r, hr, rfl, .inr Role.only_varDefList⟩
      have h := l.looks (l.again (ih fun e he => hds e (List.mem_cons_of_mem _ he))) hknown hi
      rw [glances_cons]
      rw [add_left_comm] at h
      rwa [add_assoc]
  exact l.weaken le_add_self (hall r.children fun _ h => h)

theorem glance_makes : l.Makes {.view .varDef n} (child n 0) fun e => {.view .scalar e} := fun c p F ho => by
  refine .bind children_ends fun ds p₁ ⟨hp, r, hr, hds⟩ => ?_
  subst hp hds
  split
  · rename_i c hc
    exact .pure ⟨.refl _, l.looks ho ⟨r, hr, rfl, .inr Role.only_varDef⟩ hc⟩
  · exact .throw

def collected : Option Substitution → Multiset Asset
  | none => 0
  | some s => exprs s

theorem collect_makes {uses : Option (List VarId)} {ds : List NodeId} :
    l.MakesIn (exprs s + glances .varDef ds) (RuleM.collect uses s ds) collected := by
  induction ds generalizing s with
  | nil => exact .pure (add_zero _)
  | cons d ds ih =>
    refine .step (Makes.lift glance_makes) (exprs s + glances .varDef ds) (by rw [glances_cons]; abel) fun e => ?_
    have drop : l.MakesIn ({.view .scalar e} + (exprs s + glances .varDef ds)) (pure none) collected :=
      (yields_of_le (Multiset.zero_le _)).makesIn (.pure rfl)
    refine .quiet (.plan tree_looks) fun t => ?_
    split
    · exact drop
    refine .quiet RuleM.isCostly_quiet fun costly => ?_
    split
    · exact drop
    refine .quiet (.plan definedVar_looks) fun v => ?_
    split
    · split
      · exact .getPlan fun _ => .stop
      · exact (yields_of_le le_add_self).makesIn ih
    · have hs : exprs (s ++ [(v, e)]) = exprs s + {.view .scalar e} := exprs_append
      have h := ih (s := s ++ [(v, e)])
      rw [hs] at h
      refine (yields_of_le (le_of_eq ?_)).makesIn h
      abel

theorem substitution?_makes {uses : Option (List VarId)} : l.MakesIn {.view .varDefList n} (RuleM.substitution? n uses) collected :=
  .bind (Makes.lift glances_makes) fun ds => by
    have h : l.MakesIn (exprs [] + glances .varDef ds) (RuleM.collect uses [] ds) collected := collect_makes
    rwa [show exprs [] = 0 from rfl, zero_add] at h

/-! ### Lists of definitions -/

theorem filterM_makes {test : NodeId → RuleM Bool} (ht : ∀ n, Quiet (test n)) {ns : List NodeId} :
    l.MakesIn (all ρ ns) (ns.filterM test) fun kept => all ρ kept := by
  have haux : ∀ acc, l.MakesIn (all ρ (acc ++ ns)) (ns.filterAuxM test acc) fun kept => all ρ kept := by
    induction ns with
    | nil =>
      intro acc
      exact .pure (by rw [List.append_nil])
    | cons n ns ih =>
      intro acc
      refine .quiet (ht n) fun keep => (yields_of_le ?_).makesIn (ih _)
      cases keep with
      | true => exact (all_perm (show (acc ++ n :: ns).Perm (n :: (acc ++ ns)) from List.perm_middle)).symm.le
      | false => exact all_le (((List.sublist_cons_self n ns).append_left acc).subperm)
  exact .bind (haux []) fun kept => .pure (all_perm kept.reverse_perm.symm)

/-! ### Conjunctions -/

def maybe (ρ : Role) : Option NodeId → Multiset Asset
  | none => 0
  | some n => {.tree ρ n}

theorem conjuncts_owns {p : Plan} {d : Nat} {t : Tree} (h : p.view d n = some t)
    (ho : l.Owns c p (expr n + F)) : l.Owns c p (all .scalar (t.conjuncts.map Tree.id) + F) := by
  induction d generalizing n t F with
  | zero => cases h
  | succ d ih =>
    obtain ⟨r, ts, hr, rfl, hts⟩ := view_succ h
    rw [Tree.conjuncts.eq_def]
    split
    · rename_i type a b heq
      obtain ⟨rfl, hop, rfl⟩ : n = _ ∧ r.op = .scalar .and type ∧ ts = [a, b] := Tree.node.inj heq
      generalize hch : r.children = cs at hts
      obtain _ | ⟨ha, _ | ⟨hb, _ | _⟩⟩ := hts
      have hat : p.At n .and [_, _] := ⟨r, hr, by rw [hop]; rfl, hch⟩
      have h₁ := l.weaken le_add_self (l.opens ho hat.known)
      rw [trees_two, add_assoc] at h₁
      have h₂ := ih ha h₁
      rw [add_left_comm] at h₂
      have h₃ := ih hb h₂
      rw [List.map_append, all_append, add_assoc, add_left_comm]
      exact h₃
    · simpa using ho

theorem conjuncts_makes : l.Makes (expr n) (tree n) fun t => all .scalar (t.conjuncts.map Tree.id) := fun _ _ _ ho => by
  refine tree_ends.mono fun t p' ⟨hp, ht⟩ => ?_
  subst hp
  exact ⟨.refl _, conjuncts_owns ht ho⟩

/-- The parts of a conjunction as trees at hand. -/
def parts (q : Predicate) : Multiset Asset := all .scalar (q.parts.map Tree.id)

theorem parts_of_perm {q₁ q₂ : Predicate} (h : (q₁.parts ++ q₂.parts).Perm q.parts) : parts q = parts q₁ + parts q₂ := by
  rw [parts, ← all_perm (h.map Tree.id), List.map_append, all_append, parts, parts]

theorem splitByTable_makes {table : VarSet} :
    l.Makes (parts q) (q.splitByTable table) fun out => parts out.1 + parts out.2 := fun _ p _ ho out p' hrun => by
  obtain ⟨-, ms, hout, hms, -⟩ := (splitByTable_marks table q.parts p).ends out p' hrun
  have hu := (Predicate.splitByTable_looks p).ends out p' hrun |>.unchanged
  exact ⟨hu, l.of_eq (l.adds hu.adds ho) (by rw [hout, parts_of_perm ((marked_perm ms).trans (.of_eq hms))])⟩

theorem foldlM_and_makes {ts : List Tree} : l.Makes (expr n + all .scalar (ts.map Tree.id))
    (ts.foldlM (fun acc part => Plan.and acc part.id) n) expr := by
  induction ts generalizing n with
  | nil => exact .pure (add_zero _)
  | cons t ts ih =>
    rw [List.foldlM_cons]
    exact .step and_makes (all .scalar (ts.map Tree.id)) (by rw [List.map_cons, all_cons, add_assoc]) fun _ => ih

theorem build_makes : l.Makes (parts q) q.build (maybe .scalar) := by
  obtain ⟨ts⟩ := q
  cases ts with
  | nil => exact .pure rfl
  | cons t ts =>
    refine .bind (B := expr) ?_ fun _ => .pure rfl
    exact foldlM_and_makes.of_eq (by rw [parts, List.map_cons, all_cons])

/-! ### Changes in rules -/

theorem Concur.deal {x : PlanM α} {f g : α → RuleM (Option NodeId)} (hx : l.Deals A₁ x B) (A₂ : Multiset Asset)
    (hA : A = A₁ + A₂) (hf : ∀ a, l.Concur none (B a + A₂) ρ (f a) (g a)) : l.Concur b A ρ (liftM x >>= f) (liftM x >>= g) :=
  .change hx.agree A₂ hA hf

end Planwright.Ledger
