import Mathlib.Algebra.Order.Group.Multiset
import Mathlib.Tactic.Abel
import Planwright.Proofs.Plan.Same

/-! Ledgers. A run takes trees apart and puts their parts together again. A ledger keeps account of the parts
    that are at hand, each of them once, and obeys a law for each step that a run is made of. -/

namespace Planwright

open Run Plan

/-- What a node may stand for in its place. -/
inductive Role
  | relational | scalar | varDef | varDefList
  deriving DecidableEq

namespace OpKind

def role : OpKind → Role
  | .varDef => .varDef
  | .varDefList => .varDefList
  | k => if k.isRelational then .relational else .scalar

/-- The role that a kind asks of the child at an index. -/
def wants : OpKind → Nat → Role
  | .filter, i | .constrainedSort, i => if i = 0 then .relational else .scalar
  | .project, i | .groupBy, i => if i = 0 then .relational else .varDefList
  | .innerJoin, i | .leftOuterJoin, i => if i < 2 then .relational else .scalar
  | .varDefList, _ => .varDef
  | .element, _ => .relational
  | k, _ => if k.isRelational then .relational else .scalar

theorem role_of_isScalar {k : OpKind} (h : k.isScalar) : k.role = .scalar := by
  cases k <;> first | rfl | cases h

end OpKind

/-- The role is that of one kind only. -/
def Role.Only (ρ : Role) (k : OpKind) : Prop := ∀ k' : OpKind, k'.role = ρ → k' = k

theorem Role.only_varDef : Only .varDef .varDef := by
  intro k h
  cases k <;> first | rfl | cases h

theorem Role.only_varDefList : Only .varDefList .varDefList := by
  intro k h
  cases k <;> first | rfl | cases h

/-- What a run may have at hand: a whole tree, a single node whose children are accounted for on their own, or the sight of
    a tree that may be read but not used. -/
inductive Asset
  | tree (role : Role) (n : NodeId)
  | cell (kind : OpKind) (n : NodeId) (children : List NodeId)
  | view (role : Role) (n : NodeId)

namespace Asset

/-! ### Trees at hand -/

abbrev relation (n : NodeId) : Multiset Asset := {tree .relational n}

abbrev expr (n : NodeId) : Multiset Asset := {tree .scalar n}

abbrev defList (n : NodeId) : Multiset Asset := {tree .varDefList n}

abbrev definition (n : NodeId) : Multiset Asset := {tree .varDef n}

def all (ρ : Role) (ns : List NodeId) : Multiset Asset := (ns.map (tree ρ) : List Asset)

def trees (k : OpKind) : Nat → List NodeId → Multiset Asset
  | _, [] => 0
  | i, c :: cs => {tree (k.wants i) c} + trees k (i + 1) cs

/-- All of these but the one at an index. -/
def treesBut (k : OpKind) : Nat → Nat → List NodeId → Multiset Asset
  | _, _, [] => 0
  | i, 0, _ :: cs => trees k (i + 1) cs
  | i, j + 1, c :: cs => {tree (k.wants i) c} + treesBut k (i + 1) j cs

section
variable {k : OpKind} {ρ : Role} {c d : NodeId} {cs ds : List NodeId} {i j : Nat}

@[simp] theorem all_nil : all ρ [] = 0 := rfl

@[simp] theorem all_cons : all ρ (c :: cs) = {tree ρ c} + all ρ cs := by
  rw [all, all, List.map_cons, ← Multiset.cons_coe, Multiset.singleton_add]

@[simp] theorem all_append : all ρ (cs ++ ds) = all ρ cs + all ρ ds := by
  rw [all, all, all, List.map_append, Multiset.coe_add]

theorem all_perm (h : cs.Perm ds) : all ρ cs = all ρ ds := Multiset.coe_eq_coe.mpr (h.map _)

theorem all_le (h : cs.Subperm ds) : all ρ cs ≤ all ρ ds := by
  obtain ⟨es, hp, hs⟩ := h
  rw [← all_perm hp]
  exact Multiset.coe_le.mpr (hs.map _).subperm

theorem trees_eq_all (h : ∀ i, k.wants i = ρ) : trees k i cs = all ρ cs := by
  induction cs generalizing i with
  | nil => rfl
  | cons c cs ih => rw [trees, ih, h, all_cons]

theorem trees_one : trees k 0 [c] = {tree (k.wants 0) c} := add_zero _

theorem trees_two : trees k 0 [c, d] = {tree (k.wants 0) c} + {tree (k.wants 1) d} := by
  simp only [trees, add_zero]

theorem trees_three {e : NodeId} : trees k 0 [c, d, e] = {tree (k.wants 0) c} + {tree (k.wants 1) d} + {tree (k.wants 2) e} := by
  simp only [trees, add_zero]
  exact (add_assoc ..).symm

theorem trees_eq (h : cs[j]? = some c) : trees k i cs = {tree (k.wants (i + j)) c} + treesBut k i j cs := by
  induction cs generalizing i j with
  | nil => cases h
  | cons d cs ih =>
    cases j with
    | zero =>
      cases h
      rfl
    | succ j =>
      rw [trees, treesBut, ih h, Nat.add_assoc, Nat.add_comm 1 j]
      abel

theorem treesBut_set : treesBut k i j (cs.set j c) = treesBut k i j cs := by
  induction cs generalizing i j with
  | nil => rfl
  | cons d cs ih =>
    cases j with
    | zero => rfl
    | succ j => rw [List.set_cons_succ, treesBut, treesBut, ih]

end

end Asset

namespace Plan

/-- A node over its children whose kind is known, by itself or from its role. -/
def Known (p : Plan) (ρ : Role) (n : NodeId) (k : OpKind) (cs : List NodeId) : Prop :=
  ∃ r, p.nodes[n]? = some r ∧ r.children = cs ∧ (r.op.kind = k ∨ ρ.Only k)

theorem At.known {p : Plan} {ρ : Role} {n : NodeId} {k : OpKind} {cs : List NodeId} (h : p.At n k cs) : p.Known ρ n k cs := by
  obtain ⟨r, hr, hk, hc⟩ := h
  exact ⟨r, hr, hc, .inl hk⟩

end Plan

/-- An account of what is at hand in a run. `Fits` and `Same` tell which operators and roles go together. -/
structure Ledger where
  Owns : Context → Plan → Multiset Asset → Prop
  Fits : OpKind → Op → Prop
  Same : Role → Role → Prop
  weaken {s p A B} : A ≤ B → Owns s p B → Owns s p A
  adds {s p p' A} : Adds p p' → Owns s p A → Owns s p' A
  writes {s p A} (mappings suppressed) : Owns s p A → Owns { s with mappings, suppressed } p A
  symm {ρ ρ'} : Same ρ ρ' → Same ρ' ρ
  retag {s p ρ ρ' n A} : Same ρ ρ' → Owns s p ({.tree ρ n} + A) → Owns s p ({.tree ρ' n} + A)
  same {s p ρ n k cs A} : Owns s p ({.view ρ n} + A) → p.At n k cs → Same ρ k.role
  shows {s p ρ n A} : Owns s p ({.tree ρ n} + A) → Owns s p ({.view ρ n} + ({.tree ρ n} + A))
  again {s p ρ n A} : Owns s p ({.view ρ n} + A) → Owns s p ({.view ρ n} + ({.view ρ n} + A))
  looks {s p ρ n k cs i c A} : Owns s p ({.view ρ n} + A) → p.Known ρ n k cs → cs[i]? = some c →
    Owns s p ({.view (k.wants i) c} + A)
  opens {s p ρ n k cs A} : Owns s p ({.tree ρ n} + A) → p.Known ρ n k cs → Owns s p ({.cell k n cs} + (Asset.trees k 0 cs + A))
  closes {s p n k cs A} : Owns s p ({.cell k n cs} + (Asset.trees k 0 cs + A)) → Owns s p ({.tree k.role n} + A)
  rereads {s p n r k cs i c d A} : Owns s p ({.cell k n cs} + ({.tree (k.wants i) d} + A)) → cs[i]? = some d →
    p.nodes[n]? = some r → r.children[i]? = some c → Owns s p ({.cell k n (cs.set i c)} + ({.tree (k.wants i) c} + A))
  fits {s p n r k cs A} : Owns s p ({.cell k n cs} + A) → p.nodes[n]? = some r → Fits k r.op
  fits_of {op} : (∀ kind outputs left right, op ≠ .combine kind outputs left right) → Fits op.kind op
  creates {s p p' r k A} : Fits k r.op → Adds p p' → p'.nodes[p.nodes.size]? = some r → r.op.kind.admits r.children.length = true →
    Owns s p (Asset.trees k 0 r.children + A) → Owns s p' ({.tree k.role p.nodes.size} + A)
  sets {s p n r k cs i c A} : Owns s p ({.cell k n cs} + ({.tree (k.wants i) c} + A)) → p.nodes[n]? = some r →
    i < r.children.length → Owns s { p with nodes := p.nodes.setIfInBounds n { r with children := r.children.set i c, info := none } }
      ({.cell k n (cs.set i c)} + ({.tree (k.wants i) c} + A))
  renames {s p n r op A} : Owns s p A → p.nodes[n]? = some r → op.kind = r.op.kind → (∀ ks, op.fits ks = r.op.fits ks) →
    Owns s { p with nodes := p.nodes.setIfInBounds n { r with op, info := none } } A
  copies {s p p' ρ n t t' vs A m m'} : Owns s p ({.view ρ n} + A) → p.tree? n = some t → CopiedTo m m' p p' t t' vs →
    Owns s p' ({.tree ρ t'.id} + A)

namespace Ledger

variable {α β : Type} (l : Ledger)

theorem of_eq {c : Context} {p : Plan} {A B : Multiset Asset} (h : l.Owns c p A) (heq : A = B) : l.Owns c p B := heq ▸ h

/-! ### Steps -/

/-- A run that makes `B` out of `A` and at most adds nodes. What else is at hand stays so. -/
def Makes (A : Multiset Asset) (x : PlanM α) (B : α → Multiset Asset) : Prop :=
  ∀ c p F, l.Owns c p (A + F) → Ends x p fun a p' => Unchanged p p' ∧ l.Owns c p' (B a + F)

/-- The same of a run that may make variables and change nodes that are at hand. -/
def Deals (A : Multiset Asset) (x : PlanM α) (B : α → Multiset Asset) : Prop :=
  ∀ c p F, l.Owns c p (A + F) → Ends x p fun a p' => l.Owns c p' (B a + F)

/-- A step of a rule that makes `B` out of `A`, at most adds nodes and leaves the context alone. -/
def MakesIn (A : Multiset Asset) (x : RuleM α) (B : α → Multiset Asset) : Prop :=
  ∀ c p F, l.Owns c p (A + F) → EndsIn x c p fun a c' p' => (c' = c ∧ Unchanged p p') ∧ l.Owns c p' (B a + F)

/-- Two runs are one where `A` is at hand, and make `B` out of it. -/
def Agree (A : Multiset Asset) (x y : RuleM α) (B : α → Multiset Asset) : Prop :=
  ∀ c p F, l.Owns c p (A + F) → x c p = y c p ∧ EndsIn x c p fun a c' p' => l.Owns c' p' (B a + F)

/-- A run makes `B` out of `A`, whatever else it does. -/
abbrev DealsIn (A : Multiset Asset) (x : RuleM α) (B : α → Multiset Asset) : Prop := l.Agree A x x B

variable {l} {A A₁ A₂ A₃ : Multiset Asset} {B C : α → Multiset Asset} {D : β → Multiset Asset}

section Makes
variable {x : PlanM α} {f : α → PlanM β}

theorem Makes.bind (hx : l.Makes A x B) (hf : ∀ a, l.Makes (B a) (f a) D) : l.Makes A (x >>= f) D := fun c p F h =>
  .bind (hx c p F h) fun a p₁ ⟨hu, h₁⟩ => (hf a c p₁ F h₁).mono fun _ _ ⟨hu', h'⟩ => ⟨hu.trans hu', h'⟩

theorem Makes.pure {a : α} (h : A = B a) : l.Makes A (pure a) B := fun _ p _ ho => .pure ⟨.refl p, h ▸ ho⟩

theorem Makes.throw {e : Fault} : l.Makes A (throw e) B := fun _ _ _ _ => .throw

theorem Makes.mono (hx : l.Makes A x B) (h : ∀ a, C a ≤ B a) : l.Makes A x C := fun c p F ho =>
  (hx c p F ho).mono fun a _ ⟨hu, h'⟩ => ⟨hu, l.weaken (add_le_add_left (h a) F) h'⟩

theorem Makes.frame (hx : l.Makes A₁ x B) (A₂ : Multiset Asset) (hA : A = A₁ + A₂) : l.Makes A x fun a => B a + A₂ := by
  intro c p F h
  subst hA
  rw [add_assoc] at h
  exact (hx c p _ h).mono fun a p' ⟨hu, h'⟩ => ⟨hu, by rwa [add_assoc]⟩

theorem Makes.step (hx : l.Makes A₁ x B) (A₂ : Multiset Asset) (hA : A = A₁ + A₂) (hf : ∀ a, l.Makes (B a + A₂) (f a) D) :
    l.Makes A (x >>= f) D :=
  .bind (hx.frame A₂ hA) hf

theorem makes_of_quiet (hx : Looks x) : l.Makes A x fun _ => A := fun _ p _ h =>
  (hx p).ends.mono fun _ _ hs => ⟨hs.unchanged, l.adds hs.unchanged.adds h⟩

theorem Makes.quiet (hx : Looks x) (hf : ∀ a, l.Makes A (f a) D) : l.Makes A (x >>= f) D :=
  .bind (makes_of_quiet hx) hf

theorem Makes.deals (h : l.Makes A x B) : l.Deals A x B := fun c p F ho => (h c p F ho).mono fun _ _ h => h.2

end Makes

section Deals
variable {x : PlanM α} {f : α → PlanM β}

theorem Deals.bind (hx : l.Deals A x B) (hf : ∀ a, l.Deals (B a) (f a) D) : l.Deals A (x >>= f) D := fun c p F h =>
  .bind (hx c p F h) fun a p₁ h₁ => hf a c p₁ F h₁

theorem Deals.pure {a : α} (h : A = B a) : l.Deals A (pure a) B := fun _ _ _ ho => .pure (h ▸ ho)

theorem Deals.throw {e : Fault} : l.Deals A (throw e) B := fun _ _ _ _ => .throw

theorem Deals.quiet (hx : Looks x) (hf : ∀ a, l.Deals A (f a) D) : l.Deals A (x >>= f) D :=
  .bind (makes_of_quiet hx).deals hf

end Deals

section MakesIn
variable {x : RuleM α} {f : α → RuleM β}

theorem MakesIn.bind (hx : l.MakesIn A x B) (hf : ∀ a, l.MakesIn (B a) (f a) D) : l.MakesIn A (x >>= f) D := fun c p F h =>
  .bind (hx c p F h) fun a c₁ p₁ ⟨⟨hc, hu⟩, h₁⟩ => by
    subst hc
    exact (hf a c₁ p₁ F h₁).mono fun _ _ _ ⟨⟨hc', hu'⟩, h'⟩ => ⟨⟨hc', hu.trans hu'⟩, h'⟩

theorem MakesIn.pure {a : α} (h : A = B a) : l.MakesIn A (pure a) B := fun _ p _ ho => .pure ⟨⟨rfl, .refl p⟩, h ▸ ho⟩

theorem MakesIn.throw {e : Fault} : l.MakesIn A (throw e) B := fun _ _ _ _ => .throw

theorem MakesIn.stop {e : Fault} : l.MakesIn A (MonadExcept.throw e >>= f) D := fun _ _ _ _ =>
  .bind (R := fun _ _ _ => False) .throw fun _ _ _ h => h.elim

theorem MakesIn.frame (hx : l.MakesIn A₁ x B) (A₂ : Multiset Asset) (hA : A = A₁ + A₂) : l.MakesIn A x fun a => B a + A₂ := by
  intro c p F h
  subst hA
  rw [add_assoc] at h
  exact (hx c p _ h).mono fun a _ p' ⟨hu, h'⟩ => ⟨hu, by rwa [add_assoc]⟩

theorem MakesIn.step (hx : l.MakesIn A₁ x B) (A₂ : Multiset Asset) (hA : A = A₁ + A₂)
    (hf : ∀ a, l.MakesIn (B a + A₂) (f a) D) : l.MakesIn A (x >>= f) D :=
  .bind (hx.frame A₂ hA) hf

theorem Makes.lift {x : PlanM α} (h : l.Makes A x B) : l.MakesIn A (liftM x) B := fun c p F ho =>
  .lift ((h c p F ho).mono fun _ _ ⟨hu, h'⟩ => ⟨⟨rfl, hu⟩, h'⟩)

theorem makesIn_of_quiet (hx : Quiet x) : l.MakesIn A x fun _ => A := fun c p _ h =>
  (hx c p).ends.mono fun _ _ _ ⟨hc, hs⟩ => ⟨⟨hc, hs.unchanged⟩, l.adds hs.unchanged.adds h⟩

theorem MakesIn.quiet (hx : Quiet x) (hf : ∀ a, l.MakesIn A (f a) D) : l.MakesIn A (x >>= f) D :=
  .bind (makesIn_of_quiet hx) hf

theorem MakesIn.getPlan {f : Plan → RuleM β} (h : ∀ p, l.MakesIn A (f p) D) : l.MakesIn A (getThe Plan >>= f) D :=
  fun c p F ho => .getPlan (h p c p F ho)

end MakesIn

/-! ### Runs that are one -/

theorem bind_both {x y : RuleM α} {f g : α → RuleM β} {c : Context} {p : Plan} {R : α → Context → Plan → Prop}
    {Q : β → Context → Plan → Prop} (hx : x c p = y c p ∧ EndsIn x c p R)
    (hf : ∀ a c' p', R a c' p' → f a c' p' = g a c' p' ∧ EndsIn (f a) c' p' Q) :
    (x >>= f) c p = (y >>= g) c p ∧ EndsIn (x >>= f) c p Q := by
  obtain ⟨heq, hends⟩ := hx
  refine ⟨?_, .bind hends fun a c' p' h => (hf a c' p' h).2⟩
  show (x c p >>= fun r => f r.1.1 r.1.2 r.2 : Except Fault ((β × Context) × Plan)) = (y c p >>= fun r => g r.1.1 r.1.2 r.2)
  rw [← heq]
  cases hrun : x c p with
  | error e => rfl
  | ok r => exact (hf _ _ _ (hends r.1.1 r.1.2 r.2 hrun)).1

section Agree
variable {x y : RuleM α} {f g : α → RuleM β}

theorem MakesIn.agree (h : l.MakesIn A x B) : l.DealsIn A x B := fun c p F ho =>
  ⟨rfl, (h c p F ho).mono fun _ _ _ ⟨⟨hc, _⟩, h'⟩ => hc ▸ h'⟩

theorem Deals.agree {x : PlanM α} (h : l.Deals A x B) : l.DealsIn A (liftM x) B := fun c p F ho =>
  ⟨rfl, .lift (h c p F ho)⟩

theorem agree_write {g : Context → Context} (hg : ∀ c, ∃ mappings suppressed, g c = { c with mappings, suppressed }) :
    l.DealsIn A (modify g) fun _ => A := fun c _ _ ho => ⟨rfl, .modify (by
    obtain ⟨mappings, suppressed, h⟩ := hg c
    exact h ▸ l.writes mappings suppressed ho)⟩

theorem Agree.bind (hx : l.Agree A x y B) (hf : ∀ a, l.Agree (B a) (f a) (g a) D) : l.Agree A (x >>= f) (y >>= g) D :=
  fun c p F ho => bind_both (hx c p F ho) fun a c' p' h => hf a c' p' F h

theorem Agree.frame (hx : l.Agree A₁ x y B) (A₂ : Multiset Asset) (hA : A = A₁ + A₂) : l.Agree A x y fun a => B a + A₂ := by
  intro c p F h
  subst hA
  rw [add_assoc] at h
  obtain ⟨heq, hends⟩ := hx c p _ h
  exact ⟨heq, hends.mono fun a _ p' h' => by rwa [add_assoc]⟩

theorem Agree.step (hx : l.Agree A₁ x y B) (A₂ : Multiset Asset) (hA : A = A₁ + A₂) (hf : ∀ a, l.Agree (B a + A₂) (f a) (g a) D) :
    l.Agree A (x >>= f) (y >>= g) D :=
  .bind (hx.frame A₂ hA) hf

theorem Agree.pure {a : α} (h : A = B a) : l.Agree A (pure a) (pure a) B := (MakesIn.pure h).agree

theorem Agree.quiet (hx : Quiet x) (hf : ∀ a, l.Agree A (f a) (g a) D) : l.Agree A (x >>= f) (x >>= g) D :=
  .bind (makesIn_of_quiet hx).agree hf

theorem Agree.ite {P : Prop} [Decidable P] {x' y' : RuleM α} (hx : l.Agree A x x' B) (hy : l.Agree A y y' B) :
    l.Agree A (if P then x else y) (if P then x' else y') B := by
  split
  · exact hx
  · exact hy

theorem Agree.getPlan {f g : Plan → RuleM β} (h : ∀ c p F, l.Owns c p (A + F) → f p c p = g p c p ∧
    EndsIn (f p) c p fun a c' p' => l.Owns c' p' (D a + F)) : l.Agree A (getThe Plan >>= f) (getThe Plan >>= g) D := h

theorem Agree.get {f g : Context → RuleM β} (h : ∀ c, l.Agree A (f c) (g c) D) :
    l.Agree A (MonadState.get >>= f) (MonadState.get >>= g) D := fun c p F ho => ⟨(h c c p F ho).1, .get (h c c p F ho).2⟩

theorem Agree.mapM {f g : NodeId → RuleM NodeId} {ρ ρ' : Role} {ns : List NodeId}
    (hf : ∀ n, l.Agree (A + {.tree ρ n}) (f n) (g n) fun m => A + {.tree ρ' m}) :
    l.Agree (A + Asset.all ρ ns) (ns.mapM f) (ns.mapM g) fun ms => A + Asset.all ρ' ms := by
  induction ns with
  | nil => exact .pure rfl
  | cons n ns ih =>
    rw [List.mapM_cons, List.mapM_cons]
    refine .step (hf n) (Asset.all ρ ns) (by rw [Asset.all_cons, add_assoc]) fun m => ?_
    exact .step ih {.tree ρ' m} (by abel) fun ms => .pure (by rw [Asset.all_cons]; abel)

end Agree

/-- At most nodes were added since the state that is given, if one is. -/
def Since : Option Plan → Plan → Prop
  | some p, p' => Unchanged p p'
  | none, _ => True

/-- How a rule ends: it has changed nothing, or it has a tree to show for what was at hand. -/
def Ended (l : Ledger) (b : Option Plan) (c : Context) (ρ : Role) (F : Multiset Asset) : Option NodeId → Context → Plan → Prop
  | none, c', p' => c' = c ∧ ∃ p, b = some p ∧ Unchanged p p'
  | some m, c', p' => l.Owns c' p' ({.tree ρ m} + F)

/-- Two runs of a rule, which may settle trees in different ways, are one where `A` is at hand. Until anything is changed,
    the plan is known as it was at first. -/
def Concur (l : Ledger) (b : Option Plan) (A : Multiset Asset) (ρ : Role) (x y : RuleM (Option NodeId)) : Prop :=
  ∀ c p F, Since b p → l.Owns c p (A + F) → x c p = y c p ∧ EndsIn x c p (l.Ended b c ρ F)

/-- The same of a rule that settles nothing itself. -/
abbrev Works (l : Ledger) (b : Option Plan) (A : Multiset Asset) (ρ : Role) (x : RuleM (Option NodeId)) : Prop :=
  l.Concur b A ρ x x

section Concur
variable {b : Option Plan} {p : Plan} {ρ : Role} {x : RuleM α} {f g : α → RuleM (Option NodeId)}

theorem Since.trans {p' : Plan} (h : Since b p) (hu : Unchanged p p') : Since b p' := by
  cases b with
  | none => trivial
  | some p₀ => exact Unchanged.trans h hu

theorem Concur.know {Q : α → Prop} (hx : l.MakesIn A x B) (hQ : ∀ c p, EndsIn x c p fun a _ _ => Q a)
    (hf : ∀ a, Q a → l.Concur b (B a) ρ (f a) (g a)) : l.Concur b A ρ (x >>= f) (x >>= g) := by
  intro c p F hb ho
  have hends : EndsIn x c p fun a c' p' => Q a ∧ (c' = c ∧ Unchanged p p') ∧ l.Owns c p' (B a + F) := fun a c' p' h =>
    ⟨hQ c p a c' p' h, hx c p F ho a c' p' h⟩
  refine bind_both ⟨rfl, hends⟩ ?_
  rintro a _ p' ⟨hq, ⟨rfl, hu⟩, ho'⟩
  exact hf a hq _ p' F (hb.trans hu) ho'

theorem Concur.bind (hx : l.MakesIn A x B) (hf : ∀ a, l.Concur b (B a) ρ (f a) (g a)) :
    l.Concur b A ρ (x >>= f) (x >>= g) :=
  .know (Q := fun _ => True) hx (fun _ _ _ _ _ _ => trivial) fun a _ => hf a

theorem Concur.step (hx : l.MakesIn A₁ x B) (A₂ : Multiset Asset) (hA : A = A₁ + A₂)
    (hf : ∀ a, l.Concur b (B a + A₂) ρ (f a) (g a)) : l.Concur b A ρ (x >>= f) (x >>= g) :=
  .bind (hx.frame A₂ hA) hf

theorem Concur.quiet (hx : Quiet x) (hf : ∀ a, l.Concur b A ρ (f a) (g a)) : l.Concur b A ρ (x >>= f) (x >>= g) :=
  .bind (makesIn_of_quiet hx) hf

theorem Concur.get {f g : Context → RuleM (Option NodeId)} (hf : ∀ c, l.Concur b A ρ (f c) (g c)) :
    l.Concur b A ρ (MonadState.get >>= f) (MonadState.get >>= g) := fun c p F hb ho => hf c c p F hb ho

theorem Concur.getPlan {f g : Plan → RuleM (Option NodeId)} (hf : ∀ p, l.Concur b A ρ (f p) (g p)) :
    l.Concur b A ρ (getThe Plan >>= f) (getThe Plan >>= g) := fun c p F hb ho => hf p c p F hb ho

theorem Ended.late {c c' c'' : Context} {F : Multiset Asset} {out : Option NodeId} {p' : Plan} (h : l.Ended none c ρ F out c' p') :
    l.Ended b c'' ρ F out c' p' := by
  cases out with
  | none =>
    obtain ⟨_, _, hno, _⟩ := h
    cases hno
  | some m => exact h

/-- After a step that changes anything, only what is at hand is known. `still` tells of answers for which nothing was changed. -/
theorem Concur.unless {x y : RuleM α} {still : α → Prop} (hx : l.Agree A₁ x y B) (A₂ : Multiset Asset) (hA : A = A₁ + A₂)
    (hstill : ∀ c p, EndsIn x c p fun a c' p' => still a → c' = c ∧ Unchanged p p')
    (hf : ∀ a, ¬still a → l.Concur none (B a + A₂) ρ (f a) (g a)) (hs : ∀ a, still a → l.Concur b (B a + A₂) ρ (f a) (g a)) :
    l.Concur b A ρ (x >>= f) (y >>= g) := by
  intro c p F hb ho
  subst hA
  rw [add_assoc] at ho
  obtain ⟨heq, hends⟩ := hx c p _ ho
  have hnext : EndsIn x c p fun a c' p' => f a c' p' = g a c' p' ∧ EndsIn (f a) c' p' (l.Ended b c ρ F) := fun a c' p' hrun => by
    have ho' : l.Owns c' p' (B a + A₂ + F) := by
      rw [add_assoc]
      exact hends a c' p' hrun
    by_cases ha : still a
    · obtain ⟨rfl, hu⟩ := hstill c p a c' p' hrun ha
      exact hs a ha c' p' F (hb.trans hu) ho'
    · obtain ⟨heq', hends'⟩ := hf a ha c' p' F trivial ho'
      exact ⟨heq', hends'.mono fun _ _ _ h => h.late⟩
  exact bind_both ⟨heq, hnext⟩ fun _ _ _ h => h

theorem Concur.change {x y : RuleM α} (hx : l.Agree A₁ x y B) (A₂ : Multiset Asset) (hA : A = A₁ + A₂)
    (hf : ∀ a, l.Concur none (B a + A₂) ρ (f a) (g a)) : l.Concur b A ρ (x >>= f) (y >>= g) :=
  .unless hx A₂ hA (fun _ _ _ _ _ _ (h : False) => h.elim) (fun a _ => hf a) fun _ h => h.elim

theorem Concur.write (hx : l.DealsIn A x fun _ => A) (hf : ∀ a, l.Concur none A ρ (f a) (g a)) : l.Concur b A ρ (x >>= f) (x >>= g) :=
  .change hx 0 (add_zero A).symm fun a => (add_zero A).symm ▸ hf a

theorem Concur.weaken {x y : RuleM (Option NodeId)} (h : A₁ ≤ A) (hx : l.Concur b A₁ ρ x y) : l.Concur b A ρ x y :=
  fun c p F hb ho => hx c p F hb (l.weaken (add_le_add_left h F) ho)

theorem Concur.drop {x y : RuleM (Option NodeId)} (A₁ A₂ : Multiset Asset) (hA : A = A₁ + A₂) (hx : l.Concur b A₁ ρ x y) :
    l.Concur b A ρ x y :=
  .weaken (hA ▸ le_self_add) hx

theorem Concur.throw {e : Fault} : l.Works b A ρ (MonadExcept.throw e) := fun _ _ _ _ _ => ⟨rfl, .throw⟩

theorem Concur.leaves : l.Works (some p) A ρ (pure none) := fun _ _ _ hb _ => ⟨rfl, .pure ⟨rfl, p, rfl, hb⟩⟩

theorem Concur.gives {m : NodeId} (A₂ : Multiset Asset) (hA : A = {.tree ρ m} + A₂) :
    l.Concur b A ρ (pure (some m)) (pure (some m)) := by
  refine fun c p F _ ho => ⟨rfl, .pure ?_⟩
  subst hA
  exact l.weaken (add_le_add_left le_self_add F) ho

theorem Ended.rebase {c c' : Context} {p' p'' : Plan} {F : Multiset Asset} {out : Option NodeId} (hu : Unchanged p p')
    (h : l.Ended (some p') c ρ F out c' p'') : l.Ended (some p) c ρ F out c' p'' := by
  cases out with
  | none =>
    obtain ⟨hc, _, ⟨⟩, hu'⟩ := h
    exact ⟨hc, p, rfl, hu.trans hu'⟩
  | some m => exact h

/-- What comes after a rule has been tried: it gave a tree for what was at hand, or it has changed nothing. -/
theorem Concur.tries {x y : RuleM (Option NodeId)} {f g : Option NodeId → RuleM (Option NodeId)}
    (hx : ∀ p', Adds p p' → l.Concur (some p') A ρ x y) (hsome : ∀ m, l.Concur none {.tree ρ m} ρ (f (some m)) (g (some m)))
    (hnone : ∀ p', Adds p p' → l.Concur (some p') A ρ (f none) (g none)) : l.Concur (some p) A ρ (x >>= f) (y >>= g) := by
  intro c p₁ F hb ho
  obtain ⟨heq, hends⟩ := hx p₁ hb.adds c p₁ F (.refl p₁) ho
  have hnext : EndsIn x c p₁ fun out c' p' => f out c' p' = g out c' p' ∧ EndsIn (f out) c' p' (l.Ended (some p) c ρ F) := fun out c' p' h => by
    have hout := hends out c' p' h
    cases out with
    | none =>
      obtain ⟨rfl, _, ⟨⟩, hu⟩ := hout
      have hp' := Unchanged.trans hb hu
      obtain ⟨heq', hends'⟩ := hnone p' hp'.adds c' p' F (.refl p') (l.adds hu.adds ho)
      exact ⟨heq', hends'.mono fun _ _ _ h => h.rebase hp'⟩
    | some m =>
      obtain ⟨heq', hends'⟩ := hsome m c' p' F trivial hout
      exact ⟨heq', hends'.mono fun _ _ _ h => h.late⟩
  exact bind_both ⟨heq, hnext⟩ fun _ _ _ h => h

end Concur

/-- Two ways to settle trees are one where the tree is at hand, and give a tree of its role for it. -/
def Settles (l : Ledger) (settle settle' : NodeId → RuleM NodeId) : Prop :=
  ∀ ρ n, l.Agree {.tree ρ n} (settle n) (settle' n) fun m => {.tree ρ m}

/-- Two rules are one where the tree that they are given is at hand, and make of it a tree of its role. -/
structure Concurs (l : Ledger) (rule rule' : Rule) : Prop where
  name : rule'.name = rule.name
  pattern : rule'.pattern = rule.pattern
  apply : ∀ {settle settle' p ρ n}, l.Settles settle settle' → rule.pattern.holds p n = true →
    l.Concur (some p) {.tree ρ n} ρ (rule.apply settle n) (rule'.apply settle' n)

end Ledger

end Planwright
