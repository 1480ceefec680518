import Planwright.Proofs.Ledger.Engine

/-! Well-formed plans. A node fits when its operator may stand over the kinds of its children, and below a
    well-formed node every node fits. Runs make well-formed nodes out of well-formed ones, each for one of the
    same role. -/

namespace Planwright

open Run Plan Planwright.Tree Document

/-! ### Roles that operators ask for -/

namespace OpKind

variable {k : OpKind}

theorem isRelational_iff : k.isRelational ↔ k.role = .relational := by
  cases k <;> decide

theorem isScalar_iff : k.isScalar ↔ k.role = .scalar := by
  cases k <;> decide

theorem eq_varDef_iff : k = .varDef ↔ k.role = .varDef := by
  cases k <;> decide

theorem eq_varDefList_iff : k = .varDefList ↔ k.role = .varDefList := by
  cases k <;> decide

end OpKind

theorem sameRole_of_role {k k' : OpKind} (h : k'.role = k.role) : SameRole k k' := by
  refine ⟨?_, ?_, ?_, ?_⟩
  · rw [Bool.eq_iff_iff, OpKind.isRelational_iff, OpKind.isRelational_iff, h]
  · rw [Bool.eq_iff_iff, OpKind.isScalar_iff, OpKind.isScalar_iff, h]
  · rw [OpKind.eq_varDef_iff, OpKind.eq_varDef_iff, h]
  · rw [OpKind.eq_varDefList_iff, OpKind.eq_varDefList_iff, h]

/-- What a child is wanted for. -/
def Role.wanted : Role → Wanted
  | .relational => .relational
  | .scalar => .scalar
  | .varDef => .kind .varDef
  | .varDefList => .kind .varDefList

theorem Role.wanted_admits {ρ : Role} {k : OpKind} : ρ.wanted.admits k = true ↔ k.role = ρ := by
  cases ρ with
  | relational => exact OpKind.isRelational_iff
  | scalar => exact OpKind.isScalar_iff
  | varDef => exact beq_iff_eq.trans OpKind.eq_varDef_iff
  | varDefList => exact beq_iff_eq.trans OpKind.eq_varDefList_iff

theorem wantedChildren_eq {k : OpKind} {count : Nat} (h : k.admits count = true) :
    wantedChildren k count = (List.range count).map fun i => (k.wants i).wanted := by
  have hconst {w : Wanted} {f : Nat → Wanted} (hf : ∀ i, f i = w) : List.replicate count w = (List.range count).map f :=
    (List.eq_replicate_iff.mpr ⟨by simp, by simpa using fun i _ => hf i⟩).symm
  cases k <;> first
    | exact hconst fun _ => rfl
    | (obtain rfl := length_eq_of_admits rfl h; rfl)

/-- An operator fits its children when there are as many as it wants, they have the roles that it wants, and its maps are
    whole. -/
theorem Op.fits_iff {op : Op} {ks : List OpKind} : op.fits ks ↔ op.kind.admits ks.length ∧
    (∀ i k, ks[i]? = some k → k.role = op.kind.wants i) ∧ op.Maps := by
  have hwanted (h : op.kind.admits ks.length) : List.Forall₂ (fun w k => w.admits k = true)
      (wantedChildren op.kind ks.length) ks ↔ ∀ i k, ks[i]? = some k → k.role = op.kind.wants i := by
    rw [wantedChildren_eq h, List.forall₂_map_left_iff, List.forall₂_iff_get]
    simp only [List.length_range, true_and, List.get_eq_getElem, List.getElem_range, Role.wanted_admits]
    constructor
    · intro hall i k hk
      obtain ⟨hi, rfl⟩ := List.getElem?_eq_some_iff.mp hk
      exact hall i hi hi
    · intro hall i hi _
      exact hall i _ (List.getElem?_eq_getElem hi)
  constructor
  · intro h
    have hadm : op.kind.admits ks.length := by
      simp only [fits, Bool.and_eq_true] at h
      exact h.1.1
    refine ⟨hadm, (hwanted hadm).mp (admits_of_fits h), ?_⟩
    rintro kind outputs left right rfl
    simp only [fits, Bool.and_eq_true] at h
    simpa [List.all_eq_true, Option.isSome_iff_exists] using h.2
  · rintro ⟨hadm, hroles, hmaps⟩
    exact fits_of_admits hadm rfl ((hwanted hadm).mpr hroles) hmaps

/-! ### Well-formed nodes -/

namespace Plan

variable {r : Node} {t : Tree}

def kind? (p : Plan) (n : NodeId) : Option OpKind := (p.nodes[n]?).map fun r => r.op.kind

def role? (p : Plan) (n : NodeId) : Option Role := (p.kind? n).map OpKind.role

def Below (p : Plan) (n c : NodeId) : Prop := ∃ r, p.nodes[n]? = some r ∧ c ∈ r.children

/-- A node that fits its children. -/
def Fitting (p : Plan) (n : NodeId) : Prop :=
  ∃ r ks, p.nodes[n]? = some r ∧ List.Forall₂ (fun c k => p.kind? c = some k) r.children ks ∧ r.op.fits ks = true

/-- Every node that is met on a way down fits. -/
def WellFormed (p : Plan) (n : NodeId) : Prop := ∀ m, Relation.ReflTransGen p.Below n m → p.Fitting m

variable {p p' : Plan} {n c : NodeId}

theorem WellFormed.fitting (h : p.WellFormed n) : p.Fitting n := h n .refl

theorem WellFormed.below (h : p.WellFormed n) (hc : p.Below n c) : p.WellFormed c := fun m hm => h m (.head hc hm)

theorem wellFormed_intro (h : p.Fitting n) (hc : ∀ c, p.Below n c → p.WellFormed c) : p.WellFormed n := by
  intro m hm
  obtain rfl | ⟨c, hnc, hcm⟩ := hm.cases_head
  · exact h
  · exact hc c hnc m hcm

theorem wellFormed_of_closed {X : Set NodeId} (hX : ∀ x ∈ X, p.Fitting x ∧ ∀ c, p.Below x c → c ∈ X) (hn : n ∈ X) :
    p.WellFormed n := by
  intro m hm
  have hmem : m ∈ X := by
    induction hm with
    | refl => exact hn
    | tail _ hstep ih => exact (hX _ ih).2 _ hstep
  exact (hX m hmem).1

/-- The nodes that were well formed have operators of the same kinds, over children that were well formed and have the
    roles of the old ones. -/
def Revises (p p' : Plan) : Prop :=
  ∀ n r, p.WellFormed n → p.nodes[n]? = some r → ∃ r', p'.nodes[n]? = some r' ∧ r'.op.kind = r.op.kind ∧
    (∀ ks, r'.op.fits ks = r.op.fits ks) ∧
    List.Forall₂ (fun c c' => p.WellFormed c' ∧ p.role? c' = p.role? c) r.children r'.children

theorem Revises.kind? (h : Revises p p') (hn : p.WellFormed n) : p'.kind? n = p.kind? n := by
  obtain ⟨r, -, hr, -⟩ := hn.fitting
  obtain ⟨r', hr', hk, -⟩ := h n r hn hr
  simp [Plan.kind?, hr, hr', hk]

theorem Revises.role? (h : Revises p p') (hn : p.WellFormed n) : p'.role? n = p.role? n := by
  rw [Plan.role?, Plan.role?, h.kind? hn]

theorem Revises.kinds (h : Revises p p') {cs cs' : List NodeId}
    (hcs : List.Forall₂ (fun c c' => p.WellFormed c' ∧ p.role? c' = p.role? c) cs cs') {ks : List OpKind}
    (hks : List.Forall₂ (fun c k => p.kind? c = some k) cs ks) :
    ∃ ks', List.Forall₂ (fun c k => p'.kind? c = some k) cs' ks' ∧ List.Forall₂ SameRole ks ks' := by
  induction hcs generalizing ks with
  | nil =>
    cases hks
    exact ⟨[], .nil, .nil⟩
  | @cons c c' cs cs' hc _ ih =>
    obtain _ | ⟨hk, hks⟩ := hks
    obtain ⟨ks', hks', hroles⟩ := ih hks
    obtain ⟨s, -, hs, -⟩ := hc.1.fitting
    have hk' : p.kind? c' = some s.op.kind := by rw [Plan.kind?, hs]; rfl
    refine ⟨_ :: ks', .cons ((h.kind? hc.1).trans hk') hks', .cons (sameRole_of_role ?_) hroles⟩
    have hrole := hc.2
    rw [Plan.role?, Plan.role?, hk, hk'] at hrole
    exact Option.some.inj hrole

theorem Revises.wellFormed (h : Revises p p') (hn : p.WellFormed n) : p'.WellFormed n := by
  refine wellFormed_of_closed (X := {x | p.WellFormed x}) (fun x (hx : p.WellFormed x) => ?_) hn
  obtain ⟨r, ks, hr, hks, hfits⟩ := hx.fitting
  obtain ⟨r', hr', -, hsame, hchildren⟩ := h x r hx hr
  refine ⟨?_, ?_⟩
  · obtain ⟨ks', hks', hroles⟩ := h.kinds hchildren hks
    exact ⟨r', ks', hr', hks', (hsame ks').trans (fits_of_sameRole hroles hfits)⟩
  · rintro c ⟨s, hs, hc⟩
    obtain rfl : r' = s := Option.some.inj (hr'.symm.trans hs)
    obtain ⟨d, -, hd⟩ := exists_of_forall₂_right hchildren hc
    exact hd.1

theorem forall₂_wellFormed (h : p.WellFormed n) (hr : p.nodes[n]? = some r) :
    List.Forall₂ (fun c c' => p.WellFormed c' ∧ p.role? c' = p.role? c) r.children r.children :=
  List.forall₂_same.mpr fun _ hc => ⟨h.below ⟨r, hr, hc⟩, rfl⟩

theorem Adds.revises (h : Adds p p') : Revises p p' := fun n r hn hr => by
  obtain ⟨r', hr', ho, hc⟩ := h.node n r hr
  refine ⟨r', hr', by rw [ho], fun _ => by rw [ho], ?_⟩
  rw [hc]
  exact forall₂_wellFormed hn hr

theorem revises_set {i : Nat} {d : NodeId} (hr : p.nodes[n]? = some r) (hd : r.children[i]? = some d)
    (hc : p.WellFormed c) (hrole : p.role? c = p.role? d) :
    Revises p { p with nodes := p.nodes.setIfInBounds n { r with children := r.children.set i c, info := none } } := by
  intro m s hm hs
  by_cases hnm : n = m
  · subst hnm
    obtain rfl : r = s := Option.some.inj (hr.symm.trans hs)
    refine ⟨_, Array.getElem?_setIfInBounds_self_of_lt (Array.getElem?_eq_some_iff.mp hr).1, rfl, fun _ => rfl, ?_⟩
    have hold := forall₂_wellFormed hm hr
    rw [List.forall₂_iff_get] at hold ⊢
    refine ⟨by simp, fun j hj hj' => ?_⟩
    simp only [List.get_eq_getElem, List.getElem_set]
    split
    · rename_i hij
      subst hij
      rw [List.getElem?_eq_getElem hj] at hd
      exact ⟨hc, Option.some.inj hd ▸ hrole⟩
    · exact hold.2 j hj hj
  · exact ⟨s, by rwa [Array.getElem?_setIfInBounds_ne hnm], rfl, fun _ => rfl, forall₂_wellFormed hm hs⟩

theorem revises_op {op : Op} (hr : p.nodes[n]? = some r) (hk : op.kind = r.op.kind)
    (hfits : ∀ ks, op.fits ks = r.op.fits ks) :
    Revises p { p with nodes := p.nodes.setIfInBounds n { r with op, info := none } } := by
  intro m s hm hs
  by_cases hnm : n = m
  · subst hnm
    obtain rfl : r = s := Option.some.inj (hr.symm.trans hs)
    exact ⟨_, Array.getElem?_setIfInBounds_self_of_lt (Array.getElem?_eq_some_iff.mp hr).1, hk, hfits, forall₂_wellFormed hm hr⟩
  · exact ⟨s, by rwa [Array.getElem?_setIfInBounds_ne hnm], rfl, fun _ => rfl, forall₂_wellFormed hm hs⟩

theorem kind?_view {d : Nat} (h : p.view d n = some t) : p.kind? n = some t.kind := by
  cases d with
  | zero => cases h
  | succ d =>
    obtain ⟨r, ts, hr, rfl, -⟩ := view_succ h
    rw [kind?, hr]
    rfl

theorem wellFormed_view {d : Nat} (h : p.view d n = some t) : p.WellFormed n ↔ t.wellFormed := by
  induction d generalizing n t with
  | zero => cases h
  | succ d ih =>
    obtain ⟨r, ts, hr, rfl, hts⟩ := view_succ h
    have hkinds : List.Forall₂ (fun c k => p.kind? c = some k) r.children (ts.map Tree.kind) :=
      List.forall₂_map_right_iff.mpr (hts.imp fun _ _ h => kind?_view h)
    rw [wellFormed_node]
    constructor
    · intro hn
      obtain ⟨r', ks, hr', hks, hfits⟩ := hn.fitting
      obtain rfl : r = r' := Option.some.inj (hr.symm.trans hr')
      have hunique : Relator.RightUnique fun c k => p.kind? c = some k := fun _ _ _ h h' => Option.some.inj (h.symm.trans h')
      obtain rfl : ks = ts.map Tree.kind := hunique.forall₂ hks hkinds
      refine ⟨hfits, fun t ht => ?_⟩
      obtain ⟨c, hc, hview⟩ := exists_of_forall₂_right hts ht
      exact (ih hview).mp (hn.below ⟨r, hr, hc⟩)
    · rintro ⟨hfits, hall⟩
      refine wellFormed_intro ⟨r, _, hr, hkinds, hfits⟩ ?_
      rintro c ⟨r', hr', hc⟩
      obtain rfl : r = r' := Option.some.inj (hr.symm.trans hr')
      obtain ⟨t, ht, hview⟩ := exists_of_forall₂_right hts.flip hc
      exact (ih hview).mpr (hall t ht)

end Plan

/-! ### The ledger -/

namespace Ledger

variable {p p' : Plan} {a : Asset} {A B : Multiset Asset} {n : NodeId} {k : OpKind} {ρ : Role} {cs : List NodeId} {i : Nat}
variable {r : Node}

/-- What is at hand is well formed and what it is said to be. -/
def Formed (p : Plan) : Asset → Prop
  | .tree ρ n | .view ρ n => p.WellFormed n ∧ p.role? n = some ρ
  | .cell k n _ => p.WellFormed n ∧ p.kind? n = some k

theorem Formed.revises (h : Formed p a) (hr : Revises p p') : Formed p' a := by
  cases a with
  | tree ρ n | view ρ n => exact ⟨hr.wellFormed h.1, (hr.role? h.1).trans h.2⟩
  | cell k n cs => exact ⟨hr.wellFormed h.1, (hr.kind? h.1).trans h.2⟩

theorem forall_add : (∀ b ∈ B + A, Formed p b) ↔ (∀ b ∈ B, Formed p b) ∧ ∀ b ∈ A, Formed p b := by
  simp only [Multiset.mem_add, or_imp, forall_and]

theorem forall_single : (∀ b ∈ ({a} + A : Multiset Asset), Formed p b) ↔ Formed p a ∧ ∀ b ∈ A, Formed p b := by
  rw [forall_add]
  simp only [Multiset.mem_singleton, forall_eq]

theorem forall_trees : (∀ b ∈ Asset.trees k i cs, Formed p b) ↔
    ∀ j c, cs[j]? = some c → p.WellFormed c ∧ p.role? c = some (k.wants (i + j)) := by
  induction cs generalizing i with
  | nil => simp [Asset.trees]
  | cons c cs ih =>
    rw [Asset.trees, forall_single, ih]
    constructor
    · rintro ⟨hc, hcs⟩ (_ | j) d hd
      · cases hd
        exact hc
      · rw [← Nat.add_assoc, Nat.add_right_comm]
        exact hcs j d hd
    · intro h
      refine ⟨h 0 c rfl, fun j d hd => ?_⟩
      rw [Nat.add_right_comm, Nat.add_assoc]
      exact h (j + 1) d hd

theorem formed_child (h : p.WellFormed n) (hr : p.nodes[n]? = some r) {c : NodeId} (hc : r.children[i]? = some c) :
    p.WellFormed c ∧ p.role? c = some (r.op.kind.wants i) := by
  obtain ⟨r', ks, hr', hks, hfits⟩ := h.fitting
  obtain rfl : r = r' := Option.some.inj (hr.symm.trans hr')
  refine ⟨h.below ⟨r, hr, List.mem_of_getElem? hc⟩, ?_⟩
  obtain ⟨hi, rfl⟩ := List.getElem?_eq_some_iff.mp hc
  have hi' : i < ks.length := hks.length_eq ▸ hi
  have hkind : p.kind? r.children[i] = some ks[i] := hks.get hi hi'
  rw [role?, hkind, Option.map_some, (Op.fits_iff.mp hfits).2.1 i _ (List.getElem?_eq_getElem hi')]

theorem formed_creates (hop : r.op.kind = k ∧ r.op.Maps) (hr : p.nodes[n]? = some r)
    (hadm : r.op.kind.admits r.children.length)
    (h : ∀ j c, r.children[j]? = some c → p.WellFormed c ∧ p.role? c = some (k.wants j)) : Formed p (.tree k.role n) := by
  obtain ⟨rfl, hmaps⟩ := hop
  have hkinds : ∀ c ∈ r.children, ∃ k, p.kind? c = some k := fun c hc => by
    obtain ⟨j, hj⟩ := List.mem_iff_getElem?.mp hc
    obtain ⟨s, -, hs, -⟩ := (h j c hj).1.fitting
    exact ⟨s.op.kind, by rw [kind?, hs]; rfl⟩
  obtain ⟨ks, hks⟩ : ∃ ks, List.Forall₂ (fun c k => p.kind? c = some k) r.children ks := by
    refine ⟨r.children.map fun c => (p.kind? c).getD .varRef, List.forall₂_map_right_iff.mpr (List.forall₂_same.mpr fun c hc => ?_)⟩
    obtain ⟨k, hk⟩ := hkinds c hc
    rw [hk, Option.getD_some]
  refine ⟨wellFormed_intro ⟨r, ks, hr, hks, Op.fits_iff.mpr ⟨hks.length_eq ▸ hadm, fun j k hk => ?_, hmaps⟩⟩ ?_, ?_⟩
  · obtain ⟨hj, rfl⟩ := List.getElem?_eq_some_iff.mp hk
    have hj' : j < r.children.length := hks.length_eq ▸ hj
    have hkind : p.kind? r.children[j] = some ks[j] := hks.get hj' hj
    have hrole := (h j _ (List.getElem?_eq_getElem hj')).2
    rw [role?, hkind] at hrole
    exact Option.some.inj hrole
  · rintro c ⟨s, hs, hc⟩
    obtain rfl : r = s := Option.some.inj (hr.symm.trans hs)
    obtain ⟨j, hj⟩ := List.mem_iff_getElem?.mp hc
    exact (h j c hj).1
  · rw [role?, kind?, hr]
    rfl

theorem kind_of_known (hr : p.nodes[n]? = some r) (hrole : p.role? n = some ρ) (hk : r.op.kind = k ∨ ρ.Only k) :
    r.op.kind = k := by
  rw [role?, kind?, hr] at hrole
  exact hk.elim id fun h => h _ (Option.some.inj hrole)

theorem kind_of_cell (hr : p.nodes[n]? = some r) (h : Formed p (.cell k n cs)) : r.op.kind = k := by
  have hkind := h.2
  rw [kind?, hr] at hkind
  exact Option.some.inj hkind

/-- The account of well-formed trees. -/
def formed : Ledger where
  Owns _ p A := ∀ a ∈ A, Formed p a
  Fits k op := op.kind = k ∧ op.Maps
  Same ρ ρ' := ρ = ρ'
  weaken hle h a ha := h a (Multiset.mem_of_le hle ha)
  adds ha h a hmem := (h a hmem).revises ha.revises
  writes _ _ h := h
  symm h := h.symm
  retag heq h := heq ▸ h
  same := by
    rintro _ p ρ n k cs A h ⟨r, hr, rfl, -⟩
    have hrole := (forall_single.mp h).1.2
    rw [role?, kind?, hr] at hrole
    exact (Option.some.inj hrole).symm
  shows h := forall_single.mpr ⟨(forall_single.mp h).1, h⟩
  again h := forall_single.mpr ⟨(forall_single.mp h).1, h⟩
  looks := by
    rintro _ p ρ n k cs i c A h ⟨r, hr, rfl, hk⟩ hc
    obtain ⟨⟨hwf, hrole⟩, hA⟩ := forall_single.mp h
    obtain rfl := kind_of_known hr hrole hk
    exact forall_single.mpr ⟨formed_child hwf hr hc, hA⟩
  opens := by
    rintro _ p ρ n k cs A h ⟨r, hr, rfl, hk⟩
    obtain ⟨⟨hwf, hrole⟩, hA⟩ := forall_single.mp h
    obtain rfl := kind_of_known hr hrole hk
    refine forall_single.mpr ⟨⟨hwf, by rw [kind?, hr]; rfl⟩, forall_add.mpr ⟨forall_trees.mpr fun j c hc => ?_, hA⟩⟩
    rw [Nat.zero_add]
    exact formed_child hwf hr hc
  closes := by
    intro _ p n k cs A h
    obtain ⟨⟨hwf, hkind⟩, hA⟩ := forall_single.mp h
    exact forall_single.mpr ⟨⟨hwf, by rw [role?, hkind]; rfl⟩, (forall_add.mp hA).2⟩
  rereads := by
    intro _ p n r k cs i c d A h _ hr hc
    obtain ⟨hcell, hA⟩ := forall_single.mp h
    obtain rfl := kind_of_cell hr hcell
    exact forall_single.mpr ⟨hcell, forall_single.mpr ⟨formed_child hcell.1 hr hc, (forall_single.mp hA).2⟩⟩
  fits := by
    intro _ p n r k cs A h hr
    have hcell := (forall_single.mp h).1
    obtain ⟨r', ks, hr', -, hfits⟩ := hcell.1.fitting
    obtain rfl : r = r' := Option.some.inj (hr.symm.trans hr')
    exact ⟨kind_of_cell hr hcell, (Op.fits_iff.mp hfits).2.2⟩
  fits_of h := ⟨rfl, fun kind outputs left right heq => absurd heq (h kind outputs left right)⟩
  creates := by
    intro _ p p' r k A hop ha hr hadm h
    have h' : ∀ a ∈ Asset.trees k 0 r.children + A, Formed p' a := fun a hmem => (h a hmem).revises ha.revises
    obtain ⟨htrees, hA⟩ := forall_add.mp h'
    refine forall_single.mpr ⟨formed_creates hop hr hadm fun j c hc => ?_, hA⟩
    have := forall_trees.mp htrees j c hc
    rwa [Nat.zero_add] at this
  sets := by
    intro _ p n r k cs i c A h hr hi
    obtain ⟨hcell, hA⟩ := forall_single.mp h
    have hc := (forall_single.mp hA).1
    obtain rfl := kind_of_cell hr hcell
    have hd := List.getElem?_eq_getElem hi
    have hrev := revises_set hr hd hc.1 (hc.2.trans (formed_child hcell.1 hr hd).2.symm)
    exact forall_single.mpr ⟨Formed.revises (a := .cell _ n cs) hcell hrev, fun a ha => (hA a ha).revises hrev⟩
  renames h hr hk hfits a ha := (h a ha).revises (revises_op hr hk hfits)
  copies := by
    intro _ p p' ρ n t t' vs A _ _ h ht hd
    obtain ⟨⟨hwf, hrole⟩, hA⟩ := forall_single.mp h
    have hview := hd.holds.view le_rfl
    have hwf' := (wellFormed_view hview).mpr (hd.alike.wellFormed ((wellFormed_view ht).mp hwf))
    refine forall_single.mpr ⟨⟨hwf', ?_⟩, fun a ha => (hA a ha).revises hd.registers.grows.keeps.adds.revises⟩
    rw [role?, kind?_view ht] at hrole
    rw [role?, kind?_view hview, hd.alike.kind, hrole]

theorem formed_free : formed.Free := fun h => h

theorem formed_single {c : Context} {ρ : Role} : formed.Owns c p {.tree ρ n} ↔ p.WellFormed n ∧ p.role? n = some ρ := by
  show (∀ a ∈ ({.tree ρ n} : Multiset Asset), Formed p a) ↔ Formed p (.tree ρ n)
  simp only [Multiset.mem_singleton, forall_eq]

end Ledger

open Classical in
/-- Stops the run unless the tree that a rule was given and the tree that it made of it are well formed and of one role. -/
noncomputable def Rule.check (e : Fault) (p : Plan) (n : NodeId) (out : Option NodeId) : RuleM (Option NodeId) := do
  let p' ← getThe Plan
  if p.WellFormed n ∧ ∀ m ∈ out, p'.WellFormed m ∧ p'.role? m = p.role? n then return out else throw e

open Classical in
theorem Rule.check_run {e : Fault} {p p' : Plan} {n : NodeId} {out : Option NodeId} {c : Context}
    (h : p.WellFormed n ∧ ∀ m ∈ out, p'.WellFormed m ∧ p'.role? m = p.role? n) : Rule.check e p n out c p' = .ok ((out, c), p') := by
  show (if p.WellFormed n ∧ ∀ m ∈ out, p'.WellFormed m ∧ p'.role? m = p.role? n then pure out else throw e :
    RuleM (Option NodeId)) c p' = _
  rw [if_pos h]
  rfl

/-- A rule whose every application is checked. -/
noncomputable def Rule.checked (e : Fault) (rule : Rule) : Rule where
  name := rule.name
  pattern := rule.pattern
  apply settle n := do
    let p ← getThe Plan
    Rule.check e p n (← rule.apply settle n)

theorem Ledger.checked_concurs {rule : Rule} (e : Fault) (h : formed.Concurs rule rule) : formed.Concurs rule (rule.checked e) where
  name := rfl
  pattern := rfl
  apply := by
    intro settle settle' p ρ n hset hm c p₁ F hb ho
    obtain ⟨heq, hends⟩ := h.apply hset hm c p₁ F hb ho
    refine ⟨?_, hends⟩
    obtain ⟨hwf, hrole⟩ := (forall_single.mp ho).1
    have hpassed : EndsIn (rule.apply settle n) c p₁ fun out _ p' =>
        p₁.WellFormed n ∧ ∀ m ∈ out, p'.WellFormed m ∧ p'.role? m = p₁.role? n := by
      refine hends.mono fun out _ p' hout => ⟨hwf, ?_⟩
      rintro m ⟨⟩
      obtain ⟨hwf', hrole'⟩ := (forall_single.mp hout).1
      exact ⟨hwf', hrole'.trans hrole.symm⟩
    rw [← bind_pure (rule.apply settle n)]
    show (rule.apply settle n >>= pure) c p₁ = (rule.apply settle' n >>= Rule.check e p₁ n) c p₁
    exact (bind_both (Q := fun _ _ _ => True) ⟨heq, hpassed⟩ fun _ _ _ hok => ⟨(Rule.check_run hok).symm, .pure trivial⟩).1

namespace Engine

/-- A pass keeps a relational plan well formed. All trees that rules are given and all trees that they make on the way are
    well formed as well, and each is made for one of its role: a run that would stop at the first that is not is the same
    run. -/
theorem pass_wellFormed {p : Plan} (hp : p.WellFormed p.root) (hroot : p.role? p.root = some .relational) (fuel : Nat)
    (options : Options) (group : RuleGroup) :
    (∀ e c, settle ((group.enabledRules options.disabledRules).map (Rule.checked e)) fuel [] p.root none c p =
      settle (group.enabledRules options.disabledRules) fuel [] p.root none c p) ∧
    Ends (pass fuel options group) p fun _ p' => p'.WellFormed p'.root ∧ p'.role? p'.root = some .relational := by
  have hformed : Ledger.formed.Owns (.start options) p {.tree .relational p.root} := Ledger.formed_single.mpr ⟨hp, hroot⟩
  refine ⟨fun e c => ?_, (Ledger.pass_ends Ledger.formed_free hformed).mono fun _ p' h => Ledger.formed_single.mp h⟩
  have htable : List.Forall₂ Ledger.formed.Concurs (group.enabledRules options.disabledRules)
      ((group.enabledRules options.disabledRules).map (Rule.checked e)) :=
    List.forall₂_map_right_iff.mpr (List.forall₂_same.mpr fun rule hr =>
      Ledger.checked_concurs e (Ledger.rules_concur group rule (List.mem_filter.mp hr).1))
  rw [← add_zero {_}] at hformed
  exact (Ledger.settle_agree Ledger.formed_free htable c p 0 hformed).1.symm

/-- `Filter(UnionAll(t, u), o = o)` with an output `o` that stands for `t.a` and `u.b`. -/
def unionedTree : Tree :=
  .node 6 .filter [.node 2 (.combine .unionAll (.ofList [2]) (.ofList [(2, 0)]) (.ofList [(2, 1)]))
      [.node 0 (.scanTable ⟨0, "t", [0], .empty, none⟩) [], .node 1 (.scanTable ⟨1, "u", [1], .empty, none⟩) []],
    .node 5 (.scalar .eq .boolean) [.node 3 (.varRef 2 .int64) [], .node 4 (.varRef 2 .int64) []]]

def unioned : Plan := unionedTree.plan 2 [⟨.column, "t.a", .int64⟩, ⟨.column, "u.b", .int64⟩, ⟨.setOp, "o", .int64⟩]

theorem pass_wellFormed_unioned : unioned.WellFormed 6 ∧ unioned.role? 6 = some .relational ∧
    (∀ e c, settle ((RuleGroup.all.enabledRules []).map (Rule.checked e)) 100 [] 6 none c unioned =
      settle (RuleGroup.all.enabledRules []) 100 [] 6 none c unioned) ∧
    Reaches (pass 100 .standard .all) unioned fun o p' => o.changed = true ∧
      p'.WellFormed p'.root ∧ p'.role? p'.root = some .relational := by
  have htree : unioned.tree? 6 = some unionedTree := rfl
  have hwf : unioned.WellFormed 6 := (wellFormed_view htree).mpr (by decide)
  obtain ⟨hsame, hends⟩ := pass_wellFormed (p := unioned) hwf rfl 100 .standard .all
  exact ⟨hwf, rfl, hsame, hends.reaches (by decide +kernel)⟩

end Engine

end Planwright
