import Planwright.Document.Decode
import Planwright.Proofs.Tree.Basic
import Planwright.Proofs.Variable.Set

/-! Well-formed trees: every operator has as many children as it asks for, of the kinds it asks for, and the
    maps of a set operator name a variable of either branch for each output. `Shape` says the same operator by
    operator, with the children named. -/

namespace Planwright

open Document

/-- Whether an operator may stand over children of the given kinds. -/
def Op.fits (op : Op) (children : List OpKind) : Bool :=
  op.kind.admits children.length
    && ((wantedChildren op.kind children.length).zip children).all (fun x => x.1.admits x.2)
    && match op with
      | .combine _ outputs left right => outputs.toList.all fun v => (left.get? v).isSome && (right.get? v).isSome
      | _ => true

namespace Op

/-- Both branches of a set operator give all its outputs. -/
def Maps (op : Op) : Prop :=
  ∀ kind outputs left right, op = .combine kind outputs left right →
    ∀ v ∈ outputs, (∃ w, left.get? v = some w) ∧ ∃ w, right.get? v = some w

variable {op : Op} {ks : List OpKind}

theorem fits_of_admits {ws : List Wanted} (ha : op.kind.admits ks.length)
    (hw : wantedChildren op.kind ks.length = ws) (hks : List.Forall₂ (fun w k => w.admits k = true) ws ks) (hm : op.Maps) :
    op.fits ks := by
  have hall : (ws.zip ks).all (fun x => x.1.admits x.2) = true := by
    clear hw ha
    induction hks with
    | nil => rfl
    | cons hk _ ih => simpa [hk] using ih
  simp only [fits, Bool.and_eq_true, hw]
  refine ⟨⟨ha, hall⟩, ?_⟩
  split
  · simpa [List.all_eq_true, Option.isSome_iff_exists] using hm _ _ _ _ rfl
  · rfl

theorem length_wantedChildren {k : OpKind} {n : Nat} (h : k.admits n = true) : (wantedChildren k n).length = n := by
  cases k <;> simp_all [OpKind.admits, OpKind.arity?, wantedChildren]

theorem admits_of_fits (h : op.fits ks) :
    List.Forall₂ (fun w k => w.admits k = true) (wantedChildren op.kind ks.length) ks := by
  obtain ⟨⟨ha, hk⟩, -⟩ : (op.kind.admits ks.length = true ∧
      ((wantedChildren op.kind ks.length).zip ks).all (fun x => x.1.admits x.2) = true) ∧ _ := by
    simpa only [fits, Bool.and_eq_true] using h
  refine List.forall₂_iff_zip.mpr ⟨length_wantedChildren ha, fun {w k} hwk => ?_⟩
  exact List.all_eq_true.mp hk (w, k) hwk

end Op

namespace Tree

variable {cs : List Tree} {k k' : OpKind} {w : Wanted} {ws : List Wanted} {ks ks' : List OpKind}

/-- Whether every operator of the tree fits its children. -/
def wellFormed : Tree → Bool
  | node _ op children => op.fits (children.map kind) && all children
where
  all : List Tree → Bool
    | [] => true
    | c :: cs => wellFormed c && all cs

theorem wellFormed_all : wellFormed.all cs = true ↔ ∀ c ∈ cs, c.wellFormed := by
  induction cs with
  | nil => simp [wellFormed.all]
  | cons c cs ih => simp [wellFormed.all, ih]

theorem wellFormed_node {id : NodeId} {op : Op} :
    (node id op cs).wellFormed ↔ op.fits (cs.map kind) = true ∧ ∀ c ∈ cs, c.wellFormed := by
  simp [wellFormed, wellFormed_all]

theorem wellFormed_of_mem_subtrees {t s : Tree} (ht : t.wellFormed) (hs : s ∈ t.subtrees) : s.wellFormed :=
  of_mem_subtrees (fun _ _ _ h => (wellFormed_node.mp h).2) hs ht

def IsRelational (t : Tree) : Prop := t.kind.isRelational = true

def IsExpression (t : Tree) : Prop := t.kind.isScalar = true

theorem not_isRelational_of_isScalar (h : k.isScalar) : ¬k.isRelational := by
  intro hr
  simp [OpKind.isScalar, hr] at h

/-- The children an operator stands over. -/
inductive Shape : Op → List Tree → Prop
  | scanTable (t : Table) : Shape (.scanTable t) []
  | singleRowTable : Shape .singleRowTable []
  | filter {input predicate : Tree} : input.IsRelational → predicate.IsExpression → Shape .filter [input, predicate]
  | project (outputs : VarSet) {input defs : Tree} : input.IsRelational → defs.kind = .varDefList →
      Shape (.project outputs) [input, defs]
  | crossJoin {left right : Tree} : left.IsRelational → right.IsRelational → Shape .crossJoin [left, right]
  | innerJoin {left right predicate : Tree} : left.IsRelational → right.IsRelational → predicate.IsExpression →
      Shape .innerJoin [left, right, predicate]
  | leftOuterJoin {left right predicate : Tree} : left.IsRelational → right.IsRelational → predicate.IsExpression →
      Shape .leftOuterJoin [left, right, predicate]
  | crossApply {left right : Tree} : left.IsRelational → right.IsRelational → Shape .crossApply [left, right]
  | outerApply {left right : Tree} : left.IsRelational → right.IsRelational → Shape .outerApply [left, right]
  | combine (kind : SetKind) {outputs : VarSet} {l r : VarMap} {left right : Tree} : left.IsRelational →
      right.IsRelational → (∀ v ∈ outputs, ∃ w, l.get? v = some w) → (∀ v ∈ outputs, ∃ w, r.get? v = some w) →
      Shape (.combine kind outputs l r) [left, right]
  | distinct (keys : VarSet) {input : Tree} : input.IsRelational → Shape (.distinct keys) [input]
  | groupBy (keys outputs : VarSet) {input keyDefs aggregates : Tree} : input.IsRelational →
      keyDefs.kind = .varDefList → aggregates.kind = .varDefList →
      Shape (.groupBy keys outputs) [input, keyDefs, aggregates]
  | sort (keys : List SortKey) {input : Tree} : input.IsRelational → Shape (.sort keys) [input]
  | constrainedSort (keys : List SortKey) {input skip limit : Tree} : input.IsRelational → skip.IsExpression →
      limit.IsExpression → Shape (.constrainedSort keys) [input, skip, limit]
  | varDefList {defs : List Tree} : (∀ d ∈ defs, d.kind = .varDef) → Shape .varDefList defs
  | varDef (v : VarId) {expr : Tree} : expr.IsExpression → Shape (.varDef v) [expr]
  | element (type : ScalarType) {input : Tree} : input.IsRelational → Shape (.scalar .element type) [input]
  | scalar {op : Op} {args : List Tree} : op.kind.isScalar = true → op.kind ≠ .element →
      op.kind.admits args.length = true → (∀ a ∈ args, a.IsExpression) → Shape op args

theorem length_eq_of_admits {n m : Nat} (hk : k.arity? = some n) (h : k.admits m = true) : m = n := by
  have : n = m := by simpa [OpKind.admits, hk] using h
  exact this.symm

theorem admits_each
    (h : ((List.replicate cs.length w).zip (cs.map kind)).all (fun x => x.1.admits x.2) = true) :
    ∀ c ∈ cs, w.admits c.kind := by
  induction cs with
  | nil => intro c hc; cases hc
  | cons c cs ih =>
    simp only [List.length_cons, List.replicate_succ, List.map_cons, List.zip_cons_cons, List.all_cons,
      Bool.and_eq_true] at h
    intro d hd
    rcases List.mem_cons.mp hd with rfl | hd
    · exact h.1
    · exact ih h.2 d hd

theorem admits_of_wellFormed {id : NodeId} {op : Op} (h : (node id op cs).wellFormed) :
    op.kind.admits cs.length := by
  have hf := (wellFormed_node.mp h).1
  simp only [Op.fits, Bool.and_eq_true, List.length_map] at hf
  exact hf.1.1

theorem shape_of_fits {op : Op} (h : op.fits (cs.map kind) = true) : Shape op cs := by
  obtain ⟨⟨ha, hk⟩, hm⟩ : (op.kind.admits cs.length = true ∧
      ((wantedChildren op.kind cs.length).zip (cs.map kind)).all (fun x => x.1.admits x.2) = true) ∧ _ := by
    simpa only [Op.fits, Bool.and_eq_true, List.length_map] using h
  -- Most operators want the same of all their children.
  have each : ∀ w, wantedChildren op.kind cs.length = List.replicate cs.length w →
      ∀ c ∈ cs, w.admits c.kind = true := fun w hw => admits_each (hw ▸ hk)
  have none : op.kind.arity? = some 0 → cs = [] := fun h0 => List.length_eq_zero_iff.mp (length_eq_of_admits h0 ha)
  have one : op.kind.arity? = some 1 → ∃ a, cs = [a] := fun h1 => List.length_eq_one_iff.mp (length_eq_of_admits h1 ha)
  have two : op.kind.arity? = some 2 → ∃ a b, cs = [a, b] := fun h2 => List.length_eq_two.mp (length_eq_of_admits h2 ha)
  have three : op.kind.arity? = some 3 → ∃ a b c, cs = [a, b, c] :=
    fun h3 => List.length_eq_three.mp (length_eq_of_admits h3 ha)
  cases op with
  | scanTable t =>
    obtain rfl := none rfl
    exact .scanTable t
  | singleRowTable =>
    obtain rfl := none rfl
    exact .singleRowTable
  | filter =>
    obtain ⟨a, b, rfl⟩ := two rfl
    simp [Op.kind, wantedChildren, Wanted.admits] at hk
    exact .filter hk.1 hk.2
  | project outputs =>
    obtain ⟨a, b, rfl⟩ := two rfl
    simp [Op.kind, wantedChildren, Wanted.admits] at hk
    exact .project outputs hk.1 hk.2
  | crossJoin =>
    obtain ⟨a, b, rfl⟩ := two rfl
    have hr := each .relational rfl
    exact .crossJoin (hr a (by simp)) (hr b (by simp))
  | innerJoin =>
    obtain ⟨a, b, c, rfl⟩ := three rfl
    simp [Op.kind, wantedChildren, Wanted.admits] at hk
    exact .innerJoin hk.1 hk.2.1 hk.2.2
  | leftOuterJoin =>
    obtain ⟨a, b, c, rfl⟩ := three rfl
    simp [Op.kind, wantedChildren, Wanted.admits] at hk
    exact .leftOuterJoin hk.1 hk.2.1 hk.2.2
  | crossApply =>
    obtain ⟨a, b, rfl⟩ := two rfl
    have hr := each .relational rfl
    exact .crossApply (hr a (by simp)) (hr b (by simp))
  | outerApply =>
    obtain ⟨a, b, rfl⟩ := two rfl
    have hr := each .relational rfl
    exact .outerApply (hr a (by simp)) (hr b (by simp))
  | combine kind outputs l r =>
    obtain ⟨a, b, rfl⟩ := two (by cases kind <;> rfl)
    have hr := each .relational (by cases kind <;> rfl)
    simp only [List.all_eq_true, VarSet.mem_toList, Bool.and_eq_true, Option.isSome_iff_exists] at hm
    exact .combine kind (hr a (by simp)) (hr b (by simp)) (fun v hv => (hm v hv).1) (fun v hv => (hm v hv).2)
  | distinct keys =>
    obtain ⟨a, rfl⟩ := one rfl
    exact .distinct keys (each .relational rfl a (by simp))
  | groupBy keys outputs =>
    obtain ⟨a, b, c, rfl⟩ := three rfl
    simp [Op.kind, wantedChildren, Wanted.admits] at hk
    exact .groupBy keys outputs hk.1 hk.2.1 hk.2.2
  | sort keys =>
    obtain ⟨a, rfl⟩ := one rfl
    exact .sort keys (each .relational rfl a (by simp))
  | constrainedSort keys =>
    obtain ⟨a, b, c, rfl⟩ := three rfl
    simp [Op.kind, wantedChildren, Wanted.admits] at hk
    exact .constrainedSort keys hk.1 hk.2.1 hk.2.2
  | varDefList => exact .varDefList fun d hd => beq_iff_eq.mp (each (.kind .varDef) rfl d hd)
  | varDef v =>
    obtain ⟨a, rfl⟩ := one rfl
    exact .varDef v (each .scalar rfl a (by simp))
  | scalar kind type =>
    by_cases he : kind = .element
    · subst he
      obtain ⟨a, rfl⟩ := one rfl
      simp [Op.kind, ScalarKind.kind, wantedChildren, Wanted.admits] at hk
      exact .element type hk
    · have hne : kind.kind ≠ .element := by
        cases kind <;> first | exact absurd rfl he | decide
      exact .scalar (by cases kind <;> rfl) hne ha (each .scalar (by cases kind <;> first | rfl | exact absurd rfl he))
  | varRef v type | constant value | null type | internalConstant value | nullSentinel | constantPredicate holds | aggregate name type =>
    exact .scalar rfl (by simp [Op.kind]) ha (each .scalar rfl)

theorem fits_of_wanted {op : Op} (ha : op.kind.admits cs.length)
    (hw : wantedChildren op.kind cs.length = ws) (hcs : List.Forall₂ (fun w (c : Tree) => w.admits c.kind) ws cs)
    (hm : op.Maps) : op.fits (cs.map kind) = true :=
  Op.fits_of_admits (by rwa [List.length_map]) (by rwa [List.length_map]) (List.forall₂_map_right_iff.mpr hcs) hm

theorem forall₂_replicate (h : ∀ c ∈ cs, w.admits c.kind) :
    List.Forall₂ (fun w (c : Tree) => w.admits c.kind) (List.replicate cs.length w) cs := by
  induction cs with
  | nil => exact .nil
  | cons c cs ih => exact .cons (h c List.mem_cons_self) (ih fun d hd => h d (List.mem_cons_of_mem _ hd))

theorem fits_of_shape {op : Op} (h : Shape op cs) : op.fits (cs.map kind) = true := by
  cases h with
  | scanTable | singleRowTable => rfl
  | filter h₁ h₂ => exact fits_of_wanted rfl rfl (.cons h₁ (.cons h₂ .nil)) nofun
  | project _ h₁ h₂ => exact fits_of_wanted rfl rfl (.cons h₁ (.cons (beq_iff_eq.mpr h₂) .nil)) nofun
  | crossJoin h₁ h₂ | crossApply h₁ h₂ | outerApply h₁ h₂ =>
    exact fits_of_wanted rfl rfl (.cons h₁ (.cons h₂ .nil)) nofun
  | innerJoin h₁ h₂ h₃ | leftOuterJoin h₁ h₂ h₃ =>
    exact fits_of_wanted rfl rfl (.cons h₁ (.cons h₂ (.cons h₃ .nil))) nofun
  | combine kind h₁ h₂ hl hr =>
    have hkinds : List.Forall₂ (fun (w : Wanted) (c : Tree) => w.admits c.kind) [.relational, .relational] [_, _] :=
      .cons h₁ (.cons h₂ .nil)
    refine fits_of_wanted ?_ ?_ hkinds ?_
    · cases kind <;> rfl
    · cases kind <;> rfl
    · rintro _ _ _ _ ⟨⟩ v hv
      exact ⟨hl v hv, hr v hv⟩
  | distinct _ h | sort _ h | varDef v h | element _ h => exact fits_of_wanted rfl rfl (.cons h .nil) nofun
  | groupBy _ _ h₁ h₂ h₃ =>
    exact fits_of_wanted rfl rfl (.cons h₁ (.cons (beq_iff_eq.mpr h₂) (.cons (beq_iff_eq.mpr h₃) .nil))) nofun
  | constrainedSort _ h₁ h₂ h₃ => exact fits_of_wanted rfl rfl (.cons h₁ (.cons h₂ (.cons h₃ .nil))) nofun
  | varDefList h => exact fits_of_wanted rfl rfl (forall₂_replicate fun d hd => beq_iff_eq.mpr (h d hd)) nofun
  | scalar hs hne ha hargs =>
    refine fits_of_wanted ha ?_ (forall₂_replicate (w := .scalar) hargs) ?_
    · generalize op.kind = k at hs hne
      cases k <;> first | rfl | exact absurd rfl hne | cases hs
    · rintro kind outputs l r rfl
      cases kind <;> cases hs

/-- Kinds that may stand in the same places. -/
def SameRole (k k' : OpKind) : Prop :=
  k.isRelational = k'.isRelational ∧ k.isScalar = k'.isScalar ∧ (k = .varDef ↔ k' = .varDef) ∧
    (k = .varDefList ↔ k' = .varDefList)

theorem SameRole.refl (k : OpKind) : SameRole k k := ⟨rfl, rfl, .rfl, .rfl⟩

theorem SameRole.trans {k'' : OpKind} (h : SameRole k k') (h' : SameRole k' k'') : SameRole k k'' :=
  ⟨h.1.trans h'.1, h.2.1.trans h'.2.1, h.2.2.1.trans h'.2.2.1, h.2.2.2.trans h'.2.2.2⟩

theorem sameRole_of_relational (h : k.isRelational) (h' : k'.isRelational) :
    SameRole k k' := by
  refine ⟨h.trans h'.symm, ?_, ⟨?_, ?_⟩, ⟨?_, ?_⟩⟩
  · simp [OpKind.isScalar, h, h']
  all_goals
    rintro rfl
    first | cases h | cases h'

theorem sameRole_of_scalar (h : k.isScalar) (h' : k'.isScalar) : SameRole k k' := by
  have hr := not_isRelational_of_isScalar h
  have hr' := not_isRelational_of_isScalar h'
  refine ⟨by simp_all, h.trans h'.symm, ⟨?_, ?_⟩, ⟨?_, ?_⟩⟩
  all_goals
    rintro rfl
    first | cases h | cases h'

theorem admits_of_sameRole {kind : OpKind} {n : Nat} (hw : w ∈ wantedChildren kind n)
    (h : SameRole k k') (ha : w.admits k = true) : w.admits k' = true := by
  have hforms : w = .relational ∨ w = .scalar ∨ w = .kind .varDef ∨ w = .kind .varDefList := by
    cases kind <;> simp_all [wantedChildren, OpKind.isRelational] <;> tauto
  rcases hforms with rfl | rfl | rfl | rfl
  · exact h.1.symm.trans ha
  · exact h.2.1.symm.trans ha
  · exact beq_iff_eq.mpr (h.2.2.1.mp (beq_iff_eq.mp ha))
  · exact beq_iff_eq.mpr (h.2.2.2.mp (beq_iff_eq.mp ha))

theorem all_zip_of_sameRole (h : List.Forall₂ SameRole ks ks')
    (hw : ∀ w ∈ ws, ∀ k k', SameRole k k' → w.admits k = true → w.admits k' = true)
    (ha : (ws.zip ks).all (fun x => x.1.admits x.2) = true) : (ws.zip ks').all (fun x => x.1.admits x.2) = true := by
  induction h generalizing ws with
  | nil => simp
  | cons hk _ ih =>
    cases ws with
    | nil => rfl
    | cons w ws =>
      simp only [List.zip_cons_cons, List.all_cons, Bool.and_eq_true] at ha ⊢
      exact ⟨hw w List.mem_cons_self _ _ hk ha.1, ih (fun w' hw' => hw w' (List.mem_cons_of_mem _ hw')) ha.2⟩

theorem fits_of_sameRole {op : Op} (h : List.Forall₂ SameRole ks ks') (hf : op.fits ks) :
    op.fits ks' = true := by
  simp only [Op.fits, Bool.and_eq_true, h.length_eq] at hf ⊢
  exact ⟨⟨hf.1.1, all_zip_of_sameRole h (fun w hw k k' => admits_of_sameRole hw) hf.1.2⟩, hf.2⟩

def definitions (t : Tree) : List (VarId × Tree) :=
  t.children.filterMap fun
    | node _ (.varDef v) [e] => some (v, e)
    | _ => none

theorem definitions_spec {t : Tree} (ht : t.wellFormed) (hk : t.kind = .varDefList) : t.op = .varDefList ∧
    List.Forall₂ (fun c x => ∃ id, c = node id (.varDef x.1) [x.2] ∧ x.2.IsExpression) t.children t.definitions := by
  obtain ⟨id, op, cs⟩ := t
  obtain ⟨hf, hcs⟩ := wellFormed_node.mp ht
  obtain ⟨hop, hdefs⟩ : op = .varDefList ∧ ∀ d ∈ cs, d.kind = .varDef := by
    cases shape_of_fits hf with
    | varDefList h => exact ⟨rfl, h⟩
    | scalar h => rw [show op.kind = .varDefList from hk] at h; cases h
    | combine kind => cases kind <;> cases hk
    | _ => cases hk
  refine ⟨hop, ?_⟩
  clear hf ht hk
  rw [definitions, children_node]
  induction cs with
  | nil => exact .nil
  | cons d cs ih =>
    obtain ⟨did, dop, ds⟩ := d
    have hdk : dop.kind = .varDef := hdefs _ List.mem_cons_self
    obtain ⟨hdf, -⟩ := wellFormed_node.mp (hcs _ List.mem_cons_self)
    obtain ⟨v, e, rfl, rfl, he⟩ : ∃ v e, dop = .varDef v ∧ ds = [e] ∧ e.IsExpression := by
      cases shape_of_fits hdf with
      | varDef v he => exact ⟨v, _, rfl, rfl, he⟩
      | scalar h => rw [hdk] at h; cases h
      | combine kind => cases kind <;> cases hdk
      | _ => cases hdk
    exact .cons ⟨did, rfl, he⟩ (ih (fun c hc => hcs c (List.mem_cons_of_mem _ hc))
      fun c hc => hdefs c (List.mem_cons_of_mem _ hc))

end Tree

end Planwright
