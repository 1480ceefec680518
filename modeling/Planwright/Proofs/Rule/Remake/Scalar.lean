import Planwright.Proofs.Plan.Nodes
import Planwright.Proofs.Tree.Descent

/-! Rules on expressions. Each makes an operand, an operator over some of the operands, or a constant. -/

namespace Planwright

open Run Planwright.Tree Plan

namespace Tree

/-- What rules on expressions make of one: a part of it, or an operator over parts of it. -/
inductive Simplifies (t : Tree) : Tree → Prop
  | part {d : Tree} : PartsOf t [d] → t.outline.Within [d.outline] → Simplifies t d
  | operator {n : NodeId} {op : Op} {ds : List Tree} : op.kind.isScalar = true → op.kind ≠ .element →
      (∀ v type, op ≠ .varRef v type) → op.kind.admits ds.length = true → PartsOf t ds →
      t.outline.Within (ds.map outline) → ((ds.map outline).map Outline.extent).sum + 1 < t.outline.extent →
      Simplifies t (.node n op ds)

variable {t : Tree} {ds : List Tree}

theorem within_children (h : t.IsExpression) : t.outline.Within (t.children.map outline) := by
  obtain ⟨n, op, cs⟩ := t
  rw [outline_node]
  exact .operands h

theorem extent_children (h : t.IsExpression) :
    t.outline.extent = ((t.children.map outline).map Outline.extent).sum + 1 := by
  obtain ⟨n, op, cs⟩ := t
  rw [outline_node]
  exact (Outline.plain_of_not_relational (Outline.not_relational_of_isScalar h)).extent

end Tree

theorem Value.compare_spares {a b : Value} : Spares (a.compare b) := by
  rw [Value.compare]
  split
  · exact .throw nofun
  · exact .pure

theorem Value.equals_spares {a b : Value} : Spares (a.equals b) := by
  rw [Value.equals]
  split
  · exact .bind compare_spares fun _ => .pure
  · exact .pure

theorem Op.equivalent_spares {a b : Op} : Spares (a.equivalent b) := by
  unfold Op.equivalent
  split
  · exact .pure
  · split <;> try exact .pure
    split
    · exact Value.equals_spares
    · exact .pure

theorem Tree.equivalent_spares {s t : Tree} : Spares (s.equivalent t) := by
  induction s using induct generalizing t with
  | node i a cs ih =>
    obtain ⟨j, b, ds⟩ := t
    have each : ∀ cs' : List Tree, (∀ c ∈ cs', c ∈ cs) → ∀ ds, Spares (equivalent.each cs' ds) := by
      intro cs'
      induction cs' with
      | nil => exact fun _ ds => .pure
      | cons c cs' ihs =>
        intro hsub ds
        cases ds with
        | nil => exact .pure
        | cons d ds =>
          refine .bind (ih c (hsub c List.mem_cons_self)) fun same => ?_
          split
          · exact ihs (fun c hc => hsub c (List.mem_cons_of_mem _ hc)) ds
          · exact .pure
    rw [equivalent]
    split
    · exact .pure
    · refine .bind Op.equivalent_spares fun same => ?_
      split
      · exact .pure
      · exact each cs (fun _ h => h) ds

namespace Rules

open RuleM

variable {ds : List Tree} {args before : List NodeId} {xs : List (NodeId × Op)} {k : OpKind}
  {f : NodeId → RuleM (Option NodeId)}
variable {first : Tree} {ts : List Tree}

theorem allEquivalent_spares : Spares (allEquivalent first ts) := by
  induction ts with
  | nil => exact .pure
  | cons t ts ih =>
    refine .bind equivalent_spares fun same => ?_
    split
    · exact ih
    · exact .pure

variable {c : Context} {p p' : Plan} {t : Tree}

/-- What a rule on an expression ends with. -/
abbrev Simplified (c : Context) (p : Plan) (t : Tree) : Option NodeId → Context → Plan → Prop :=
  Remade c p t fun vs m t' => vs = [] ∧ m = c.mappings ∧ Simplifies t t'

theorem simplified_part {d : Tree} (h : PartsOf t [d]) (hw : t.outline.Within [d.outline]) (hd : p.Holds d)
    (hk : Keeps ∅ p p') : Simplified c p t (some d.id) c p' := by
  refine .of_grows (hk.still hd) hk.grows (fun x => ?_) ⟨rfl, rfl, .part h hw⟩
  simpa using h.ids x

theorem simplified_over {n : NodeId} {op : Op} {p₁ : Plan} (h : PartsOf t ds)
    (hw : t.outline.Within (ds.map outline)) (hext : ((ds.map outline).map Outline.extent).sum + 1 < t.outline.extent)
    (hk : Keeps ∅ p p₁) (hn : Created p₁ op ds n p') (hop : op.kind.isScalar) (hne : op.kind ≠ .element)
    (href : ∀ v type, op ≠ .varRef v type) : Simplified c p t (some n) c p' := by
  have hg : Grows ∅ [n] [] p p' := by simpa using hk.grows.and_then hn.grows
  refine .of_grows hn.holds hg (fun x => ?_) ⟨rfl, rfl, .operator hop hne href hn.admits h hw hext⟩
  have := h.ids x
  simp [List.count_cons]
  omega

/-- A computation that looks around and may then make a constant. -/
def Folds (x : RuleM (Option NodeId)) : Prop :=
  ∀ c p, HaltsIn x c p fun out c' p' => c' = c ∧ (out = none ∧ Same p p' ∨
    ∃ n op p₁, out = some n ∧ Keeps ∅ p p₁ ∧ Created p₁ op [] n p' ∧ op.kind.isScalar = true ∧ op.kind ≠ .element ∧
      ∀ v type, op ≠ .varRef v type)

section Folds
variable {α : Type} {x : RuleM α} {f : α → RuleM (Option NodeId)}

theorem Folds.quiet (hx : Quiet x) (hf : ∀ a, Folds (f a)) : Folds (x >>= f) := fun c p =>
  .bind (hx c p) fun a c₁ p₁ ⟨hc₁, hs⟩ => (hf a c₁ p₁).mono fun _ _ _ ⟨hc, h⟩ => by
    refine ⟨hc.trans hc₁, h.imp (fun ⟨hout, hs'⟩ => ⟨hout, hs.trans hs'⟩) ?_⟩
    rintro ⟨n, op, p₂, hout, hk', h⟩
    exact ⟨n, op, p₂, hout, hs.keeps.and_then hk', h⟩

theorem Folds.none : Folds (pure none) := fun _ _ => .pure ⟨rfl, .inl ⟨rfl, .refl _⟩⟩

theorem Folds.throw {e : Fault} (he : e ≠ .outOfFuel) : Folds (throw e) := fun _ _ => .throw he

theorem Folds.predicate {holds : Bool} : Folds (do return some (← Plan.predicate holds)) := fun _ p =>
  .step (create_halts [] nofun) fun n _ h => .pure ⟨rfl, .inr ⟨n, _, p, rfl, .refl _ _, h, rfl, nofun, nofun⟩⟩

theorem Folds.null {type : ScalarType} : Folds (do return some (← Plan.null type)) := fun _ p =>
  .step (create_halts [] nofun) fun n _ h => .pure ⟨rfl, .inr ⟨n, _, p, rfl, .refl _ _, h, rfl, nofun, nofun⟩⟩

theorem Folds.simplified {x : RuleM (Option NodeId)} (hx : Folds x) (he : t.IsExpression) (hargs : t.children ≠ []) :
    HaltsIn x c p (Simplified c p t) := by
  refine (hx c p).mono ?_
  rintro out c' p' ⟨rfl, ⟨rfl, hs⟩ | ⟨n, op, p₁, rfl, hk, hn, hop, hne, href⟩⟩
  · exact ⟨rfl, hs.keeps⟩
  · refine simplified_over .nil ((within_children he).sublist (List.nil_sublist _)) ?_ hk hn hop hne href
    have hlt := Outline.extent_lt_of_sublist (List.nil_sublist (t.children.map outline))
      (by simpa using List.length_pos_iff.mpr hargs)
    rw [extent_children he]
    exact Nat.succ_lt_succ hlt

end Folds

theorem foldLike_folds (n : NodeId) : Folds (foldLike n) := by
  refine .quiet (.plan child_looks) fun a => .quiet (.plan op_looks) fun _ => ?_
  split
  · refine .quiet (.plan child_looks) fun b => .quiet (.plan op_looks) fun _ => ?_
    split
    · split
      · exact .predicate
      · exact .none
    · exact .none
  · exact .none

theorem foldComparison_folds (n : NodeId) : Folds (foldComparison n) := by
  refine .quiet (.plan child_looks) fun a => .quiet (.plan op_looks) fun _ => ?_
  split
  · refine .quiet (.plan child_looks) fun b => .quiet (.plan op_looks) fun _ => ?_
    split
    · split
      · exact .none
      · refine .quiet (.plan kind_looks) fun k => .quiet (.except Value.compare_spares) fun o => ?_
        split
        · exact .predicate
        · exact .throw nofun
    · exact .none
  · exact .none

theorem foldNot_folds (n : NodeId) : Folds (foldNot n) :=
  .quiet (.plan child_looks) fun _ => .quiet (.plan op_looks) fun _ => .predicate

theorem foldIsNull_folds (n : NodeId) : Folds (foldIsNull n) := by
  refine .quiet (.plan child_looks) fun a => .quiet (.plan op_looks) fun _ => ?_
  split
  · exact .none
  · exact .predicate

theorem foldNullCast_folds (n : NodeId) : Folds (foldNullCast n) := .quiet (.plan op_looks) fun _ => .null

theorem isNeverNull_quiet (v : VarId) : Quiet (isNeverNull v) := by
  refine .get fun c => ?_
  induction c.ancestors with
  | nil => exact .pure
  | cons a rest ih =>
    refine .bind (.plan recompute_looks) fun _ => .bind (.plan relationInfo_looks) fun i => ?_
    split
    · exact .pure
    · split
      · exact .pure
      · exact ih

theorem foldIsNullReference_folds (n : NodeId) : Folds (foldIsNullReference n) := by
  refine .quiet (.plan child_looks) fun a => .quiet (.plan op_looks) fun _ => ?_
  split
  · refine .quiet (isNeverNull_quiet _) fun never => ?_
    split
    · exact .predicate
    · exact .none
  · exact .throw nofun

section Operands
variable (ht : p.Holds t) (he : t.IsExpression) (hargs : PartsOf t t.children)
include ht he hargs

theorem simplified_operand {d : Tree} (hd : d ∈ t.children) (hk : Keeps ∅ p p') : Simplified c p t (some d.id) c p' :=
  simplified_part (hargs.only hd) ((within_children he).only (List.mem_map_of_mem hd)) (ht.of_mem hd) hk

theorem foldLogical_simplifies (i j : Nat) :
    HaltsIn (do foldLogical (← child t.id i) (← child t.id j) t.id) c p (Simplified c p t) := by
  have hchild : ∀ i, Halts (child t.id i) p fun n p' => p' = p ∧ ∃ c ∈ t.children, c.id = n := fun i =>
    ((child_looks p).and ht.child_ends).mono fun _ _ h => h.2
  refine .step (hchild i) ?_
  rintro _ p ⟨rfl, constant, hconstant, rfl⟩
  refine .step (hchild j) ?_
  rintro _ p ⟨rfl, other, hother, rfl⟩
  have operand {d : Tree} (hd : d ∈ t.children) : Simplified c p t (some d.id) c p :=
    simplified_operand ht he hargs hd (.refl _ _)
  refine .read (ht.of_mem hconstant).op_run (.read ht.kind_run ?_)
  split
  · refine .pure ?_
    split
    · exact operand hother
    · exact operand hconstant
  · refine .pure ?_
    split
    · exact operand hconstant
    · exact operand hother
  · exact .throw nofun

end Operands

/-- All results of a case, the else included. -/
def Results {α : Type} (P : α → Prop) : List α → Prop
  | [] => False
  | [last] => P last
  | _ :: result :: rest => P result ∧ Results P rest

theorem results_map {α β : Type} {P : β → Prop} {f : α → β} {as : List α} : Results P (as.map f) ↔ Results (fun a => P (f a)) as := by
  fun_induction Results (fun a => P (f a)) as with
  | case1 => exact Iff.rfl
  | case2 => exact Iff.rfl
  | case3 _ result rest ih => exact and_congr_right' ih

theorem Results.imp {α : Type} {P Q : α → Prop} {as : List α} (h : Results P as) (hPQ : ∀ a ∈ as, P a → Q a) : Results Q as := by
  fun_induction Results P as with
  | case1 => exact h
  | case2 last => exact hPQ last (by simp) h
  | case3 _ result rest ih =>
    exact ⟨hPQ result (by simp) h.1, ih h.2 fun a ha => hPQ a (List.mem_cons_of_mem _ (List.mem_cons_of_mem _ ha))⟩

theorem alternate_cons (a : NodeId) (l : List NodeId) : alternate (a :: l) = a :: alternate (l.drop 1) := by
  cases l <;> rfl

theorem results_of_alternate {P : NodeId → Prop} {rest : List NodeId} (hodd : rest.length % 2 = 1)
    (hlast : ∀ n, rest.getLast? = some n → P n) (hmiddle : ∀ n ∈ alternate (rest.dropLast.drop 1), P n) : Results P rest := by
  fun_induction Results P rest with
  | case1 => cases hodd
  | case2 last => exact hlast last rfl
  | case3 _ result rest ih =>
    rw [List.length_cons, List.length_cons] at hodd
    obtain ⟨last, tail, rfl⟩ : ∃ last tail, rest = last :: tail :=
      List.exists_cons_of_ne_nil (List.length_pos_iff.mp (by omega))
    rw [List.dropLast_cons_cons, List.dropLast_cons_cons, List.drop_one, List.tail_cons, alternate_cons, List.forall_mem_cons] at hmiddle
    refine ⟨hmiddle.1, ih (by omega) (fun n hn => hlast n ?_) hmiddle.2⟩
    rw [List.getLast?_cons_cons, List.getLast?_cons_cons, hn]

theorem equivalent_of_allEquivalent (h : allEquivalent first ts = .ok true) :
    ∀ t ∈ ts, t.equivalent first = .ok true := by
  induction ts with
  | nil => nofun
  | cons t ts ih =>
    rw [allEquivalent] at h
    obtain ⟨same, hsame, h⟩ := bind_ok.mp h
    cases same with
    | true => exact List.forall_mem_cons.mpr ⟨hsame, ih h⟩
    | false => cases h

theorem trees_halt {ns : List NodeId} : HaltsIn (ns.mapM fun n => (liftM (Plan.tree n) : RuleM Tree)) c p fun ts c' p' =>
    (c' = c ∧ p' = p) ∧ List.Forall₂ (fun n s => p.tree? n = some s) ns ts := by
  refine HaltsIn.mapM (I := fun c' p' => c' = c ∧ p' = p) (P := False) (fun n _ c' p' h => ?_) ⟨rfl, rfl⟩
  obtain ⟨rfl, rfl⟩ := h
  exact .lift (((tree_looks p').and tree_ends).mono fun s p₁ h => ⟨⟨rfl, h.2.1⟩, h.2.2⟩)

/-- A case collapses to a result that all results are equivalent to. The else is compared the other way round. -/
theorem collapseCase_halts (ht : p.Holds t) : HaltsIn (collapseCase t.id) c p fun out c' p' =>
    c' = c ∧ p' = p ∧ ∀ n, out = some n → ∃ d ∈ t.children, d.id = n ∧ (t.children.length % 2 = 1 →
      Results (fun x => x = d ∨ d.equivalent x = .ok true ∨ x.equivalent d = .ok true) t.children) := by
  have hheld : ∀ d ∈ t.children, p.Holds d := fun d hd => ht.of_mem hd
  refine .read ht.children_run ?_
  generalize t.children = cs at hheld ⊢
  obtain _ | ⟨w, _ | ⟨d, ds⟩⟩ := cs
  · exact .throw nofun
  · exact .throw nofun
  · obtain ⟨-, hd, hds⟩ : _ ∧ _ ∧ _ := by simpa only [List.forall_mem_cons] using hheld
    have hlast : (d.id :: ds.map Tree.id).getLast (by simp) = ((d :: ds).getLast (by simp)).id := by
      simp only [← List.map_cons, List.getLast_map]
    rw [List.map_cons, List.map_cons]
    refine .tree hd ?_
    rw [hlast]
    refine .tree (hheld _ (List.mem_cons_of_mem _ (List.getLast_mem _))) ?_
    refine .except equivalent_spares fun same helse => ?_
    cases same with
    | false => exact .pure ⟨rfl, rfl, nofun⟩
    | true =>
      refine .bind trees_halt fun middle c₁ p₁ ⟨⟨hc, hp⟩, hmiddle⟩ => ?_
      subst hc hp
      refine .except allEquivalent_spares fun all hall => ?_
      cases all with
      | false => exact .pure ⟨rfl, rfl, nofun⟩
      | true =>
        refine .pure ⟨rfl, rfl, fun n hn => ⟨d, by simp, Option.some.inj hn, fun hodd => ⟨.inl rfl, ?_⟩⟩⟩
        refine (results_map.mp (results_of_alternate (P := fun n => ∀ x ∈ ds, x.id = n →
          d.equivalent x = .ok true ∨ x.equivalent d = .ok true) ?_ (fun n hn x hx hid => .inl ?_)
          fun n hn x hx hid => .inr ?_)).imp fun x hx h => .inr (h x hx rfl)
        · rw [List.length_cons, List.length_cons] at hodd
          rw [List.length_map]
          omega
        · obtain ⟨e, he, rfl⟩ := Option.map_eq_some_iff.mp (List.getLast?_map ▸ hn)
          obtain rfl := (hds x hx).unique (hds e (List.mem_of_getLast? he)) hid
          rwa [List.getLast_cons (List.ne_nil_of_mem hx), List.getLast_of_getLast?_eq_some he] at helse
        · obtain ⟨y, hy, hshown⟩ := exists_of_forall₂_right hmiddle.flip hn
          rw [← hid, (hds x hx).tree?] at hshown
          obtain rfl := Option.some.inj hshown
          exact equivalent_of_allEquivalent hall x hy

theorem sublist_getD {kept : Option (List NodeId)}
    (h : ∀ k, kept = some k → k.Sublist before ∧ k.length < before.length) : (kept.getD before).Sublist before := by
  cases kept with
  | none => exact .refl _
  | some k => exact (h k rfl).1

/-- What is left of a case's operands once branches are decided. A branch that is decided loses its condition at least. -/
theorem decideBranches_sublist {kept : Option (List NodeId)} (h : decideBranches kept before xs = some (some args))
    (hkept : ∀ k, kept = some k → k.Sublist before ∧ k.length < before.length) :
    args.Sublist (before ++ xs.map Prod.fst) ∧ args.length < (before ++ xs.map Prod.fst).length := by
  fun_induction decideBranches kept before xs with
  | case1 kept before => simpa using hkept args (Option.some.inj h)
  | case2 | case4 => cases h
  | case3 kept before e op hcast =>
    obtain ⟨k, hk, rfl⟩ := Option.map_eq_some_iff.mp (Option.some.inj h)
    exact ⟨(hkept k hk).1.append (.refl _), by simpa using (hkept k hk).2⟩
  | case5 kept before w r result rest =>
    obtain rfl := Option.some.inj (Option.some.inj h)
    have hs := sublist_getD hkept
    have hlen := hs.length_le
    have hrest : [r].Sublist (((w, Op.constantPredicate true) :: (r, result) :: rest).map Prod.fst) := by simp
    refine ⟨hs.append hrest, ?_⟩
    show (kept.getD before ++ [r]).length < _
    simp
    omega
  | case6 kept before w r result rest hcast holds kept' hholds ih =>
    have hs := sublist_getD hkept
    have hlen := hs.length_le
    have hih := ih h fun k hk => ?_
    · simpa using hih
    · obtain rfl : kept.getD before = k := Option.some.inj hk
      exact ⟨hs.trans (List.sublist_append_left _ _), by simp; omega⟩
  | case7 kept before w test r result rest hcast hno ih =>
    have hih := ih h fun k hk => ?_
    · simpa using hih
    · obtain ⟨k', hk', rfl⟩ := Option.map_eq_some_iff.mp hk
      exact ⟨(hkept k' hk').1.append (.refl _), by simpa using (hkept k' hk').2⟩

theorem withOps_halts (h : ∀ d ∈ ds, p.Holds d) :
    HaltsIn ((ds.map Tree.id).mapM fun n => do return (n, ← Plan.op n) : RuleM _) c p fun out c' p' =>
      c' = c ∧ p' = p ∧ out = ds.map fun d => (d.id, d.op) := by
  induction ds with
  | nil => exact .pure ⟨rfl, rfl, rfl⟩
  | cons d ds ih =>
    rw [List.map_cons, List.mapM_cons]
    obtain ⟨hd, hds⟩ := List.forall_mem_cons.mp h
    refine .bind (R := fun out c' p' => c' = c ∧ p' = p ∧ out = (d.id, d.op)) ?_ ?_
    · exact .read hd.op_run (.pure ⟨rfl, rfl, rfl⟩)
    · rintro _ c p ⟨rfl, rfl, rfl⟩
      refine .bind (ih hds) ?_
      rintro _ c p ⟨rfl, rfl, rfl⟩
      exact .pure ⟨rfl, rfl, rfl⟩

/-- A case with some branches decided makes the only operand that remains, or a case over those that do. -/
theorem dropDecidedBranches_halts (ht : p.Holds t) : HaltsIn (dropDecidedBranches t.id) c p fun out c' p' =>
    c' = c ∧ (out = none ∧ p' = p ∨ ∃ es : List Tree, decideBranches none [] (t.children.map fun d => (d.id, d.op)) =
      some (some (es.map Tree.id)) ∧ es.Sublist t.children ∧ es.length < t.children.length ∧
        ((∃ e, es = [e] ∧ out = some e.id ∧ p' = p) ∨ ∃ n, out = some n ∧ Created p (.scalar .caseWhen t.op.type) es n p')) := by
  refine .read ht.children_run (.bind (withOps_halts fun d hd => ht.of_mem hd) ?_)
  rintro _ c p ⟨rfl, rfl, rfl⟩
  have kept {args : List NodeId} (h : decideBranches none [] (t.children.map fun d => (d.id, d.op)) = some (some args)) :
      ∃ es : List Tree, args = es.map Tree.id ∧ es.Sublist t.children ∧ es.length < t.children.length := by
    obtain ⟨hs, hlen⟩ := decideBranches_sublist h nofun
    rw [List.nil_append, List.map_map] at hs hlen
    obtain ⟨es, hes, rfl⟩ := List.sublist_map_iff.mp hs
    exact ⟨es, rfl, hes, by simpa using hlen⟩
  split
  · exact .pure ⟨rfl, .inl ⟨rfl, rfl⟩⟩
  · exact .pure ⟨rfl, .inl ⟨rfl, rfl⟩⟩
  · rename_i only heq
    obtain ⟨es, hids, hes, hlen⟩ := kept heq
    obtain ⟨e, rfl⟩ : ∃ e, es = [e] := List.length_eq_one_iff.mp (by simpa using (congrArg List.length hids).symm)
    obtain rfl : only = e.id := by simpa using hids
    exact .pure ⟨rfl, .inr ⟨[e], heq, hes, hlen, .inl ⟨e, rfl, rfl, rfl⟩⟩⟩
  · rename_i args _ heq
    obtain ⟨es, rfl, hes, hlen⟩ := kept heq
    refine .read ht.op_run (.step (create_halts es fun e he => ht.of_mem (hes.subset he)) fun n p₁ hn => .pure ?_)
    exact ⟨rfl, .inr ⟨es, heq, hes, hlen, .inr ⟨n, rfl, hn⟩⟩⟩

theorem flattenCase_halts (ht : p.Holds t) : HaltsIn (flattenCaseApply t.id) c p fun out c' p' =>
    c' = c ∧ (out = none ∧ p' = p ∨ ∃ init last n, t.children = init ++ [last] ∧ last.kind = .caseWhen ∧ out = some n ∧
      Created p (.scalar .caseWhen t.op.type) (init ++ last.children) n p') := by
  refine .read ht.children_run ?_
  rcases List.eq_nil_or_concat t.children with hnil | ⟨init, last, hcs⟩
  · simp only [hnil, List.map_nil, List.getLast?_nil]
    exact .throw nofun
  · rw [List.concat_eq_append] at hcs
    have hlast : p.Holds last := ht.of_mem (hcs ▸ List.mem_append_right _ (List.mem_singleton_self _))
    simp only [hcs, List.map_append, List.map_singleton, List.getLast?_concat, List.dropLast_concat]
    refine .read hlast.kind_run ?_
    split
    · exact .pure ⟨rfl, .inl ⟨rfl, rfl⟩⟩
    · rename_i hkind
      refine .read ht.op_run (.read hlast.children_run ?_)
      rw [← List.map_append]
      refine .step (create_halts _ fun e he => ?_) fun n p₁ hn => .pure ?_
      · rcases List.mem_append.mp he with he | he
        · exact ht.of_mem (hcs ▸ List.mem_append_left _ he)
        · exact hlast.of_mem he
      · exact ⟨rfl, .inr ⟨init, last, n, rfl, by simpa using hkind, rfl, hn⟩⟩

section Operands
variable (ht : p.Holds t) (he : t.IsExpression) (hargs : PartsOf t t.children)
include ht he hargs

theorem dropDecidedBranches_simplifies : HaltsIn (dropDecidedBranches t.id) c p (Simplified c p t) := by
  refine (dropDecidedBranches_halts ht).mono ?_
  rintro out c p' ⟨rfl, ⟨rfl, rfl⟩ | ⟨es, -, hes, hlen, ⟨e, rfl, rfl, rfl⟩ | ⟨n, rfl, hn⟩⟩⟩
  · exact ⟨rfl, .refl _ _⟩
  · exact simplified_operand ht he hargs (List.singleton_sublist.mp hes) (.refl _ _)
  · refine simplified_over (hargs.sublist hes) ((within_children he).sublist (hes.map _)) ?_ (.refl _ _) hn rfl nofun nofun
    rw [extent_children he]
    exact Nat.succ_lt_succ (Outline.extent_lt_of_sublist (hes.map _) (by simpa using hlen))

theorem simplifyCase_simplifies : HaltsIn (simplifyCaseApply t.id) c p (Simplified c p t) := by
  refine .bind (collapseCase_halts ht) ?_
  rintro out c p ⟨rfl, rfl, hout⟩
  cases out with
  | some n =>
    obtain ⟨d, hd, rfl, -⟩ := hout n rfl
    exact .pure (simplified_operand ht he hargs hd (.refl _ _))
  | none => exact dropDecidedBranches_simplifies ht he hargs

theorem flattenCase_simplifies : HaltsIn (flattenCaseApply t.id) c p (Simplified c p t) := by
  refine (flattenCase_halts ht).mono ?_
  rintro out c p' ⟨rfl, ⟨rfl, rfl⟩ | ⟨init, last, n, hcs, hkind, rfl, hn⟩⟩
  · exact ⟨rfl, .refl _ _⟩
  · have hw := within_children he
    have hext := extent_children he
    rw [hcs] at hargs hw hext
    have hexpr : last.IsExpression := hargs.right.isExpression last (by simp)
    have hparts : PartsOf t (init ++ last.children) :=
      hargs.expand (.operands hexpr (by simp [hkind]) (hargs.right.wellFormed last (by simp)))
    refine simplified_over hparts ?_ ?_ (.refl _ _) hn rfl nofun nofun
    · rw [List.map_append] at hw ⊢
      exact hw.expand (within_children hexpr)
    · have hlast := extent_children hexpr
      simp only [List.map_append, List.map_singleton, List.sum_append, List.sum_singleton] at hext ⊢
      omega

end Operands

/-- A rule that simplifies the expressions of a kind that a pattern picks. -/
inductive Simplifier : Rule → Prop
  | mk {name : String} {k : OpKind} {ps : List Pattern} {f : NodeId → RuleM (Option NodeId)} : k.isScalar = true →
      k.isConstant = false → (∀ {c p t}, p.Holds t → t.wellFormed = true → (matching k ps).holds p t.id = true → HaltsIn (f t.id) c p (Simplified c p t)) →
      Simplifier (.simple name (matching k ps) f)

variable {name : String}

theorem simplifier_of_folds {q : Pattern} {qs : List Pattern} (hk : k.isScalar) (hp : k.isConstant = false)
    (hf : ∀ n, Folds (f n)) : Simplifier (.simple name (matching k (q :: qs)) f) :=
  .mk hk hp fun ht _ hmatch => by
    refine (hf _).simplified ((congrArg OpKind.isScalar (kind_of_matches ht hmatch)).trans hk) fun hnil => ?_
    rw [Pattern.holds_eq_fits _ ht, Pattern.fits, hnil] at hmatch
    simp at hmatch

theorem simplifier_of_operands {ps : List Pattern} (hk : k.isScalar) (hp : k.isConstant = false) (hne : k ≠ .element)
    (hf : ∀ {c p t}, p.Holds t → t.IsExpression → PartsOf t t.children → HaltsIn (f t.id) c p (Simplified c p t)) :
    Simplifier (.simple name (matching k ps) f) :=
  .mk hk hp fun ht hwf hmatch => by
    have hkind := kind_of_matches ht hmatch
    have he : IsExpression _ := (congrArg OpKind.isScalar hkind).trans hk
    exact hf ht he (.operands he (hkind ▸ hne) hwf)

theorem scalarRules_simplify : ∀ rule ∈ scalarRules, Simplifier rule := by
  have comparison {name : String} {k : OpKind} (hk : k.isScalar) (hp : k.isConstant = false) :
      Simplifier (comparisonRule name k) := simplifier_of_folds hk hp foldComparison_folds
  have logical {name : String} {k : OpKind} {ps : List Pattern} (i j : Nat) (hk : k.isScalar) (hp : k.isConstant = false)
      (hne : k ≠ .element) : Simplifier (.simple name (matching k ps) fun n => do foldLogical (← child n i) (← child n j) n) :=
    simplifier_of_operands hk hp hne fun ht he hargs => foldLogical_simplifies ht he hargs i j
  simp only [scalarRules, List.forall_mem_cons]
  exact ⟨simplifier_of_operands rfl rfl (by decide) simplifyCase_simplifies, simplifier_of_operands rfl rfl (by decide) flattenCase_simplifies,
    simplifier_of_folds rfl rfl foldLike_folds, comparison rfl rfl, comparison rfl rfl, comparison rfl rfl, comparison rfl rfl,
    comparison rfl rfl, comparison rfl rfl, logical 1 0 rfl rfl (by decide), logical 0 1 rfl rfl (by decide), logical 1 0 rfl rfl (by decide),
    logical 0 1 rfl rfl (by decide), simplifier_of_folds rfl rfl foldNot_folds, simplifier_of_folds rfl rfl foldIsNull_folds,
    simplifier_of_folds rfl rfl fun _ => .predicate, simplifier_of_folds rfl rfl fun _ => .predicate,
    simplifier_of_folds rfl rfl foldNullCast_folds, simplifier_of_folds rfl rfl foldIsNullReference_folds, List.forall_mem_nil _⟩

end Rules

end Planwright
