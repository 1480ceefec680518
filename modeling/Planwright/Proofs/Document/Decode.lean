import Planwright.Proofs.Engine.Termination
import Planwright.Proofs.Json.Nesting

/-! Decoded plans. A document is refused for what is wrong with it, never with a fault, or gives a plan that
    holds a well-formed tree of nodes that are all different, in which every way down ends and every variable is
    registered. -/

namespace Planwright

open Run Plan Planwright.Tree

/-- Whether the cause of an error, however deep inside, is a fault. -/
def DocumentError.isFault : DocumentError → Bool
  | fault _ => true
  | inTable _ e | inParameter _ e | inVariable _ e | inRoot e | inColumnType _ e | inVariableType _ e | inSortKey e | inChild _ _ e
  | inOp _ e | inMap _ e => e.isFault
  | _ => false

/-- All variables that occur in an operator, those that are only known of a table and the outputs that a map leads from among them. -/
def Op.mentions : Op → List VarId
  | scanTable t => t.columns ++ (t.nonNullable.toList ++ (t.keys.map VarSet.toList).getD [])
  | combine _ outputs left right =>
    outputs.toList ++ (left.entries ++ right.entries).flatMap fun e => [e.1, e.2]
  | o => o.names

/-- The numbers of the nodes of a tree, children first. -/
def Tree.postIds : Tree → List NodeId
  | node id _ children => children.flatMap postIds ++ [id]

theorem Tree.postIds_perm (t : Tree) : t.postIds.Perm t.ids := by
  induction t using induct with
  | node id op cs ih =>
    rw [postIds, ids_node]
    exact List.perm_append_comm.trans (.cons id (.flatMap_left cs ih))

namespace Document

variable {v : Json} {d : Document}
variable {α β γ : Type}
variable {name : String} {p : Plan}

/-! ### Steps of decoding -/

/-- A step that is refused is not refused because of a fault. -/
def Refuses (x : Except DocumentError α) : Prop := ∀ e, x = .error e → e.isFault = false

section Refuses
variable {x : Except DocumentError α} {f : α → Except DocumentError β}

theorem Refuses.pure {a : α} : Refuses (pure a : Except DocumentError α) := nofun

theorem Refuses.throw {e : DocumentError} (h : e.isFault = false) : Refuses (throw e : Except DocumentError α) := by
  intro e' he
  cases he
  exact h

theorem Refuses.bind (hx : Refuses x) (hf : ∀ a, Refuses (f a)) : Refuses (x >>= f) := by
  cases x with
  | error e =>
    intro e' he
    cases he
    exact hx e rfl
  | ok a => exact hf a

end Refuses

/-- Whatever a step of decoding ends with satisfies `Q`, and a fault is not what it ends with. -/
abbrev Answers (x : DecodeM α) (d : Document) (Q : α → Document → Prop) : Prop := Meets (fun e => e.isFault = false) x d Q

section Answers
variable {x : DecodeM α} {d : Document} {R : α → Document → Prop}

theorem Answers.mono {R' : α → Document → Prop} (h : Answers x d R) (hR : ∀ a d', R a d' → R' a d') : Answers x d R' :=
  Meets.mono h (fun _ he => he) hR

theorem Answers.run (h : Answers x d R) : Answers x d fun a d' => x d = .ok (a, d') ∧ R a d' := ⟨h.faults, fun hx => ⟨hx, h.gives hx⟩⟩

theorem Answers.within {wrap : DocumentError → DocumentError} (hw : ∀ e, (wrap e).isFault = e.isFault) (h : Answers x d R) :
    Answers (within wrap x) d R := by
  cases hx : x d with
  | error e =>
    have hrun : Document.within wrap x d = .error (wrap e) := by rw [Document.within, hx]
    exact ⟨fun he => Except.error.inj (hrun.symm.trans he) ▸ (hw e).trans (h.faults hx), fun he => nomatch hrun.symm.trans he⟩
  | ok r => exact .of_run (by rw [Document.within, hx]) (h.gives hx)

theorem Answers.onPlan {step : PlanM α} {a : α} {p' : Plan} (hrun : step d.plan = .ok (a, p')) (h : R a { d with plan := p' }) :
    Answers (onPlan step) d R := by
  refine .get ?_
  simp only [StateT.run, hrun]
  exact .of_run rfl h

theorem Answers.forM {f : γ → DecodeM Unit} {I : Document → Prop} {cs : List γ}
    (hf : ∀ c ∈ cs, ∀ d, I d → Answers (f c) d fun _ d' => I d') (h : I d) : Answers (cs.forM f) d fun _ d' => I d' := by
  induction cs generalizing d with
  | nil => exact .pure h
  | cons c cs ih =>
    rw [List.forM]
    exact .bind (hf c List.mem_cons_self d h) fun _ _ h' => ih (fun c hc => hf c (List.mem_cons_of_mem _ hc)) h'

end Answers

/-- A step that only reads the document. -/
abbrev Looks (x : DecodeM α) (d : Document) (Q : α → Prop) : Prop := Answers x d fun a d' => d = d' ∧ Q a

section Looks
variable {x : DecodeM α} {f : α → DecodeM β} {d : Document} {R : α → Prop} {Q : β → Prop}

theorem Looks.bind (hx : Looks x d R) (hf : ∀ a, R a → Looks (f a) d Q) : Looks (x >>= f) d Q :=
  Meets.bind hx fun a _ ⟨hd, ha⟩ => hd ▸ hf a ha

theorem Looks.pure {a : α} (h : R a) : Looks (pure a) d R := Meets.pure ⟨rfl, h⟩

theorem Looks.lift {e : Except DocumentError α} (he : Refuses e) (h : ∀ a, R a) : Looks (liftM e) d R :=
  Meets.lift he fun a _ => ⟨rfl, h a⟩

theorem Looks.mapM {f : γ → DecodeM β} {cs : List γ} (hf : ∀ c ∈ cs, Looks (f c) d Q) :
    Looks (cs.mapM f) d fun bs => ∀ b ∈ bs, Q b := by
  induction cs with
  | nil => exact .pure nofun
  | cons c cs ih =>
    rw [List.mapM_cons]
    refine .bind (hf c List.mem_cons_self) fun b hb => ?_
    refine .bind (ih fun c hc => hf c (List.mem_cons_of_mem _ hc)) fun bs hbs => ?_
    exact .pure (List.forall_mem_cons.mpr ⟨hb, hbs⟩)

end Looks

/-! ### Declarations are sound -/

/-- No name is declared twice, and what is declared is registered. -/
structure Sound (d : Document) : Prop where
  tables : (d.tables.map Prod.fst).Nodup
  vars : (d.vars.map Prod.fst).Nodup
  named : ∀ x ∈ d.vars, x.2 < d.plan.vars.size
  columns : ∀ x ∈ d.tables, ∀ v ∈ (Op.scanTable x.2).mentions, v < d.plan.vars.size

theorem not_mem_of_lookup {xs : List (String × β)} (h : ¬(xs.lookup name).isSome) : name ∉ xs.map Prod.fst := by
  intro hmem
  obtain ⟨x, hx, rfl⟩ := List.mem_map.mp hmem
  rw [Option.not_isSome_iff_eq_none, List.lookup_eq_none_iff] at h
  simpa using h x hx

theorem nodup_append_name {xs : List (String × β)} (h : (xs.map Prod.fst).Nodup)
    (hname : ¬(xs.lookup name).isSome) (b : β) : ((xs ++ [(name, b)]).map Prod.fst).Nodup := by
  rw [List.map_append, List.map_singleton, List.nodup_append]
  refine ⟨h, List.nodup_singleton _, ?_⟩
  rintro a ha b hb rfl
  obtain rfl : a = name := List.mem_singleton.mp hb
  exact not_mem_of_lookup hname ha

/-! ### Parts of a document -/

theorem orMismatch_refuses {wrap : Mismatch → DocumentError} (hw : ∀ m, (wrap m).isFault = false) (x : Except Mismatch α) :
    Refuses (orMismatch wrap x) := by
  cases x with
  | error m => exact Refuses.throw (hw m)
  | ok a => exact nofun

theorem decodeType_refuses (v : Json) (earlier : List String) : Refuses (decodeType v earlier) := by
  unfold decodeType
  split
  · exact .throw rfl
  · split
    · exact .pure
    · exact .throw rfl

theorem decodeColumn_refuses (v : Json) : Refuses (decodeColumn v) := by
  unfold decodeColumn
  split
  · exact .pure
  · rename_i e he
    exact .throw (decodeType_refuses v [] e he)

theorem integer_refuses (v : Json) : Refuses (decodeValue.integer v) := by
  refine .bind (orMismatch_refuses (fun _ => rfl) _) fun spelling => ?_
  split
  · split
    · exact .pure
    · exact .throw rfl
  · exact .throw rfl

theorem decodeValue_refuses (type : ScalarType) (v : Option Json) : Refuses (decodeValue type v) := by
  unfold decodeValue
  split
  · exact .pure
  · exact .pure
  · split
    · exact .bind (integer_refuses _) fun _ => .pure
    · exact .bind (integer_refuses _) fun _ => .pure
    · refine .bind (orMismatch_refuses (fun _ => rfl) _) fun spelling => ?_
      split
      · exact .pure
      · exact .throw rfl
    · exact .bind (orMismatch_refuses (fun _ => rfl) _) fun _ => .pure
    · exact .bind (orMismatch_refuses (fun _ => rfl) _) fun _ => .pure
    · refine .bind (orMismatch_refuses (fun _ => rfl) _) fun text => ?_
      split
      · exact .pure
      · exact .throw rfl
    · refine .bind (orMismatch_refuses (fun _ => rfl) _) fun text => ?_
      split
      · exact .pure
      · exact .throw rfl
    · exact .throw rfl

theorem childType_refuses {children : List Op} {i : Nat} (h : i < children.length) : Refuses (decodeOp.childType children i) := by
  unfold decodeOp.childType
  rw [List.getElem?_eq_getElem h]
  exact .pure

theorem resultType_refuses {s : ScalarKind} {children : List Op} (ha : s.kind.admits children.length) (name : String) (v : Json) :
    Refuses (decodeOp.resultType name v children s) := by
  have htyped : ∀ x : Except DocumentError ScalarType, Refuses x →
      Refuses (if (v.get? nodeFields "type").isSome = true then decodeType v nodeFields else x) := by
    intro x hx
    split
    · exact decodeType_refuses v nodeFields
    · exact hx
  cases s with
  | eq | ne | lt | gt | le | ge | and | or | not | isNull | like => exact .pure
  | cast | softCast | element => exact htyped _ (.throw rfl)
  | caseWhen =>
    refine htyped _ (childType_refuses ?_)
    simp [OpKind.admits, OpKind.arity?, ScalarKind.kind] at ha
    omega
  | plus | minus | multiply | divide | modulo | unaryMinus =>
    refine htyped _ (childType_refuses ?_)
    have := length_eq_of_admits rfl ha
    omega

section Operators
variable {d : Document} (hd : Sound d)
include hd

theorem lookupVar_looks (name : String) : Looks (lookupVar name) d fun v => v < d.plan.vars.size := by
  refine .get ?_
  split
  · rename_i v hv
    exact Looks.pure (hd.named _ (Plan.mem_of_lookup hv))
  · exact .throw rfl

theorem decodeVarField_looks (v : Json) (earlier : List String) (field : String) :
    Looks (decodeVarField v earlier field) d fun v => v < d.plan.vars.size := by
  rw [decodeVarField]
  split
  · exact lookupVar_looks hd _
  · exact .throw rfl

theorem decodeVarSet_looks (v : Json) (earlier : List String) (field : String) :
    Looks (decodeVarSet v earlier field) d fun s => ∀ v ∈ s, v < d.plan.vars.size := by
  rw [decodeVarSet]
  split
  · exact .throw rfl
  · refine .bind (.mapM (Q := fun v => v < d.plan.vars.size) fun item _ => ?_) fun ids hids =>
      .pure fun v hv => hids v (VarSet.mem_ofList.mp hv)
    exact .bind (.lift (orMismatch_refuses (fun _ => rfl) _) fun _ => trivial) fun name _ => lookupVar_looks hd name

theorem decodeVarMap_looks (v : Json) :
    Looks (decodeVarMap v) d fun m => ∀ e ∈ m.entries, e.1 < d.plan.vars.size ∧ e.2 < d.plan.vars.size := by
  rw [decodeVarMap]
  split
  · exact .throw rfl
  · refine .bind (.mapM (Q := fun e => e.1 < d.plan.vars.size ∧ e.2 < d.plan.vars.size) fun item _ => ?_) fun es hes =>
      .pure fun e he => hes e (VarMap.mem_entries_ofList he)
    refine .bind (lookupVar_looks hd _) fun o ho => ?_
    refine .bind (.lift (orMismatch_refuses (fun _ => rfl) _) fun _ => trivial) fun name _ => ?_
    exact .bind (lookupVar_looks hd name) fun w hw => .pure ⟨ho, hw⟩

theorem decodeSortKeys_looks (v : Json) (earlier : List String) :
    Looks (decodeSortKeys v earlier) d fun keys => ∀ k ∈ keys, k.var < d.plan.vars.size := by
  rw [decodeSortKeys]
  refine .mapM fun key _ => ?_
  exact .bind ((decodeVarField_looks hd key [] "var").within fun _ => rfl) fun id hid => .pure hid

theorem decodeBranch_looks (outputs : VarSet) (i : Nat) (v : Json) : Looks (decodeOp.decodeBranch outputs i v) d fun m =>
    (∀ e ∈ m.entries, e.1 < d.plan.vars.size ∧ e.2 < d.plan.vars.size) ∧ ∀ o ∈ outputs, ∃ w, m.get? o = some w := by
  refine .bind ((decodeVarMap_looks hd v).within fun _ => rfl) fun m hm => ?_
  split
  · exact .get (.throw rfl)
  · rename_i hall
    refine .pure ⟨hm, fun o ho => Option.ne_none_iff_exists'.mp fun hnone => ?_⟩
    simpa [hnone] using List.find?_eq_none.mp hall o (VarSet.mem_toList.mpr ho)

/-- An operator of the kind asked for with whole maps, whose variables are all registered. -/
structure Reads (d : Document) (kind : OpKind) (op : Op) : Prop where
  kind : op.kind = kind
  maps : op.Maps
  mentions : ∀ v ∈ op.mentions, v < d.plan.vars.size

omit hd in
theorem Reads.plain {kind : OpKind} {op : Op} (hkind : op.kind = kind) (hop : ∀ kind outputs l r, op ≠ .combine kind outputs l r)
    (h : ∀ v ∈ op.mentions, v < d.plan.vars.size) : Reads d kind op :=
  ⟨hkind, fun _ _ _ _ heq => absurd heq (hop _ _ _ _), h⟩

omit hd in
theorem Reads.silent {kind : OpKind} {op : Op} (hkind : op.kind = kind) (hop : ∀ kind outputs l r, op ≠ .combine kind outputs l r)
    (h : op.mentions = []) : Reads d kind op :=
  .plain hkind hop (h ▸ List.forall_mem_nil _)

theorem decodeSetOp_looks (v : Json) (kind : SetKind) : Looks (decodeOp.decodeSetOp v kind) d (Reads d kind.kind) := by
  refine .bind (decodeVarSet_looks hd v _ _) fun outputs houtputs => ?_
  split
  · refine .bind (decodeBranch_looks hd outputs 0 _) fun left hl => .bind (decodeBranch_looks hd outputs 1 _) fun right hr => ?_
    refine .pure ⟨rfl, ?_, fun v hv => ?_⟩
    · rintro _ _ _ _ ⟨⟩ o ho
      exact ⟨hl.2 o ho, hr.2 o ho⟩
    rcases List.mem_append.mp hv with hv | hv
    · exact houtputs v (VarSet.mem_toList.mp hv)
    · obtain ⟨e, he, hv⟩ := List.mem_flatMap.mp hv
      have hlt := (List.mem_append.mp he).elim (hl.1 e) (hr.1 e)
      rcases List.mem_pair.mp hv with rfl | rfl
      · exact hlt.1
      · exact hlt.2
  · exact .throw rfl

omit hd in
theorem kind_of_ofKind? {k : OpKind} {s : ScalarKind} (h : ScalarKind.ofKind? k = some s) : s.kind = k :=
  beq_iff_eq.mp (List.find?_some (p := fun s : ScalarKind => s.kind == k) h)

theorem decodeOp_looks {kind : OpKind} {children : List Op} (ha : kind.admits children.length) (name : String) (v : Json) :
    Looks (decodeOp kind name v children) d (Reads d kind) := by
  cases kind with
  | scanTable =>
    refine .get ?_
    split
    · rename_i t ht
      exact Looks.pure (.plain rfl (by simp) (hd.columns _ (Plan.mem_of_lookup ht)))
    · exact .throw rfl
  | unionAll => exact decodeSetOp_looks hd v .unionAll
  | intersect => exact decodeSetOp_looks hd v .intersect
  | except => exact decodeSetOp_looks hd v .except
  | singleRowTable | filter | crossJoin | innerJoin | leftOuterJoin | crossApply | outerApply | varDefList | nullSentinel =>
    exact .pure (.silent rfl (by simp) rfl)
  | project | distinct =>
    exact .bind (decodeVarSet_looks hd v _ _) fun s hs => .pure (.plain rfl (by simp) fun v hv => hs v (VarSet.mem_toList.mp hv))
  | groupBy =>
    refine .bind (decodeVarSet_looks hd v _ _) fun keys hk => .bind (decodeVarSet_looks hd v _ _) fun outputs ho => ?_
    refine .pure (.plain rfl (by simp) fun v hv => ?_)
    exact (List.mem_append.mp hv).elim (fun hv => hk v (VarSet.mem_toList.mp hv)) fun hv => ho v (VarSet.mem_toList.mp hv)
  | sort | constrainedSort =>
    refine .bind (decodeSortKeys_looks hd v _) fun keys hk => .pure (.plain rfl (by simp) fun v hv => ?_)
    obtain ⟨k, hmem, rfl⟩ := List.mem_map.mp hv
    exact hk k hmem
  | varDef => exact .bind (decodeVarField_looks hd v _ _) fun w hw => .pure (.plain rfl (by simp) (List.forall_mem_singleton.mpr hw))
  | varRef =>
    exact .bind (decodeVarField_looks hd v _ _) fun w hw => .get (.pure ⟨rfl, .plain rfl (by simp) (List.forall_mem_singleton.mpr hw)⟩)
  | constant | internalConstant =>
    refine .bind (.bind (.lift (decodeType_refuses v _) fun _ => trivial) fun type _ => ?_ : Looks _ d fun _ => True) fun _ _ =>
      .pure (.silent rfl (by simp) rfl)
    exact .lift (decodeValue_refuses type _) fun _ => trivial
  | null => exact .bind (.lift (decodeType_refuses v _) fun _ => trivial) fun _ (_ : True) => .pure (.silent rfl (by simp) rfl)
  | constantPredicate =>
    simp only [decodeOp]
    split
    · exact .pure (.silent rfl (by simp) rfl)
    · split
      · exact .throw rfl
      · exact .bind (.lift (orMismatch_refuses (fun _ => rfl) _) fun _ => trivial) fun _ (_ : True) => .pure (.silent rfl (by simp) rfl)
  | aggregate =>
    simp only [decodeOp]
    split
    · exact .throw rfl
    · exact .bind (.lift (decodeType_refuses v _) fun _ => trivial) fun _ (_ : True) => .pure (.silent rfl (by simp) rfl)
  | _ =>
    simp only [decodeOp]
    split
    · rename_i s hs
      have hs := kind_of_ofKind? hs
      exact .bind (.lift (resultType_refuses (hs ▸ ha) name v) fun _ => trivial) fun _ (_ : True) => .pure (.silent hs (by simp) rfl)
    · rename_i hs
      cases hs

end Operators

theorem forM_ok {ε : Type} {f : α → Except ε Unit} {as : List α} (h : as.forM f = .ok ()) : ∀ a ∈ as, f a = .ok () := by
  induction as with
  | nil => exact nofun
  | cons a as ih =>
    rw [List.forM] at h
    cases ha : f a with
    | error e =>
      rw [ha] at h
      cases h
    | ok u =>
      rw [ha] at h
      exact List.forall_mem_cons.mpr ⟨ha, ih h⟩

theorem admits_of_checkChildKinds {kind : OpKind} {ks : List OpKind} (ha : kind.admits ks.length)
    (h : checkChildKinds kind ks = .ok ()) :
    List.Forall₂ (fun w k => w.admits k = true) (wantedChildren kind ks.length) ks := by
  refine List.forall₂_iff_zip.mpr ⟨Op.length_wantedChildren ha, fun {w k} hwk => ?_⟩
  obtain ⟨i, hi⟩ := List.mem_iff_getElem?.mp hwk
  have hcheck := forM_ok h ((w, k), i) (List.mk_mem_zipIdx_iff_getElem?.mpr hi)
  by_contra hno
  simp [hno] at hcheck

/-- Between two states of a document trees were built one after the other, and nothing was declared. -/
structure Builds (d : Document) (ts : List Tree) (d' : Document) : Prop where
  tables : d'.tables = d.tables
  vars : d'.vars = d.vars
  registry : d'.plan.vars = d.plan.vars
  keeps : Keeps ∅ d.plan d'.plan
  holds : ∀ t ∈ ts, d'.plan.Holds t
  numbers : ts.flatMap Tree.postIds = List.range' d.plan.nodes.size (ts.map Tree.size).sum
  size : d'.plan.nodes.size = d.plan.nodes.size + (ts.map Tree.size).sum
  mentions : ∀ t ∈ ts, ∀ s ∈ t.subtrees, ∀ v ∈ s.op.mentions, v < d.plan.vars.size

section Builds
variable {d d' d'' : Document} {ts us : List Tree}

theorem Builds.sound (h : Builds d ts d') (hd : Sound d) : Sound d' where
  tables := h.tables ▸ hd.tables
  vars := h.vars ▸ hd.vars
  named := by
    rw [h.vars, h.registry]
    exact hd.named
  columns := by
    rw [h.tables, h.registry]
    exact hd.columns

theorem Builds.none (d : Document) : Builds d [] d := ⟨rfl, rfl, rfl, .refl _ _, nofun, rfl, rfl, nofun⟩

theorem Builds.and_then (h : Builds d ts d') (h' : Builds d' us d'') : Builds d (ts ++ us) d'' where
  tables := h'.tables.trans h.tables
  vars := h'.vars.trans h.vars
  registry := h'.registry.trans h.registry
  keeps := h.keeps.and_then h'.keeps
  holds t ht := (List.mem_append.mp ht).elim (fun ht => h'.keeps.still (h.holds t ht)) (h'.holds t)
  numbers := by
    rw [List.flatMap_append, h.numbers, h'.numbers, h.size, List.map_append, List.sum_append, List.range'_append_1]
  size := by rw [h'.size, h.size, List.map_append, List.sum_append, Nat.add_assoc]
  mentions t ht := (List.mem_append.mp ht).elim (h.mentions t) (h.registry ▸ h'.mentions t)

theorem Builds.node {n : NodeId} {op : Op} (h : Builds d ts d') (hn : Created d'.plan op ts n d''.plan) (htables : d''.tables = d'.tables)
    (hvars : d''.vars = d'.vars) (hop : ∀ v ∈ op.mentions, v < d.plan.vars.size) : Builds d [.node n op ts] d'' where
  tables := htables.trans h.tables
  vars := hvars.trans h.vars
  registry := hn.vars.trans h.registry
  keeps := h.keeps.and_then hn.keeps
  holds t ht := List.mem_singleton.mp ht ▸ hn.holds
  numbers := by
    rw [List.flatMap_singleton, Tree.postIds, h.numbers, hn.fresh, h.size, List.map_singleton, List.sum_singleton, Tree.size_node,
      Nat.add_comm 1, List.range'_1_concat]
  size := by
    rw [hn.size, hn.fresh, h.size, List.map_singleton, List.sum_singleton, Tree.size_node]
    omega
  mentions t ht s hs := by
    obtain rfl := List.mem_singleton.mp ht
    rcases mem_subtrees_node.mp hs with rfl | ⟨c, hc, hs⟩
    · exact hop
    · exact h.mentions c hc s hs

theorem mapM_answers {f : γ → DecodeM NodeId} {R : γ → Tree → Prop} {cs : List γ} (hf : ∀ c ∈ cs, ∀ d, Sound d →
      Answers (f c) d fun n d' => ∃ t, t.id = n ∧ R c t ∧ Builds d [t] d') (hd : Sound d) :
    Answers (cs.mapM f) d fun ns d' => ∃ ts : List Tree, ts.map Tree.id = ns ∧ List.Forall₂ R cs ts ∧ Builds d ts d' := by
  induction cs generalizing d with
  | nil => exact .pure ⟨[], rfl, .nil, .none d⟩
  | cons c cs ih =>
    rw [List.mapM_cons]
    refine .bind (hf c List.mem_cons_self d hd) ?_
    rintro _ d₁ ⟨t, rfl, ht, h₁⟩
    refine .bind (ih (fun c hc => hf c (List.mem_cons_of_mem _ hc)) (h₁.sound hd)) ?_
    rintro _ d₂ ⟨ts, rfl, hts, h₂⟩
    exact .pure ⟨t :: ts, rfl, .cons ht hts, h₁.and_then h₂⟩

end Builds

theorem ops_run {cs : List Tree} (h : ∀ c ∈ cs, p.Holds c) : (cs.map Tree.id).mapM Plan.op p = .ok (cs.map Tree.op, p) := by
  induction cs with
  | nil => rfl
  | cons c cs ih =>
    rw [List.map_cons, List.mapM_cons]
    refine bind_run_ok.mpr ⟨c.op, p, (h c List.mem_cons_self).op_run, ?_⟩
    exact bind_run_ok.mpr ⟨cs.map Tree.op, p, ih fun d hd => h d (List.mem_cons_of_mem _ hd), rfl⟩

theorem checkChildKinds_refuses (kind : OpKind) (ks : List OpKind) : Refuses (checkChildKinds kind ks) := by
  unfold checkChildKinds
  generalize ((wantedChildren kind ks.length).zip ks).zipIdx = xs
  induction xs with
  | nil => exact .pure
  | cons x xs ih =>
    obtain ⟨⟨want, found⟩, i⟩ := x
    rw [List.forM]
    refine .bind ?_ fun _ => ih
    dsimp only
    split
    · exact .pure
    · exact .throw rfl

theorem height_of_mem_listField {c : Json} {earlier : List String} (h : c ∈ listField v earlier name) :
    c.height + 2 ≤ v.height := by
  unfold listField at h
  cases hw : v.get? earlier name with
  | none =>
    rw [hw] at h
    cases h
  | some w =>
    rw [hw] at h
    have := Json.height_lt_of_mem (show c ∈ w.items from h)
    have := Json.height_lt_of_get? hw
    omega

/-- A tree is what a node of a document says: its operator is decoded from the node, and its children from the node's children. -/
inductive Decoded : Json → Tree → Prop
  | node {v : Json} {id : NodeId} {op : Op} {cs : List Tree} {ops : List Op} {d d' : Document} :
      kindOf? (textField v [] "op") = some op.kind → decodeOp op.kind (textField v [] "op") v ops d = .ok (op, d') →
        List.Forall₂ Decoded (listField v ["op"] "children") cs → Decoded v (.node id op cs)

theorem decodeNode_answers {depth : Nat} (hd : Sound d) (hv : v.height ≤ depth) :
    Answers (decodeNode depth v) d fun n d' => ∃ t, t.id = n ∧ (t.wellFormed ∧ Decoded v t) ∧ Builds d [t] d' := by
  induction depth generalizing v d with
  | zero =>
    exfalso
    cases v <;> simp [Json.height] at hv
  | succ depth ih =>
    simp only [decodeNode]
    split
    · exact .throw rfl
    rename_i kind hkind
    refine .bind (mapM_answers (R := fun c t => t.wellFormed ∧ Decoded c.1 t) (fun c hc d hd => ?_) hd) ?_
    · have := height_of_mem_listField (List.fst_mem_of_mem_zipIdx hc)
      exact (ih hd (by omega)).within fun _ => rfl
    rintro _ d₁ ⟨cs, rfl, hcs, h₁⟩
    have hwritten : List.Forall₂ (fun c t => t.wellFormed ∧ Decoded c t) (listField v ["op"] "children") cs := by
      rwa [← List.zipIdx_map_fst 0 (listField v ["op"] "children"), List.forall₂_map_left_iff]
    split
    · exact .throw rfl
    rename_i hadmits
    have ha : kind.admits (cs.map Tree.op).length := by simpa using hadmits
    refine .bind (Answers.onPlan (R := fun ops d₂ => ops = cs.map Tree.op ∧ d₁ = d₂) (ops_run h₁.holds) ⟨rfl, rfl⟩) ?_
    rintro _ _ ⟨rfl, rfl⟩
    refine .bind (.lift (R := fun _ d₂ => d₁ = d₂ ∧ checkChildKinds kind ((cs.map Tree.op).map Op.kind) = .ok ())
      (checkChildKinds_refuses _ _) fun _ hk => ⟨rfl, hk⟩) ?_
    rintro _ _ ⟨rfl, hkinds⟩
    refine .bind ((decodeOp_looks (h₁.sound hd) ha (textField v [] "op") v).run.within fun _ => rfl) ?_
    rintro op _ ⟨hrun, rfl, rfl, hmaps, hop⟩
    have hcreate : create op (cs.map Tree.id) d₁.plan = .ok (d₁.plan.nodes.size, _) := create_run (by simpa using hadmits)
    refine Answers.onPlan hcreate ⟨.node d₁.plan.nodes.size op cs, rfl, ⟨wellFormed_node.mpr ⟨?_, fun c hc => ?_⟩, ?_⟩, ?_⟩
    · have hks : (cs.map Tree.op).map Op.kind = cs.map Tree.kind := by rw [List.map_map]; rfl
      have ha : op.kind.admits (cs.map Tree.kind).length := by simpa using hadmits
      exact Op.fits_of_admits ha rfl (admits_of_checkChildKinds ha (hks ▸ hkinds)) hmaps
    · exact (exists_of_forall₂_right hwritten hc).choose_spec.2.1
    · exact .node hkind hrun (hwritten.imp fun _ _ h => h.2)
    · exact h₁.node ((create_halts cs h₁.holds).ends _ _ hcreate) rfl rfl (h₁.registry ▸ hop)

/-- Between two states of a document something was declared, and no node was made. -/
structure Declares (d d' : Document) : Prop where
  sound : Sound d'
  nodes : d'.plan.nodes = d.plan.nodes

theorem register_answers (hd : Sound d) {v : VarId} (hv : v < d.plan.vars.size) (name : String) :
    Answers (register name v) d fun _ d' => Sound d' ∧ d'.plan = d.plan ∧ d'.tables = d.tables := by
  refine .get ?_
  dsimp only
  split
  · exact .throw rfl
  rename_i hname
  have hnamed : ∀ x ∈ d.vars ++ [(name, v)], x.2 < d.plan.vars.size := by
    intro x hx
    rcases List.mem_append.mp hx with hx | hx
    · exact hd.named x hx
    · obtain rfl := List.mem_singleton.mp hx
      exact hv
  exact .of_run rfl ⟨⟨hd.tables, nodup_append_name hd.vars hname v, hnamed, hd.columns⟩, rfl, rfl⟩

theorem Sound.grow (hd : Sound d) (hp : d.plan.vars.size ≤ p.vars.size) : Sound { d with plan := p } where
  tables := hd.tables
  vars := hd.vars
  named x hx := Nat.lt_of_lt_of_le (hd.named x hx) hp
  columns x hx v hv := Nat.lt_of_lt_of_le (hd.columns x hx v hv) hp

theorem newVars_run (name : String) (columns : List Column) (p : Plan) : ∃ vs p', p'.nodes = p.nodes ∧ p.vars.size ≤ p'.vars.size ∧
    (∀ v ∈ vs, v < p'.vars.size) ∧ columns.mapM (fun c => newVar ⟨.column, name ++ "." ++ c.name, c.type⟩) p = .ok (vs, p') := by
  induction columns generalizing p with
  | nil => exact ⟨[], p, rfl, Nat.le_refl _, nofun, rfl⟩
  | cons c columns ih =>
    have hnew : newVar ⟨.column, name ++ "." ++ c.name, c.type⟩ p =
        .ok (p.vars.size, { p with vars := (p.vars.add ⟨.column, name ++ "." ++ c.name, c.type⟩).2 }) := rfl
    obtain ⟨vs, p', hnodes, hsize, hvs, hrun⟩ := ih { p with vars := (p.vars.add ⟨.column, name ++ "." ++ c.name, c.type⟩).2 }
    have hlt : p.vars.size < p'.vars.size := by
      refine Nat.lt_of_lt_of_le ?_ hsize
      simp [Registry.size, Registry.add]
    refine ⟨p.vars.size :: vs, p', hnodes, Nat.le_of_lt hlt, List.forall_mem_cons.mpr ⟨hlt, hvs⟩, ?_⟩
    rw [List.mapM_cons]
    exact bind_run_ok.mpr ⟨_, _, hnew, bind_run_ok.mpr ⟨_, _, hrun, rfl⟩⟩

theorem newTable_run (name : String) (columns : List Column) (p : Plan) : ∃ t p', newTable name columns p = .ok (t, p') ∧
    p'.nodes = p.nodes ∧ p.vars.size ≤ p'.vars.size ∧ ∀ v ∈ (Op.scanTable t).mentions, v < p'.vars.size := by
  obtain ⟨vs, p', hnodes, hsize, hvs, hrun⟩ := newVars_run name columns p
  refine ⟨_, _, bind_run_ok.mpr ⟨vs, p', hrun, rfl⟩, hnodes, hsize, fun v hv => hvs v ?_⟩
  have hchosen : ∀ P : Column → Bool, v ∈ ((vs.zip columns).filter fun x => P x.2).map (·.1) → v ∈ vs := by
    intro P hv
    obtain ⟨x, hx, rfl⟩ := List.mem_map.mp hv
    exact (List.of_mem_zip (List.mem_of_mem_filter hx)).1
  simp only [Op.mentions, List.mem_append] at hv
  rcases hv with hv | hv | hv
  · exact hv
  · exact hchosen (·.notNull) (VarSet.mem_ofList.mp (VarSet.mem_toList.mp hv))
  · split at hv
    · cases hv
    · exact hchosen (·.key) (VarSet.mem_ofList.mp (VarSet.mem_toList.mp hv))

theorem decodeTable_answers (hd : Sound d) (v : Json) : Answers (decodeTable v) d fun _ d' => Declares d d' := by
  simp only [decodeTable]
  split
  · exact .throw rfl
  refine .get ?_
  split
  · exact .throw rfl
  rename_i hname
  have hcolumns : Looks ((listField v ["name"] "columns").mapM fun c => (liftM (decodeColumn c) : DecodeM Column)) d fun _ => True :=
    (Looks.mapM fun c _ => .lift (decodeColumn_refuses c) fun _ => trivial).mono fun _ _ h => ⟨h.1, trivial⟩
  refine .bind hcolumns ?_
  rintro columns _ ⟨rfl, -⟩
  obtain ⟨t, p', hrun, hnodes, hsize, hmentions⟩ := newTable_run (textField v [] "name") columns d.plan
  refine .bind (Answers.onPlan (R := fun t' d₁ => t = t' ∧ { d with plan := p' } = d₁) hrun ⟨rfl, rfl⟩) ?_
  rintro _ _ ⟨rfl, rfl⟩
  refine .bind (Answers.forM (I := fun d' => Sound d' ∧ d'.plan = p' ∧ d'.tables = d.tables) ?_ ⟨hd.grow hsize, rfl, rfl⟩) ?_
  · rintro ⟨id, c⟩ hc d₁ ⟨hd₁, hp, ht⟩
    have hid : id < d₁.plan.vars.size := hp ▸ hmentions id (List.mem_append_left _ (List.of_mem_zip hc).1)
    exact (register_answers hd₁ hid _).mono fun _ _ h => ⟨h.1, h.2.1.trans hp, h.2.2.trans ht⟩
  · rintro _ d₂ ⟨hd₂, rfl, ht⟩
    refine .of_run rfl ⟨⟨?_, hd₂.vars, hd₂.named, ?_⟩, hnodes⟩
    · exact nodup_append_name (ht ▸ hd.tables) (ht ▸ hname) t
    · intro x hx
      rcases List.mem_append.mp hx with hx | hx
      · exact hd₂.columns x hx
      · obtain rfl := List.mem_singleton.mp hx
        exact hmentions

theorem decodeVar_answers (hd : Sound d) (kind : VarKind) (earlier : List String) (v : Json) :
    Answers (decodeVar kind earlier v) d fun _ d' => Declares d d' := by
  simp only [decodeVar]
  split
  · exact .throw rfl
  split
  · rename_i e he
    exact .throw (decodeType_refuses v _ e he)
  rename_i type _
  generalize (if (kind == .parameter) = true then textField v earlier "name" else "") = shown
  obtain ⟨p', hrun, hlt, hnodes⟩ : ∃ p', newVar ⟨kind, shown, type⟩ d.plan = .ok (d.plan.vars.size, p') ∧
      d.plan.vars.size < p'.vars.size ∧ p'.nodes = d.plan.nodes :=
    ⟨{ d.plan with vars := (d.plan.vars.add ⟨kind, shown, type⟩).2 }, rfl, by simp [Registry.size, Registry.add], rfl⟩
  refine .bind (Answers.onPlan (R := fun id d₁ => d.plan.vars.size = id ∧ { d with plan := p' } = d₁) hrun ⟨rfl, rfl⟩) ?_
  rintro _ _ ⟨rfl, rfl⟩
  exact (register_answers (hd.grow (Nat.le_of_lt hlt)) hlt _).mono fun _ _ h => ⟨h.1, by rw [h.2.1, hnodes]⟩

theorem eachIndexed_answers {step : Nat → Json → DecodeM Unit}
    (hstep : ∀ i v d, Sound d → Answers (step i v) d fun _ d' => Declares d d') (items : List Json) (hd : Sound d) :
    Answers (eachIndexed step items) d fun _ d' => Declares d d' := by
  refine Answers.forM (I := fun d' => Declares d d') ?_ ⟨hd, rfl⟩
  rintro ⟨v, i⟩ - d₁ h₁
  exact (hstep i v d₁ h₁.sound).mono fun _ _ h₂ => ⟨h₂.sound, h₂.nodes.trans h₁.nodes⟩

/-- The node of a document that its tree is decoded from. -/
def rootNode? (v : Json) : Option Json := v.get? ["version", "group", "tables", "parameters", "vars"] "root"

/-- What a document that is accepted is like. The nodes of its tree are all there are, numbered children first. -/
structure Complete (v : Json) (d : Document) (t : Tree) : Prop where
  sound : Sound d
  decoded : ∃ root, rootNode? v = some root ∧ Decoded root t
  rooted : Engine.Rooted d.plan t
  relational : t.IsRelational
  numbers : t.postIds = List.range d.plan.nodes.size
  size : t.size = d.plan.nodes.size
  mentions : ∀ s ∈ t.subtrees, ∀ v ∈ s.op.mentions, v < d.plan.vars.size

theorem decodeBody_answers (hv : v.height ≤ Json.depthLimit) (hd : Sound d) (hnodes : d.plan.nodes = #[]) :
    Answers (decodeBody v) d fun _ d' => ∃ t, Complete v d' t := by
  simp only [decodeBody]
  refine .bind (eachIndexed_answers (fun i t d hd => ?_) _ hd) fun _ d₁ h₁ => ?_
  · exact (decodeTable_answers hd t).within fun _ => rfl
  refine .bind (eachIndexed_answers (fun i x d hd => ?_) _ h₁.sound) fun _ d₂ h₂ => ?_
  · exact (decodeVar_answers hd _ _ x).within fun _ => rfl
  refine .bind (eachIndexed_answers (fun i x d hd => ?_) _ h₂.sound) fun _ d₃ h₃ => ?_
  · exact (decodeVar_answers hd _ _ x).within fun _ => rfl
  have hnone : d₃.plan.nodes = #[] := by rw [h₃.nodes, h₂.nodes, h₁.nodes, hnodes]
  split
  · exact .throw rfl
  rename_i tree htree
  have hheight : tree.height ≤ Json.depthLimit := Nat.le_trans (Nat.le_of_lt (Json.height_lt_of_get? htree)) hv
  refine .bind ((decodeNode_answers h₃.sound hheight).within fun _ => rfl) ?_
  rintro _ d₄ ⟨t, rfl, ⟨hwf, hdecoded⟩, h₄⟩
  have ht := h₄.holds t List.mem_cons_self
  refine .bind (Answers.onPlan (R := fun k d₅ => t.kind = k ∧ d₄ = d₅) ht.kind_run ⟨rfl, rfl⟩) ?_
  rintro _ _ ⟨rfl, rfl⟩
  split
  · exact .throw rfl
  rename_i hrel
  have hkeeps : Keeps ∅ d₄.plan { d₄.plan with root := t.id } := .of_nodes rfl (Nat.le_refl _)
  have hsize : d₄.plan.nodes.size = t.size := by simpa [hnone] using h₄.size
  have hnumbers : t.postIds = List.range d₄.plan.nodes.size := by simpa [hnone, hsize, List.range_eq_range'] using h₄.numbers
  have hids : t.ids.Nodup := t.postIds_perm.nodup_iff.mp (hnumbers ▸ List.nodup_range)
  have hacyclic : d₃.plan.Acyclic := ⟨fun _ => ⟨_, fun _ ⟨_, hr, _⟩ => by simp [hnone] at hr⟩⟩
  exact .of_run rfl ⟨t, (h₄.sound h₃.sound).grow (Nat.le_refl _), ⟨tree, htree, hdecoded⟩,
    ⟨hkeeps.acyclic (h₄.keeps.acyclic hacyclic), rfl, hkeeps.still ht, hids, hwf⟩, by simpa [IsRelational] using hrel, hnumbers,
    hsize.symm, h₄.registry ▸ h₄.mentions t List.mem_cons_self⟩

theorem decodeVersion_refuses (v : Json) : Refuses (decodeVersion v) := by
  unfold decodeVersion
  split
  · exact .throw rfl
  · split
    · exact .pure
    · exact .throw rfl

theorem decode_answers (text : String) : (∃ e, decode text = .error e ∧ e.isFault = false) ∨
    ∃ v d t, Json.ofText? text = some v ∧ decode text = .ok d ∧ Complete v d t := by
  unfold decode
  split
  · exact .inl ⟨_, rfl, rfl⟩
  rename_i v hv
  split
  · rename_i ms
    cases hversion : decodeVersion (.object ms) with
    | error e => exact .inl ⟨e, rfl, decodeVersion_refuses _ e hversion⟩
    | ok version =>
      let start : Document := ⟨version, textField (.object ms) ["version"] "group", .empty, [], []⟩
      have hbody := decodeBody_answers (Json.height_le_of_ofText? hv) (d := start) ⟨.nil, .nil, nofun, nofun⟩ rfl
      cases hrun : decodeBody (.object ms) start with
      | error e =>
        refine .inl ⟨e, ?_, hbody.faults hrun⟩
        simp only [bind, Except.bind, StateT.run, hrun, start]
      | ok r =>
        obtain ⟨t, ht⟩ := hbody.gives hrun
        refine .inr ⟨_, r.2, t, hv, ?_, ht⟩
        simp only [bind, Except.bind, StateT.run, hrun, start]
        rfl
  · exact .inl ⟨_, rfl, rfl⟩

theorem decode_complete {text : String} (h : decode text = .ok d) : ∃ v t, Json.ofText? text = some v ∧ Complete v d t := by
  rcases decode_answers text with ⟨e, he, -⟩ | ⟨v, d', t, hv, hd, ht⟩
  · cases he.symm.trans h
  · cases hd.symm.trans h
    exact ⟨v, t, hv, ht⟩

end Document

end Planwright
