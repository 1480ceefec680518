import Mathlib.Data.List.TakeWhile
import Planwright.Proofs.Rule.Remake.Scalar
import Planwright.Proofs.Semantics.Like

/-! Rules on expressions preserve the value in three-valued logic, and what they make is smaller. -/

namespace Planwright

open Run Planwright.Tree Plan

namespace Value

def isLogical : Value → Bool
  | null | boolean _ => true
  | _ => false

theorem order_of_compare {a b : Value} {o : Ordering} (h : a.compare b = .ok o) : o = a.order b := by
  unfold compare at h
  split at h
  · cases h
  · exact (Except.ok.inj h).symm

theorem connected_comm (decides : Bool) (a b : Value) : a.connected decides b = b.connected decides a := by
  simp only [connected, Bool.or_comm]

theorem connected_boolean {decides holds : Bool} {a : Value} (ha : a.isLogical) :
    a.connected decides (.boolean holds) = if holds = decides then .boolean holds else a := by
  cases a with
  | null => cases holds <;> cases decides <;> rfl
  | boolean b => cases holds <;> cases decides <;> cases b <;> rfl
  | _ => cases ha

end Value

namespace Tree

variable {I : Interpretation} {db : Database} {env : Row} {group : List Row}

theorem value_scalar {id : NodeId} {kind : ScalarKind} {type : ScalarType} {cs : List Tree} :
    ((node id (.scalar kind type) cs).meaning I db).value env group =
      Op.scalarValue I kind type (cs.map (meaning I db)) env group := by
  rw [meaning_node]
  rfl

theorem exists_scalar {t : Tree} {kind : ScalarKind} (h : t.kind = kind.kind) : ∃ id type cs, t = .node id (.scalar kind type) cs := by
  obtain ⟨id, op, cs⟩ := t
  have hkind : op.kind = (Op.scalar kind .null).kind := h
  cases op <;> cases Op.ctorIdx_eq_of_kind hkind
  obtain rfl := ScalarKind.kind_inj hkind
  exact ⟨id, _, cs, rfl⟩

end Tree

namespace Rules

variable (I : Interpretation) (db : Database)

/-- The second expression is smaller than the first and has the same value, wherever `C` holds. -/
structure Shrinks (C : Row → List Row → Prop) (t t' : Tree) : Prop where
  size : t'.size < t.size
  value : ∀ {env : Row} {group : List Row}, C env group →
    ((t'.meaning I db).value env group).Coincides ((t.meaning I db).value env group)

def Shrunk (C : Row → List Row → Prop) (t : Tree) (out : Option NodeId) (_ : Context) (p' : Plan) : Prop :=
  ∀ n, out = some n → ∃ t', t'.id = n ∧ p'.Holds t' ∧ Shrinks I db C t t'

variable {I db} {C : Row → List Row → Prop} {c : Context} {p p' : Plan} {t : Tree}

theorem Shrunk.none : Shrunk I db C t none c p := nofun

theorem Shrunk.operand {d : Tree} (hd : d ∈ t.children) (hheld : p.Holds d)
    (hvalue : ∀ {env group}, C env group → ((d.meaning I db).value env group).Coincides ((t.meaning I db).value env group)) :
    Shrunk I db C t (some d.id) c p := by
  rintro _ ⟨⟩
  exact ⟨d, rfl, hheld, size_lt_of_mem hd, hvalue⟩

theorem constant_shrunk {op : Op} {v : Value} (hop : op.value? = some v) (hargs : t.children ≠ [])
    (hvalue : ∀ {env group}, C env group → (t.meaning I db).value env group = v) :
    EndsIn (do return some (← Plan.create op [])) c p (Shrunk I db C t) := by
  refine .step (create_halts [] nofun).ends fun n p₁ hn => .pure ?_
  rintro _ ⟨⟩
  obtain ⟨id, top, cs⟩ := t
  obtain ⟨d, cs, rfl⟩ := List.exists_cons_of_ne_nil hargs
  refine ⟨_, rfl, hn.holds, ?_, fun hC => .of_eq ?_⟩
  · have hpos := size_pos d
    rw [size_node, size_node, List.map_cons, List.sum_cons]
    simp only [List.map_nil, List.sum_nil]
    omega
  · rw [hvalue hC]
    exact value_of_value? hop

theorem predicate_shrunk {holds : Bool} (hargs : t.children ≠ [])
    (hvalue : ∀ {env group}, C env group → (t.meaning I db).value env group = .boolean holds) :
    EndsIn (do return some (← Plan.predicate holds)) c p (Shrunk I db C t) :=
  constant_shrunk rfl hargs hvalue

theorem value?_of_stringLiteral? {op : Op} {s : String} (h : stringLiteral? op = some s) : op.value? = some (.string s) := by
  unfold stringLiteral? at h
  split at h
  · rename_i hliteral
    rw [← Option.some.inj h]
    exact Op.value?_of_literal? hliteral
  · cases h

theorem value?_of_knownValue? {op : Op} {v : Value} (h : knownValue? op = some v) : op.value? = some v ∧ v.isNull = false := by
  obtain ⟨hliteral, hnull⟩ := Option.filter_eq_some_iff.mp h
  exact ⟨Op.value?_of_literal? hliteral, by simpa using hnull⟩

theorem holds_of_matchesBeginning {s pattern : String} {b : Bool} (h : matchesBeginning? s pattern = some b) :
    Like.holds s pattern = b := by
  unfold Rules.matchesBeginning? at h
  split at h
  · rename_i beginning hspan
    split at h
    · cases h
    · rename_i hplain
      obtain rfl := Option.some.inj h
      rw [List.span_eq_takeWhile_dropWhile, Prod.mk.injEq] at hspan
      obtain ⟨hbeginning, hrest⟩ := hspan
      have htext : pattern.toList = beginning ++ ['%'] := by rw [← hbeginning, ← hrest, List.takeWhile_append_dropWhile]
      have hwild := List.any_eq_false.mp (Bool.or_eq_false_iff.mp (Bool.not_eq_true _ ▸ hplain)).2
      have hliteral : ∀ c ∈ beginning, c ≠ '%' ∧ c ≠ '_' ∧ c ≠ '[' := by
        intro c hc
        have hany := List.mem_takeWhile_imp (hbeginning ▸ hc)
        have hone := hwild c hc
        rw [bne_iff_ne] at hany
        rw [Bool.or_eq_true, beq_iff_eq, beq_iff_eq, not_or] at hone
        exact ⟨hany, hone⟩
      rw [Like.holds, htext, Like.parts_append hliteral]
      exact Like.fits_beginning beginning s.toList
  · cases h

section Operands
variable {id : NodeId} {kind : ScalarKind} {type : ScalarType} {a b e : Tree}

theorem foldLike_shrinks (hI : I.Conventional) (ht : p.Holds (.node id (.scalar .like type) [a, b, e])) (he : e.op.value? = some .null) :
    EndsIn (foldLike id) c p (Shrunk I db C (.node id (.scalar .like type) [a, b, e])) := by
  refine .read (ht.child_run (i := 0) rfl) (.read (ht.of_mem (by simp)).op_run ?_)
  split
  · rename_i s hs
    refine .read (ht.child_run (i := 1) rfl) (.read (ht.of_mem (by simp)).op_run ?_)
    split
    · rename_i pattern hpattern
      split
      · rename_i holds hholds
        refine predicate_shrunk (by simp) fun {env group} _ => ?_
        calc ((Tree.node id (.scalar .like type) [a, b, e]).meaning I db).value env group
          _ = I.scalar .like type [(a.meaning I db).value env group, (b.meaning I db).value env group,
                (e.meaning I db).value env group] := value_scalar
          _ = I.scalar .like type [.string s, .string pattern, .null] := by
            rw [value_of_value? (value?_of_stringLiteral? hs), value_of_value? (value?_of_stringLiteral? hpattern), value_of_value? he]
          _ = .boolean (Like.holds s pattern) := hI.like_text type s pattern
          _ = .boolean holds := by rw [holds_of_matchesBeginning hholds]
      · exact .pure .none
    · exact .pure .none
  · exact .pure .none

theorem foldComparison_shrinks (hk : kind.kind.isComparison) (ht : p.Holds (.node id (.scalar kind type) [a, b])) :
    EndsIn (foldComparison id) c p (Shrunk I db C (.node id (.scalar kind type) [a, b])) := by
  refine .read (ht.child_run (i := 0) rfl) (.read (ht.of_mem (by simp)).op_run ?_)
  split
  · rename_i v hv
    refine .read (ht.child_run (i := 1) rfl) (.read (ht.of_mem (by simp)).op_run ?_)
    split
    · rename_i w hw
      split
      · exact .pure .none
      · refine .read ht.kind_run (.except fun o ho => ?_)
        split
        · rename_i holds hholds
          refine predicate_shrunk (by simp) fun {env group} _ => ?_
          obtain ⟨hv, hvn⟩ := value?_of_knownValue? hv
          obtain ⟨hw, hwn⟩ := value?_of_knownValue? hw
          calc ((Tree.node id (.scalar kind type) [a, b]).meaning I db).value env group
            _ = ((a.meaning I db).value env group).compared kind.kind ((b.meaning I db).value env group) := by
              rw [value_scalar]
              cases kind <;> cases hk <;> rfl
            _ = v.compared kind.kind w := by rw [value_of_value? hv, value_of_value? hw]
            _ = .boolean holds := by
              have horder : comparisonHolds kind.kind (v.order w) = some holds := Value.order_of_compare ho ▸ hholds
              simp [Value.compared, hvn, hwn, horder]
        · exact .throw
    · exact .pure .none
  · exact .pure .none

theorem foldNot_shrinks {holds : Bool} (ht : p.Holds (.node id (.scalar .not type) [a])) (ha : a.op = .constantPredicate holds) :
    EndsIn (foldNot id) c p (Shrunk I db C (.node id (.scalar .not type) [a])) := by
  refine .read (ht.child_run (i := 0) rfl) (.read (ht.of_mem (by simp)).op_run ?_)
  rw [ha]
  refine predicate_shrunk (by simp) fun {env group} _ => ?_
  have hvalue : (a.meaning I db).value env group = .boolean holds := value_of_value? (by rw [ha]; rfl)
  calc ((Tree.node id (.scalar .not type) [a]).meaning I db).value env group
    _ = ((a.meaning I db).value env group).negated := value_scalar
    _ = .boolean !holds := by rw [hvalue]; rfl

theorem value_isNull {env : Row} {group : List Row} : ((Tree.node id (.scalar .isNull type) [a]).meaning I db).value env group =
    .boolean ((a.meaning I db).value env group).isNull := value_scalar

theorem foldIsNull_shrinks (ht : p.Holds (.node id (.scalar .isNull type) [a])) :
    EndsIn (foldIsNull id) c p (Shrunk I db C (.node id (.scalar .isNull type) [a])) := by
  refine .read (ht.child_run (i := 0) rfl) (.read (ht.of_mem (by simp)).op_run ?_)
  split
  · exact .pure .none
  · rename_i hknown
    obtain ⟨v, hv⟩ := Option.ne_none_iff_exists'.mp (by simpa using hknown)
    obtain ⟨hv, hnull⟩ := value?_of_knownValue? hv
    exact predicate_shrunk (by simp) fun _ => by rw [value_isNull, value_of_value? hv, hnull]

theorem foldNullCast_shrinks (hI : I.Conventional) (ht : p.Holds (.node id (.scalar .cast type) [a])) (ha : a.op.value? = some .null) :
    EndsIn (foldNullCast id) c p (Shrunk I db C (.node id (.scalar .cast type) [a])) := by
  refine .read ht.op_run (constant_shrunk rfl (by simp) fun {env group} _ => ?_)
  calc ((Tree.node id (.scalar .cast type) [a]).meaning I db).value env group
    _ = I.scalar .cast type [(a.meaning I db).value env group] := value_scalar
    _ = .null := by rw [value_of_value? ha, hI.cast_null]

theorem foldIsNullReference_shrinks {v : VarId} {vtype : ScalarType} (ht : p.Holds (.node id (.scalar .isNull type) [a]))
    (ha : a.op = .varRef v vtype) :
    EndsIn (foldIsNullReference id) c p (Shrunk I db (fun env _ => env.read v ≠ .null) (.node id (.scalar .isNull type) [a])) := by
  refine .read (ht.child_run (i := 0) rfl) (.read (ht.of_mem (by simp)).op_run ?_)
  rw [ha]
  refine .bind (isNeverNull_quiet v c p).ends fun never c₁ p₁ ⟨hc, hk⟩ => ?_
  cases never with
  | false => exact .pure .none
  | true =>
    refine predicate_shrunk (by simp) fun {env group} hv => ?_
    obtain ⟨i, op, cs⟩ := a
    obtain rfl : op = .varRef v vtype := ha
    have hvalue : ((Tree.node i (.varRef v vtype) cs).meaning I db).value env group = env.read v := by rw [meaning_node]; rfl
    rw [value_isNull, hvalue, Bool.eq_false_iff.mpr (mt Value.isNull_iff.mp hv)]

theorem foldLogical_shrinks {decides holds : Bool} (hkind : kind = .and ∧ decides = false ∨ kind = .or ∧ decides = true)
    {cs : List Tree} {constant other : Tree} (ht : p.Holds (.node id (.scalar kind type) cs)) (hconstant : constant ∈ cs)
    (hother : other ∈ cs) (hop : constant.op = .constantPredicate holds)
    (hvalue : ∀ {env group}, ((Tree.node id (.scalar kind type) cs).meaning I db).value env group =
      ((other.meaning I db).value env group).connected decides ((constant.meaning I db).value env group)) :
    EndsIn (foldLogical constant.id other.id id) c p
      (Shrunk I db (fun env group => ((other.meaning I db).value env group).isLogical) (.node id (.scalar kind type) cs)) := by
  have hboolean {env group} : (constant.meaning I db).value env group = .boolean holds := value_of_value? (by rw [hop]; rfl)
  have hdecided (h : holds = decides) : Shrunk I db (fun env group => ((other.meaning I db).value env group).isLogical)
      (.node id (.scalar kind type) cs) (some constant.id) c p :=
    .operand hconstant (ht.of_mem hconstant) fun hlogical => .of_eq (by
      rw [hvalue, hboolean, Value.connected_boolean hlogical, if_pos h])
  have hopen (h : holds ≠ decides) : Shrunk I db (fun env group => ((other.meaning I db).value env group).isLogical)
      (.node id (.scalar kind type) cs) (some other.id) c p :=
    .operand hother (ht.of_mem hother) fun hlogical => .of_eq (by
      rw [hvalue, hboolean, Value.connected_boolean hlogical, if_neg h])
  refine .read (ht.of_mem hconstant).op_run (.read ht.kind_run ?_)
  rw [hop]
  rcases hkind with ⟨rfl, rfl⟩ | ⟨rfl, rfl⟩
  · cases holds with
    | true => exact .pure (hopen nofun)
    | false => exact .pure (hdecided rfl)
  · cases holds with
    | true => exact .pure (hdecided rfl)
    | false => exact .pure (hopen nofun)

end Operands

section Case
variable {env : Row} {group : List Row}

theorem chosen_append {pairs ms ns : List Meaning} (heven : pairs.length % 2 = 0)
    (h : Meaning.chosen ms env group = Meaning.chosen ns env group) :
    Meaning.chosen (pairs ++ ms) env group = Meaning.chosen (pairs ++ ns) env group := by
  fun_induction Meaning.chosen pairs env group with
  | case1 => exact h
  | case2 => cases heven
  | case3 condition result rest _ _ hc =>
    rw [List.cons_append, List.cons_append, List.cons_append, List.cons_append, Meaning.chosen, Meaning.chosen, if_pos hc, if_pos hc]
  | case4 condition result rest _ _ hc ih =>
    rw [List.cons_append, List.cons_append, List.cons_append, List.cons_append, Meaning.chosen, Meaning.chosen, if_neg hc, if_neg hc]
    rw [List.length_cons, List.length_cons] at heven
    exact ih (by omega) h

theorem coincides_of_results {ms : List Meaning} {v : Value} (h : Results (fun m => (m.value env group).Coincides v) ms) :
    (Meaning.chosen ms env group).Coincides v := by
  fun_induction Meaning.chosen ms env group with
  | case1 => exact h.elim
  | case2 => exact h
  | case3 => exact h.1
  | case4 condition result rest _ _ hc ih => exact ih h.2

variable {id : NodeId} {type : ScalarType} {cs : List Tree}

theorem value_case : ((Tree.node id (.scalar .caseWhen type) cs).meaning I db).value env group =
    Meaning.chosen (cs.map (meaning I db)) env group := value_scalar

theorem value_case_of_results {v : Value} (h : Results (fun d => ((d.meaning I db).value env group).Coincides v) cs) :
    (((Tree.node id (.scalar .caseWhen type) cs).meaning I db).value env group).Coincides v := by
  rw [value_case]
  exact coincides_of_results (results_map.mpr h)

theorem value_of_collapsed (hI : I.ReadsInstants) (hwf : ∀ d ∈ cs, d.wellFormed)
    (hsame : ∀ x ∈ cs, ∀ y ∈ cs, x.equivalent y = .ok true → x.Coincides y) {d : Tree} (hd : d ∈ cs)
    (h : Results (fun x => x = d ∨ d.equivalent x = .ok true ∨ x.equivalent d = .ok true) cs) :
    ((d.meaning I db).value env group).Coincides (((Tree.node id (.scalar .caseWhen type) cs).meaning I db).value env group) := by
  have hvalue {x y : Tree} (hx : x ∈ cs) (hy : y ∈ cs) (h : x.equivalent y = .ok true) :
      ((x.meaning I db).value env group).Coincides ((y.meaning I db).value env group) :=
    value_coincides hI (hsame x hx y hy h) (hwf x hx) env group
  refine (value_case_of_results (h.imp fun x hx h => ?_)).symm
  rcases h with rfl | h | h
  · exact .refl _
  · exact (hvalue hd hx h).symm
  · exact hvalue hx hd h

/-- What remains of a case once branches are decided chooses the same. `kept` is read in place of what stood before. -/
theorem chosen_decideBranches {f : NodeId → Meaning} {kept : Option (List NodeId)} {before args : List NodeId} {xs : List (NodeId × Op)}
    (h : decideBranches kept before xs = some (some args)) (hodd : xs.length % 2 = 1) (heven : before.length % 2 = 0)
    (hconstant : ∀ x ∈ xs, ∀ holds, x.2 = .constantPredicate holds → ((f x.1).value env group).holds = holds)
    (hkept : ∀ k, kept = some k → ∀ rest,
      Meaning.chosen ((k ++ rest).map f) env group = Meaning.chosen ((before ++ rest).map f) env group) :
    Meaning.chosen (args.map f) env group = Meaning.chosen ((before ++ xs.map Prod.fst).map f) env group := by
  -- What is kept, or all that stood before if nothing was decided yet.
  have hstart {kept : Option (List NodeId)} {before : List NodeId} (hkept : ∀ k, kept = some k → ∀ rest,
      Meaning.chosen ((k ++ rest).map f) env group = Meaning.chosen ((before ++ rest).map f) env group) (rest : List NodeId) :
      Meaning.chosen ((kept.getD before ++ rest).map f) env group = Meaning.chosen ((before ++ rest).map f) env group := by
    cases kept with
    | none => rfl
    | some k => exact hkept k rfl rest
  fun_induction decideBranches kept before xs with
  | case1 => cases hodd
  | case2 | case4 => cases h
  | case3 kept before e op hcast =>
    obtain ⟨k, hk, rfl⟩ := Option.map_eq_some_iff.mp (Option.some.inj h)
    exact hkept k hk [e]
  | case5 kept before w r result rest =>
    obtain rfl := Option.some.inj (Option.some.inj h)
    have hw : ((f w).value env group).holds := hconstant _ List.mem_cons_self true rfl
    refine (hstart hkept [r]).trans ?_
    rw [List.map_append, List.map_append]
    refine chosen_append (by simpa using heven) ?_
    simp [Meaning.chosen, hw]
  | case6 kept before w r result rest hcast holds kept' hholds ih =>
    obtain ⟨hw, -, hrest⟩ : _ ∧ _ ∧ _ := by simpa only [List.forall_mem_cons] using hconstant
    have hw : ((f w).value env group).holds = false := (hw holds rfl).trans (by simpa using hholds)
    rw [List.length_cons, List.length_cons] at hodd
    have heven' : (before ++ [w, r]).length % 2 = 0 := by simpa using heven
    have hih := ih h (by omega) heven' hrest fun k hk tail => ?_
    · simpa using hih
    · obtain rfl := Option.some.inj hk
      refine (hstart hkept tail).trans ?_
      rw [List.append_assoc, List.map_append, List.map_append]
      refine chosen_append (by simpa using heven) ?_
      simp [Meaning.chosen, hw]
  | case7 kept before w test r result rest hcast hno ih =>
    obtain ⟨-, -, hrest⟩ : _ ∧ _ ∧ _ := by simpa only [List.forall_mem_cons] using hconstant
    rw [List.length_cons, List.length_cons] at hodd
    have heven' : (before ++ [w, r]).length % 2 = 0 := by simpa using heven
    have hih := ih h (by omega) heven' hrest fun k hk tail => ?_
    · simpa using hih
    · obtain ⟨k', hk', rfl⟩ := Option.map_eq_some_iff.mp hk
      rw [List.append_assoc, List.append_assoc]
      exact hkept k' hk' _

theorem chosen_of_decided (hheld : ∀ d ∈ cs, p.Holds d) (hodd : cs.length % 2 = 1) {es : List Tree} (hes : es.Sublist cs)
    (h : decideBranches none [] (cs.map fun d => (d.id, d.op)) = some (some (es.map Tree.id))) :
    Meaning.chosen (es.map (meaning I db)) env group = Meaning.chosen (cs.map (meaning I db)) env group := by
  let f (n : NodeId) : Meaning := ((p.tree? n).map (meaning I db)).getD .blank
  have hf : ∀ d ∈ cs, f d.id = d.meaning I db := fun d hd => by simp only [f, (hheld d hd).tree?, Option.map_some, Option.getD_some]
  have hmap : ∀ ds : List Tree, (∀ d ∈ ds, d ∈ cs) → (ds.map Tree.id).map f = ds.map (meaning I db) := fun ds hds => by
    rw [List.map_map]
    exact List.map_congr_left fun d hd => hf d (hds d hd)
  have hfst : (cs.map fun d => (d.id, d.op)).map Prod.fst = cs.map Tree.id := by
    rw [List.map_map]
    rfl
  have hchosen : Meaning.chosen ((es.map Tree.id).map f) env group = _ :=
    chosen_decideBranches h (by simpa using hodd) rfl (fun x hx holds hop => ?_) nofun
  · rwa [hmap es fun d hd => hes.subset hd, List.nil_append, hfst, hmap cs fun _ hd => hd] at hchosen
  · obtain ⟨d, hd, rfl⟩ := List.mem_map.mp hx
    have hop : d.op = .constantPredicate holds := hop
    rw [hf d hd, value_of_value? (by rw [hop]; rfl)]
    rfl

theorem dropDecidedBranches_shrinks (ht : p.Holds (.node id (.scalar .caseWhen type) cs)) (hodd : cs.length % 2 = 1) :
    EndsIn (dropDecidedBranches id) c p (Shrunk I db C (.node id (.scalar .caseWhen type) cs)) := by
  refine (dropDecidedBranches_halts ht).ends.mono ?_
  rintro out c p' ⟨rfl, ⟨rfl, rfl⟩ | ⟨es, hdecided, hes, hlen, hmade⟩⟩
  · exact .none
  · have hchosen {env group} : Meaning.chosen (es.map (meaning I db)) env group = Meaning.chosen (cs.map (meaning I db)) env group :=
      chosen_of_decided (fun d hd => ht.of_mem hd) hodd hes hdecided
    rcases hmade with ⟨e, rfl, rfl, rfl⟩ | ⟨n, rfl, hn⟩
    · have he := List.singleton_sublist.mp hes
      refine .operand he (ht.of_mem he) fun {env group} _ => .of_eq ?_
      rw [value_case, ← hchosen]
      rfl
    · rintro _ ⟨⟩
      refine ⟨_, rfl, hn.holds, ?_, fun {env group} _ => .of_eq ?_⟩
      · have hlt := sum_size_lt_of_sublist hes hlen
        rw [size_node, size_node]
        exact Nat.add_lt_add_left hlt _
      · exact (value_case.trans hchosen).trans value_case.symm

theorem simplifyCase_shrinks (hI : I.ReadsInstants) (ht : p.Holds (.node id (.scalar .caseWhen type) cs)) (hodd : cs.length % 2 = 1)
    (hwf : ∀ d ∈ cs, d.wellFormed) (hsame : ∀ x ∈ cs, ∀ y ∈ cs, x.equivalent y = .ok true → x.Coincides y) :
    EndsIn (simplifyCaseApply id) c p (Shrunk I db C (.node id (.scalar .caseWhen type) cs)) := by
  refine .bind (collapseCase_halts ht).ends ?_
  rintro out c p ⟨rfl, rfl, hout⟩
  cases out with
  | none => exact dropDecidedBranches_shrinks ht hodd
  | some n =>
    obtain ⟨d, hd, rfl, hresults⟩ := hout n rfl
    exact .pure (.operand hd (ht.of_mem hd) fun _ => value_of_collapsed hI hwf hsame hd (hresults hodd))

theorem value_flattened {i j : NodeId} {ds : List Tree} {t' : ScalarType} (heven : cs.length % 2 = 0) :
    ((Tree.node i (.scalar .caseWhen type) (cs ++ ds)).meaning I db).value env group =
      ((Tree.node id (.scalar .caseWhen type) (cs ++ [.node j (.scalar .caseWhen t') ds])).meaning I db).value env group := by
  have hlast : Meaning.chosen (ds.map (meaning I db)) env group =
      ((Tree.node j (.scalar .caseWhen t') ds).meaning I db).value env group := value_case.symm
  rw [value_case, value_case, List.map_append, List.map_append]
  exact chosen_append (by rwa [List.length_map]) hlast

theorem flattenCase_shrinks (ht : p.Holds (.node id (.scalar .caseWhen type) cs)) (hodd : cs.length % 2 = 1) :
    EndsIn (flattenCaseApply id) c p (Shrunk I db C (.node id (.scalar .caseWhen type) cs)) := by
  refine (flattenCase_halts ht).ends.mono ?_
  rintro out c p' ⟨rfl, ⟨rfl, rfl⟩ | ⟨init, last, n, hcs, hkind, rfl, hn⟩⟩
  · exact .none
  · rintro _ ⟨⟩
    obtain rfl : cs = init ++ [last] := hcs
    obtain ⟨j, type', ds, rfl⟩ := exists_scalar (show last.kind = ScalarKind.caseWhen.kind from hkind)
    refine ⟨_, rfl, hn.holds, ?_, fun {env group} _ => .of_eq ?_⟩
    · simp only [size_node, children_node, List.map_append, List.map_singleton, List.sum_append, List.sum_singleton]
      omega
    · rw [List.length_append, List.length_singleton] at hodd
      exact value_flattened (by omega)

end Case

theorem Shrunk.mono {D : Row → List Row → Prop} {out : Option NodeId} (h : Shrunk I db C t out c p)
    (hDC : ∀ env group, D env group → C env group) : Shrunk I db D t out c p := by
  intro n hn
  obtain ⟨t', hid, hheld, hr⟩ := h n hn
  exact ⟨t', hid, hheld, hr.size, fun hD => hr.value (hDC _ _ hD)⟩

variable (I db) in
/-- What the rule makes of an expression whose parts can be compared is smaller and has its value, wherever `C` holds. -/
def KeepsValue (C : Tree → Row → List Row → Prop) (rule : Rule) : Prop :=
  ∀ {c : Context} {p : Plan} {t : Tree} (settle : NodeId → RuleM NodeId), p.Holds t → t.wellFormed = true →
    (∀ v ∈ t.constants, v.type ≠ .float) → (∀ a ∈ t.tables, ∀ b ∈ t.tables, a.id = b.id → a = b) →
    rule.pattern.holds p t.id = true → EndsIn (rule.apply settle t.id) c p (Shrunk I db (C t) t)

theorem KeepsValue.mono {C D : Tree → Row → List Row → Prop} {rule : Rule} (h : KeepsValue I db C rule)
    (hDC : ∀ t env group, D t env group → C t env group) : KeepsValue I db D rule := by
  intro c p t settle ht hwf hfloats htables hmatch
  exact (h settle ht hwf hfloats htables hmatch).mono fun _ _ _ hr => hr.mono (hDC t)

section Rules
variable {q : Pattern} {d : Tree} {decides : Bool}
variable {C : Tree → Row → List Row → Prop} {name : String} {f : NodeId → RuleM (Option NodeId)}

theorem keepsValue_of_operands (kind : ScalarKind) {qs : List Pattern}
    (h : ∀ {c p id type cs}, p.Holds (.node id (.scalar kind type) cs) → List.Forall₂ (fun q d => q.fits d) (q :: qs) cs →
      EndsIn (f id) c p (Shrunk I db (C (.node id (.scalar kind type) cs)) (.node id (.scalar kind type) cs))) :
    KeepsValue I db C (.simple name (matching kind.kind (q :: qs)) f) := by
  intro c p t settle ht _ _ _ hmatch
  obtain ⟨hkind, hfits⟩ := Pattern.fits_matching.mp ((Pattern.holds_eq_fits _ ht).symm.trans hmatch)
  obtain ⟨id, type, cs, rfl⟩ := exists_scalar hkind
  rcases hfits with hnil | hfits
  · cases hnil
  · exact h ht hfits

theorem keepsValue_of_case
    (h : ∀ {c p id type cs}, p.Holds (.node id (.scalar .caseWhen type) cs) → cs.length % 2 = 1 → (∀ d ∈ cs, d.wellFormed) →
      (∀ x ∈ cs, ∀ y ∈ cs, x.equivalent y = .ok true → x.Coincides y) →
      EndsIn (f id) c p (Shrunk I db (C (.node id (.scalar .caseWhen type) cs)) (.node id (.scalar .caseWhen type) cs))) :
    KeepsValue I db C (.simple name (.ofKind .caseWhen) f) := by
  intro c p t settle ht hwf hfloats htables hmatch
  have hkind : t.kind = ScalarKind.caseWhen.kind := kind_of_matches ht hmatch
  obtain ⟨id, type, cs, rfl⟩ := exists_scalar hkind
  obtain ⟨hfits, hwfs⟩ := wellFormed_node.mp hwf
  have hodd : cs.length % 2 = 1 := by
    simp [Op.fits, Op.kind, ScalarKind.kind, OpKind.admits, OpKind.arity?] at hfits
    exact hfits.1.2
  refine h ht hodd hwfs fun x hx y hy hxy =>
    coincides_of_equivalent (ht.of_mem hx) (ht.of_mem hy) (fun v hv => ?_) (fun a ha b hb => ?_) hxy
  · exact hfloats v (mem_filterMap_subtrees hx hv)
  · exact htables a (mem_filterMap_subtrees hx ha) b (mem_filterMap_subtrees hy hb)

theorem comparisonRule_keepsValue (kind : ScalarKind) (hk : kind.kind.isComparison) :
    KeepsValue I db C (comparisonRule name kind.kind) :=
  keepsValue_of_operands kind fun ht hfits => by
    obtain _ | ⟨_, _ | ⟨_, ⟨⟩⟩⟩ := hfits
    exact foldComparison_shrinks hk ht

/-! Operands that a pattern asks for. -/

theorem value?_of_fits_null (h : (Pattern.ofKind .null).fits d) : d.op.value? = some .null := by
  have hctor := Op.ctorIdx_eq_of_kind (b := .null .null) (kind_of_fits h)
  cases hop : d.op <;> rw [hop] at hctor <;> cases hctor
  rfl

theorem exists_constantPredicate (h : (Pattern.ofKind .constantPredicate).fits d) :
    ∃ holds, d.op = .constantPredicate holds := by
  have hctor := Op.ctorIdx_eq_of_kind (b := .constantPredicate true) (kind_of_fits h)
  cases hop : d.op <;> rw [hop] at hctor <;> cases hctor
  exact ⟨_, rfl⟩

theorem exists_varRef (h : (Pattern.ofKind .varRef).fits d) : ∃ v type, d.op = .varRef v type := by
  have hctor := Op.ctorIdx_eq_of_kind (b := .varRef 0 .null) (kind_of_fits h)
  cases hop : d.op <;> rw [hop] at hctor <;> cases hctor
  exact ⟨_, _, rfl⟩

theorem value?_of_fits_nullSentinel (h : (Pattern.ofKind .nullSentinel).fits d) : d.op.value? = some (.int32 1) := by
  have hctor := Op.ctorIdx_eq_of_kind (b := .nullSentinel) (kind_of_fits h)
  cases hop : d.op <;> rw [hop] at hctor <;> cases hctor
  rfl

theorem kind_of_logical {kind : ScalarKind} (h : kind = .and ∧ decides = false ∨ kind = .or ∧ decides = true) :
    kind.kind = .and ∨ kind.kind = .or := by
  rcases h with ⟨rfl, -⟩ | ⟨rfl, -⟩
  · exact .inl rfl
  · exact .inr rfl

variable (I db) in
/-- The operands of `And` and `Or` are true, false or null. -/
def Logical (t : Tree) (env : Row) (group : List Row) : Prop :=
  t.kind = .and ∨ t.kind = .or → ∀ d ∈ t.children, ((d.meaning I db).value env group).isLogical = true

theorem foldLogicalRight_keepsValue (kind : ScalarKind)
    (hkind : kind = .and ∧ decides = false ∨ kind = .or ∧ decides = true) :
    KeepsValue I db (Logical I db) (.simple name (matching kind.kind [.wildcard, .ofKind .constantPredicate]) foldLogicalRight) :=
  keepsValue_of_operands kind fun ht hfits => by
    obtain _ | @⟨_, a, _, _, _, _ | @⟨_, b, _, _, hb, ⟨⟩⟩⟩ := hfits
    obtain ⟨holds, hop⟩ := exists_constantPredicate hb
    refine .read (ht.child_run (i := 1) rfl) (.read (ht.child_run (i := 0) rfl) ?_)
    refine (foldLogical_shrinks hkind ht (by simp) (by simp) hop fun {env group} => ?_).mono fun _ _ _ hr => hr.mono fun env group h => ?_
    · rcases hkind with ⟨rfl, rfl⟩ | ⟨rfl, rfl⟩ <;> exact value_scalar
    · exact h (kind_of_logical hkind) a (by simp)

theorem foldLogicalLeft_keepsValue (kind : ScalarKind)
    (hkind : kind = .and ∧ decides = false ∨ kind = .or ∧ decides = true) :
    KeepsValue I db (Logical I db) (.simple name (matching kind.kind [.ofKind .constantPredicate, .wildcard]) foldLogicalLeft) :=
  keepsValue_of_operands kind fun ht hfits => by
    obtain _ | @⟨_, a, _, _, ha, _ | @⟨_, b, _, _, _, ⟨⟩⟩⟩ := hfits
    obtain ⟨holds, hop⟩ := exists_constantPredicate ha
    refine .read (ht.child_run (i := 0) rfl) (.read (ht.child_run (i := 1) rfl) ?_)
    refine (foldLogical_shrinks hkind ht (by simp) (by simp) hop fun {env group} => ?_).mono fun _ _ _ hr => hr.mono fun env group h => ?_
    · rw [Value.connected_comm]
      rcases hkind with ⟨rfl, rfl⟩ | ⟨rfl, rfl⟩ <;> exact value_scalar
    · exact h (kind_of_logical hkind) b (by simp)

theorem foldNot_keepsValue : KeepsValue I db C (.simple name (matching .not [.ofKind .constantPredicate]) foldNot) :=
  keepsValue_of_operands .not fun ht hfits => by
    obtain _ | ⟨ha, ⟨⟩⟩ := hfits
    obtain ⟨holds, hop⟩ := exists_constantPredicate ha
    exact foldNot_shrinks ht hop

theorem foldLike_keepsValue (hI : I.Conventional) :
    KeepsValue I db C (.simple name (matching .like [.wildcard, .wildcard, .ofKind .null]) foldLike) :=
  keepsValue_of_operands .like fun ht hfits => by
    obtain _ | ⟨_, _ | ⟨_, _ | ⟨he, ⟨⟩⟩⟩⟩ := hfits
    exact foldLike_shrinks hI ht (value?_of_fits_null he)

theorem foldNullCast_keepsValue (hI : I.Conventional) :
    KeepsValue I db C (.simple name (matching .cast [.ofKind .null]) foldNullCast) :=
  keepsValue_of_operands .cast fun ht hfits => by
    obtain _ | ⟨ha, ⟨⟩⟩ := hfits
    exact foldNullCast_shrinks hI ht (value?_of_fits_null ha)

theorem foldIsNull_keepsValue : KeepsValue I db C (.simple name (matching .isNull [.wildcard]) foldIsNull) :=
  keepsValue_of_operands .isNull fun ht hfits => by
    obtain _ | ⟨_, ⟨⟩⟩ := hfits
    exact foldIsNull_shrinks ht

theorem isNull_keepsValue {v : Value} (hq : ∀ d, q.fits d → d.op.value? = some v) :
    KeepsValue I db C (.simple name (matching .isNull [q]) fun _ => do return some (← predicate v.isNull)) :=
  keepsValue_of_operands .isNull fun _ hfits => by
    obtain _ | ⟨ha, ⟨⟩⟩ := hfits
    exact predicate_shrunk (by simp) fun _ => by rw [value_isNull, value_of_value? (hq _ ha)]

def NotNull (t : Tree) (env : Row) (_ : List Row) : Prop :=
  ∀ d ∈ t.children, ∀ v type, d.op = .varRef v type → env.read v ≠ .null

theorem foldIsNullReference_keepsValue :
    KeepsValue I db NotNull (.simple name (matching .isNull [.ofKind .varRef]) foldIsNullReference) :=
  keepsValue_of_operands .isNull fun ht hfits => by
    obtain _ | @⟨_, a, _, _, ha, ⟨⟩⟩ := hfits
    obtain ⟨v, type, hop⟩ := exists_varRef ha
    exact (foldIsNullReference_shrinks ht hop).mono fun _ _ _ hr => hr.mono fun env _ h => h a (by simp) v type hop

end Rules

variable (I db) in
/-- Where the value is kept: where the operands of `And` and `Or` are true, false or null, and a variable that is taken to be never
    null is not null. -/
def Admits (rule : Rule) (t : Tree) (env : Row) (group : List Row) : Prop :=
  Logical I db t env group ∧ (rule = isNullOverVarRef → NotNull t env group)

theorem scalarRules_keepValue (hI : I.ReadsInstants) (hI' : I.Conventional) :
    ∀ rule ∈ scalarRules, KeepsValue I db (Admits I db rule) rule := by
  have logical {rule : Rule} (h : KeepsValue I db (Logical I db) rule) : KeepsValue I db (Admits I db rule) rule :=
    h.mono fun _ _ _ h => h.1
  simp only [scalarRules, List.forall_mem_cons]
  refine ⟨?_, ?_, foldLike_keepsValue hI', comparisonRule_keepsValue .eq rfl, comparisonRule_keepsValue .ne rfl,
    comparisonRule_keepsValue .lt rfl, comparisonRule_keepsValue .gt rfl, comparisonRule_keepsValue .le rfl,
    comparisonRule_keepsValue .ge rfl, logical (foldLogicalRight_keepsValue .and (.inl ⟨rfl, rfl⟩)),
    logical (foldLogicalLeft_keepsValue .and (.inl ⟨rfl, rfl⟩)), logical (foldLogicalRight_keepsValue .or (.inr ⟨rfl, rfl⟩)),
    logical (foldLogicalLeft_keepsValue .or (.inr ⟨rfl, rfl⟩)), foldNot_keepsValue, foldIsNull_keepsValue,
    isNull_keepsValue fun _ => value?_of_fits_nullSentinel, isNull_keepsValue fun _ => value?_of_fits_null,
    foldNullCast_keepsValue hI', ?_, List.forall_mem_nil _⟩
  · exact keepsValue_of_case fun ht hodd hwf hsame => simplifyCase_shrinks hI ht hodd hwf hsame
  · exact keepsValue_of_case fun ht hodd _ _ => flattenCase_shrinks ht hodd
  · exact foldIsNullReference_keepsValue.mono fun _ _ _ h => h.2 rfl

/-- A rule on expressions preserves the value and shrinks the tree. What it makes of an expression without floats, whose tables are
    known by their numbers, has fewer nodes and the same value in every environment, where times are read by their instants, casts
    keep null and patterns have their wildcards, the operands of `And` and `Or` are true, false or null, and the variable is not
    null that a test for null is dropped for. -/
theorem scalarRules_value {rule : Rule} (hrule : rule ∈ scalarRules) {settle : NodeId → RuleM NodeId} {p p' : Plan} {c c' : Context}
    {t : Tree} {n : NodeId} (hp : p.Holds t) (hwf : t.wellFormed = true) (hfloats : ∀ v ∈ t.constants, v.type ≠ .float)
    (htables : ∀ a ∈ t.tables, ∀ b ∈ t.tables, a.id = b.id → a = b) (hmatch : rule.pattern.holds p t.id = true)
    (hrun : rule.apply settle t.id c p = .ok ((some n, c'), p')) :
    ∃ t', p'.tree? n = some t' ∧ t'.size < t.size ∧
      ∀ (I : Interpretation) (db : Database) (env : Row) (group : List Row), I.ReadsInstants → I.Conventional →
        (t.kind = .and ∨ t.kind = .or → ∀ d ∈ t.children, ((d.meaning I db).value env group).isLogical = true) →
        (rule = isNullOverVarRef → ∀ d ∈ t.children, ∀ v type, d.op = .varRef v type → env.read v ≠ .null) →
        ((t'.meaning I db).value env group).Coincides ((t.meaning I db).value env group) := by
  have hkeeps {I : Interpretation} (hI : I.ReadsInstants) (hI' : I.Conventional) (db : Database) :
      Shrunk I db (Admits I db rule t) t (some n) c' p' :=
    scalarRules_keepValue hI hI' rule hrule settle hp hwf hfloats htables hmatch (some n) c' p' hrun
  obtain ⟨t', rfl, hheld, hr⟩ := hkeeps Interpretation.plain_readsInstants Interpretation.plain_conventional (fun _ => []) n rfl
  refine ⟨t', hheld.tree?, hr.size, fun I db env group hI hI' hlogical hnull => ?_⟩
  obtain ⟨s, hid, hheld', hr'⟩ := hkeeps hI hI' db t'.id rfl
  obtain rfl := hheld.unique hheld' hid.symm
  exact hr'.value ⟨hlogical, hnull⟩

/-- `CASE WHEN v IS NULL THEN 12:00 ELSE 13:00 END`, where the second time is that of another zone and the same instant. -/
def zonedTree : Tree :=
  .node 4 (.scalar .caseWhen .time) [.node 1 (.scalar .isNull .boolean) [.node 0 (.varRef 0 .int32) []],
    .node 2 (.constant (.time ⟨2024, 1, 1, 12, 0, 0, 0, 0⟩)) [], .node 3 (.constant (.time ⟨2024, 1, 1, 13, 0, 0, 0, 60⟩)) []]

def zoned : Plan := zonedTree.plan 0 [⟨.column, "t.v", .int32⟩]

theorem scalarRules_value_zoned :
    ∃ n c' p' t', simplifyCase.apply pure 4 (.start .standard) zoned = .ok ((some n, c'), p') ∧ p'.tree? n = some t' ∧
      t'.size < zonedTree.size ∧ ∀ (db : Database) (env : Row) (group : List Row),
        ((t'.meaning .plain db).value env group).Coincides ((zonedTree.meaning .plain db).value env group) := by
  have hview : zoned.tree? 4 = some zonedTree := rfl
  have hmatch : simplifyCase.pattern.holds zoned 4 = true := by decide
  obtain ⟨n, c', p', hrun⟩ : ∃ n c' p', simplifyCase.apply pure 4 (.start .standard) zoned = .ok ((some n, c'), p') :=
    exists_of_fires (by decide +kernel)
  obtain ⟨t', ht', hsize, hvalue⟩ := scalarRules_value (t := zonedTree) (by simp [scalarRules]) (holds_of_view (by decide) hview)
    (by decide) (by decide) (by decide) hmatch hrun
  refine ⟨n, c', p', t', hrun, ht', hsize, fun db env group => ?_⟩
  refine hvalue .plain db env group Interpretation.plain_readsInstants Interpretation.plain_conventional (fun h => ?_) fun h => ?_
  · rcases h with h | h <;> cases h
  · exact absurd (congrArg Rule.name h) (by decide)

end Rules

end Planwright
