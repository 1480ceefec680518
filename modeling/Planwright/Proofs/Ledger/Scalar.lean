import Planwright.Proofs.Ledger.Step
import Planwright.Proofs.Rule.Remake.Scalar

/-! Rules on expressions, in any ledger. -/

namespace Planwright.Ledger

open Run Plan Asset Rules

variable {l : Ledger} {p : Plan} {n : NodeId} {k : OpKind} {cs : List NodeId}

theorem Concur.folds {A : Multiset Asset} {x : RuleM (Option NodeId)} (hx : Folds x) : l.Works (some p) A .scalar x := by
  refine fun c p₁ F hb ho => ⟨rfl, (hx c p₁).ends.mono ?_⟩
  rintro out c' p' ⟨rfl, ⟨rfl, hk⟩ | ⟨m, op, p₂, rfl, hk, hm, hop, -, href⟩⟩
  · exact ⟨rfl, p, rfl, Unchanged.trans hb hk.unchanged⟩
  · obtain ⟨r, hr⟩ := hm.holds.has
    obtain ⟨rfl, hch⟩ : r.op = op ∧ r.children = [] := ⟨hr.op, hr.children⟩
    have hnot : ∀ kind outputs left right, r.op ≠ .combine kind outputs left right := by
      intro kind _ _ _ h
      rw [h] at hop
      cases kind <;> cases hop
    have hadm : r.op.kind.admits r.children.length := by
      rw [hch]
      exact hm.admits
    have hmade := l.creates (A := F) (l.fits_of hnot) hm.keeps.adds (hm.fresh ▸ hr.found) hadm (l.weaken ?_ (l.adds hk.adds ho))
    · rw [OpKind.role_of_isScalar hop, ← hm.fresh] at hmade
      exact hmade
    · rw [hch]
      exact (zero_add F).trans_le le_add_self

theorem foldLogical_concurs {a b constant other : NodeId} {i j : Nat} (hat : p.At n k [a, b]) (hk : ∀ i, k.wants i = .scalar)
    (hi : [a, b][i]? = some constant) (hj : [a, b][j]? = some other) :
    l.Works (some p) (expr n) .scalar (foldLogical constant other n) := by
  have gives {i : Nat} {c : NodeId} (hc : [a, b][i]? = some c) :
      l.Concur (some p) (expr n) .scalar (pure (some c)) (pure (some c)) := hk i ▸ .givesChild hat hc
  refine .look op_looks fun o => .readKind hat ?_
  split
  · split
    · exact gives hj
    · exact gives hi
  · split
    · exact gives hi
    · exact gives hj
  · exact .throw

theorem collapseCase_concurs (hat : p.At n .caseWhen cs) :
    l.Works (some p) (expr n) .scalar (collapseCase n) := by
  refine .readChildren hat ?_
  split
  · refine .look tree_looks fun _ => .look tree_looks fun _ => .quiet (.except Tree.equivalent_spares) fun same => ?_
    split
    · exact .leaves
    · refine .quiet (.mapM fun _ => .plan tree_looks) fun _ => .quiet (.except allEquivalent_spares) fun same => ?_
      split
      · exact .givesChild (i := 1) hat rfl
      · exact .leaves
  · exact .throw

theorem withOps_ends {c : Context} {ns : List NodeId} :
    EndsIn (ns.mapM fun n => do return (n, ← Plan.op n) : RuleM _) c p fun out _ _ => out.map Prod.fst = ns := by
  refine (HaltsIn.mapM (I := fun _ _ => True) (R := fun n x => x.1 = n) (P := False) (fun n _ c p _ => ?_) trivial).ends.mono
    fun out _ _ ⟨_, h⟩ => ?_
  · exact .step (op_looks p) fun _ _ _ => .pure ⟨trivial, rfl⟩
  · rw [← List.map_id ns]
    exact map_eq_map_of_forall₂ h.flip

theorem dropDecidedBranches_concurs (hat : p.At n .caseWhen cs) :
    l.Works (some p) (expr n) .scalar (dropDecidedBranches n) := by
  refine .readChildren hat (.know (makesIn_of_quiet (.mapM fun _ => .bind (.plan op_looks) fun _ => .pure))
    (fun _ _ => withOps_ends) fun withOps hops => ?_)
  have kept {args : List NodeId} (h : decideBranches none [] withOps = some (some args)) : args.Sublist cs := by
    simpa [hops] using (decideBranches_sublist h nofun).1
  split
  · exact .leaves
  · exact .leaves
  · rename_i only heq
    obtain ⟨i, hi⟩ := List.mem_iff_getElem?.mp (List.singleton_sublist.mp (kept heq))
    exact .givesChild (i := i) hat hi
  · rename_i args _ heq
    refine .opens hat 0 (add_zero _).symm (.look op_looks fun o => ?_)
    rw [trees_eq_all (ρ := .scalar) fun _ => rfl, add_zero]
    refine .weaken ((all_le (kept heq).subperm).trans le_add_self) (.make caseWhen_makes 0 (add_zero _).symm fun m => ?_)
    exact .gives 0 rfl

theorem simplifyCase_concurs (hat : p.At n .caseWhen cs) :
    l.Works (some p) (expr n) .scalar (simplifyCaseApply n) :=
  .tries (fun _ ha => collapseCase_concurs (hat.adds ha)) (fun _ => .gives 0 (add_zero _).symm) fun _ ha =>
    dropDecidedBranches_concurs (hat.adds ha)

theorem flattenCase_concurs (hat : p.At n .caseWhen cs) :
    l.Works (some p) (expr n) .scalar (flattenCaseApply n) := by
  refine .readChildren hat ?_
  rcases List.eq_nil_or_concat cs with rfl | ⟨init, last, rfl⟩
  · exact .throw
  · simp only [List.concat_eq_append, List.getLast?_concat, List.dropLast_concat]
    refine .inspect fun p' k ds ha hlast => ?_
    split
    · exact .leaves
    · rename_i hk
      obtain rfl : k = .caseWhen := by simpa using hk
      refine .look op_looks fun o => .readChildren hlast ?_
      refine .opens (hat.adds ha) 0 (add_zero _).symm ?_
      rw [trees_eq_all (ρ := .scalar) fun _ => rfl, List.concat_eq_append, all_append, all_cons, all_nil]
      refine .opens hlast ({.cell .caseWhen n (init ++ [last])} + all .scalar init) (by abel) ?_
      rw [trees_eq_all (ρ := .scalar) fun _ => rfl]
      refine .make caseWhen_makes ({.cell .caseWhen n (init ++ [last])} + {.cell .caseWhen last ds})
        (by rw [all_append]; abel) fun m => ?_
      exact .gives _ rfl

theorem scalarRules_concur : ∀ rule ∈ scalarRules, l.Concurs rule rule := by
  have folds {name : String} {k : OpKind} {ps : List Pattern} {f : NodeId → RuleM (Option NodeId)} (hk : k.role = .scalar)
      (hf : ∀ n, Folds (f n)) : l.Concurs (.simple name (matching k ps) f) (.simple name (matching k ps) f) :=
    concurs_simple fun p n _ => hk ▸ .folds (hf n)
  have logical {name : String} {k : OpKind} {q q' : Pattern} (i j : Nat) (hi : i < 2) (hj : j < 2) (hk : k.role = .scalar) (hw : ∀ i, k.wants i = .scalar) :
      l.Concurs (.simple name (matching k [q, q']) fun n => do foldLogical (← child n i) (← child n j) n)
        (.simple name (matching k [q, q']) fun n => do foldLogical (← child n i) (← child n j) n) := by
    refine concurs_simple fun p n hm => ?_
    obtain ⟨a, b, hat, -⟩ := Pattern.holds_two hm
    rw [hk]
    exact .readChild hat (List.getElem?_eq_getElem hi) (.readChild hat (List.getElem?_eq_getElem hj)
      (foldLogical_concurs hat hw (List.getElem?_eq_getElem hi) (List.getElem?_eq_getElem hj)))
  have case {name : String} {f : NodeId → RuleM (Option NodeId)}
      (hf : ∀ {p n cs}, p.At n .caseWhen cs → l.Works (some p) (expr n) .scalar (f n)) :
      l.Concurs (.simple name (.ofKind .caseWhen) f) (.simple name (.ofKind .caseWhen) f) :=
    concurs_simple fun p n hm => by
      obtain ⟨cs, hat⟩ := Pattern.holds_ofKind hm
      exact hf hat
  simp only [scalarRules, List.forall_mem_cons]
  exact ⟨case simplifyCase_concurs, case flattenCase_concurs, folds rfl foldLike_folds, folds rfl foldComparison_folds,
    folds rfl foldComparison_folds, folds rfl foldComparison_folds, folds rfl foldComparison_folds,
    folds rfl foldComparison_folds, folds rfl foldComparison_folds, logical 1 0 (by decide) (by decide) rfl fun _ => rfl,
    logical 0 1 (by decide) (by decide) rfl fun _ => rfl, logical 1 0 (by decide) (by decide) rfl fun _ => rfl,
    logical 0 1 (by decide) (by decide) rfl fun _ => rfl,
    folds rfl foldNot_folds, folds rfl foldIsNull_folds, folds rfl fun _ => .predicate, folds rfl fun _ => .predicate,
    folds rfl foldNullCast_folds, folds rfl foldIsNullReference_folds, List.forall_mem_nil _⟩

end Planwright.Ledger
