import Planwright.Proofs.Ledger.Project
import Planwright.Proofs.Ledger.Scalar
import Planwright.Proofs.Rule.Remake.Apply

/-! Rules that take applies apart, in any ledger. -/

namespace Planwright.Ledger

open Run Plan Asset Rules RuleM

variable {l : Ledger} {p : Plan} {n left right : NodeId} {k : OpKind}

/-! ### Applies over filters -/

section
variable {filter input predicate : NodeId}

theorem overFilter_concurs (hn : p.At n k [left, filter]) (hf : p.At filter .filter [input, predicate])
    (hk : ∀ i, k.wants i = .relational) :
    l.Works (some p) (relation n) .relational (overFilter n) := by
  refine .readChild hn (i := 0) rfl (.readChild hn (i := 1) rfl (.readChild hf (i := 0) rfl ?_))
  refine .look info_looks fun _ => .look relationInfo_looks fun _ => ?_
  split
  · exact .leaves
  refine .readChild hf (i := 1) rfl (.readKind hn ?_)
  refine .opensTwo .relational .relational hn 0 (add_zero _).symm ?_ (hk 0) (hk 1)
  refine .opensTwo .relational .scalar hf ({.cell k n [left, filter]} + relation left) (by abel) ?_ rfl rfl
  split
  · exact .make innerJoin_makes ({.cell k n [left, filter]} + {.cell .filter filter [input, predicate]}) (by abel) fun _ => .gives _ rfl
  · exact .make leftOuterJoin_makes ({.cell k n [left, filter]} + {.cell .filter filter [input, predicate]}) (by abel)
      fun _ => .gives _ rfl

theorem guardDef_makes {v : VarId} {b : Bool} {d e : NodeId} : l.Makes (expr e) (guardDef v b d e) definition := by
  have last (e' : NodeId) : l.Makes (expr e') (do varDef (← definedVar d) e') definition :=
    .quiet definedVar_looks fun _ => varDef_makes
  cases b with
  | true => exact .bind ((yields_of_le (Multiset.zero_le _)).makes varRef_makes) last
  | false => exact .bind nullIf_makes last

theorem overConstantProject_concurs {proj list definer constant : NodeId} (hn : p.At n .outerApply [left, proj])
    (hp : p.At proj .project [filter, list]) (hf : p.At filter .filter [input, predicate]) (hl : p.At list .varDefList [definer])
    (hd : p.At definer .varDef [constant]) :
    l.Works (some p) (relation n) .relational (overConstantProject n) := by
  refine .readChild hn (i := 0) rfl (.readChild hn (i := 1) rfl (.look op_looks fun o => ?_))
  split
  swap
  · exact .throw
  refine .readChild hp (i := 0) rfl (.readChild hf (i := 0) rfl (.look relationInfo_looks fun inputInfo => ?_))
  refine .look relationInfo_looks fun leftInfo => ?_
  split
  · exact .leaves
  refine .readChild hf (i := 1) rfl (.getPlan fun q => ?_)
  refine .opensTwo .relational .relational hn 0 (add_zero _).symm ?_ rfl rfl
  refine .opensTwo .relational .varDefList hp ({.cell .outerApply n [left, proj]} + relation left) (by abel) ?_ rfl rfl
  refine .opensTwo .relational .scalar hf
    ({.cell .project proj [filter, list]} + defList list + ({.cell .outerApply n [left, proj]} + relation left)) (by abel) ?_ rfl rfl
  refine .drop (relation left + relation input + expr predicate + defList list)
    ({.cell .outerApply n [left, proj]} + {.cell .project proj [filter, list]} + {.cell .filter filter [input, predicate]}) (by abel) ?_
  dsimp only
  cases (q.vars.firstInt32? inputInfo.nonNullable.toList).or inputInfo.nonNullable.first? with
  | none =>
    refine .look info_looks fun _ => .readChild hp (i := 1) rfl ?_
    refine .make project_makes (relation left + expr predicate) (by abel) fun out => ?_
    exact .make leftOuterJoin_makes 0 (by abel) fun _ => .gives 0 rfl
  | some sentinel =>
    refine .readChild hp (i := 1) rfl (.readChild hl (i := 0) rfl (.readChild hd (i := 0) rfl (.quiet canMark_quiet fun may => ?_)))
    refine .opensAll .varDef (fun _ => rfl) hl (relation left + relation input + expr predicate) (by abel) (.opensOne .scalar hd
      ({.cell .varDefList list [definer]} + (relation left + relation input + expr predicate)) (by rw [all_cons, all_nil]; abel) ?_ rfl)
    refine .make guardDef_makes (relation left + relation input + expr predicate +
        ({.cell .varDefList list [definer]} + {.cell .varDef definer [constant]})) (by abel) fun d => ?_
    refine .make singleDef_makes _ rfl fun defs => ?_
    refine .make leftOuterJoin_makes (defList defs +
      ({.cell .varDefList list [definer]} + {.cell .varDef definer [constant]})) (by abel) fun join => ?_
    refine .look relationInfo_looks fun _ => .make project_makes _ (by rw [add_assoc]) fun _ => .gives _ rfl

theorem overSingleRowJoin_concurs {join single condition : NodeId} (hn : p.At n .crossApply [left, join])
    (hj : p.At join .leftOuterJoin [single, right, condition]) :
    l.Works (some p) (relation n) .relational (overSingleRowJoin n) := by
  refine .readChild hn (i := 1) rfl (.readChild hj (i := 2) rfl (.look op_looks fun o => ?_))
  split
  · exact .leaves
  · refine .readChild hn (i := 0) rfl (.readChild hj (i := 1) rfl ?_)
    refine .opensTwo .relational .relational hn 0 (add_zero _).symm ?_ rfl rfl
    refine .opensThree .relational .relational .scalar hj ({.cell .crossApply n [left, join]} + relation left)
      (by abel) ?_ rfl rfl rfl
    exact .make outerApply_makes ({.cell .crossApply n [left, join]} + {.cell .leftOuterJoin join [single, right, condition]} +
      relation single + expr condition) (by abel) fun _ => .gives _ rfl

end

/-! ### Applies over anything -/

section
variable (hn : p.At n k [left, right]) (hk : ∀ i, k.wants i = .relational)
include hn hk

theorem overAnything_concurs : l.Works (some p) (relation n) .relational (overAnything n) := by
  refine .readChild hn (i := 0) rfl (.readChild hn (i := 1) rfl (.look relationInfo_looks fun leftInfo => ?_))
  refine .look relationInfo_looks fun rightInfo => .readKind hn ?_
  refine .opensTwo .relational .relational hn 0 (add_zero _).symm ?_ (hk 0) (hk 1)
  dsimp only
  split
  · split
    · exact .make crossApply_makes {.cell k n [left, right]} (by abel) fun _ => .gives _ rfl
    · exact .leaves
  · split
    · exact .make crossJoin_makes {.cell k n [left, right]} (by abel) fun _ => .gives _ rfl
    · refine .make predicate_makes _ (zero_add _).symm fun always => ?_
      exact .make leftOuterJoin_makes {.cell k n [left, right]} (by abel) fun _ => .gives _ rfl

theorem intoElement_concurs : l.Works (some p) (relation n) .relational (intoElement n) := by
  refine .readChild hn (i := 1) rfl (.readKind hn (.quiet isElement_quiet fun fits => ?_))
  split
  · exact .leaves
  refine .readChild hn (i := 0) rfl (.look relationInfo_looks fun leftInfo => .look relationInfo_looks fun rightInfo => ?_)
  refine .opensTwo .relational .relational hn 0 (add_zero _).symm ?_ (hk 0) (hk 1)
  split
  swap
  · exact .throw
  refine .drop (relation right + relation left) {.cell k n [left, right]} (by abel) ?_
  refine .change renameSubtree_agree 0 (add_zero _).symm fun _ => .sees .relational right (relation left) (by abel) ?_
  refine .deal copySubtree_deals _ rfl fun ⟨subquery, _⟩ => .look typeOf_looks fun type => ?_
  refine .make element_makes _ rfl fun value => .deal computedVarDef_deals _ rfl fun ⟨d, new⟩ => ?_
  refine .write rename_agree fun _ => .make singleDef_makes _ rfl fun defs => ?_
  exact .make project_makes (relation right) (by abel) fun _ => .gives _ rfl

end

/-! ### Applies over projections -/

section
variable {proj input list : NodeId}

theorem crossOverProject_concurs (hn : p.At n .crossApply [left, proj]) (hp : p.At proj .project [input, list]) :
    l.Works (some p) (relation n) .relational (crossOverProject n) := by
  refine .readChild hn (i := 1) rfl (.look op_looks fun o => ?_)
  split
  swap
  · exact .throw
  refine .look relationInfo_looks fun i => .readChild hn (i := 0) rfl (.readChild hp (i := 0) rfl ?_)
  refine .opensTwo .relational .relational hn 0 (add_zero _).symm ?_ rfl rfl
  refine .opensTwo .relational .varDefList hp ({.cell .crossApply n [left, proj]} + relation left) (by abel) ?_ rfl rfl
  refine .make crossApply_makes (defList list +
    ({.cell .crossApply n [left, proj]} + {.cell .project proj [input, list]})) (by abel) fun apply => ?_
  exact .readChild hp (i := 1) rfl (.make project_makes _ (add_assoc _ _ _).symm fun _ => .gives _ rfl)

/-- The relation that definitions are moved from, with the marker that was added to it if one was. Where one was added and
    there is still no marker, which does not occur, the input would have to be at hand as well. -/
def marked (input : NodeId) (m : Marker) : Multiset Asset :=
  relation (m.projection.getD input) +
    if m.sentinel.isNone && m.projection.isSome then relation input else 0

theorem marked_of_sentinel {m : Marker} (h : m.sentinel.isSome) : marked input m = relation (m.projection.getD input) := by
  rw [marked, if_neg (by simp [Option.isSome_iff_ne_none.mp h]), add_zero]

theorem marked_start {v : Option VarId} : marked input ⟨v, none, none⟩ = relation input := by
  simp [marked]

theorem input_le_marked {m : Marker} (h : m.sentinel = none) : relation input ≤ marked input m := by
  rw [marked, h]
  cases m.projection with
  | none => exact le_self_add
  | some q => exact le_add_self

section Move
variable {inputInfo : Info} {m : Marker} {d e : NodeId}

theorem withSentinel_agree : l.DealsIn (marked input m) (m.withSentinel input inputInfo) fun out => marked input out.1 := by
  rw [Marker.withSentinel]
  cases hs : m.sentinel with
  | some v => exact .pure rfl
  | none =>
    refine (yields_of_le (input_le_marked hs)).agree (.step internalConstant_makes.lift.agree _ (zero_add _).symm fun constant => ?_)
    refine .step computedVarDef_deals.agree _ rfl fun out => .step singleDef_makes.lift.agree _ rfl fun defs => ?_
    refine .step project_makes.lift.agree 0 (by abel) fun projection => .pure ?_
    rw [marked_of_sentinel rfl, add_zero]
    rfl

theorem covers_quiet : Quiet (m.covers e k) := by
  rw [Marker.covers]
  split
  · exact .pure
  · refine .bind (.plan tree_looks) fun _ => .bind (.plan tree_looks) fun _ => .bind (.except Tree.equivalent_spares) fun same => ?_
    split <;> exact .pure

theorem moveDef_agree : l.DealsIn (definition d + marked input m) (moveDef input inputInfo m d)
    fun out => definition out.2 + marked input out.1 := by
  refine .peek (marked input m) rfl fun cs e he => .quiet (.plan op_looks) fun o => .ite ?_ ?_
  · exact (yields_closed.frame _).agree (.pure rfl)
  · refine (yields_of_le (?_ : expr e + marked input m ≤ _)).agree ?_
    · refine add_le_add_left ?_ _
      rw [trees_eq he]
      exact le_add_left le_self_add
    · refine .step withSentinel_agree (expr e) (add_comm _ _) fun out => .quiet covers_quiet fun same => ?_
      exact .step guardDef_makes.lift.agree _ (add_comm _ _) fun _ => .pure rfl

theorem moveDefs_agree {ds : List NodeId} : l.DealsIn (all .varDef ds + marked input m) (moveDefs input inputInfo m ds)
    fun out => all .varDef out.2 + marked input out.1 := by
  induction ds generalizing m with
  | nil => exact .pure rfl
  | cons d ds ih =>
    refine .step moveDef_agree (all .varDef ds) (by rw [all_cons]; abel) fun ⟨m', d'⟩ => ?_
    exact .step ih (definition d') (by abel) fun ⟨m'', ds'⟩ => .pure (by rw [all_cons]; abel)

end Move

theorem isLoneMarker_quiet {sentinel : Option VarId} {ds : List NodeId} : Quiet (isLoneMarker sentinel ds) := by
  rw [isLoneMarker.eq_def]
  split
  · split
    · exact .pure
    · exact .bind (.plan child_looks) fun _ => .bind (.plan kind_looks) fun _ => .pure
  · exact .pure

theorem outerOverProject_concurs (hn : p.At n .outerApply [left, proj]) (hp : p.At proj .project [input, list]) :
    l.Works (some p) (relation n) .relational (outerOverProject n) := by
  refine .readChild hn (i := 1) rfl (.look op_looks fun o => ?_)
  split
  swap
  · exact .throw
  refine .readChild hp (i := 1) rfl ?_
  refine .opensTwo .relational .relational hn 0 (add_zero _).symm ?_ rfl rfl
  refine .opensTwo .relational .varDefList hp ({.cell .outerApply n [left, proj]} + relation left) (by abel) ?_ rfl rfl
  refine .make defs_makes (relation input + relation left +
    ({.cell .outerApply n [left, proj]} + {.cell .project proj [input, list]})) (by abel) fun defs => ?_
  refine .readChild hp (i := 0) rfl (.look relationInfo_looks fun inputInfo => ?_)
  refine .quiet isLoneMarker_quiet fun alone => ?_
  split
  · exact .leaves
  refine .change moveDefs_agree (relation left + ({.cell .outerApply n [left, proj]} + {.cell .project proj [input, list]}))
    (by rw [marked_start]; abel) fun out => .weaken (add_le_add_left (add_le_add_right le_self_add _) _) ?_
  refine .make (child_tree (k := .outerApply) (d := left) (ρ := .relational) rfl rfl) (all .varDef out.2 +
    relation (out.1.projection.getD input) + {.cell .project proj [input, list]}) (by abel) fun left' => ?_
  refine .make outerApply_makes (all .varDef out.2 + {.cell .project proj [input, list]}) (by abel) fun apply =>
    .look relationInfo_looks fun _ => ?_
  refine .make varDefList_makes (relation apply + {.cell .project proj [input, list]}) (by abel) fun defs' => ?_
  exact .make project_makes {.cell .project proj [input, list]} (by abel) fun _ => .gives _ rfl

end

theorem applyRules_concur : ∀ rule ∈ applyRules, l.Concurs rule rule := by
  have anything {name : String} {k : OpKind} {f : NodeId → RuleM (Option NodeId)} (hk : k.role = .relational)
      (hf : ∀ {p n left right}, p.At n k [left, right] → l.Works (some p) (relation n) .relational (f n)) :
      l.Concurs (.simple name (matching k [.wildcard, .wildcard]) f) (.simple name (matching k [.wildcard, .wildcard]) f) :=
    concurs_simple fun p n hm => by
      obtain ⟨left, right, hn, -⟩ := Pattern.holds_two hm
      exact hk ▸ hf hn
  have onto {name : String} {k k' : OpKind} {f : NodeId → RuleM (Option NodeId)} (hk : k.role = .relational)
      (hf : ∀ {p n left right a b}, p.At n k [left, right] → p.At right k' [a, b] →
        l.Works (some p) (relation n) .relational (f n)) :
      l.Concurs (.simple name (matching k [.wildcard, matching k' [.wildcard, .wildcard]]) f)
        (.simple name (matching k [.wildcard, matching k' [.wildcard, .wildcard]]) f) :=
    concurs_simple fun p n hm => by
      obtain ⟨left, right, hn, -, hr⟩ := Pattern.holds_two hm
      obtain ⟨a, b, hr, -⟩ := Pattern.holds_two hr
      exact hk ▸ hf hn hr
  have constant {name : String} {k : OpKind} : l.Concurs (.simple name (constantProjectPattern k) overConstantProject)
      (.simple name (constantProjectPattern k) overConstantProject) :=
    concurs_simple fun p n hm => by
      obtain ⟨left, proj, hn, -, hp⟩ := Pattern.holds_two hm
      obtain ⟨filter, list, hp, hf, hl⟩ := Pattern.holds_two hp
      obtain ⟨input, predicate, hf, -⟩ := Pattern.holds_two hf
      obtain ⟨definer, hl, hd⟩ := Pattern.holds_one hl
      obtain ⟨expr, hd, -⟩ := Pattern.holds_one hd
      exact overConstantProject_concurs hn hp hf hl hd
  simp only [applyRules, List.forall_mem_cons]
  refine ⟨anything rfl fun h => overAnything_concurs h fun _ => rfl, onto rfl fun h hf => overFilter_concurs h hf fun _ => rfl,
    onto rfl crossOverProject_concurs, anything rfl fun h => overAnything_concurs h fun _ => rfl, constant, constant,
    onto rfl outerOverProject_concurs, onto rfl fun h hf => overFilter_concurs h hf fun _ => rfl,
    concurs_simple fun p n hm => ?_, anything rfl fun h => intoElement_concurs h fun _ => rfl,
    anything rfl fun h => intoElement_concurs h fun _ => rfl, List.forall_mem_nil _⟩
  obtain ⟨left, join, hn, -, hj⟩ := Pattern.holds_two hm
  obtain ⟨single, right, condition, hj, -⟩ := Pattern.holds_three hj
  exact overSingleRowJoin_concurs hn hj

end Planwright.Ledger
