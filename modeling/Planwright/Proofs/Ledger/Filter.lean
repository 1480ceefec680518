import Planwright.Proofs.Rule.Remake.Join
import Planwright.Proofs.Ledger.Apply

/-! Rules that push filters, in any ledger. -/

namespace Planwright.Ledger

open Run Plan Asset Rules RuleM

variable {l : Ledger} {p : Plan} {n input predicate : NodeId} {k : OpKind} {A A₂ : Multiset Asset}
variable {name : String}

/-! ### Predicates -/

theorem splitBy_makes {columns : VarSet} :
    l.MakesIn (expr n) (splitBy n columns) fun out => maybe .scalar out.1 + maybe .scalar out.2 := by
  refine .bind (Makes.lift conjuncts_makes) fun t => .bind (Makes.lift splitByTable_makes) fun split => ?_
  refine .step (Makes.lift build_makes) (parts split.2) rfl fun a => ?_
  exact .step (Makes.lift build_makes) (maybe .scalar a) (add_comm _ _) fun b => .pure (add_comm _ _)

theorem splitPredicate_makes {columns : Option VarSet} :
    l.MakesIn ({.cell .filter n [input, predicate]} + expr predicate) (splitPredicate n columns)
      fun out => maybe .scalar out.1 + maybe .scalar out.2 := by
  refine .bind (Makes.lift (child_again (i := 1) rfl rfl)) fun q => (yields_of_le le_add_self).makesIn ?_
  cases columns with
  | some columns => exact splitBy_makes
  | none =>
    refine .quiet (.plan relationInfo_looks) fun i => ?_
    split
    · exact .pure (add_zero _).symm
    · exact .quiet (.plan child_looks) fun x => .quiet (.plan relationInfo_looks) fun j => splitBy_makes

theorem withRest_makes {rest : Option NodeId} :
    l.Makes (relation n + maybe .scalar rest) (withRest n rest) relation := by
  cases rest with
  | none => exact .pure (add_zero _)
  | some q => exact filter_makes

/-! ### Filters over one input -/

theorem overFilterFilter_concurs {inner other : NodeId} (hn : p.At n .filter [inner, predicate])
    (hi : p.At inner .filter [input, other]) : l.Works (some p) (relation n) .relational (overFilterFilter n) := by
  refine .readChild hn (i := 0) rfl (.readChild hi (i := 1) rfl (.readChild hn (i := 1) rfl ?_))
  refine .opensTwo .relational .scalar hn 0 (add_zero _).symm ?_ rfl rfl
  refine .opensTwo .relational .scalar hi ({.cell .filter n [inner, predicate]} + expr predicate) (by abel) ?_ rfl rfl
  refine .make and_makes (relation input + ({.cell .filter n [inner, predicate]} + {.cell .filter inner [input, other]}))
    (by abel) fun both => .readChild hi (i := 0) rfl ?_
  exact .make filter_makes ({.cell .filter n [inner, predicate]} + {.cell .filter inner [input, other]}) (by abel)
    fun _ => .gives _ rfl

theorem overProject_concurs {proj defs : NodeId} (hn : p.At n .filter [proj, predicate]) (hp : p.At proj .project [input, defs]) :
    l.Works (some p) (relation n) .relational (overProject n) := by
  refine .readChild hn (i := 1) rfl (.look kind_looks fun k => ?_)
  split
  · exact .leaves
  refine .look tree_looks fun shape => ?_
  split
  · exact .leaves
  refine .readChild hn (i := 0) rfl (.readChild hp (i := 1) rfl ?_)
  refine .opensTwo .relational .scalar hn 0 (add_zero _).symm ?_ rfl rfl
  refine .opensTwo .relational .varDefList hp ({.cell .filter n [proj, predicate]} + expr predicate) (by abel) ?_ rfl rfl
  refine .drop (defList defs + ({.cell .project proj [input, defs]} + relation input + expr predicate))
    {.cell .filter n [proj, predicate]} (by abel) (.sees _ _ _ rfl ?_)
  refine .step substitution?_makes _ rfl fun s? => ?_
  cases s? with
  | none => exact .leaves
  | some s =>
    refine .deal substitute_deals (defList defs + ({.cell .project proj [input, defs]} + relation input))
      (by rw [show collected (some s) = exprs s from rfl]; abel) fun moved => ?_
    refine .make (child_again (k := .project) (d := input) (ρ := .relational) rfl rfl) (exprs s + expr moved + defList defs)
      (by abel) fun c => ?_
    refine .make filter_makes (exprs s + defList defs + {.cell .project proj [c, defs]}) (by simp only [List.set]; abel)
      fun inner => ?_
    refine .readOp (k := .project) (n := proj) [c, defs] (relation inner + (exprs s + defList defs)) (by abel)
      fun op hop => ?_
    exact .make (create_makes (ρ := .relational) (A := relation inner + defList defs) hop trees_two rfl)
      (exprs s + {.cell .project proj [c, defs]}) (by abel) fun _ => .gives _ rfl

theorem overDistinct_concurs {distinct : NodeId} (hn : p.At n .filter [distinct, predicate]) (hd : p.At distinct .distinct [input]) :
    l.Works (some p) (relation n) .relational (overDistinct n) := by
  refine .opensTwo .relational .scalar hn 0 (add_zero _).symm ?_ rfl rfl
  refine .step splitPredicate_makes (relation distinct) (by abel) fun ⟨pushed?, rest⟩ => ?_
  cases pushed? with
  | none => exact .leaves
  | some pushed =>
    refine .readChild hn (i := 0) rfl (.readChild hd (i := 0) rfl ?_)
    refine .opensOne .relational hd (expr pushed + maybe .scalar rest) (by rw [maybe, add_comm]) ?_ rfl
    refine .make filter_makes ({.cell .distinct distinct [input]} + maybe .scalar rest) (by abel) fun filtered => ?_
    refine .readOp (k := .distinct) (n := distinct) [input] (relation filtered + maybe .scalar rest) (by abel) fun op hop => ?_
    refine .make (create_makes (ρ := .relational) (A := relation filtered) hop trees_one rfl) _ rfl fun out => ?_
    exact .make withRest_makes {.cell .distinct distinct [input]} (by abel) fun _ => .gives _ rfl

theorem overGroupBy_concurs {group keyDefs aggregates : NodeId} (hn : p.At n .filter [group, predicate])
    (hg : p.At group .groupBy [input, keyDefs, aggregates]) : l.Works (some p) (relation n) .relational (overGroupBy n) := by
  refine .readChild hn (i := 0) rfl ?_
  refine .opensTwo .relational .scalar hn 0 (add_zero _).symm ?_ rfl rfl
  refine .opensThree .relational .varDefList .varDefList hg ({.cell .filter n [group, predicate]} + expr predicate)
    (by abel) ?_ rfl rfl rfl
  refine .readOp (k := .groupBy) (n := group) [input, keyDefs, aggregates] (relation input +
    defList keyDefs + defList aggregates + ({.cell .filter n [group, predicate]} + expr predicate))
    (by abel) fun op hop => ?_
  split
  swap
  · exact .throw
  split
  · exact .leaves
  refine .readChild hn (i := 1) rfl (.look tree_looks fun shape => ?_)
  split
  · exact .leaves
  refine .step splitPredicate_makes ({.cell .groupBy group [input, keyDefs, aggregates]} + relation input +
    defList keyDefs + defList aggregates) (by abel) fun ⟨pushed?, rest⟩ => ?_
  cases pushed? with
  | none => exact .leaves
  | some pushed =>
    refine .readChild hg (i := 1) rfl (.sees .varDefList keyDefs ({.cell .groupBy group [input, keyDefs, aggregates]} + relation input +
      defList aggregates + expr pushed + maybe .scalar rest) (by rw [maybe]; abel) ?_)
    refine .step substitution?_makes _ rfl fun s? => ?_
    cases s? with
    | none => exact .leaves
    | some s =>
      refine .deal substitute_deals ({.cell .groupBy group [input, keyDefs, aggregates]} + relation input +
        defList keyDefs + defList aggregates + maybe .scalar rest)
        (by rw [show collected (some s) = exprs s from rfl]; abel) fun moved => ?_
      refine .make (child_again (k := .groupBy) (d := input) (ρ := .relational) rfl rfl) (exprs s + expr moved +
        defList keyDefs + defList aggregates + maybe .scalar rest) (by abel) fun c => ?_
      refine .make filter_makes ({.cell .groupBy group [c, keyDefs, aggregates]} + exprs s + defList keyDefs +
        defList aggregates + maybe .scalar rest) (by simp only [List.set]; abel) fun filtered => ?_
      refine .make (child_tree (k := .groupBy) (d := aggregates) (ρ := .varDefList) rfl rfl) (relation filtered +
        exprs s + defList keyDefs + maybe .scalar rest) (by abel) fun a => ?_
      refine .make (create_makes (ρ := .relational) (A := relation filtered + defList keyDefs + defList a)
        hop trees_three rfl) (exprs s + maybe .scalar rest) (by abel) fun out => ?_
      exact .make withRest_makes (exprs s) (by abel) fun _ => .gives _ rfl

theorem overOuterApply_concurs {apply left right : NodeId} (hn : p.At n .filter [apply, predicate])
    (ha : p.At apply .outerApply [left, right]) : l.Works (some p) (relation n) .relational (overOuterApply n) := by
  refine .readChild hn (i := 0) rfl (.readChild ha (i := 1) rfl (.look relationInfo_looks fun rightInfo => ?_))
  refine .readChild hn (i := 1) rfl (.look tree_looks fun shape => .get fun c => ?_)
  split
  · exact .leaves
  refine .readChild ha (i := 0) rfl ?_
  refine .opensTwo .relational .scalar hn 0 (add_zero _).symm ?_ rfl rfl
  refine .opensTwo .relational .relational ha ({.cell .filter n [apply, predicate]} + expr predicate) (by abel) ?_ rfl rfl
  refine .make crossApply_makes (expr predicate + ({.cell .filter n [apply, predicate]} + {.cell .outerApply apply [left, right]}))
    (by abel) fun cross => ?_
  exact .make filter_makes ({.cell .filter n [apply, predicate]} + {.cell .outerApply apply [left, right]}) (by abel)
    fun _ => .gives _ rfl

/-! ### Filters with a constant predicate -/

theorem nullDefs_agree {vs : List VarId} : l.DealsIn 0 (nullDefs vs) fun out => all .varDef out.1 := by
  induction vs with
  | nil => exact .pure rfl
  | cons v vs ih =>
    refine .quiet (.plan typeOf_looks) fun type => .bind null_makes.lift.agree fun null => ?_
    refine .bind computedVarDef_deals.agree fun ⟨d, w⟩ => .bind rename_agree fun _ => ?_
    exact .step ih (definition d) (zero_add _).symm fun ⟨ds, ws⟩ => .pure (by rw [all_cons, add_comm])

theorem isEmptied_quiet : Quiet (isEmptied n) := by
  refine .bind (.plan kind_looks) fun k => ?_
  split
  · exact .pure
  · exact .bind (.plan child_looks) fun _ => .bind (.plan kind_looks) fun _ => .pure
  · exact .pure

theorem emptied_works {defs : List NodeId} {vars : List VarId} :
    l.Works none (all .varDef defs + expr predicate) .relational (emptied predicate defs vars) := by
  refine .make singleRowTable_makes _ (zero_add _).symm fun row => ?_
  refine .make filter_makes (all .varDef defs) (by abel) fun filtered => ?_
  refine .make varDefList_makes (relation filtered) (add_comm _ _) fun list => ?_
  exact .make project_makes 0 (by abel) fun _ => .gives 0 rfl

theorem overConstantPredicate_concurs (hn : p.At n .filter [input, predicate]) :
    l.Works (some p) (relation n) .relational (overConstantPredicate n) := by
  refine .readChild hn (i := 0) rfl (.readChild hn (i := 1) rfl (.look op_looks fun o => ?_))
  split
  · exact .givesChild hn (i := 0) rfl
  refine .opensTwo .relational .scalar hn 0 (add_zero _).symm ?_ rfl rfl
  refine .drop (expr predicate) ({.cell .filter n [input, predicate]} + relation input) (by abel) ?_
  refine .quiet isEmptied_quiet fun done => ?_
  split
  · exact .leaves
  refine .look relationInfo_looks fun inputInfo => .change nullDefs_agree _ (zero_add _).symm fun out => ?_
  dsimp only
  split
  · refine .make null_makes _ (zero_add _).symm fun null => .deal computedVarDef_deals _ rfl fun d => ?_
    refine .drop (all .varDef [d.1] + expr predicate) (all .varDef out.1) ?_ emptied_works
    rw [all_cons, all_nil]
    abel
  · exact emptied_works

/-! ### Filters over set operators -/

theorem yields_sight {ρ : Role} {m : NodeId} : l.Yields {.tree ρ m} {.view ρ m} := yields_view.trans (yields_of_le le_self_add)

theorem references_makes {m : VarMap} : l.MakesIn 0 (overSetOp.references m) exprs := by
  unfold overSetOp.references
  induction m.entries with
  | nil => exact .pure rfl
  | cons e es ih =>
    rw [List.mapM_cons]
    refine .bind (B := fun x => expr x.2) (.bind (Makes.lift varRef_makes) fun _ => .pure rfl) fun x => ?_
    refine yields_sight.makesIn (.step ih {.view .scalar x.2} (zero_add _).symm fun s => .pure ?_)
    rw [add_comm]
    rfl

section Settling
variable {join left right side : NodeId} {zs : List NodeId}
variable {settle settle' : NodeId → RuleM NodeId} (hset : l.Settles settle settle')
include hset

theorem Concur.moves {b : Option Plan} {ρ : Role} {f g : NodeId → RuleM (Option NodeId)} {s : Substitution} {q x : NodeId}
    (A₂ : Multiset Asset) (hA : A = exprs s + expr q + relation x + A₂)
    (hf : ∀ m, l.Concur none (relation m + A₂) ρ (f m) (g m)) : l.Concur b A ρ
      (do
        let moved ← substitute s q
        let y ← filter x moved
        settle y >>= f)
      (do
        let moved ← substitute s q
        let y ← filter x moved
        settle' y >>= g) := by
  subst hA
  refine .deal substitute_deals (relation x + A₂) (by rw [add_assoc]) fun moved => ?_
  refine .make filter_makes (exprs s + A₂) (by abel) fun y => ?_
  refine .change (hset .relational y) (exprs s + A₂) rfl fun m => ?_
  exact .drop (relation m + A₂) (exprs s) (by abel) (hf m)

theorem overSetOp_concurs {combined : NodeId} (hn : p.At n .filter [combined, predicate])
    (hc : p.At combined k [left, right]) (hk : ∀ i, k.wants i = .relational) (hρ : k.role = .relational) :
    l.Concur (some p) (relation n) .relational (overSetOp settle n) (overSetOp settle' n) := by
  refine .opensTwo .relational .scalar hn 0 (add_zero _).symm ?_ rfl rfl
  refine .opensTwo .relational .relational hc ({.cell .filter n [combined, predicate]} + expr predicate) (by abel) ?_
    (hk 0) (hk 1)
  refine .step splitPredicate_makes ({.cell k combined [left, right]} + relation left + relation right)
    (by abel) fun ⟨pushed?, rest⟩ => ?_
  cases pushed? with
  | none => exact .leaves
  | some pushed =>
    refine .look tree_looks fun shape => ?_
    split
    · exact .leaves
    refine .readChild hn (i := 0) rfl ?_
    refine .readOp (k := k) (n := combined) [left, right] (relation left + relation right +
      (expr pushed + maybe .scalar rest)) (by rw [maybe]; abel) fun op hop => ?_
    split
    swap
    · exact .throw
    rename_i kind outputs leftMap rightMap
    refine .readChild hc (i := 0) rfl (.readChild hc (i := 1) rfl ?_)
    have finish (newLeft newRight : NodeId) : l.Works none (relation newLeft + relation newRight +
        maybe .scalar rest) .relational (do
          let out ← create (.combine kind outputs leftMap rightMap) [newLeft, newRight]
          return some (← withRest out rest)) := by
      refine .make (create_makes (ρ := .relational) (A := relation newLeft + relation newRight) hop ?_ hρ)
        _ rfl fun out => ?_
      · rw [trees_two, hk, hk]
      · exact .make withRest_makes 0 (add_zero _).symm fun _ => .gives _ rfl
    refine .step references_makes _ (zero_add _).symm fun s => ?_
    dsimp only
    split
    · refine .moves hset (relation right + maybe .scalar rest + {.cell k combined [left, right]}) (by rw [maybe]; abel)
        fun newLeft => ?_
      exact .drop _ {.cell k combined [left, right]} (by abel) (finish newLeft right)
    · refine .sees .scalar pushed (exprs s + ({.cell k combined [left, right]} + relation left +
        relation right + maybe .scalar rest)) (by rw [maybe]; abel) (.deal copyExpr_deals _ rfl fun copy => ?_)
      refine .moves hset (expr pushed + relation right + maybe .scalar rest +
        {.cell k combined [left, right]}) (by abel) fun newLeft => ?_
      refine .step references_makes _ (zero_add _).symm fun s' => ?_
      refine .moves hset (relation newLeft + maybe .scalar rest + {.cell k combined [left, right]}) (by abel) fun newRight => ?_
      exact .drop _ {.cell k combined [left, right]} (by abel) (finish newLeft newRight)

/-! ### Filters over joins -/

omit hset in
theorem splitSide_makes {definitions : VarSet} {q : Predicate} :
    l.MakesIn (parts q) (splitSide side definitions q) fun out => maybe .scalar out.1 + parts out.2 := by
  refine .quiet (.plan kind_looks) fun k => ?_
  split
  · exact .pure (zero_add _).symm
  · refine .bind (Makes.lift splitByTable_makes) fun ⟨single, other⟩ => ?_
    exact .step (Makes.lift build_makes) (parts other) rfl fun _ => .pure rfl

theorem filterSide_agree {part : Option NodeId} : l.Agree (relation side + maybe .scalar part)
    (filterSide settle side part) (filterSide settle' side part) relation := by
  cases part with
  | none => exact .pure (add_zero _)
  | some q => exact .bind (Makes.lift filter_makes).agree fun m => hset .relational m

omit hset in
theorem joinOf_makes {newLeft newRight : NodeId} {condition : Option NodeId} :
    l.Makes (maybe .scalar condition + relation newLeft + relation newRight) (joinOf newLeft newRight k condition) relation := by
  unfold joinOf
  split
  · exact (yields_of_le (by rw [add_assoc]; exact le_add_self)).makes crossJoin_makes
  · exact (yields_of_le (by rw [maybe]; exact le_of_eq (by abel))).makes innerJoin_makes
  · exact (yields_of_le (by rw [maybe]; exact le_of_eq (by abel))).makes leftOuterJoin_makes
  · exact .throw

omit hset in
theorem filterRest_works {q : Predicate} : l.Works none (relation n + parts q) .relational (filterRest n q) := by
  refine .make build_makes (relation n) (add_comm _ _) fun rest => ?_
  cases rest with
  | none => exact .gives 0 (by rw [maybe]; abel)
  | some rest =>
    refine .make filter_makes 0 (by rw [maybe]; abel) fun out => .write suppress_agree fun _ => .gives 0 rfl

section Again
variable {s : JoinSplit} {cs : List NodeId} (hk : s.kind ≠ .crossJoin → ∃ d, cs[2]? = some d ∧ k.wants 2 = .scalar)
include hk

omit hset in
theorem condition_makes : l.MakesIn ({.cell k s.join cs} + trees k 2 (cs.drop 2) + maybe .scalar s.joinPart) s.condition
    fun out => maybe .scalar out.2 := by
  have condition : s.kind ≠ .crossJoin → l.Makes ({.cell k s.join cs} + trees k 2 (cs.drop 2)) (child s.join 2) expr := by
    intro hkind
    obtain ⟨d, hd, hw⟩ := hk hkind
    refine (yields_of_le (add_le_add_right ?_ _)).makes (child_tree hd hw)
    rw [trees_eq (j := 0) (by simpa using hd), hw]
    exact le_self_add
  rw [JoinSplit.condition]
  cases s.joinPart with
  | none =>
    dsimp only
    split
    · exact (yields_of_le (Multiset.zero_le _)).makesIn (.pure rfl)
    · rename_i hkind
      exact .step (condition (by simpa using hkind)).lift 0 (by rw [maybe]) fun c => .pure (add_zero _)
  | some equal =>
    dsimp only
    split
    · exact (yields_of_le le_add_self).makesIn (.pure rfl)
    · rename_i hkind
      refine .step (condition (by simpa using hkind)).lift (expr equal) rfl fun c => ?_
      exact .bind and_makes.lift fun both => .pure rfl

omit hset in
theorem joinAgain_works {newLeft newRight : NodeId} (hs : s.changed) :
    l.Works none ({.cell k s.join cs} + trees k 2 (cs.drop 2) + relation newLeft + relation newRight +
      maybe .scalar s.joinPart + parts s.rest) .relational (joinAgain s newLeft newRight) := by
  refine .step (condition_makes hk) (relation newLeft + relation newRight + parts s.rest) (by abel) fun out => ?_
  simp only [hs, Bool.not_true, Bool.false_eq_true, if_false]
  exact .make joinOf_makes (parts s.rest) (by abel) fun join => filterRest_works

end Again

/-- A join whose predicate is split. -/
structure SplitOf (k : OpKind) (join left right : NodeId) (s : JoinSplit) : Prop where
  join : s.join = join
  left : s.left = left
  right : s.right = right
  cross : s.kind = .crossJoin ↔ k = .crossJoin

omit hset in
theorem splitJoin_works {f g : Option JoinSplit → RuleM (Option NodeId)}
    (hn : p.At n .filter [join, predicate]) (hj : p.At join k (left :: right :: zs)) (hnone : l.Concur (some p) A .relational (f none) (g none))
    (hA : A = expr predicate + A₂)
    (hsome : ∀ s, SplitOf k join left right s → l.Concur (some p) (maybe .scalar s.leftPart + maybe .scalar s.rightPart +
      maybe .scalar s.joinPart + parts s.rest + A₂) .relational (f (some s)) (g (some s))) :
    l.Concur (some p) A .relational (splitJoin n >>= f) (splitJoin n >>= g) := by
  subst hA
  unfold splitJoin
  rw [bind_assoc, bind_assoc]
  refine .get fun c => ?_
  cases c.suppressed.contains n with
  | true => simpa using hnone
  | false =>
    simp only [Bool.false_eq_true, if_false, bind_assoc]
    refine .readChild hn (i := 0) rfl (.readKind hj (.readChild hj (i := 0) rfl (.readChild hj (i := 1) rfl ?_)))
    refine .look relationInfo_looks fun leftInfo => .look relationInfo_looks fun rightInfo => .readChild hn (i := 1) rfl ?_
    refine .make conjuncts_makes _ rfl fun t => .get fun c => ?_
    generalize hrejects : (k == .leftOuterJoin && _) = rejects
    have hcross : (if rejects then OpKind.innerJoin else k) = .crossJoin ↔ k = .crossJoin := by
      cases rejects with
      | false => simp
      | true =>
        obtain ⟨hk, -⟩ := Bool.and_eq_true_iff.mp hrejects
        simp [eq_of_beq hk]
    generalize (if rejects then OpKind.innerJoin else k) = joinKind at hcross
    refine .step splitSide_makes A₂ rfl fun ⟨leftPart, q⟩ => ?_
    dsimp only
    split
    · simp only [pure_bind]
      refine .drop _ 0 ?_ (hsome ⟨joinKind, join, left, right, leftPart, none, none, q, rejects⟩ ⟨rfl, rfl, rfl, hcross⟩)
      simp only [maybe]
      abel
    · simp only [bind_assoc]
      refine .step splitSide_makes (maybe .scalar leftPart + A₂) (by abel) fun ⟨rightPart, q⟩ => ?_
      simp only [pure_bind]
      rw [parts_of_perm (splitByJoin_perm leftInfo.definitions rightInfo.definitions q.parts)]
      refine .make build_makes (maybe .scalar leftPart + maybe .scalar rightPart +
        parts (q.splitByJoin leftInfo.definitions rightInfo.definitions).2 + A₂) (by abel) fun joinPart => ?_
      refine .drop _ 0 ?_ (hsome ⟨joinKind, join, left, right, leftPart, rightPart, joinPart, _, rejects⟩ ⟨rfl, rfl, rfl, hcross⟩)
      dsimp only
      abel

theorem overJoin_concurs (hn : p.At n .filter [join, predicate])
    (hj : p.At join k (left :: right :: zs)) (hk : k.wants 0 = .relational ∧ k.wants 1 = .relational)
    (hcondition : k ≠ .crossJoin → (∃ d, zs = [d]) ∧ k.wants 2 = .scalar) :
    l.Concur (some p) (relation n) .relational (overJoin settle n) (overJoin settle' n) := by
  refine .opensTwo .relational .scalar hn 0 (add_zero _).symm ?_ rfl rfl
  refine .opens hj ({.cell .filter n [join, predicate]} + expr predicate) (by abel) ?_
  refine .drop (expr predicate + ({.cell k join (left :: right :: zs)} + trees k 2 zs + relation left +
    relation right)) {.cell .filter n [join, predicate]} (by simp only [trees, hk]; abel) ?_
  refine splitJoin_works hn hj .leaves rfl fun s hs => ?_
  obtain ⟨rfl, rfl, rfl, hcross⟩ := hs
  have hkind : s.kind ≠ .crossJoin → ∃ d, (s.left :: s.right :: zs)[2]? = some d ∧ k.wants 2 = .scalar := fun h => by
    obtain ⟨⟨d, rfl⟩, hw⟩ := hcondition (mt hcross.mpr h)
    exact ⟨d, rfl, hw⟩
  by_cases hs : s.changed = true
  · refine .change (filterSide_agree hset) ({.cell k s.join (s.left :: s.right :: zs)} + trees k 2 zs + relation s.right +
      maybe .scalar s.rightPart + maybe .scalar s.joinPart + parts s.rest) (by abel) fun newLeft => ?_
    refine .change (filterSide_agree hset) ({.cell k s.join (s.left :: s.right :: zs)} + trees k 2 zs + relation newLeft +
      maybe .scalar s.joinPart + parts s.rest) (by abel) fun newRight => ?_
    exact .drop _ 0 (by simp only [List.drop]; abel) (joinAgain_works hkind hs)
  · -- Nothing is split off, so that nothing is settled.
    obtain ⟨⟨⟨-, hleft⟩, hright⟩, hpart⟩ : ((s.rejects = false ∧ s.leftPart = none) ∧ s.rightPart = none) ∧ s.joinPart = none := by
      simpa [JoinSplit.changed] using hs
    dsimp only
    simp only [hleft, hright, filterSide, joinAgain, pure_bind, Bool.eq_false_iff.mpr hs, Bool.not_false, if_true]
    exact .step (condition_makes hkind) (parts s.rest + relation s.left + relation s.right)
      (by simp only [hpart, maybe, List.drop]; abel) fun _ => .leaves

end Settling

/-! ### All of them -/

theorem filterWithConstantPredicate_concurs : l.Concurs filterWithConstantPredicate filterWithConstantPredicate :=
  concurs_simple fun _ _ hm => by
    obtain ⟨input, predicate, hn, -⟩ := Pattern.holds_two hm
    exact overConstantPredicate_concurs hn

theorem filterOverJoin_concurs (hw : k.wants 0 = .relational ∧ k.wants 1 = .relational ∧ k.wants 2 = .scalar) :
    l.Concurs ⟨name, filterPattern k 3, overJoin⟩ ⟨name, filterPattern k 3, overJoin⟩ :=
  concurs_matching fun hset hm => by
    obtain ⟨join, predicate, hn, hj, -⟩ := Pattern.holds_two hm
    obtain ⟨left, right, condition, hj, -⟩ := Pattern.holds_three hj
    exact overJoin_concurs hset hn hj ⟨hw.1, hw.2.1⟩ fun _ => ⟨⟨condition, rfl⟩, hw.2.2⟩

theorem filterOverCrossJoin_concurs : l.Concurs filterOverCrossJoin filterOverCrossJoin :=
  concurs_matching fun hset hm => by
    obtain ⟨join, predicate, hn, hj, -⟩ := Pattern.holds_two hm
    obtain ⟨left, right, hj, -⟩ := Pattern.holds_two hj
    exact overJoin_concurs hset hn hj ⟨rfl, rfl⟩ fun h => absurd rfl h

theorem filterOverSetOp_concurs (hk : ∀ i, k.wants i = .relational) (hρ : k.role = .relational) :
    l.Concurs ⟨name, filterPattern k 2, overSetOp⟩ ⟨name, filterPattern k 2, overSetOp⟩ :=
  concurs_matching fun hset hm => by
    obtain ⟨combined, predicate, hn, hc, -⟩ := Pattern.holds_two hm
    obtain ⟨left, right, hc, -⟩ := Pattern.holds_two hc
    exact overSetOp_concurs hset hn hc hk hρ

theorem filterOverTwo_concurs {f : NodeId → RuleM (Option NodeId)}
    (hf : ∀ {p n x predicate a b}, p.At n .filter [x, predicate] → p.At x k [a, b] →
      l.Works (some p) (relation n) .relational (f n)) :
    l.Concurs (.simple name (filterPattern k 2) f) (.simple name (filterPattern k 2) f) :=
  concurs_simple fun _ _ hm => by
    obtain ⟨x, predicate, hn, hx, -⟩ := Pattern.holds_two hm
    obtain ⟨a, b, hx, -⟩ := Pattern.holds_two hx
    exact hf hn hx

theorem filterOverDistinct_concurs : l.Concurs filterOverDistinct filterOverDistinct :=
  concurs_simple fun _ _ hm => by
    obtain ⟨x, predicate, hn, hx, -⟩ := Pattern.holds_two hm
    obtain ⟨input, hx, -⟩ := Pattern.holds_one hx
    exact overDistinct_concurs hn hx

theorem filterOverGroupBy_concurs : l.Concurs filterOverGroupBy filterOverGroupBy :=
  concurs_simple fun _ _ hm => by
    obtain ⟨group, predicate, hn, hg, -⟩ := Pattern.holds_two hm
    obtain ⟨input, keyDefs, aggregates, hg, -⟩ := Pattern.holds_three hg
    exact overGroupBy_concurs hn hg

theorem filterRules_concur : ∀ rule ∈ filterRules, l.Concurs rule rule := by
  simp only [filterRules, List.forall_mem_cons]
  exact ⟨filterWithConstantPredicate_concurs, filterOverCrossJoin_concurs, filterOverDistinct_concurs,
    filterOverSetOp_concurs (fun _ => rfl) rfl, filterOverTwo_concurs overFilterFilter_concurs, filterOverGroupBy_concurs,
    filterOverJoin_concurs ⟨rfl, rfl, rfl⟩, filterOverSetOp_concurs (fun _ => rfl) rfl, filterOverJoin_concurs ⟨rfl, rfl, rfl⟩,
    filterOverTwo_concurs overProject_concurs, filterOverSetOp_concurs (fun _ => rfl) rfl,
    filterOverTwo_concurs overOuterApply_concurs, List.forall_mem_nil _⟩

theorem rules_concur (group : RuleGroup) : ∀ rule ∈ group.rules, l.Concurs rule rule := by
  intro rule hr
  rcases RuleGroup.mem_rules hr with hr | hr | hr | hr | hr
  · exact applyRules_concur rule hr
  · exact filterRules_concur rule hr
  · exact projectRules_concur rule hr
  · exact scalarRules_concur rule hr
  · exact distinctRules_concur rule hr

end Planwright.Ledger
