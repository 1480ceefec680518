import Planwright.Proofs.Analysis.NonNull
import Planwright.Proofs.Semantics.Likeness

/-! Places in a tree. A place is the list of child indexes that leads to it from the top. A part of a tree is evaluated
    for rows that the operators above it make of the row the tree is evaluated for and of the rows of their inputs. -/

namespace Planwright

namespace Op

variable {op : Op}

theorem isRelational_of_goesByRow (h : op.goesByRow) : op.kind.isRelational := by
  cases op <;> first | rfl | cases h

theorem isRelational_of_goesByPair (h : op.goesByPair) : op.kind.isRelational := by
  cases op <;> first | rfl | cases h

end Op

namespace Tree

variable (I : Interpretation) (db : Database)

/-- A node that is evaluated for a row, and within a group of rows, evaluates one of its children for a row, and within a
    group. -/
inductive Enters : Tree → Nat → Row → List Row → Row → List Row → Prop
  | input {id : NodeId} {op : Op} {cs : List Tree} {i : Nat} {env : Row} {group : List Row} :
      op.kind.isRelational = true → (∀ j, op.sees i j = false) → Enters (node id op cs) i env group env []
  | row {id : NodeId} {op : Op} {x : Tree} {cs : List Tree} {env r : Row} {group : List Row} :
      op.goesByRow = true → r ∈ x.rows I db env → Enters (node id op (x :: cs)) 1 env group (env.merge r) []
  | pair {id : NodeId} {op : Op} {x y : Tree} {cs : List Tree} {env l r : Row} {group : List Row} :
      op.goesByPair = true → l ∈ x.rows I db env → r ∈ y.rows I db env →
        Enters (node id op (x :: y :: cs)) 2 env group (env.merge (l.merge r)) []
  | rows {id : NodeId} {keys outputs : VarSet} {x k : Tree} {cs : List Tree} {env : Row} {group rows : List Row} :
      rows ∈ Row.groups I.mark keys
        ((x.rows I db env).map fun r => r.merge ((k.meaning I db).bindings (env.merge r) [])) →
        Enters (node id (.groupBy keys outputs) (x :: k :: cs)) 2 env group
          ((env.without (x.meaning I db).columns).merge (rows.headD .empty))
          (rows.map (env.without (x.meaning I db).columns).merge)
  | count {id : NodeId} {keys : List SortKey} {x : Tree} {cs : List Tree} {i : Nat} {env : Row} {group : List Row} :
      Enters (node id (.constrainedSort keys) (x :: cs)) (i + 1) env group (env.without (x.meaning I db).columns) []
  | operand {id : NodeId} {op : Op} {cs : List Tree} {i : Nat} {env : Row} {group : List Row} :
      op.kind.isRelational = false → op.kind ≠ .aggregate → Enters (node id op cs) i env group env group
  | aggregated {id : NodeId} {name : String} {type : ScalarType} {cs : List Tree} {i : Nat} {env r : Row}
      {group : List Row} : r ∈ group → Enters (node id (.aggregate name type) cs) i env group r []

/-- A tree that is evaluated for a row, and within a group of rows, evaluates the part at a place for a row, and within a
    group. -/
inductive Evaluates : Tree → List Nat → Row → List Row → Row → List Row → Prop
  | here {t : Tree} {env : Row} {group : List Row} : Evaluates t [] env group env group
  | child {id : NodeId} {op : Op} {cs : List Tree} {i : Nat} {c : Tree} {path : List Nat} {env env₁ env' : Row}
      {group group₁ group' : List Row} : cs[i]? = some c → Enters I db (node id op cs) i env group env₁ group₁ →
        Evaluates c path env₁ group₁ env' group' → Evaluates (node id op cs) (i :: path) env group env' group'

/-- The part at a place sees what an input defines. -/
inductive Sees : Tree → List Nat → Tree → Prop
  | here {id : NodeId} {op : Op} {cs : List Tree} {i j : Nat} {c d : Tree} {path : List Nat} :
      cs[i]? = some c → cs[j]? = some d → op.sees i j = true → Sees (node id op cs) (i :: path) d
  | child {id : NodeId} {op : Op} {cs : List Tree} {i : Nat} {c d : Tree} {path : List Nat} :
      cs[i]? = some c → Sees c path d → Sees (node id op cs) (i :: path) d

/-- The place is an operand of an aggregate over the group of the expression. -/
inductive Aggregated : Tree → List Nat → Prop
  | here {id : NodeId} {name : String} {type : ScalarType} {cs : List Tree} {i : Nat} {path : List Nat} :
      Aggregated (node id (.aggregate name type) cs) (i :: path)
  | child {id : NodeId} {op : Op} {cs : List Tree} {i : Nat} {c : Tree} {path : List Nat} :
      op.kind.isRelational = false → cs[i]? = some c → Aggregated c path → Aggregated (node id op cs) (i :: path)

/-- The part at a place sees what an input defines but may have no row of it: in the counts of a sort and, but for the
    operands of aggregates, in the aggregates of a grouping without keys. -/
inductive Lacks : Tree → List Nat → Tree → Prop
  | count {id : NodeId} {keys : List SortKey} {d : Tree} {cs : List Tree} {i : Nat} {path : List Nat} :
      Lacks (node id (.constrainedSort keys) (d :: cs)) ((i + 1) :: path) d
  | rows {id : NodeId} {keys outputs : VarSet} {d k a : Tree} {path : List Nat} :
      keys.isEmpty = true → ¬Aggregated a path → Lacks (node id (.groupBy keys outputs) [d, k, a]) (2 :: path) d
  | child {id : NodeId} {op : Op} {cs : List Tree} {i : Nat} {c d : Tree} {path : List Nat} :
      cs[i]? = some c → Lacks c path d → Lacks (node id op cs) (i :: path) d

variable {I db} {t c d : Tree} {path : List Nat} {v : VarId} {env env' : Row} {group group' : List Row}

/-! ### What is kept on the way down -/

theorem mem_of_mem_groups {mark : Value → Value} {keys : VarSet} {rows group : List Row} (hg : group ∈ Row.groups mark keys rows)
    {r : Row} (hr : r ∈ group) : r ∈ rows := by
  rw [Row.groups] at hg
  split at hg
  · rwa [List.mem_singleton.mp hg] at hr
  · obtain ⟨s, -, rfl⟩ := List.mem_map.mp hg
    exact (List.mem_filter.mp hr).1

section Kept
variable {x : Tree} {outer r : Row}

theorem merge_row (hx : x.wellFormed) (hb : Backed (·) x) (hv : v ∉ x.binds) (hr : r ∈ x.rows I db outer) :
    env.merge r v = env v := by
  rw [Row.merge_apply, (row_within hx hb hr).eq_none hv, Option.none_or]

theorem without_columns (hx : x.wellFormed) (hrel : x.IsRelational) (hb : Backed (·) x) (hv : v ∉ x.binds) :
    env.without (x.meaning I db).columns v = env v := by
  rw [Row.without_apply, if_neg fun hc => hv (columns_mem_binds hx hrel hb v hc)]

theorem eq_of_mem_grouped {k : Tree} (hk : k.wellFormed) (hkind : k.kind = .varDefList) (hv : v ∉ k.binds) {s : Row}
    (hs : s ∈ (x.rows I db env).map fun r => r.merge ((k.meaning I db).bindings (env.merge r) [])) :
    ∃ r ∈ x.rows I db env, s v = r v := by
  obtain ⟨r, hr, rfl⟩ := List.mem_map.mp hs
  refine ⟨r, hr, ?_⟩
  rw [Row.merge_apply, (within_bindings hk hkind _ _).eq_none hv, Option.none_or]

end Kept

theorem Enters.keeps {i : Nat} (h : Enters I db t i env group env' group') (ht : t.wellFormed) (hb : Backed (·) t)
    (hv : v ∉ t.binds) {P : Option Value → Prop} (henv : P (env v)) (hgroup : ∀ r ∈ group, P (r v)) :
    P (env' v) ∧ ∀ r ∈ group', P (r v) := by
  have hwf : ∀ c ∈ t.children, c.wellFormed := by
    obtain ⟨id, op, cs⟩ := t
    exact (wellFormed_node.mp ht).2
  have hbacked : ∀ c ∈ t.children, Backed (·) c := by
    obtain ⟨id, op, cs⟩ := t
    exact (backed_node.mp hb).2
  have hbinds : ∀ c ∈ t.children, v ∉ c.binds := by
    obtain ⟨id, op, cs⟩ := t
    exact fun c hc hvc => hv (mem_binds_of_mem hc hvc)
  have alone : ∀ e : Row, P (e v) → P (e v) ∧ ∀ r ∈ ([] : List Row), P (r v) := fun _ he => ⟨he, List.forall_mem_nil _⟩
  cases h with
  | input => exact alone env henv
  | @row id op x cs _ r _ _ hr =>
    refine alone _ ?_
    rwa [merge_row (hwf x (by simp)) (hbacked x (by simp)) (hbinds x (by simp)) hr]
  | @pair id op x y cs _ l r _ _ hl hr =>
    refine alone _ ?_
    have hl' : env.merge l v = env v := merge_row (hwf x (by simp)) (hbacked x (by simp)) (hbinds x (by simp)) hl
    have hr' : l.merge r v = l v := merge_row (hwf y (by simp)) (hbacked y (by simp)) (hbinds y (by simp)) hr
    rwa [Row.merge_apply, hr', ← Row.merge_apply, hl']
  | @rows id keys outputs x k cs _ _ rows hg =>
    cases shape_of_fits (wellFormed_node.mp ht).1 with
    | scalar hs => cases hs
    | groupBy _ _ hx hk =>
      have houter : env.without (x.meaning I db).columns v = env v :=
        without_columns (hwf x (by simp)) hx (hbacked x (by simp)) (hbinds x (by simp))
      have hrows : ∀ s ∈ rows, s v = none := by
        intro s hs
        obtain ⟨r, hr, heq⟩ := eq_of_mem_grouped (hwf k (by simp)) hk (hbinds k (by simp)) (mem_of_mem_groups hg hs)
        exact heq.trans ((row_within (hwf x (by simp)) (hbacked x (by simp)) hr).eq_none (hbinds x (by simp)))
      have hfirst : rows.headD .empty v = none := by
        cases rows with
        | nil => rfl
        | cons s rows => exact hrows s List.mem_cons_self
      refine ⟨by rwa [Row.merge_apply, hfirst, Option.none_or, houter], fun s hs => ?_⟩
      obtain ⟨r, hr, rfl⟩ := List.mem_map.mp hs
      rwa [Row.merge_apply, hrows r hr, Option.none_or, houter]
  | @count id keys x cs i =>
    refine alone _ ?_
    cases shape_of_fits (wellFormed_node.mp ht).1 with
    | constrainedSort _ hx => rwa [without_columns (hwf x (by simp)) hx (hbacked x (by simp)) (hbinds x (by simp))]
    | scalar hs => cases hs
  | operand => exact ⟨henv, hgroup⟩
  | aggregated hr => exact alone _ (hgroup _ hr)

theorem Evaluates.keeps (h : Evaluates I db t path env group env' group') (ht : t.wellFormed) (hb : Backed (·) t)
    (hv : v ∉ t.binds) {P : Option Value → Prop} (henv : P (env v)) (hgroup : ∀ r ∈ group, P (r v)) : P (env' v) := by
  induction h with
  | here => exact henv
  | child hc hent _ ih =>
    have hmem := List.mem_of_getElem? hc
    obtain ⟨henv₁, hgroup₁⟩ := hent.keeps ht hb hv henv hgroup
    exact ih ((wellFormed_node.mp ht).2 _ hmem) ((backed_node.mp hb).2 _ hmem) (fun hvc => hv (mem_binds_of_mem hmem hvc))
      henv₁ hgroup₁

/-- An aggregate evaluates its operands for the rows of the group, other expressions and definitions for what they are evaluated
    for themselves. -/
theorem Enters.of_not_isRelational {id : NodeId} {op : Op} {cs : List Tree} {i : Nat} (hop : op.kind.isRelational = false)
    (h : Enters I db (node id op cs) i env group env' group') :
    op.kind ≠ .aggregate ∧ env' = env ∧ group' = group ∨ env' ∈ group ∧ group' = [] := by
  cases h with
  | input hrel => exact absurd hrel (by simp [hop])
  | row hby => exact absurd (Op.isRelational_of_goesByRow hby) (by simp [hop])
  | pair hby => exact absurd (Op.isRelational_of_goesByPair hby) (by simp [hop])
  | rows | count => cases hop
  | operand _ hne => exact .inl ⟨hne, rfl, rfl⟩
  | aggregated hr => exact .inr ⟨hr, rfl⟩

/-- The operands of aggregates see what all rows of the group have in common. -/
theorem Evaluates.keeps_of_aggregated (ha : Aggregated t path) (h : Evaluates I db t path env group env' group')
    (ht : t.wellFormed) (hb : Backed (·) t) (hv : v ∉ t.binds) {P : Option Value → Prop} (hgroup : ∀ r ∈ group, P (r v)) :
    P (env' v) := by
  -- Below an aggregate over the group the operand is evaluated for one of its rows.
  have operand : ∀ {id op cs c path r} {i : Nat}, (node id op cs).wellFormed → Backed (·) (node id op cs) →
      v ∉ (node id op cs).binds → cs[i]? = some c → r ∈ group → Evaluates I db c path r [] env' group' → P (env' v) := by
    intro id op cs c path r i ht hb hv hc hr hrest
    have hmem := List.mem_of_getElem? hc
    exact hrest.keeps ((wellFormed_node.mp ht).2 _ hmem) ((backed_node.mp hb).2 _ hmem)
      (fun hvc => hv (mem_binds_of_mem hmem hvc)) (hgroup r hr) (List.forall_mem_nil _)
  induction ha with
  | here =>
    cases h with
    | child hc hent hrest =>
      rcases hent.of_not_isRelational rfl with ⟨hne, -⟩ | ⟨hr, rfl⟩
      · exact absurd rfl hne
      · exact operand ht hb hv hc hr hrest
  | child hop hc' _ ih =>
    cases h with
    | child hc hent hrest =>
      cases hc.symm.trans hc'
      have hmem := List.mem_of_getElem? hc
      rcases hent.of_not_isRelational hop with ⟨-, rfl, rfl⟩ | ⟨hr, rfl⟩
      · exact ih hrest ((wellFormed_node.mp ht).2 _ hmem) ((backed_node.mp hb).2 _ hmem) fun hvc => hv (mem_binds_of_mem hmem hvc)
      · exact operand ht hb hv hc hr hrest

/-! ### What a place sees -/

theorem Sees.mem_subtrees (h : Sees t path d) : d ∈ t.subtrees := by
  induction h with
  | @here _ _ _ _ _ _ d _ _ hd =>
    refine mem_subtrees_of_mem (List.mem_of_getElem? hd) ?_
    cases d
    simp
  | child hc _ ih => exact mem_subtrees_of_mem (List.mem_of_getElem? hc) ih

theorem Sees.isRelational (h : Sees t path d) (ht : t.wellFormed) : d.IsRelational := by
  induction h with
  | child hc _ ih => exact ih ((wellFormed_node.mp ht).2 _ (List.mem_of_getElem? hc))
  | @here id op cs i j c d path _ hd hsees =>
    cases shape_of_fits (wellFormed_node.mp ht).1 with
    | filter h | project _ h | groupBy _ _ h | constrainedSort _ h | crossApply h | outerApply h =>
      obtain rfl : j = 0 := by simp at hsees; exact hsees.1
      cases hd
      exact h
    | innerJoin hl hr | leftOuterJoin hl hr =>
      obtain ⟨-, rfl | rfl⟩ : i = 2 ∧ (j = 0 ∨ j = 1) := by simpa using hsees
      · cases hd
        exact hl
      · cases hd
        exact hr
    | scalar hs => exact absurd (Op.isRelational_of_sees hsees) (not_isRelational_of_isScalar hs)
    | _ => cases hsees

variable (I db) in
/-- A row of the relation has this for the variable. -/
def Supplies (d : Tree) (v : VarId) (x : Option Value) : Prop := ∃ outer, ∃ r ∈ d.rows I db outer, x = r v

theorem supplies_merge {outer r s : Row} (hr : r ∈ d.rows I db outer) (hs : s v = r v) (hne : r v ≠ none) :
    Supplies I db d v (env.merge s v) := by
  refine ⟨outer, r, hr, ?_⟩
  obtain ⟨x, hx⟩ := Option.ne_none_iff_exists'.mp hne
  rw [Row.merge_apply, hs, hx, Option.some_or]

/-- A child that sees what an input defines is evaluated for a row of the input, or for none where it may lack it; the
    rows of its group are such rows. -/
theorem Enters.of_sees {id : NodeId} {op : Op} {cs : List Tree} {i j : Nat}
    (h : Enters I db (node id op cs) i env group env' group') (ht : (node id op cs).wellFormed)
    (hb : Backed (·) (node id op cs)) (hd : (node id op cs).binds.Nodup) (hc : cs[i]? = some c) (hdj : cs[j]? = some d)
    (hsees : op.sees i j = true) (hv : Defines (·) d v) : (∀ r ∈ group', Supplies I db d v (r v)) ∧
      (Supplies I db d v (env' v) ∨
        env' v = none ∧ ∀ path, ¬Aggregated c path → Lacks (node id op cs) (i :: path) d) := by
  obtain ⟨hf, hwf⟩ := wellFormed_node.mp ht
  obtain ⟨-, hbacked⟩ := backed_node.mp hb
  have hmem := List.mem_of_getElem? hdj
  have bound : ∀ {outer r}, r ∈ d.rows I db outer → r v ≠ none := fun hr =>
    row_ne_none (hwf d hmem) (hbacked d hmem) hr hv
  have hvd : v ∈ d.binds := (hbacked d hmem).mem_binds hv
  cases h with
  | input _ hno => exact absurd hsees (by rw [hno j]; decide)
  | @row id op x cs _ r _ hby hr =>
    obtain rfl : j = 0 := by
      have := sees_lt hsees
      omega
    cases hdj
    exact ⟨List.forall_mem_nil _, .inl (supplies_merge hr rfl (bound hr))⟩
  | @pair id op x y cs _ l r _ hby hl hr =>
    refine ⟨List.forall_mem_nil _, .inl ?_⟩
    have hr' := row_within (hwf y (by simp)) (hbacked y (by simp)) hr
    match j, hdj, sees_lt hsees with
    | 0, hdj, _ =>
      cases hdj
      -- The right row says nothing of what the left side defines.
      have hnone : r v = none := hr'.eq_none (apart_of_nodup hd v hvd)
      exact supplies_merge hl (by simp [hnone]) (bound hl)
    | 1, hdj, _ =>
      cases hdj
      obtain ⟨a, ha⟩ := Option.ne_none_iff_exists'.mp (bound hr)
      exact supplies_merge hr (by simp [ha]) (bound hr)
  | @rows id keys outputs x k cs _ _ rows hg =>
    obtain rfl : j = 0 := by
      simpa using hsees
    cases hdj
    cases shape_of_fits hf with
    | scalar hs => cases hs
    | @groupBy _ _ _ _ a hx hk ha =>
      cases hc
      have supplied : ∀ s ∈ (d.rows I db env).map fun r => r.merge ((k.meaning I db).bindings (env.merge r) []),
          Supplies I db d v ((env.without (d.meaning I db).columns).merge s v) := by
        intro s hs
        obtain ⟨r, hr, heq⟩ := eq_of_mem_grouped (hwf k (by simp)) hk (apart_of_nodup hd v hvd) hs
        exact supplies_merge hr heq (bound hr)
      refine ⟨fun s hs => ?_, ?_⟩
      · obtain ⟨s', hs', rfl⟩ := List.mem_map.mp hs
        exact supplied s' (mem_of_mem_groups hg hs')
      · cases hkeys : keys.isEmpty with
        | false => exact .inl (supplied _ (head_mem_of_groups hg hkeys))
        | true =>
          cases rows with
          | cons s rows => exact .inl (supplied s (mem_of_mem_groups hg List.mem_cons_self))
          | nil =>
            refine .inr ⟨?_, fun path ha => .rows hkeys ha⟩
            rw [Row.merge_apply, Row.without_apply, if_pos ((mem_columns (hwf d (by simp)) hx).mpr hv)]
            rfl
  | @count id keys x cs i =>
    obtain rfl : j = 0 := by
      simpa using hsees
    cases hdj
    cases shape_of_fits hf with
    | scalar hs => cases hs
    | constrainedSort _ hx =>
      refine ⟨List.forall_mem_nil _, .inr ⟨?_, fun path _ => .count⟩⟩
      rw [Row.without_apply, if_pos ((mem_columns (hwf d (by simp)) hx).mpr hv)]
  | operand hop => exact absurd (Op.isRelational_of_sees hsees) (by simp [hop])
  | aggregated => cases hsees

/-- What a part sees it has from a row of the input that defines it, unless it may lack such a row and has nothing. -/
theorem Evaluates.of_sees (hs : Sees t path d) (h : Evaluates I db t path env group env' group') (ht : t.wellFormed)
    (hb : Backed (·) t) (hd : t.binds.Nodup) (hv : Defines (·) d v) :
    Supplies I db d v (env' v) ∨ Lacks t path d ∧ env' v = none := by
  induction hs generalizing env group with
  | child hc' _ ih =>
    cases h with
    | child hc hent hrest =>
      cases hc.symm.trans hc'
      have hmem := List.mem_of_getElem? hc
      exact (ih hrest ((wellFormed_node.mp ht).2 _ hmem) ((backed_node.mp hb).2 _ hmem) ((nodup_binds_node.mp hd).2.1 _ hmem)
        hv).imp_right fun ⟨hlacks, hnone⟩ => ⟨.child hc hlacks, hnone⟩
  | @here id op cs i j c d path hc' hdj hsees =>
    cases h with
    | @child _ _ _ _ _ _ _ env₁ _ _ group₁ _ hc hent hrest =>
      cases hc'.symm.trans hc
      have hmem := List.mem_of_getElem? hc
      have hwf := (wellFormed_node.mp ht).2 c hmem
      have hbacked := (backed_node.mp hb).2 c hmem
      have hvc : v ∉ c.binds := by
        intro hvc
        have hvd := ((backed_node.mp hb).2 d (List.mem_of_getElem? hdj)).mem_binds hv
        exact Nat.ne_of_gt (sees_lt hsees) (eq_of_mem_binds hd hc hdj hvc hvd)
      obtain ⟨hgroup, henv | ⟨hnone, hlacks⟩⟩ := hent.of_sees ht hb hd hc hdj hsees hv
      · exact .inl (hrest.keeps hwf hbacked hvc henv hgroup)
      · by_cases ha : Aggregated c path
        · exact .inl (hrest.keeps_of_aggregated ha hwf hbacked hvc hgroup)
        · have heither := hrest.keeps (P := fun x => Supplies I db d v x ∨ x = none) hwf hbacked hvc (.inr hnone)
            fun r hr => .inl (hgroup r hr)
          exact heither.imp_right fun h => ⟨hlacks path ha, h⟩

end Tree

end Planwright
