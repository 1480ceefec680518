import Planwright.Proofs.Plan.Conjunction
import Planwright.Proofs.Semantics.Meaning

/-! Nulls in predicates. Engines differ in what a comparison or a pattern gives for a null, so that these
    operators are read here in whatever way is given. A predicate that does not preserve nulls is not true where
    the columns are null: under any reading if it asks a column to be not null, and under those that pass nulls
    on if it compares or matches one. -/

namespace Planwright

namespace Value

theorem holds_connected_false (a b : Value) : (a.connected false b).holds = (a.holds && b.holds) := by
  rw [connected]
  split
  · rename_i h
    rcases Bool.or_eq_true_iff.mp h with h | h <;> simp_all [holds]
  · split
    · rename_i h
      rcases Bool.or_eq_true_iff.mp h with h | h <;> simp [isNull_iff.mp h, holds]
    · simp_all [holds]

theorem holds_compared_null {k : OpKind} {a b : Value} (h : a = .null ∨ b = .null) : (a.compared k b).holds = false := by
  rcases h with rfl | rfl <;> simp [compared, isNull, holds]

end Value

/-- No null matches a pattern. -/
def Interpretation.RejectsNull (I : Interpretation) : Prop :=
  ∀ type rest, (I.scalar .like type (.null :: rest)).holds = false

namespace Reading

/-- A null that is compared, or matched, or matched against, gives null. -/
def PassesNull (C : Reading) : Prop :=
  ∀ kind type a b rest, kind.isTest = true → a = .null ∨ b = .null → C kind type (a :: b :: rest) = .null

/-- Nothing that is compared with a null, and no null that is matched, gives true. -/
def RejectsNull (C : Reading) : Prop :=
  (∀ kind type a b, kind.kind.isComparison = true → a = .null ∨ b = .null → (C kind type [a, b]).holds = false) ∧
    ∀ type a rest, (C .like type (.null :: a :: rest)).holds = false

theorem PassesNull.rejectsNull {C : Reading} (h : C.PassesNull) : C.RejectsNull := by
  constructor
  · intro kind type a b hk hab
    rw [h kind type a b [] (by rw [ScalarKind.isTest, hk, Bool.true_or]) hab]
    rfl
  · intro type a rest
    rw [h .like type .null a rest rfl (.inl rfl)]
    rfl

end Reading

namespace Interpretation

variable {I : Interpretation}

theorem RejectsNull.reading (h : I.RejectsNull) : I.reading.RejectsNull := by
  constructor
  · intro kind type a b hk hab
    have hvalue : I.reading kind type [a, b] = a.compared kind.kind b := by simp only [Interpretation.reading, hk]
    rw [hvalue]
    exact Value.holds_compared_null hab
  · intro type a rest
    exact h type (a :: rest)

end Interpretation

namespace Tree

variable {C : Reading} {I : Interpretation} {db : Database}
variable {columns : VarSet} {ansi : Bool} {q d : Tree} {env : Row} {group : List Row}

theorem holds_eq_all_conjuncts (q : Tree) (env : Row) (group : List Row) : ((q.meaningUnder C I db).value env group).holds =
    q.conjuncts.all fun d => ((d.meaningUnder C I db).value env group).holds := by
  fun_induction conjuncts q with
  | case1 id type a b iha ihb =>
    rw [List.all_append, ← iha, ← ihb, meaningUnder_node]
    exact Value.holds_connected_false _ _
  | case2 q => simp

theorem wellFormed_of_mem_conjuncts (hwf : q.wellFormed) : ∀ d ∈ q.conjuncts, d.wellFormed := by
  refine forall_conjuncts (P := fun d => d.wellFormed = true) (fun h => ?_) hwf
  have hwfs := (wellFormed_node.mp h).2
  exact ⟨hwfs _ (by simp), hwfs _ (by simp)⟩

theorem length_of_wellFormed {id : NodeId} {kind : ScalarKind} {type : ScalarType} {cs : List Tree} {n : Nat}
    (hwf : (node id (.scalar kind type) cs).wellFormed) (hn : kind.kind.arity? = some n) : cs.length = n :=
  length_eq_of_admits hn (admits_of_wellFormed hwf)

theorem value_of_refersTo {e : Tree} (h : e.refersTo columns = true) (hnull : ∀ v ∈ columns, env.read v = .null) :
    (e.meaningUnder C I db).value env group = .null := by
  obtain ⟨id, op, cs⟩ := e
  cases op with
  | varRef v type => exact hnull v h
  | _ => cases h

theorem not_holds_of_admitsNulls (hC : ansi = true → C.RejectsNull) (hwf : d.wellFormed)
    (h : d.admitsNulls columns ansi = false) (hnull : ∀ v ∈ columns, env.read v = .null) :
    ((d.meaningUnder C I db).value env group).holds = false := by
  revert h
  fun_cases admitsNulls columns ansi d with
  | case1 id type id' type' x rest rest' =>
    intro h
    obtain rfl : rest' = [] := by simpa using length_of_wellFormed hwf rfl
    obtain rfl : rest = [] := by simpa using length_of_wellFormed ((wellFormed_node.mp hwf).2 _ List.mem_cons_self) rfl
    have hx : (x.meaningUnder C I db).value env group = .null := value_of_refersTo (by simpa using h) hnull
    have hvalue : ((node id (.scalar .not type) [node id' (.scalar .isNull type') [x]]).meaningUnder C I db).value env group =
        (Value.boolean ((x.meaningUnder C I db).value env group).isNull).negated := rfl
    rw [hvalue, hx]
    rfl
  | case2 id type s pattern rest =>
    intro h
    obtain ⟨⟨ha, -⟩, hs⟩ : (ansi = true ∧ pattern.isOpenPattern = false) ∧ s.refersTo columns = true := by simpa using h
    have hvalue : ((node id (.scalar .like type) (s :: pattern :: rest)).meaningUnder C I db).value env group =
        C .like type ((s.meaningUnder C I db).value env group :: (pattern.meaningUnder C I db).value env group ::
          (rest.map (meaningUnder C I db)).map fun m => m.value env group) := by
      rw [meaningUnder_node]
      rfl
    rw [hvalue, value_of_refersTo hs hnull]
    exact (hC ha).2 type _ _
  | case3 id kind type a b rest _ _ hk =>
    intro h
    obtain rfl : rest = [] := by simpa using length_of_wellFormed hwf (n := 2) (by cases kind <;> cases hk <;> rfl)
    obtain ⟨ha, hside⟩ : ansi = true ∧ (a.refersTo columns = false → b.refersTo columns = true) := by simpa using h
    have hvalue : ((node id (.scalar kind type) [a, b]).meaningUnder C I db).value env group =
        C kind type [(a.meaningUnder C I db).value env group, (b.meaningUnder C I db).value env group] := by
      rw [meaningUnder_node, Op.meaningUnder, ScalarKind.isTest, hk]
      rfl
    rw [hvalue]
    refine (hC ha).1 kind type _ _ hk ?_
    cases hr : a.refersTo columns with
    | true => exact .inl (value_of_refersTo hr hnull)
    | false => exact .inr (value_of_refersTo (hside hr) hnull)
  | case4 | case5 => simp

theorem not_holds_of_not_preservesNulls (hC : ansi = true → C.RejectsNull) (hwf : q.wellFormed)
    (h : (Predicate.ofTree q).preservesNulls columns ansi = false) (hnull : ∀ v ∈ columns, env.read v = .null) :
    ((q.meaningUnder C I db).value env group).holds = false := by
  obtain ⟨d, hd, hno⟩ := List.all_eq_false.mp h
  rw [Bool.not_eq_true] at hno
  rw [holds_eq_all_conjuncts, List.all_eq_false]
  refine ⟨d, hd, ?_⟩
  rw [not_holds_of_admitsNulls hC (wellFormed_of_mem_conjuncts hwf d hd) hno hnull]
  exact Bool.false_ne_true

end Tree

namespace Predicate

/-- A predicate that does not preserve the nulls of some columns is not true where these are null. With ANSI semantics this
    rests on comparisons and patterns passing nulls on; without, it holds in whatever way these are read. -/
theorem preservesNulls_sound {q : Tree} (hwf : q.wellFormed = true) (columns : VarSet) (C : Reading) (I : Interpretation)
    (db : Database) {env : Row} (group : List Row) (hnull : ∀ v ∈ columns, env.read v = .null) :
    ((ofTree q).preservesNulls columns true = false → C.PassesNull → (q.meaningUnder C I db).value env group ≠ .boolean true) ∧
      ((ofTree q).preservesNulls columns false = false → (q.meaningUnder C I db).value env group ≠ .boolean true) := by
  have hne : ∀ ansi, (ofTree q).preservesNulls columns ansi = false → (ansi = true → C.RejectsNull) →
      (q.meaningUnder C I db).value env group ≠ .boolean true := by
    intro ansi h hC htrue
    have hno : ((q.meaningUnder C I db).value env group).holds = false := Tree.not_holds_of_not_preservesNulls hC hwf h hnull
    rw [htrue] at hno
    cases hno
  exact ⟨fun h hC => hne true h fun _ => hC.rejectsNull, fun h => hne false h nofun⟩

/-- `a < 1 AND b LIKE 'x%'`. -/
def belowAndMatched : Tree :=
  .node 7 (.scalar .and .boolean) [.node 2 (.scalar .lt .boolean) [.node 0 (.varRef 0 .int64) [], .node 1 (.constant (.int64 1)) []],
    .node 6 (.scalar .like .boolean) [.node 3 (.varRef 1 .string) [], .node 4 (.constant (.string "x%")) [],
      .node 5 (.null .string) []]]

/-- `a < 1 AND NOT (b IS NULL)`. -/
def belowAndPresent : Tree :=
  .node 6 (.scalar .and .boolean) [.node 2 (.scalar .lt .boolean) [.node 0 (.varRef 0 .int64) [], .node 1 (.constant (.int64 1)) []],
    .node 5 (.scalar .not .boolean) [.node 4 (.scalar .isNull .boolean) [.node 3 (.varRef 1 .string) []]]]

theorem preservesNulls_sound_below :
    ((ofTree belowAndMatched).preservesNulls (VarSet.empty.insert 1) true = false ∧
      (ofTree belowAndPresent).preservesNulls (VarSet.empty.insert 1) false = false) ∧
    ∀ (I : Interpretation) (db : Database) (group : List Row),
      (belowAndMatched.meaningUnder (fun _ _ values => if (values.take 2).any (·.isNull) then .null else .boolean true) I db).value
        .empty group ≠ .boolean true ∧
      (belowAndPresent.meaningUnder (fun _ _ _ => .boolean true) I db).value .empty group ≠ .boolean true := by
  refine ⟨⟨by decide, by decide⟩, fun I db group => ⟨?_, ?_⟩⟩
  · refine (preservesNulls_sound (by decide) (VarSet.empty.insert 1) _ I db group fun _ _ => rfl).1 (by decide) ?_
    intro kind type a b rest _ hab
    rcases hab with rfl | rfl <;> simp [Value.isNull]
  · exact (preservesNulls_sound (by decide) (VarSet.empty.insert 1) _ I db group fun _ _ => rfl).2 (by decide)

end Predicate

end Planwright
