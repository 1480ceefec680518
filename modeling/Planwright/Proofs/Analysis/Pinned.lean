import Planwright.Proofs.Analysis.References
import Planwright.Proofs.Semantics.Reading

/-! Pinned keys. An equality pins a column if its other side depends on no column of the relation, so that it
    holds only for rows with one value there. A conjunction that pins all columns of a key holds for one row at
    most. -/

namespace Planwright

open Run Plan Planwright.Tree

/-- `Eq` is true of equal values that are not null, and of no others. -/
structure Reading.Equates (C : Reading) (E : Value → Value → Prop) : Prop where
  equivalence : Equivalence E
  eq : ∀ type a b, (C .eq type [a, b]).holds = true ↔ a ≠ .null ∧ b ≠ .null ∧ E a b

namespace Row

/-- The rows have equal values in the columns, none of them null. -/
def Match (E : Value → Value → Prop) (columns : VarSet) (r s : Row) : Prop :=
  ∀ v ∈ columns, r.read v ≠ .null ∧ s.read v ≠ .null ∧ E (r.read v) (s.read v)

def IsOver (r : Row) (columns : VarSet) : Prop := ∀ v, r v ≠ none ↔ v ∈ columns

variable {outer r s : Row} {columns : VarSet} {v : VarId}

theorem IsOver.read_merge_of_mem (hr : r.IsOver columns) (hv : v ∈ columns) : (outer.merge r).read v = r.read v := by
  rw [read_merge, if_neg ((hr v).mpr hv)]

theorem IsOver.read_merge_of_notMem (hr : r.IsOver columns) (hv : v ∉ columns) : (outer.merge r).read v = outer.read v := by
  rw [read_merge, if_pos (by_contra fun h => hv ((hr v).mp h))]

end Row

namespace Predicate

variable {I : Interpretation} {db : Database}

/-- The first side of an equality pins a variable: it is a reference to it, and the other side uses none of the definitions. -/
def Pins (definitions : VarSet) (v : VarId) (a b : Tree) : Prop :=
  (∃ type, a.op = .varRef v type) ∧ ∀ u, Uses (·) b u → u ∉ definitions

/-- A part is an equality one side of which pins a variable. -/
def PinnedBy (definitions : VarSet) (v : VarId) (d : Tree) : Prop :=
  ∃ id type a b, d = .node id (.scalar .eq type) [a, b] ∧ (Pins definitions v a b ∨ Pins definitions v b a)

variable {keys definitions missing : VarSet} {v w : VarId} {a b : Tree} {ds : List Tree} {p : Plan}

theorem Pins.either_iff (h : Pins definitions w a b) (hw : w ∈ definitions) :
    Pins definitions v a b ∨ Pins definitions v b a ↔ v = w := by
  have ⟨⟨type, hop⟩, _⟩ := h
  constructor
  · rintro (⟨⟨_, hop'⟩, -⟩ | ⟨-, ha⟩)
    · cases hop'.symm.trans hop
      rfl
    · obtain ⟨id, op, cs⟩ := a
      cases hop
      exact absurd hw (ha w .reference)
  · rintro rfl
    exact .inl h

theorem pinned?_reaches (hb : p.Holds b) (hwf : b.wellFormed) : Reaches (pinned? keys definitions a b) p fun out p' =>
    Keeps ∅ p p' ∧ ∀ v, out = some v ↔ v ∈ keys ∧ Pins definitions v a b := by
  unfold pinned?
  split
  · rename_i id w type cs
    have hself : ∀ {v}, Pins definitions v (.node id (.varRef w type) cs) b → v = w := by
      rintro v ⟨⟨_, hop⟩, -⟩
      cases hop
      rfl
    split
    · rename_i hno
      refine .pure ⟨.refl _ _, fun v => ⟨nofun, fun ⟨hv, hpins⟩ => ?_⟩⟩
      cases hself hpins
      rw [Bool.not_eq_true'] at hno
      exact absurd hv (Bool.eq_false_iff.mp hno)
    · rename_i hw
      have hw : w ∈ keys := by simpa [VarSet.mem_iff] using hw
      refine .bind (hb.info_reaches hwf) fun i p₁ ⟨hk, hi⟩ => ?_
      split
      · rename_i hoverlap
        refine .pure ⟨hk, fun v => ⟨nofun, fun ⟨_, _, hb⟩ => ?_⟩⟩
        obtain ⟨u, hu, hmem⟩ := VarSet.overlaps_iff.mp hoverlap
        exact absurd hmem (hb u ((analysis_scope hwf hi u).2.mp hu))
      · rename_i hno
        rw [Bool.not_eq_true, VarSet.overlaps_eq_false] at hno
        refine .pure ⟨hk, fun v => ⟨fun hv => ?_, fun ⟨_, hpins⟩ => congrArg some (hself hpins).symm⟩⟩
        cases hv
        exact ⟨hw, ⟨type, rfl⟩, fun u hu => hno u ((analysis_scope hwf hi u).2.mpr hu)⟩
  · rename_i hno
    refine .pure ⟨.refl _ _, fun v => ⟨nofun, fun ⟨_, ⟨type, hop⟩, _⟩ => ?_⟩⟩
    obtain ⟨id, op, cs⟩ := a
    cases hop
    exact absurd rfl (hno id v type cs)

theorem unpinned_reaches (hh : ∀ d ∈ ds, p.Holds d) (hwf : ∀ d ∈ ds, d.wellFormed) (hkeys : ∀ v ∈ keys, v ∈ definitions)
    (hmissing : ∀ v ∈ missing, v ∈ keys) : Reaches (unpinned keys definitions missing ds) p fun rest p' =>
      Keeps ∅ p p' ∧ ∀ v, v ∈ rest ↔ v ∈ missing ∧ ∀ d ∈ ds, ¬PinnedBy definitions v d := by
  induction ds generalizing missing p with
  | nil => exact .pure ⟨.refl _ _, fun v => by simp⟩
  | cons d ds ih =>
    obtain ⟨hd, hheld⟩ := List.forall_mem_cons.mp hh
    obtain ⟨hwfd, hwfs⟩ := List.forall_mem_cons.mp hwf
    -- The other parts are looked at in a plan that is as before but for what it remembers.
    have rest : ∀ {left p₁}, Keeps ∅ p p₁ → (∀ v, v ∈ left ↔ v ∈ missing ∧ ¬PinnedBy definitions v d) →
        Reaches (unpinned keys definitions left ds) p₁ fun rest p' =>
          Keeps ∅ p p' ∧ ∀ v, v ∈ rest ↔ v ∈ missing ∧ ∀ d' ∈ d :: ds, ¬PinnedBy definitions v d' := by
      intro left p₁ hk hleft
      refine (ih (fun d hd => hk.still (hheld d hd)) hwfs fun v hv => hmissing v ((hleft v).mp hv).1).mono ?_
      rintro rest p₂ ⟨hk', hrest⟩
      exact ⟨hk.and_then hk', fun v => by rw [hrest, hleft, List.forall_mem_cons, and_assoc]⟩
    rw [unpinned.eq_def]
    split
    · contradiction
    · rename_i id type a b args ds' heq
      obtain ⟨rfl, rfl⟩ := List.cons.inj heq
      obtain rfl : args = [] := by simpa using length_of_wellFormed hwfd rfl
      obtain ⟨-, hwfs⟩ := wellFormed_node.mp hwfd
      have hpinned : ∀ v, PinnedBy definitions v (.node id (.scalar .eq type) [a, b]) ↔
          Pins definitions v a b ∨ Pins definitions v b a := by
        refine fun v => ⟨?_, fun h => ⟨id, type, a, b, rfl, h⟩⟩
        rintro ⟨_, _, _, _, ⟨⟩, h⟩
        exact h
      refine .bind (pinned?_reaches (hd.of_mem (by simp)) (hwfs b (by simp))) ?_
      rintro (_ | w) p₁ ⟨hk, hout⟩
      · refine .bind (pinned?_reaches (hk.still (hd.of_mem (by simp))) (hwfs a (by simp))) ?_
        rintro (_ | w) p₂ ⟨hk', hout'⟩
        · refine rest (hk.and_then hk') fun v => ⟨fun hv => ⟨hv, ?_⟩, fun h => h.1⟩
          rw [hpinned]
          rintro (h | h)
          · cases (hout v).mpr ⟨hmissing v hv, h⟩
          · cases (hout' v).mpr ⟨hmissing v hv, h⟩
        · obtain ⟨hw, hpins⟩ := (hout' w).mp rfl
          exact rest (hk.and_then hk') fun v => by rw [VarSet.mem_erase, hpinned, or_comm, hpins.either_iff (hkeys w hw)]
      · obtain ⟨hw, hpins⟩ := (hout w).mp rfl
        exact rest hk fun v => by rw [VarSet.mem_erase, hpinned, hpins.either_iff (hkeys w hw)]
    · rename_i hno heq
      obtain ⟨rfl, rfl⟩ := List.cons.inj heq
      refine rest (.refl _ _) fun v => ⟨fun hv => ⟨hv, ?_⟩, fun h => h.1⟩
      rintro ⟨id, type, a, b, rfl, -⟩
      exact hno _ _ _ _ _ rfl

theorem satisfiesKey_reaches {q : Predicate} (hh : ∀ d ∈ q.parts, p.Holds d) (hwf : ∀ d ∈ q.parts, d.wellFormed)
    (hkeys : ∀ v ∈ keys, v ∈ definitions) : Reaches (q.satisfiesKey keys definitions) p fun answer _ =>
      answer = true ↔ (∃ v, v ∈ keys) ∧ ∀ v ∈ keys, ∃ d ∈ q.parts, PinnedBy definitions v d := by
  rw [satisfiesKey]
  split
  · rename_i hempty
    exact .pure ⟨nofun, fun ⟨⟨v, hv⟩, _⟩ => absurd hv (VarSet.isEmpty_iff.mp hempty v)⟩
  · rename_i hne
    refine .bind (unpinned_reaches hh hwf hkeys fun _ h => h) ?_
    rintro rest p' ⟨-, hrest⟩
    refine .pure ?_
    rw [VarSet.isEmpty_iff]
    constructor
    · refine fun h => ⟨by_contra fun hno => hne (VarSet.isEmpty_iff.mpr fun v hv => hno ⟨v, hv⟩), fun v hv => ?_⟩
      by_contra hno
      exact h v ((hrest v).mpr ⟨hv, fun d hd hd' => hno ⟨d, hd, hd'⟩⟩)
    · rintro ⟨-, h⟩ v hv
      obtain ⟨hv, hno⟩ := (hrest v).mp hv
      obtain ⟨d, hd, hd'⟩ := h v hv
      exact hno d hd hd'

theorem PinnedBy.eq_of_holds {C : Reading} {E : Value → Value → Prop} (hC : C.Equates E)
    {outer r s : Row} {d : Tree} (h : PinnedBy definitions v d) (hwf : d.wellFormed) (hb : Backed (·) d) (hv : v ∈ definitions)
    (hr : r.IsOver definitions) (hs : s.IsOver definitions) (hdr : (d.meaningUnder C I db).holds outer r)
    (hds : (d.meaningUnder C I db).holds outer s) : r.read v ≠ .null ∧ s.read v ≠ .null ∧ E (r.read v) (s.read v) := by
  obtain ⟨id, type, a, b, rfl, h⟩ := h
  have hvalue : ∀ env group, ((node id (.scalar .eq type) [a, b]).meaningUnder C I db).value env group =
      C .eq type [(a.meaningUnder C I db).value env group, (b.meaningUnder C I db).value env group] := fun env group => by
    rw [meaningUnder_node]
    rfl
  have href : ∀ {x : Tree} {r : Row}, (∃ type, x.op = .varRef v type) → r.IsOver definitions →
      (x.meaningUnder C I db).value (outer.merge r) [] = r.read v := by
    rintro ⟨id, op, cs⟩ r ⟨type, hop⟩ hr
    cases hop
    exact hr.read_merge_of_mem hv
  have hfree : ∀ y ∈ [a, b], (∀ u, Uses (·) y u → u ∉ definitions) →
      (y.meaningUnder C I db).value (outer.merge r) [] = (y.meaningUnder C I db).value (outer.merge s) [] := by
    intro y hy hno
    refine (meaning_reads ((wellFormed_node.mp hwf).2 y hy) ((backed_node.mp hb).2 y hy)).value (fun u hu => ?_) .nil
    rw [hr.read_merge_of_notMem (hno u hu), hs.read_merge_of_notMem (hno u hu)]
  rw [Meaning.holds, hvalue, hC.eq] at hdr hds
  obtain ⟨har, hbr, hr'⟩ := hdr
  obtain ⟨has, hbs, hs'⟩ := hds
  rcases h with ⟨ha, hno⟩ | ⟨hb, hno⟩
  · rw [href ha hr] at har hr'
    rw [href ha hs, ← hfree b (by simp) hno] at hs'
    rw [href ha hs] at has
    exact ⟨har, has, hC.equivalence.trans hr' (hC.equivalence.symm hs')⟩
  · rw [href hb hr] at hbr hr'
    rw [href hb hs, ← hfree a (by simp) hno] at hs'
    rw [href hb hs] at hbs
    exact ⟨hbr, hbs, hC.equivalence.trans (hC.equivalence.symm hr') hs'⟩

theorem match_of_pinned {C : Reading} {E : Value → Value → Prop} (hC : C.Equates E)
    {outer r s : Row} {qs : List Tree} (hkeys : ∀ v ∈ keys, v ∈ definitions)
    (hparts : ∀ d ∈ qs.flatMap conjuncts, d.wellFormed = true ∧ Backed (·) d)
    (hpinned : ∀ v ∈ keys, ∃ d ∈ qs.flatMap conjuncts, PinnedBy definitions v d) (hr : r.IsOver definitions)
    (hs : s.IsOver definitions) (hqr : ∀ q ∈ qs, (q.meaningUnder C I db).holds outer r)
    (hqs : ∀ q ∈ qs, (q.meaningUnder C I db).holds outer s) : r.Match E keys s := by
  intro v hv
  obtain ⟨d, hd, hpins⟩ := hpinned v hv
  have hpart : ∀ r, (∀ q ∈ qs, (q.meaningUnder C I db).holds outer r) → (d.meaningUnder C I db).holds outer r := by
    intro r hall
    obtain ⟨q, hq, hd⟩ := List.mem_flatMap.mp hd
    have h := hall q hq
    rw [Meaning.holds, holds_eq_all_conjuncts, List.all_eq_true] at h
    exact h d hd
  exact hpins.eq_of_holds hC (hparts d hd).1 (hparts d hd).2 (hkeys v hv) hr hs (hpart r hqr) (hpart s hqs)

/-- The answer is yes if there are keys and each is pinned. Then the predicate is true for one row at most of a relation no two rows
    of which have equal keys. -/
theorem satisfiesKey_sound {p : Plan} {qs : List Tree} (hqs : ∀ q ∈ qs, p.Holds q ∧ q.wellFormed = true ∧ Backed (·) q)
    {keys definitions : VarSet} (hkeys : ∀ v ∈ keys, v ∈ definitions) :
    ∃ answer p', (qs.foldl addPart empty).satisfiesKey keys definitions p = .ok (answer, p') ∧
      (answer = true ↔ (∃ v, v ∈ keys) ∧ ∀ v ∈ keys, ∃ d ∈ qs.flatMap conjuncts, PinnedBy definitions v d) ∧
      (answer = true → ∀ (C : Reading) (E : Value → Value → Prop) (I : Interpretation) (db : Database) (outer : Row) (rows : List Row),
        C.Equates E → (∀ r ∈ rows, r.IsOver definitions) → rows.Pairwise (fun r s => ¬r.Match E keys s) →
          (rows.filter fun r => qs.all fun q => (q.meaningUnder C I db).holds outer r).length ≤ 1) := by
  have hparts : ∀ d ∈ qs.flatMap conjuncts, p.Holds d ∧ d.wellFormed = true ∧ Backed (·) d := by
    intro d hd
    obtain ⟨q, hq, hd⟩ := List.mem_flatMap.mp hd
    refine forall_conjuncts (P := fun d => p.Holds d ∧ d.wellFormed = true ∧ Backed (·) d) (fun ⟨hh, hwf, hb⟩ => ?_) (hqs q hq) d hd
    have below := fun c hc => And.intro (hh.of_mem hc) (And.intro ((wellFormed_node.mp hwf).2 c hc) ((backed_node.mp hb).2 c hc))
    exact ⟨below _ (by simp), below _ (by simp)⟩
  have heq : (qs.foldl addPart empty).parts = qs.flatMap conjuncts := parts_foldl_addPart qs empty
  have hreaches : Reaches ((qs.foldl addPart empty).satisfiesKey keys definitions) p fun answer _ =>
      answer = true ↔ (∃ v, v ∈ keys) ∧ ∀ v ∈ keys, ∃ d ∈ (qs.foldl addPart empty).parts, PinnedBy definitions v d :=
    satisfiesKey_reaches (fun d hd => (hparts d (heq ▸ hd)).1) (fun d hd => (hparts d (heq ▸ hd)).2.1) hkeys
  rw [heq] at hreaches
  obtain ⟨answer, p', hrun, hanswer⟩ := hreaches
  refine ⟨answer, p', hrun, hanswer, fun hyes C E I db outer rows hC hover hrows => ?_⟩
  have hfiltered : ∀ r ∈ rows.filter fun r => qs.all fun q => (q.meaningUnder C I db).holds outer r,
      r.IsOver definitions ∧ ∀ q ∈ qs, (q.meaningUnder C I db).holds outer r := by
    intro r hr
    obtain ⟨hmem, hall⟩ := List.mem_filter.mp hr
    exact ⟨hover r hmem, List.all_eq_true.mp hall⟩
  have hapart := hrows.sublist (List.filter_sublist (p := fun r => qs.all fun q => (q.meaningUnder C I db).holds outer r))
  match hfs : rows.filter fun r => qs.all fun q => (q.meaningUnder C I db).holds outer r with
  | [] | [_] => simp
  | r :: s :: fs =>
    rw [hfs] at hapart hfiltered
    obtain ⟨hr, hqr⟩ := hfiltered r (by simp)
    obtain ⟨hs, hqs⟩ := hfiltered s (by simp)
    have hmatch := match_of_pinned hC hkeys (fun d hd => (hparts d hd).2) (hanswer.mp hyes).2 hr hs hqr hqs
    exact absurd hmatch ((List.pairwise_cons.mp hapart).1 s (by simp))

/-- `a = p AND 5 = b`. -/
def keyedTree : Tree :=
  .node 6 (.scalar .and .boolean) [.node 2 (.scalar .eq .boolean) [.node 0 (.varRef 0 .int64) [], .node 1 (.varRef 2 .int64) []],
    .node 5 (.scalar .eq .boolean) [.node 3 (.constant (.int64 5)) [], .node 4 (.varRef 1 .int64) []]]

def keyed : Plan := keyedTree.plan 0 [⟨.column, "t.a", .int64⟩, ⟨.column, "t.b", .int64⟩, ⟨.parameter, "p", .int64⟩]

def pair (a b : Int64) : Row := fun v => if v = 0 then some (.int64 a) else if v = 1 then some (.int64 b) else none

/-- Two values are compared by being the same and not null. -/
def sameness : Reading := fun _ _ values =>
  match values with
  | [a, b] => .boolean (a ≠ .null ∧ b ≠ .null ∧ a = b)
  | _ => .null

theorem satisfiesKey_sound_paired :
    (∃ p', ([keyedTree].foldl addPart empty).satisfiesKey (.ofList [0, 1]) (.ofList [0, 1]) keyed = .ok (true, p')) ∧
    ∀ (I : Interpretation) (db : Database) (outer : Row), ([pair 1 5, pair 1 6, pair 2 5].filter fun r =>
      [keyedTree].all fun q => (q.meaningUnder sameness I db).holds outer r).length ≤ 1 := by
  have hqs : ∀ q ∈ [keyedTree], keyed.Holds q ∧ q.wellFormed = true ∧ Backed (·) q := by
    refine List.forall_mem_singleton.mpr ⟨holds_of_view (by decide) (show keyed.tree? 6 = some keyedTree from rfl), by decide, ?_⟩
    simp [keyedTree, backed_node]
  have hkeys : ∀ v ∈ VarSet.ofList [0, 1], v ∈ VarSet.ofList [0, 1] := fun v hv => hv
  obtain ⟨answer, p', hrun, -, h⟩ := satisfiesKey_sound hqs hkeys
  have hyes : (([keyedTree].foldl addPart empty).satisfiesKey (.ofList [0, 1]) (.ofList [0, 1]) keyed).toOption.map (·.1) = some true := by
    decide +kernel
  rw [hrun] at hyes
  obtain rfl : answer = true := by simpa [Except.toOption] using hyes
  refine ⟨⟨p', hrun⟩, fun I db outer => h rfl sameness Eq I db outer _ ⟨⟨fun _ => rfl, Eq.symm, Eq.trans⟩, ?_⟩ ?_ ?_⟩
  · simp [sameness, Value.holds]
  · have hover : ∀ a b, (pair a b).IsOver (.ofList [0, 1]) := fun a b v => by
      by_cases h : v = 0 <;> simp [pair, h]
    simp [hover]
  · simp [Row.Match, Row.read, pair]

end Predicate

end Planwright
