import Planwright.Proofs.Document.Decode
import Planwright.Proofs.Rule.Meaning.Scalar

/-! Integers in documents. A comparison of two integer constants is folded to what holds of the stored numbers.
    These are the numbers that are written, but for those too wide for a declared width of 32 bits. -/

namespace Planwright

open Run Plan Planwright.Tree Rules

def Tree.at? : List Nat → Tree → Option Tree
  | [], t => some t
  | i :: path, t => t.children[i]?.bind (at? path)

/-- Whether two numbers compare as the operator says. -/
def ScalarKind.relates : ScalarKind → Int → Int → Bool
  | .eq, a, b => a = b
  | .ne, a, b => a ≠ b
  | .lt, a, b => a < b
  | .gt, a, b => b < a
  | .le, a, b => a ≤ b
  | .ge, a, b => b ≤ a
  | _, _, _ => false

theorem Rules.comparisonHolds_compare {k : ScalarKind} (hk : k.kind.isComparison) (a b : Int) :
    comparisonHolds k.kind (compare a b) = some (k.relates a b) := by
  have horder : a < b ∧ compare a b = .lt ∨ a = b ∧ compare a b = .eq ∨ b < a ∧ compare a b = .gt := by
    rcases Int.lt_trichotomy a b with h | h | h
    · exact .inl ⟨h, compare_lt_iff_lt.mpr h⟩
    · exact .inr (.inl ⟨h, compare_eq_iff_eq.mpr h⟩)
    · exact .inr (.inr ⟨h, compare_gt_iff_gt.mpr h⟩)
  rcases horder with ⟨h, ho⟩ | ⟨h, ho⟩ | ⟨h, ho⟩ <;> rw [ho] <;> cases k <;> cases hk <;>
    refine congrArg some (Bool.eq_iff_iff.mpr ?_) <;> simp [ScalarKind.relates] <;> omega

namespace Document

def nodeAt? : List Nat → Json → Option Json
  | [], v => some v
  | i :: path, v => (listField v ["op"] "children")[i]?.bind (nodeAt? path)

/-- The declared type and the number of a node that is an integer constant. -/
def integer? (v : Json) : Option (ScalarType × Int) := do
  let kind ← kindOf? (textField v [] "op")
  let type ← (textField? v nodeFields "type").bind ScalarType.ofName?
  match v.get? (nodeFields ++ ["type"]) "value" with
  | some (.number spelling) =>
    if (kind = .constant ∨ kind = .internalConstant) ∧ (type = .int32 ∨ type = .int64) then (Text.int? spelling).map (type, ·)
    else none
  | _ => none

/-- The operator and the operands of a node that compares two integer constants. -/
def comparison? (v : Json) : Option (ScalarKind × (ScalarType × Int) × (ScalarType × Int)) := do
  let k ← (kindOf? (textField v [] "op")).bind ScalarKind.ofKind?
  match listField v ["op"] "children" with
  | [x, y] => if k.kind.isComparison then return (k, ← integer? x, ← integer? y) else none
  | _ => none

/-- The number that a constant of a type stores for a number. -/
def stored (type : ScalarType) (n : Int) : Int := if type = .int32 then n.bmod (2 ^ 32) else n

/-- The number is not too wide for the type. -/
def Fits (type : ScalarType) (n : Int) : Prop := type = .int32 → -2 ^ 31 ≤ n ∧ n < 2 ^ 31

theorem stored_eq {type : ScalarType} {n : Int} (h : Fits type n) : stored type n = n := by
  rw [stored]
  split
  · have := h ‹_›
    rw [Int.bmod_def]
    omega
  · rfl

variable {v x y : Json} {type : ScalarType} {n : Int} {t s : Tree} {p : Plan}

theorem decodeType_eq (h : (textField? v nodeFields "type").bind ScalarType.ofName? = some type) : decodeType v nodeFields = .ok type := by
  obtain ⟨name, hname, htype⟩ := Option.bind_eq_some_iff.mp h
  simp only [decodeType, hname, htype]
  rfl

theorem integer?_of_decodeValue {spelling : String} {w : Value} (htype : type = .int32 ∨ type = .int64) (hn : Text.int? spelling = some n)
    (h : decodeValue type (some (.number spelling)) = .ok w) : w.integer? = some (stored type n) := by
  have hinteger : decodeValue.integer (.number spelling) =
      if Int64.minValue.toInt ≤ n ∧ n ≤ Int64.maxValue.toInt then .ok n else .error (.literalMalformed .integer) := by
    simp only [decodeValue.integer, expectNumber, orMismatch, pure, Except.pure, bind, Except.bind, hn]
    rfl
  by_cases hrange : Int64.minValue.toInt ≤ n ∧ n ≤ Int64.maxValue.toInt
  · rw [if_pos hrange] at hinteger
    rcases htype with rfl | rfl <;> simp only [decodeValue, hinteger] at h <;> cases h
    · rw [Value.integer?, Int32.toInt_ofInt]
      rfl
    · rw [Value.integer?, Int64.toInt_ofInt_of_le hrange.1 (Int.lt_add_one_of_le hrange.2)]
      rfl
  · rw [if_neg hrange] at hinteger
    rcases htype with rfl | rfl <;> simp only [decodeValue, hinteger] at h <;> cases h

theorem knownValue?_of_integer? (h : integer? v = some (type, n)) (ht : Decoded v t) :
    ∃ w, knownValue? t.op = some w ∧ w.integer? = some (stored type n) := by
  obtain ⟨kind, hkind, h⟩ := Option.bind_eq_some_iff.mp h
  obtain ⟨declared, hdeclared, h⟩ := Option.bind_eq_some_iff.mp h
  split at h
  · rename_i spelling hspelling
    obtain ⟨⟨hconstant, htype⟩, h⟩ := Option.ite_none_right_eq_some.mp h
    obtain ⟨_, hn, heq⟩ := Option.map_eq_some_iff.mp h
    cases heq
    have hvalue (d : Document) : Meets (fun _ => True) (decodeOp.decodeConstant v) d fun w _ => w.integer? = some (stored type n) := by
      refine .bind (.lift (R := fun type' _ => type' = type) (fun _ _ => trivial) fun type' h' => ?_) fun type' d₁ h' => ?_
      · exact Except.ok.inj (h'.symm.trans (decodeType_eq hdeclared))
      · subst h'
        exact .lift (fun _ _ => trivial) fun w hw => integer?_of_decodeValue htype hn (hspelling ▸ hw)
    have hknown {w : Value} (hw : w.integer? = some (stored type n)) :
        ∃ u, (some w).filter (!·.isNull) = some u ∧ u.integer? = some (stored type n) := by
      refine ⟨w, ?_, hw⟩
      cases w <;> first | rfl | cases hw
    cases ht with
    | @node _ _ op _ ops d d' hkind' hrun _ =>
      have hmeets : Meets (fun _ => True) (decodeOp kind (textField v [] "op") v ops) d
          fun op _ => ∃ w, knownValue? op = some w ∧ w.integer? = some (stored type n) := by
        rcases hconstant with rfl | rfl
        · exact .bind (hvalue d) fun w _ hw => .pure (hknown hw)
        · exact .bind (hvalue d) fun w _ hw => .pure (hknown hw)
      cases hkind'.symm.trans hkind
      exact hmeets.gives hrun
  · cases h

theorem Decoded.at? {path : List Nat} (ht : Decoded v t) (hx : nodeAt? path v = some x) : ∃ s, t.at? path = some s ∧ Decoded x s := by
  induction path generalizing v t with
  | nil =>
    cases hx
    exact ⟨t, rfl, ht⟩
  | cons i path ih =>
    obtain ⟨w, hw, hx⟩ := Option.bind_eq_some_iff.mp hx
    cases ht with
    | node _ _ hcs =>
      obtain ⟨c, hc, hwc⟩ := getElem?_of_forall₂ hcs hw
      obtain ⟨s, hs, hxs⟩ := ih hwc hx
      exact ⟨s, Option.bind_eq_some_iff.mpr ⟨c, hc, hs⟩, hxs⟩

end Document

theorem Plan.Holds.at? {p : Plan} {t s : Tree} {path : List Nat} (ht : p.Holds t) (hs : t.at? path = some s) : p.Holds s := by
  induction path generalizing t with
  | nil => exact Option.some.inj hs ▸ ht
  | cons i path ih =>
    obtain ⟨c, hc, hs⟩ := Option.bind_eq_some_iff.mp hs
    exact ih (ht.of_mem (List.mem_of_getElem? hc)) hs

namespace Rules

/-- Some scalar rule is tried on the tree in a plan, and each that is tried replaces it by a constant predicate. -/
def Decides (t : Tree) (holds : Bool) : Prop :=
  ∀ p : Plan, p.Holds t → (∃ r ∈ scalarRules, r.pattern.holds p t.id) ∧
    ∀ r ∈ scalarRules, r.pattern.holds p t.id → ∀ settle c, RunsTo (r.apply settle t.id) c p fun out _ p' =>
      ∃ n, out = some n ∧ p'.Holds (.node n (.constantPredicate holds) [])

variable {k : ScalarKind} {type : ScalarType} {id : NodeId} {a b t : Tree} {v w : Value} {m n : Int} {p : Plan}

theorem Decides.unique {holds holds' : Bool} (h : Decides t holds) (h' : Decides t holds') (ht : p.Holds t) : holds = holds' := by
  obtain ⟨r, hr, hpattern⟩ := (h p ht).1
  let c := Context.start default
  obtain ⟨_, _, _, hrun, n, rfl, hn⟩ := (h p ht).2 r hr hpattern pure c
  obtain ⟨_, _, _, hrun', _, rfl, hn'⟩ := (h' p ht).2 r hr hpattern pure c
  cases hrun.symm.trans hrun'
  cases hn.tree?.symm.trans hn'.tree?
  rfl

theorem foldComparison_decides (hk : k.kind.isComparison) (ht : p.Holds (.node id (.scalar k type) [a, b]))
    (hv : knownValue? a.op = some v) (hm : v.integer? = some m) (hw : knownValue? b.op = some w) (hn : w.integer? = some n)
    (c : Context) : RunsTo (foldComparison id) c p fun out _ p' =>
      ∃ i, out = some i ∧ p'.Holds (.node i (.constantPredicate (k.relates m n)) []) := by
  have hinteger {u : Value} {l : Int} (hu : u.integer? = some l) : u.type.isInteger = true := by cases u <;> first | rfl | cases hu
  have hcomparable : isComparable v w = true := by simp [isComparable, hinteger hm, hinteger hn]
  have hcompare : v.compare w = .ok (compare m n) := by
    have hany : ¬(v = .any ∧ w = .any) := by
      rintro ⟨rfl, -⟩
      cases hm
    rw [Value.compare, if_neg hany]
    unfold Value.order
    rw [hm, hn]
    rfl
  refine .read (ht.child_run (i := 0) rfl) (.read (ht.of_mem (by simp)).op_run ?_)
  rw [hv]
  refine .read (ht.child_run (i := 1) rfl) (.read (ht.of_mem (by simp)).op_run ?_)
  rw [hw]
  dsimp only
  rw [hcomparable]
  refine .read ht.kind_run ?_
  rw [hcompare]
  refine .bind (R := fun o c' p' => o = compare m n ∧ c' = c ∧ p' = p) ⟨_, _, _, rfl, rfl, rfl, rfl⟩ ?_
  rintro _ c p ⟨rfl, rfl, rfl⟩
  rw [kind_node, Op.kind, comparisonHolds_compare hk]
  have hworks := @create_works p (.constantPredicate (k.relates m n)) [] (List.forall_mem_nil _)
  obtain ⟨i, p', hrun, hi⟩ := (hworks.runs rfl).reaches hworks.ends
  exact .read hrun (.pure ⟨i, rfl, hi.holds⟩)

theorem apply_of_comparison {r : Rule} (hr : r ∈ scalarRules) (hk : t.kind.isComparison) (ht : p.Holds t)
    (h : r.pattern.holds p t.id) : r.apply = fun _ => foldComparison := by
  have hall : ∀ r ∈ scalarRules, ∃ k ps, r.pattern = matching k ps ∧ (k.isComparison → r.apply = fun _ => foldComparison) := by
    simp only [scalarRules, List.forall_mem_cons]
    refine ⟨?_, ?_, ?_, ?_, ?_, ?_, ?_, ?_, ?_, ?_, ?_, ?_, ?_, ?_, ?_, ?_, ?_, ?_, ?_, List.forall_mem_nil _⟩
    all_goals exact ⟨_, _, rfl, fun h => by first | rfl | cases h⟩
  obtain ⟨k, ps, hpattern, hfolds⟩ := hall r hr
  rw [hpattern] at h
  exact hfolds (kind_of_matches ht h ▸ hk)

theorem decides_of_integers (hk : k.kind.isComparison) (hv : knownValue? a.op = some v) (hm : v.integer? = some m)
    (hw : knownValue? b.op = some w) (hn : w.integer? = some n) : Decides (.node id (.scalar k type) [a, b]) (k.relates m n) := by
  intro p ht
  refine ⟨?_, fun r hr h settle c => ?_⟩
  · have hrule : ∃ r ∈ scalarRules, r.pattern = matching k.kind [.wildcard, .wildcard] := by
      cases k <;> cases hk
      exacts [⟨equalsOverConstant, by simp [scalarRules], rfl⟩, ⟨notEqualsOverConstant, by simp [scalarRules], rfl⟩,
        ⟨lessOverConstant, by simp [scalarRules], rfl⟩, ⟨greaterOverConstant, by simp [scalarRules], rfl⟩,
        ⟨lessEqualOverConstant, by simp [scalarRules], rfl⟩, ⟨greaterEqualOverConstant, by simp [scalarRules], rfl⟩]
    obtain ⟨r, hr, hpattern⟩ := hrule
    refine ⟨r, hr, ?_⟩
    rw [hpattern, Pattern.holds_eq_fits _ ht, Pattern.fits_matching]
    exact ⟨rfl, .inr (.cons rfl (.cons rfl .nil))⟩
  · rw [apply_of_comparison (t := .node id (.scalar k type) [a, b]) hr hk ht h]
    exact foldComparison_decides hk ht hv hm hw hn c

end Rules

namespace Document

variable {k : ScalarKind} {text : String}

theorem decides_of_comparison? {v : Json} {type type' : ScalarType} {m n : Int} {s : Tree}
    (h : comparison? v = some (k, (type, m), (type', n))) (hs : Decoded v s) :
    Rules.Decides s (k.relates (stored type m) (stored type' n)) := by
  obtain ⟨_, hk, h⟩ := Option.bind_eq_some_iff.mp h
  obtain ⟨kind, hkind, hofKind⟩ := Option.bind_eq_some_iff.mp hk
  split at h
  · rename_i x y hoperands
    obtain ⟨hcomparison, h⟩ := Option.ite_none_right_eq_some.mp h
    obtain ⟨_, hx, h⟩ := Option.bind_eq_some_iff.mp h
    obtain ⟨_, hy, h⟩ := Option.bind_eq_some_iff.mp h
    cases h
    cases hs with
    | @node _ id op cs _ _ _ hkind' _ hcs =>
      have hop : op.kind = k.kind := by rw [kind_of_ofKind? hofKind, Option.some.inj (hkind'.symm.trans hkind)]
      obtain ⟨_, result, _, hop⟩ := Tree.exists_scalar (t := .node id op cs) hop
      cases hop
      rw [hoperands] at hcs
      obtain _ | ⟨ha, _ | ⟨hb, ⟨⟩⟩⟩ := hcs
      obtain ⟨w, hw, hm⟩ := knownValue?_of_integer? hx ha
      obtain ⟨w', hw', hn⟩ := knownValue?_of_integer? hy hb
      exact Rules.decides_of_integers hcomparison hw hm hw' hn
  · cases h

/-- The comparison of two integers that a text writes at a path from the root of its tree. -/
def comparisonAt? (text : String) (path : List Nat) : Option (ScalarKind × (ScalarType × Int) × (ScalarType × Int)) := do
  comparison? (← nodeAt? path (← rootNode? (← Json.ofText? text)))

theorem exists_decided {d : Document} {path : List Nat} {type type' : ScalarType} {m n : Int}
    (hd : decode text = .ok d) (hwritten : comparisonAt? text path = some (k, (type, m), (type', n))) :
    ∃ t s, d.plan.tree? d.plan.root = some t ∧ t.at? path = some s ∧ d.plan.Holds s ∧
      Rules.Decides s (k.relates (stored type m) (stored type' n)) := by
  obtain ⟨v, t, hv, ⟨-, ⟨root, hroot, hdecoded⟩, ht, -⟩⟩ := decode_complete hd
  have hnode : (nodeAt? path root).bind comparison? = some (k, (type, m), (type', n)) := by
    simpa only [comparisonAt?, bind, hv, hroot, Option.bind_some] using hwritten
  obtain ⟨node, hnode, hcomparison⟩ := Option.bind_eq_some_iff.mp hnode
  obtain ⟨s, hs, hsnode⟩ := hdecoded.at? hnode
  exact ⟨t, s, ht.root ▸ ht.standing.holds.tree?, hs, ht.standing.holds.at? hs, decides_of_comparison? hcomparison hsnode⟩

/-- Every comparison of two integers in a document that is accepted is decided by the scalar rules. What they find is what holds of
    the numbers that are stored, which are the numbers that are written if these fit the declared types. -/
theorem comparison_decided {text : String} {d : Document} {path : List Nat} {k : ScalarKind} {type type' : ScalarType} {m n : Int}
    (hd : decode text = .ok d) (hwritten : comparisonAt? text path = some (k, (type, m), (type', n))) :
    ∃ t s, d.plan.tree? d.plan.root = some t ∧ t.at? path = some s ∧ d.plan.Holds s ∧
      Rules.Decides s (k.relates (stored type m) (stored type' n)) ∧
        (Fits type m → Fits type' n → Rules.Decides s (k.relates m n)) := by
  obtain ⟨t, s, ht, hs, hheld, hdecides⟩ := exists_decided hd hwritten
  refine ⟨t, s, ht, hs, hheld, hdecides, fun hm hn => ?_⟩
  rwa [stored_eq hm, stored_eq hn] at hdecides

/-- The text of a document that filters a single row by a comparison of two numbers. -/
def comparing (k type m type' n : String) : String :=
  let constant (type n : String) : Json := .object [("op", .string "constant"), ("type", .string type), ("value", .number n)]
  let test : Json := .object [("op", .string k), ("children", .array [constant type m, constant type' n])]
  Json.render (.object [("version", .string "1.0.0"), ("root", .object [("op", .string "filter"),
    ("children", .array [.object [("op", .string "singlerowtable")], test])])])

theorem exists_of_accepted (h : (decode text).toBool = true) : ∃ d, decode text = .ok d := by
  cases hd : decode text with
  | error e =>
    rw [hd] at h
    cases h
  | ok d => exact ⟨d, rfl⟩

theorem comparison_decided_widths : ∃ d t s, decode (comparing "lt" "int32" "-2147483648" "int64" "-2147483647") = .ok d ∧
    comparisonAt? (comparing "lt" "int32" "-2147483648" "int64" "-2147483647") [1] =
      some (.lt, (.int32, -2147483648), (.int64, -2147483647)) ∧
    d.plan.tree? d.plan.root = some t ∧ t.at? [1] = some s ∧ Rules.Decides s true := by
  have hread : (decode (comparing "lt" "int32" "-2147483648" "int64" "-2147483647")).toBool ∧
    comparisonAt? (comparing "lt" "int32" "-2147483648" "int64" "-2147483647") [1] =
      some (.lt, (.int32, -2147483648), (.int64, -2147483647)) := by decide +kernel
  obtain ⟨d, hd⟩ := exists_of_accepted hread.1
  obtain ⟨t, s, ht, hs, -, -, hdecides⟩ := comparison_decided hd hread.2
  exact ⟨d, t, s, hd, hread.2, ht, hs, hdecides (fun _ => by decide) nofun⟩

/-- A number that is too wide is cut: the document compares 2³² with 0 and is accepted, and finds them equal. -/
theorem comparison_cut : ∃ d t s, decode (comparing "eq" "int32" "4294967296" "int64" "0") = .ok d ∧
    comparisonAt? (comparing "eq" "int32" "4294967296" "int64" "0") [1] = some (.eq, (.int32, 4294967296), (.int64, 0)) ∧
      d.plan.tree? d.plan.root = some t ∧ t.at? [1] = some s ∧ Rules.Decides s true ∧ ¬Rules.Decides s false := by
  have hread : (decode (comparing "eq" "int32" "4294967296" "int64" "0")).toBool ∧
    comparisonAt? (comparing "eq" "int32" "4294967296" "int64" "0") [1] =
      some (.eq, (.int32, 4294967296), (.int64, 0)) := by decide +kernel
  obtain ⟨d, hd⟩ := exists_of_accepted hread.1
  obtain ⟨t, s, ht, hs, hheld, hdecides⟩ := exists_decided hd hread.2
  exact ⟨d, t, s, hd, hread.2, ht, hs, hdecides, fun h => nomatch hdecides.unique h hheld⟩

end Document

end Planwright
