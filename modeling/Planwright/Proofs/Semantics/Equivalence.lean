import Planwright.Proofs.Plan.Holds
import Planwright.Proofs.Scalar.Order
import Planwright.Proofs.Semantics.Likeness

/-! What equivalent trees mean. Values coincide if they are the same but for the offset that a time is written
    in. Where times are read by their instants, trees with the same operators and coinciding constants mean the
    same up to that. -/

namespace Planwright

namespace Value

/-- Values coincide if they are the same, and times if they name the same instant. -/
inductive Coincides : Value → Value → Prop
  | refl (v : Value) : Coincides v v
  | time {s t : Timestamp} : s.instant = t.instant → Coincides (.time s) (.time t)

namespace Coincides

variable {v v' w w' : Value}

theorem of_eq (h : v = w) : v.Coincides w := h ▸ .refl v

theorem symm (h : v.Coincides w) : w.Coincides v := by
  cases h with
  | refl => exact .refl v
  | time h => exact .time h.symm

theorem trans {u : Value} (h : v.Coincides w) (h' : w.Coincides u) : v.Coincides u := by
  cases h with
  | refl => exact h'
  | time h =>
    cases h' with
    | refl => exact .time h
    | time h' => exact .time (h.trans h')

theorem type (h : v.Coincides w) : v.type = w.type := by
  cases h <;> rfl

theorem isNull (h : v.Coincides w) : v.isNull = w.isNull := by
  cases h <;> rfl

theorem holds (h : v.Coincides w) : v.holds = w.holds := by
  cases h <;> rfl

theorem integer? (h : v.Coincides w) : v.integer? = w.integer? := by
  cases h <;> rfl

theorem order (h : v.Coincides v') (h' : w.Coincides w') : v.order w = v'.order w' := by
  cases h with
  | refl =>
    cases h' with
    | refl => rfl
    | time h' => cases v <;> simp [Value.order, Value.integer?, Value.type, h']
  | time h =>
    cases h' with
    | refl => cases w <;> simp [Value.order, Value.integer?, Value.type, h]
    | time h' => simp [Value.order, Value.integer?, Value.type, h, h']

end Coincides

/-- Values of one type that rank equal coincide. Floats are left out: the two zeros rank equal, and so does what is not ordered. -/
theorem coincides_of_order {v w : Value} (htype : v.type = w.type) (hv : v.type ≠ .float) (h : v.order w = .eq) : v.Coincides w := by
  cases v with
  | null | any =>
    cases w <;> cases htype
    exact .refl _
  | boolean p =>
    cases w <;> cases htype
    rename_i q
    cases p <;> cases q <;> first | exact .refl _ | cases h
  | int32 m =>
    cases w <;> cases htype
    rename_i n
    have hn : m.toInt = n.toInt := by simpa [order, integer?] using h
    exact .of_eq (congrArg int32 (Int32.toInt_inj.mp hn))
  | int64 m =>
    cases w <;> cases htype
    rename_i n
    have hn : m.toInt = n.toInt := by simpa [order, integer?] using h
    exact .of_eq (congrArg int64 (Int64.toInt_inj.mp hn))
  | float => exact absurd rfl hv
  | string s =>
    cases w <;> cases htype
    rename_i t
    have hrank : rank (fun x y => decide (x < y)) s t = .eq := h
    simp only [rank, decide_eq_true_eq] at hrank
    split at hrank
    · cases hrank
    · split at hrank
      · cases hrank
      · exact .of_eq (congrArg string (String.le_antisymm (String.not_lt.mp ‹¬t < s›) (String.not_lt.mp ‹¬s < t›)))
  | time s =>
    cases w <;> cases htype
    exact .time (by simpa [order, integer?, type] using h)
  | duration m =>
    cases w <;> cases htype
    rename_i n
    have hn : m.toInt = n.toInt := by simpa [order, integer?, type] using h
    exact .of_eq (congrArg duration (Int64.toInt_inj.mp hn))

theorem equals_eq_ok {v w : Value} (hv : v.type ≠ .float) : v.equals w = .ok true ↔ v.Coincides w ∧ v ≠ .any := by
  by_cases hany : v = .any
  · subst hany
    refine ⟨fun h => ?_, fun h => absurd rfl h.2⟩
    cases w <;> cases h
  · rw [equals_iff hany, and_iff_left hany]
    constructor
    · exact fun ⟨htype, h⟩ => coincides_of_order htype hv h
    · exact fun h => ⟨h.type, (Coincides.order (.refl v) h.symm).trans (order_self v)⟩

end Value

/-- Rows that bind the same variables to values that coincide. -/
def Row.Coincides (r s : Row) : Prop := ∀ v, Option.Rel Value.Coincides (r v) (s v)

/-- Times are read by their instants: nothing tells values apart that coincide. -/
structure Interpretation.ReadsInstants (I : Interpretation) : Prop where
  scalar : ∀ kind type {vs ws : List Value}, List.Forall₂ Value.Coincides vs ws →
    (I.scalar kind type vs).Coincides (I.scalar kind type ws)
  aggregate : ∀ name type {vs ws : List (List Value)}, List.Forall₂ (List.Forall₂ Value.Coincides) vs ws →
    (I.aggregate name type vs).Coincides (I.aggregate name type ws)
  arrange : ∀ keys {rs ss : List Row}, List.Forall₂ Row.Coincides rs ss →
    List.Forall₂ Row.Coincides (I.arrange keys rs) (I.arrange keys ss)
  mark : ∀ {v w : Value}, v.Coincides w → I.mark v = I.mark w

theorem Interpretation.ReadsInstants.respects {I : Interpretation} (hI : I.ReadsInstants) : I.Respects Value.Coincides where
  refl := .refl
  isNull h := h.isNull
  holds h := h.holds
  integer? h := h.integer?
  order h h' := h.order h'
  scalar kind type _ _ h := hI.scalar kind type h
  aggregate name type _ _ h := hI.aggregate name type h
  mark h := hI.mark h

theorem Interpretation.ReadsInstants.arranges {I : Interpretation} (hI : I.ReadsInstants) : I.Arranges (.under Value.Coincides) :=
  arranges_under fun keys _ _ h => (hI.arrange keys (h.imp fun _ _ hr v => hr v trivial)).imp fun _ _ hr v _ => hr v

theorem SetKind.kind_inj {k k' : SetKind} (h : k.kind = k'.kind) : k = k' := by
  cases k <;> cases k' <;> first | rfl | cases h

theorem ScalarKind.kind_inj {k k' : ScalarKind} (h : k.kind = k'.kind) : k = k' := by
  cases k <;> cases k' <;> first | rfl | cases h

namespace Op

/-- Operators that are the same, or constants with values that coincide. -/
inductive Agrees : Op → Op → Prop
  | same (op : Op) : Agrees op op
  | constant {v w : Value} : v.Coincides w → Agrees (.constant v) (.constant w)
  | internalConstant {v w : Value} : v.Coincides w → Agrees (.internalConstant v) (.internalConstant w)

/-- The same of operators that are the same up to what a meaning tells apart. -/
abbrev Coincides (a b : Op) : Prop := a.Parallels (.under Value.Coincides) b

theorem Agrees.coincides {a b : Op} (h : a.Agrees b) : a.Coincides b := by
  cases h with
  | same => exact .mirrors (.refl a)
  | constant h => exact .constant h
  | internalConstant h => exact .internalConstant h

/-- The place of an operator of the kind among the constructors. -/
def place : OpKind → Nat
  | .scanTable => 0 | .filter => 1 | .project => 2 | .crossJoin => 3 | .innerJoin => 4 | .leftOuterJoin => 5 | .crossApply => 6
  | .outerApply => 7 | .unionAll | .intersect | .except => 8 | .distinct => 9 | .groupBy => 10 | .sort => 11
  | .constrainedSort => 12 | .singleRowTable => 13 | .varDefList => 14 | .varDef => 15 | .varRef => 16 | .constant => 17
  | .null => 18 | .internalConstant => 19 | .nullSentinel => 20 | .constantPredicate => 21 | .aggregate => 23 | _ => 22

theorem ctorIdx_eq_place (a : Op) : a.ctorIdx = place a.kind := by
  cases a with
  | combine kind | scalar kind => cases kind <;> rfl
  | _ => rfl

theorem ctorIdx_eq_of_kind {a b : Op} (h : a.kind = b.kind) : a.ctorIdx = b.ctorIdx := by
  rw [ctorIdx_eq_place, ctorIdx_eq_place, h]

theorem equivalent_eq_ok {a b : Op} (hfloat : ∀ v, a.value? = some v → v.type ≠ .float)
    (htable : ∀ s t, a = .scanTable s → b = .scanTable t → s.id = t.id → s = t) :
    a.equivalent b = .ok true ↔ a.Agrees b ∧ a.value? ≠ some .any := by
  constructor
  · intro h
    unfold equivalent at h
    split at h
    · cases h
    · rename_i hsame
      obtain ⟨hkind, htype⟩ := not_or.mp hsame
      rw [Decidable.not_not] at hkind htype
      cases a <;> cases b <;> cases ctorIdx_eq_of_kind hkind
      all_goals simp only [Run.pure_ok, beq_iff_eq, Bool.and_eq_true] at h
      case scanTable.scanTable.refl s t =>
        obtain rfl := htable s t rfl rfl h
        exact ⟨.same _, by rintro ⟨⟩⟩
      case combine.combine.refl =>
        obtain rfl := SetKind.kind_inj hkind
        obtain ⟨⟨rfl, rfl⟩, rfl⟩ := h
        exact ⟨.same _, by rintro ⟨⟩⟩
      case groupBy.groupBy.refl =>
        obtain ⟨rfl, rfl⟩ := h
        exact ⟨.same _, by rintro ⟨⟩⟩
      case varRef.varRef.refl | aggregate.aggregate.refl =>
        cases htype
        exact ⟨h ▸ .same _, by rintro ⟨⟩⟩
      case scalar.scalar.refl _ type _ type' =>
        obtain rfl := ScalarKind.kind_inj hkind
        obtain rfl : type = type' := htype
        exact ⟨.same _, by rintro ⟨⟩⟩
      case constant.constant.refl v _ =>
        obtain ⟨h, hany⟩ := (Value.equals_eq_ok (hfloat v rfl)).mp h
        exact ⟨.constant h, fun h => hany (Option.some.inj h)⟩
      case internalConstant.internalConstant.refl v _ =>
        obtain ⟨h, hany⟩ := (Value.equals_eq_ok (hfloat v rfl)).mp h
        exact ⟨.internalConstant h, fun h => hany (Option.some.inj h)⟩
      case constantPredicate.constantPredicate.refl =>
        cases ((Value.equals_eq_ok (hfloat _ rfl)).mp h).1
        exact ⟨.same _, by rintro ⟨⟩⟩
      case null.null.refl =>
        cases htype
        exact ⟨.same _, by rintro ⟨⟩⟩
      case project.project.refl | distinct.distinct.refl | sort.sort.refl | constrainedSort.constrainedSort.refl |
          varDef.varDef.refl =>
        exact ⟨h ▸ .same _, by rintro ⟨⟩⟩
      all_goals exact ⟨.same _, by rintro ⟨⟩⟩
  · rintro ⟨h, hany⟩
    have hequals {v w : Value} (hv : a.value? = some v) (h : v.Coincides w) : v.equals w = .ok true :=
      (Value.equals_eq_ok (hfloat v hv)).mpr ⟨h, fun heq => hany (heq ▸ hv)⟩
    cases h with
    | same =>
      unfold equivalent
      rw [if_neg (by simp)]
      cases a with
      | constant | internalConstant | null | nullSentinel | constantPredicate => exact hequals rfl (.refl _)
      | _ => simp [Op.value?, pure, Except.pure]
    | constant h | internalConstant h =>
      unfold equivalent
      rw [if_neg (by simp [Op.kind, Op.type, h.type])]
      exact hequals rfl h

end Op

namespace Tree

/-- Trees whose operators coincide at the same places. -/
abbrev Coincides (s t : Tree) : Prop := s.Parallels (.under Value.Coincides) t

theorem value_coincides {I : Interpretation} {db : Database} (hI : I.ReadsInstants) {s t : Tree} (h : s.Coincides t)
    (hs : s.wellFormed) (env : Row) (group : List Row) :
    ((s.meaning I db).value env group).Coincides ((t.meaning I db).value env group) := by
  have hspot : Spot.Echoes (.under Value.Coincides) (Reads True s) ⟨env, group⟩ ⟨env, group⟩ :=
    ⟨fun _ _ => .refl _, List.forall₂_same.mpr fun _ _ _ _ => .refl _⟩
  exact ((resembles_of_parallels hI.respects hI.respects.reading (fun _ _ _ _ heq => heq) (fun _ _ => trivial) h hs (.inr trivial) (fun _ _ _ _ => trivial)
    (fun _ _ _ => hI.arranges) (.inr fun _ => rfl)).2 _ _ hspot).value

/-! ### Equivalence -/

def constants (t : Tree) : List Value := t.subtrees.filterMap fun s => s.op.value?

def tables (t : Tree) : List Table := t.subtrees.filterMap fun s =>
  match s.op with
  | .scanTable table => some table
  | _ => none

theorem mem_filterMap_subtrees {α : Type} {f : Tree → Option α} {id : NodeId} {op : Op} {cs : List Tree} {c : Tree} (hc : c ∈ cs)
    {a : α} (ha : a ∈ c.subtrees.filterMap f) : a ∈ (node id op cs).subtrees.filterMap f := by
  obtain ⟨s, hs, hf⟩ := List.mem_filterMap.mp ha
  exact List.mem_filterMap.mpr ⟨s, mem_subtrees_of_mem hc hs, hf⟩

theorem each_eq_ok {cs ds : List Tree} (hlen : cs.length = ds.length) :
    equivalent.each cs ds = .ok true ↔ List.Forall₂ (fun c d => c.equivalent d = .ok true) cs ds := by
  induction cs generalizing ds with
  | nil =>
    obtain rfl := List.length_eq_zero_iff.mp hlen.symm
    exact ⟨fun _ => .nil, fun _ => rfl⟩
  | cons c cs ih =>
    cases ds with
    | nil => cases hlen
    | cons d ds =>
      rw [equivalent.each, List.forall₂_cons, ← ih (Nat.succ.inj hlen)]
      constructor
      · intro h
        obtain ⟨same, hsame, h⟩ := Run.bind_ok.mp h
        cases same with
        | true => exact ⟨hsame, h⟩
        | false => cases h
      · rintro ⟨hsame, h⟩
        exact Run.bind_ok.mpr ⟨true, hsame, h⟩

theorem equivalent_node {i j : NodeId} {a b : Op} {cs ds : List Tree} : (node i a cs).equivalent (node j b ds) = .ok true ↔
    i = j ∨ a.equivalent b = .ok true ∧ List.Forall₂ (fun c d => c.equivalent d = .ok true) cs ds := by
  rw [equivalent]
  split
  · rename_i hid
    exact ⟨fun _ => .inl hid, fun _ => rfl⟩
  · rename_i hid
    constructor
    · intro h
      obtain ⟨same, hop, h⟩ := Run.bind_ok.mp h
      split at h
      · cases h
      · rename_i hno
        obtain ⟨hsame, hlen⟩ := Bool.or_eq_false_iff.mp (Bool.not_eq_true _ ▸ hno)
        obtain rfl : same = true := by simpa using hsame
        exact .inr ⟨hop, (each_eq_ok (Decidable.not_not.mp (of_decide_eq_false hlen))).mp h⟩
    · rintro (h | ⟨hop, h⟩)
      · exact absurd h hid
      · refine Run.bind_ok.mpr ⟨true, hop, ?_⟩
        simpa [h.length_eq] using (each_eq_ok h.length_eq).mpr h

theorem coincides_of_equivalent {p : Plan} {s t : Tree} (hs : p.Holds s) (ht : p.Holds t) (hfloat : ∀ v ∈ s.constants, v.type ≠ .float)
    (htables : ∀ a ∈ s.tables, ∀ b ∈ t.tables, a.id = b.id → a = b) (h : s.equivalent t = .ok true) : s.Coincides t := by
  induction s using induct generalizing t with
  | node i a cs ih =>
    obtain ⟨j, b, ds⟩ := t
    rcases equivalent_node.mp h with hid | ⟨hop, h⟩
    · exact hs.unique ht hid ▸ .refl _ _
    · refine .node ((Op.equivalent_eq_ok ?_ ?_).mp hop).1.coincides (Run.forall₂_imp_mem h fun c hc d hd hcd => ?_)
      · intro v hv
        exact hfloat v (List.mem_filterMap.mpr ⟨node i a cs, by simp, hv⟩)
      · rintro x y rfl rfl
        exact htables x (List.mem_filterMap.mpr ⟨_, List.mem_of_mem_head? rfl, rfl⟩) y
          (List.mem_filterMap.mpr ⟨_, List.mem_of_mem_head? rfl, rfl⟩)
      · exact ih c hc (hs.of_mem hc) (ht.of_mem hd) (fun v hv => hfloat v (mem_filterMap_subtrees hc hv))
          (fun x hx y hy => htables x (mem_filterMap_subtrees hc hx) y (mem_filterMap_subtrees hd hy)) hcd

end Tree

end Planwright
