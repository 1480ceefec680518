import Planwright.Proofs.Plan.Substitute
import Planwright.Proofs.Semantics.Mirror
import Planwright.Proofs.Semantics.Reading

/-! What predicates mean. A conjunction holds where its parts do, an expression with others put in for its variables has the
    value that it has where the variables have theirs, and some parts hold for no row with nulls in given columns. -/

namespace Planwright

namespace Tree

variable {I : Interpretation} {db : Database} {q : Tree}

/-! ### Conjunctions -/

variable (I db) in
def allHold (ds : List Tree) (outer r : Row) : Bool := ds.all fun d => (d.meaning I db).holds outer r

theorem allHold_singleton (d : Tree) (outer r : Row) : allHold I db [d] outer r = (d.meaning I db).holds outer r := by
  simp [allHold]

theorem allHold_append (ds es : List Tree) (outer r : Row) :
    allHold I db (ds ++ es) outer r = (allHold I db ds outer r && allHold I db es outer r) := List.all_append

theorem allHold_perm {ds es : List Tree} (h : ds.Perm es) (outer r : Row) : allHold I db ds outer r = allHold I db es outer r := by
  rw [Bool.eq_iff_iff, allHold, allHold, List.all_eq_true, List.all_eq_true]
  exact forall_congr' fun d => by rw [h.mem_iff]

theorem holds_and {id : NodeId} {type : ScalarType} {a b : Tree} (outer r : Row) :
    ((node id (.scalar .and type) [a, b]).meaning I db).holds outer r =
      ((a.meaning I db).holds outer r && (b.meaning I db).holds outer r) := by
  rw [meaning_node]
  exact Value.holds_connected_false _ _

theorem holds_eq_conjuncts (q : Tree) (outer r : Row) : (q.meaning I db).holds outer r = allHold I db q.conjuncts outer r := by
  have h : ((q.meaningUnder I.reading I db).value (outer.merge r) []).holds =
      q.conjuncts.all fun d => ((d.meaningUnder I.reading I db).value (outer.merge r) []).holds := holds_eq_all_conjuncts q (outer.merge r) []
  simp only [meaningUnder_reading] at h
  exact h

variable (I db) in
def failing (outer r : Row) (q : Tree) : Nat := (q.conjuncts.filter fun d => !(d.meaning I db).holds outer r).length

theorem failing_conjunctive (outer r : Row) : Conjunctive (failing I db outer r) := fun id type a b => by
  rw [failing, conjuncts, List.filter_append, List.length_append]
  rfl

theorem holds_iff_failing {outer r : Row} : (q.meaning I db).holds outer r = true ↔ failing I db outer r q = 0 := by
  rw [holds_eq_conjuncts, failing, List.length_eq_zero_iff, List.filter_eq_nil_iff, allHold, List.all_eq_true]
  simp

theorem allHold_iff_failing {ds : List Tree} {outer r : Row} :
    allHold I db ds outer r = true ↔ (ds.map (failing I db outer r)).sum = 0 := by
  rw [allHold, List.all_eq_true, List.sum_eq_zero_iff]
  simp [holds_iff_failing]

theorem Conjoins.holds {ds : List Tree} {b : Tree} {fs : List NodeId} (h : Conjoins ds b fs) (outer r : Row) :
    (b.meaning I db).holds outer r = allHold I db ds outer r := by
  rw [Bool.eq_iff_iff, holds_iff_failing, h.sums (failing_conjunctive outer r), allHold_iff_failing]

/-! ### Substitution -/

variable (I db) in
/-- The row with the values that expressions have there put in for their variables, all at once. -/
def updated (σ : List (VarId × Tree)) (env : Row) (group : List Row) : Row := fun v =>
  match σ.lookup v with
  | some x => some ((x.meaning I db).value env group)
  | none => env v

section Fills
variable {σ : List (VarId × Tree)} {e e' : Tree} {env env' : Row} {group group' : List Row} {v : VarId} {x : Tree}

theorem read_updated_of_some (h : σ.lookup v = some x) : (updated I db σ env group).read v = (x.meaning I db).value env group := by
  rw [Row.read, updated, h]
  rfl

theorem read_updated_of_none (h : σ.lookup v = none) : (updated I db σ env group).read v = env.read v := by
  rw [Row.read, updated, h]
  rfl

/-- An expression with others put in for its variables has the value that it has where the variables have theirs, in the rows
    of the group too. -/
theorem Fills.value_of_updated (h : Fills σ e e') (hs : e.isScalar) (hwf : e.wellFormed)
    (hσ : ∀ x ∈ σ, x.2.isScalar ∧ x.2.wellFormed)
    (henv : ∀ v, Uses (·) e v → env.read v = (updated I db σ env' group').read v)
    (hgroup : List.Forall₂ (fun r r' => ∀ v, Uses (·) e v → r.read v = (updated I db σ r' []).read v) group group') :
    (e'.meaning I db).value env' group' = (e.meaning I db).value env group := by
  induction e using induct generalizing e' env env' group group' with
  | node id op cs ih =>
    obtain ⟨hop, hcs⟩ := isScalar_node.mp hs
    obtain ⟨-, hwfs⟩ := wellFormed_node.mp hwf
    cases h with
    | kept hv => exact ((henv _ .reference).trans (read_updated_of_none hv)).symm
    | @filled _ v type x x' hv hx =>
      obtain ⟨hsx, hwfx⟩ := hσ _ (Plan.mem_of_lookup hv)
      exact (hx.value_eq hsx hwfx env' group').trans ((henv v .reference).trans (read_updated_of_some hv)).symm
    | @node _ _ _ cs' ho hargs =>
      have below : ∀ c ∈ cs, ∀ v, Uses (·) c v → Uses (·) (Tree.node id op cs) v := fun c hc v hv =>
        (uses_of_isScalar hop).mpr (.inr ⟨c, hc, hv⟩)
      have hvalues : List.Forall₂ (fun m m' => m.value env group = m'.value env' group') (cs.map (meaning I db)) (cs'.map (meaning I db)) :=
        Run.forall₂_map hargs fun c hc c' h => (ih c hc h (hcs c hc) (hwfs c hc) (fun v hv => henv v (below c hc v hv))
          (hgroup.imp fun r r' hr v hv => hr v (below c hc v hv))).symm
      rw [meaning_node, meaning_node]
      cases op with
      | scalar kind type =>
        have hadmits := admits_of_wellFormed hwf
        rw [← List.length_map (meaning I db)] at hadmits
        rw [← Op.meaningUnder_reading, ← Op.meaningUnder_reading]
        exact (Op.scalar_same I.respects_eq (Reading.respects_eq _) db kind type
          (fun heq => kind_ne_element hs hwf (by rw [heq]; rfl)) hadmits hvalues).symm
      | aggregate name type =>
        -- The operands are seen by each row of the group alone.
        refine congrArg (I.aggregate name type) (Run.map_eq_map_of_forall₂ (hgroup.flip.imp fun r' r hr => ?_))
        rw [List.map_map, List.map_map]
        refine Run.map_eq_map_of_forall₂ (Run.forall₂_imp_mem hargs.flip fun c' _ c hc h => ?_)
        exact ih c hc h (hcs c hc) (hwfs c hc) (fun v hv => hr v (below c hc v hv)) .nil
      | constant | null | internalConstant | nullSentinel | constantPredicate => rfl
      | varRef v type => exact absurd rfl (ho v type)
      | combine kind => cases kind <;> cases hop
      | _ => cases hop

theorem Fills.value_eq (h : Fills σ e e') (hs : e.isScalar)
    (hwf : e.wellFormed) (hσ : ∀ x ∈ σ, x.2.isScalar ∧ x.2.wellFormed)
    (hkept : ∀ v, Uses (·) e v → σ.lookup v = none → env.read v = env'.read v)
    (hfilled : ∀ v x, Uses (·) e v → σ.lookup v = some x → env.read v = (x.meaning I db).value env' []) :
    (e'.meaning I db).value env' [] = (e.meaning I db).value env [] := by
  refine h.value_of_updated hs hwf hσ (fun v hv => ?_) .nil
  cases hx : σ.lookup v with
  | none => rw [hkept v hv hx, read_updated_of_none hx]
  | some x => rw [hfilled v x hv hx, read_updated_of_some hx]

end Fills

/-! ### Nulls -/

theorem not_holds_of_preservesNulls (hI : I.RejectsNull) {columns : VarSet} {ansi : Bool} (hwf : q.wellFormed)
    (h : (Predicate.ofTree q).preservesNulls columns ansi = false) {outer r : Row}
    (hnull : ∀ v ∈ columns, (outer.merge r).read v = .null) : (q.meaning I db).holds outer r = false := by
  rw [← meaningUnder_reading]
  exact not_holds_of_not_preservesNulls (fun _ => hI.reading) hwf h hnull

end Tree

end Planwright
