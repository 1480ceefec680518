import Planwright.Proofs.Semantics.Place

/-! Swapping parts. A tree means the same after one of its parts is swapped for another that means the same wherever the part
    is evaluated: nothing else of it matters. -/

namespace Planwright

/-- The meanings give the same for the row and the group. -/
abbrev Meaning.AgreesAt (m n : Meaning) (env : Row) (group : List Row) : Prop := m.Resembles (.under Eq) n ⟨env, group⟩ ⟨env, group⟩

theorem Meaning.AgreesAt.refl (m : Meaning) (env : Row) (group : List Row) : m.AgreesAt m env group where
  rows := List.forall₂_same.mpr fun _ _ => Row.resembles_eq.mpr rfl
  value := rfl
  defs := List.forall₂_same.mpr fun _ _ => ⟨trivial, rfl, rfl⟩

namespace Tree

variable {I : Interpretation} {db : Database} {env : Row} {group : List Row}

/-- Nodes with inputs of the same columns that are evaluated at the same spot evaluate their children at the same spots. -/
theorem Abreast.enters (id : NodeId) {op : Op} {cs cs' : List Tree} {i : Nat} {q q' : Spot} (hs : Shape op cs)
    (hcols : List.Forall₂ (fun c c' => c.IsRelational → (meaning I db c').columns = (meaning I db c).columns) cs cs')
    (h : Abreast I (meaning I db) (.under Eq) op cs cs' i ⟨env, group⟩ ⟨env, group⟩ q q') :
    q' = q ∧ Enters I db (node id op cs) i env group q.row q.group := by
  cases h with
  | input hop hno => exact ⟨rfl, .input hop hno⟩
  | row hby hr hrr =>
    obtain rfl := Row.resembles_eq.mp hrr
    exact ⟨rfl, .row hby hr⟩
  | pair hby hl hll hr hrr =>
    obtain rfl := Row.resembles_eq.mp hll
    obtain rfl := Row.resembles_eq.mp hrr
    exact ⟨rfl, .pair hby hl hr⟩
  | rows hmem hg =>
    cases hs with
    | scalar hscalar => cases hscalar
    | groupBy _ _ hx =>
      obtain _ | ⟨hcols, -⟩ := hcols
      obtain rfl := Row.forall₂_resembles_eq hg
      exact ⟨by rw [hcols hx], .rows hmem⟩
  | count =>
    cases hs with
    | scalar hscalar => cases hscalar
    | constrainedSort _ hx =>
      obtain _ | ⟨hcols, -⟩ := hcols
      exact ⟨by rw [hcols hx], .count⟩
  | operand hop hne => exact ⟨rfl, .operand hop hne⟩
  | aggregated hr =>
    obtain rfl := (List.forall₂_iff_zip.mp (List.forall₂_same.mpr fun _ _ => rfl)).2 hr
    exact ⟨rfl, .aggregated (List.of_mem_zip hr).1⟩

/-- One tree is the other with the part at a place replaced. -/
inductive Swaps (s s' : Tree) : Tree → List Nat → Tree → Prop
  | here : Swaps s s' s [] s'
  | child {id : NodeId} {op : Op} {cs : List Tree} {i : Nat} {c c' : Tree} {path : List Nat} :
      cs[i]? = some c → Swaps s s' c path c' → Swaps s s' (node id op cs) (i :: path) (node id op (cs.set i c'))

variable {s s' t t' : Tree} {path : List Nat}

theorem isImage_iff_eq {s s' : VarSet} : Op.IsImage (·) s s' ↔ s' = s := by
  rw [VarSet.ext_iff]
  exact forall_congr' fun w => by simp

theorem Swaps.columns (hswap : Swaps s s' t path t') (ht : t.wellFormed)
    (hcols : (s'.meaning I db).columns = (s.meaning I db).columns) :
    t.IsRelational → (t'.meaning I db).columns = (t.meaning I db).columns := by
  induction hswap with
  | here => exact fun _ => hcols
  | child hc _ ih =>
    obtain ⟨hf, hwf⟩ := wellFormed_node.mp ht
    refine fun hrel => isImage_iff_eq.mp (columns_node (g := .under Eq) (shape_of_fits hf) (.mirrors (.refl _)) hrel
      (Run.forall₂_set (fun d hd hrel => ?_) fun _ _ _ _ _ => isImage_iff_eq.mpr rfl))
    cases hc.symm.trans hd
    exact isImage_iff_eq.mpr (ih (hwf _ (List.mem_of_getElem? hc)) hrel)

theorem Swaps.agreesAt (hswap : Swaps s s' t path t') (ht : t.wellFormed)
    (hcols : (s'.meaning I db).columns = (s.meaning I db).columns)
    (h : ∀ env' group', Evaluates I db t path env group env' group' → (s.meaning I db).AgreesAt (s'.meaning I db) env' group') :
    (t.meaning I db).AgreesAt (t'.meaning I db) env group := by
  induction hswap generalizing env group with
  | here => exact h env group .here
  | @child id op cs i c c' path hc hswap ih =>
    obtain ⟨hf, hwf⟩ := wellFormed_node.mp ht
    have hs := shape_of_fits hf
    have hsame : List.Forall₂ (fun c c' => c.IsRelational → (meaning I db c').columns = (meaning I db c).columns) cs (cs.set i c') := by
      refine Run.forall₂_set (fun d hd => ?_) fun _ _ _ _ _ => rfl
      cases hc.symm.trans hd
      exact hswap.columns (hwf c (List.mem_of_getElem? hc)) hcols
    refine resembles_node I.respects_eq (Reading.respects_eq _) (fun _ _ _ _ heq => heq) hs (.mirrors (.refl op)) (fun _ _ => trivial)
      (hsame.imp fun _ _ h hrel => ⟨isImage_iff_eq.mpr (h hrel), fun _ _ => trivial⟩) (fun _ => I.arranges_eq)
      (fun _ => hsame.imp fun _ _ h hrel => by simp [h hrel]) (fun _ _ _ => rfl) rfl fun j d d' hd hd' q q' hq => ?_
    obtain ⟨rfl, hent⟩ := hq.enters id hs hsame
    by_cases hij : i = j
    · subst hij
      cases hc.symm.trans hd
      rw [List.getElem?_set_self (List.getElem?_eq_some_iff.mp hc).1] at hd'
      cases hd'
      exact ih (hwf c (List.mem_of_getElem? hc)) fun env' group' he => h env' group' (.child hc hent he)
    · rw [List.getElem?_set_ne hij] at hd'
      cases hd.symm.trans hd'
      exact Meaning.AgreesAt.refl _ _ _

end Tree

end Planwright
