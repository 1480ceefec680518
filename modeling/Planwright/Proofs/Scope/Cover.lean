import Planwright.Proofs.Variable.Renaming

/-! Trees under other names. A tree covers another if it defines whatever the other does and is in scope if the other
    is, under the names that a function gives. Covering is a matter of each node: of what its operator names, and of
    its children. -/

namespace Planwright

open Run

namespace Op

/-- The new operator names what the old one does, under the names that `f` gives. -/
structure Follows (f : VarId → VarId) (op op' : Op) : Prop where
  shown : ∀ vs, op.shown = some vs → ∃ vs', op'.shown = some vs' ∧ ∀ v ∈ vs, f v ∈ vs'
  hidden : op.shown = none → op'.shown = none
  passes : ∀ i, op'.passes i = op.passes i
  needs : ∀ x ∈ op'.needs, ∃ y ∈ op.needs, y.2 = x.2 ∧ f y.1 = x.1

section Follows
variable {f : VarId → VarId} {s s' keys keys' : VarSet}

theorem Follows.plain {op : Op} (h : op.needs = []) : Follows f op op where
  shown vs hs := ⟨vs, hs, fun v hv => by
    obtain ⟨x, hx, rfl⟩ := Tree.exists_needs_of_shown hs hv
    rw [h] at hx
    cases hx⟩
  hidden := id
  passes _ := rfl
  needs x hx := by rw [h] at hx; cases hx

theorem Follows.silent {op op' : Op} (hs : op.shown = none) (hs' : op'.shown = none) (hneeds : op'.needs = [])
    (hpasses : ∀ i, op'.passes i = op.passes i) : Follows f op op' where
  shown vs h := by rw [hs] at h; cases h
  hidden _ := hs'
  passes := hpasses
  needs x hx := by rw [hneeds] at hx; cases hx

theorem exists_need (h : IsImage f s s') {places : List Nat} {x : VarId × List Nat}
    (hx : x ∈ s'.toList.map fun v => (v, places)) :
    ∃ y ∈ s.toList.map fun v => (v, places), y.2 = x.2 ∧ f y.1 = x.1 := by
  obtain ⟨w, hw, rfl⟩ := List.mem_map.mp hx
  obtain ⟨v, hv, rfl⟩ := (h w).mp (VarSet.mem_toList.mp hw)
  exact ⟨(v, places), List.mem_map.mpr ⟨v, VarSet.mem_toList.mpr hv, rfl⟩, rfl, rfl⟩

theorem Follows.project (h : IsImage f s s') : Follows f (.project s) (.project s') where
  shown := by
    rintro vs ⟨⟩
    exact ⟨s', rfl, fun v hv => (h _).mpr ⟨v, hv, rfl⟩⟩
  hidden := nofun
  passes _ := rfl
  needs _ hx := exists_need h hx

theorem Follows.distinct (h : IsImage f s s') : Follows f (.distinct s) (.distinct s') where
  shown := by
    rintro vs ⟨⟩
    exact ⟨s', rfl, fun v hv => (h _).mpr ⟨v, hv, rfl⟩⟩
  hidden := nofun
  passes _ := rfl
  needs _ hx := exists_need h hx

theorem Follows.groupBy (hk : IsImage f keys keys') (h : IsImage f s s') :
    Follows f (.groupBy keys s) (.groupBy keys' s') where
  shown := by
    rintro vs ⟨⟩
    exact ⟨s', rfl, fun v hv => (h _).mpr ⟨v, hv, rfl⟩⟩
  hidden := nofun
  passes _ := rfl
  needs x hx := by
    rcases List.mem_append.mp hx with hx | hx
    · obtain ⟨y, hy, heq⟩ := exists_need hk hx
      exact ⟨y, List.mem_append_left _ hy, heq⟩
    · obtain ⟨y, hy, heq⟩ := exists_need h hx
      exact ⟨y, List.mem_append_right _ hy, heq⟩

theorem Follows.combine {kind : SetKind} {l r l' r' : VarMap}
    (hl : ∀ e' ∈ l'.entries, ∃ e ∈ l.entries, f e.2 = e'.2) (hr : ∀ e' ∈ r'.entries, ∃ e ∈ r.entries, f e.2 = e'.2) :
    Follows f (.combine kind s l r) (.combine kind s' l' r') where
  shown := nofun
  hidden _ := rfl
  passes _ := rfl
  needs x hx := by
    rcases List.mem_append.mp hx with hx | hx
    · obtain ⟨e', he', rfl⟩ := List.mem_map.mp hx
      obtain ⟨e, he, heq⟩ := hl e' he'
      exact ⟨(e.2, [0]), List.mem_append_left _ (List.mem_map.mpr ⟨e, he, rfl⟩), rfl, heq⟩
    · obtain ⟨e', he', rfl⟩ := List.mem_map.mp hx
      obtain ⟨e, he, heq⟩ := hr e' he'
      exact ⟨(e.2, [1]), List.mem_append_right _ (List.mem_map.mpr ⟨e, he, rfl⟩), rfl, heq⟩

end Follows

end Op

namespace Tree

/-- The new tree defines what the old one does and is in scope if that is, under the names that `f` gives. -/
structure Covers (f : VarId → VarId) (t t' : Tree) : Prop where
  defines : ∀ v, Defines (·) t v → Defines (·) t' (f v)
  inScope : Scoped (·) t → Scoped (·) t'

theorem Covers.congr {f g : VarId → VarId} {t t' : Tree} (h : Covers f t t') (hd : ∀ v, Defines (·) t v → g v = f v) : Covers g t t' where
  defines v hv := hd v hv ▸ h.defines v hv
  inScope := h.inScope

/-- A node covers another if its operator follows that one's and its children cover those of the other. -/
theorem Covers.node {f : VarId → VarId} {id id' : NodeId} {op op' : Op} {cs cs' : List Tree} (ho : op.Follows f op')
    (hown : ∀ v ∈ op.own, f v ∈ op'.own) (hreg : op.Regular → op'.Regular) (hcs : List.Forall₂ (Covers f) cs cs') :
    Covers f (.node id op cs) (.node id' op' cs') where
  defines v hv := by
    cases hv with
    | shown hs hv =>
      obtain ⟨vs', hs', hmem⟩ := ho.shown _ hs
      exact .shown hs' (hmem _ hv)
    | own hs hv => exact .own (ho.hidden hs) (hown _ hv)
    | passed hs hc hp hd =>
      obtain ⟨c', hc', hcov⟩ := getElem?_of_forall₂ hcs hc
      exact .passed (ho.hidden hs) hc' ((ho.passes _).trans hp) (hcov.defines _ hd)
  inScope hs := by
    obtain ⟨hregular, hneeds, hcs'⟩ := scoped_node.mp hs
    refine .node (hreg hregular) (fun x hx => ?_) fun c' hc' => ?_
    · obtain ⟨y, hy, hplaces, heq⟩ := ho.needs x hx
      obtain ⟨i, c, hc, hi, hd⟩ := hneeds y hy
      obtain ⟨c', hc', hcov⟩ := getElem?_of_forall₂ hcs hc
      exact ⟨i, c', hc', hplaces ▸ hi, heq ▸ hcov.defines _ hd⟩
    · obtain ⟨c, hc, hcov⟩ := exists_of_forall₂_right hcs hc'
      exact hcov.inScope (hcs' c hc)

end Tree

end Planwright
