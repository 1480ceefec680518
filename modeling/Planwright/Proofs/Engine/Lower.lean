import Planwright.Proofs.Rule.Remake
import Planwright.Proofs.Tree.Fall

/-! How far a run has come down. A tree that is put in the place of another stands no higher, and below it if a
    rule was applied. A rule reduces a tree if it makes one that stands below it, provided that the run ends on
    all trees below. -/

namespace Planwright

open Run Planwright.Tree Plan Outline

/-- The run is on the way from a tree to another in its place. What the top of the second tree remembers may be out of date. -/
structure Descends (c : Context) (p : Plan) (t : Tree) (c' : Context) (p' : Plan) (t' : Tree) : Prop where
  wellFormed : t'.wellFormed = true
  role : SameRole t.kind t'.kind
  keeps : Keeps {x | x ∈ t.ids} p p'
  parts : Parts p.nodes.size t.ids t'.ids
  sinks : Sinks t.outline t'.outline
  steps : c.steps ≤ c'.steps
  falls : c.steps < c'.steps → Falls t.outline t'.outline

/-- The run has put a tree in the place of another. -/
structure Lowers (c : Context) (p : Plan) (t : Tree) (c' : Context) (p' : Plan) (t' : Tree) : Prop extends
    Descends c p t c' p' t' where
  holds : p'.Holds t'

def Lowered (c : Context) (p : Plan) (t : Tree) (n : NodeId) (c' : Context) (p' : Plan) : Prop :=
  ∃ t', t'.id = n ∧ Lowers c p t c' p' t'

section Lowers
variable {c c' c'' : Context} {p p' p'' : Plan} {t t' t'' : Tree}

theorem Standing.still (h : Standing p t) (hk : Keeps ∅ p p') : Standing p' t := ⟨hk.still h.holds, h.ids, h.wellFormed⟩

theorem Standing.lowers (h : Standing p t) : Lowers c p t c p t where
  holds := h.holds
  wellFormed := h.wellFormed
  role := .refl _
  keeps := .refl _ _
  parts := .refl h.ids
  sinks := .refl _
  steps := Nat.le_refl _
  falls h := absurd h (Nat.lt_irrefl _)

theorem Lowers.standing (h : Lowers c p t c' p' t') (hs : Standing p t) : Standing p' t' :=
  ⟨h.holds, h.parts.nodup hs.ids, h.wellFormed⟩

theorem Descends.trans (h₁ : Descends c p t c' p' t') (h₂ : Descends c' p' t' c'' p'' t'') : Descends c p t c'' p'' t'' where
  wellFormed := h₂.wellFormed
  role := h₁.role.trans h₂.role
  keeps := h₁.keeps.trans h₂.keeps fun x hx hlt => (h₁.parts.mem hx).resolve_right (Nat.not_le.mpr hlt)
  parts := h₁.parts.trans h₂.parts h₁.keeps.size
  sinks := h₁.sinks.trans h₂.sinks
  steps := h₁.steps.trans h₂.steps
  falls h := by
    by_cases hlt : c.steps < c'.steps
    · exact (h₁.falls hlt).sinking h₂.sinks
    · exact h₁.sinks.falls (h₂.falls (by omega))

theorem Lowers.trans (h₁ : Lowers c p t c' p' t') (h₂ : Lowers c' p' t' c'' p'' t'') : Lowers c p t c'' p'' t'' :=
  ⟨h₁.toDescends.trans h₂.toDescends, h₂.holds⟩

theorem Lowers.still (h : Lowers c p t c' p' t') (hk : Keeps ∅ p' p'') (hs : c''.steps = c'.steps) : Lowers c p t c'' p'' t' :=
  { h with
    holds := hk.still h.holds
    keeps := h.keeps.and_then hk
    steps := hs ▸ h.steps
    falls := hs ▸ h.falls }

theorem Descends.of_alike (hwf : t.wellFormed) (hn : t.ids.Nodup) (ha : Alike t t') (hids : t'.ids = t.ids)
    (hk : Keeps {x | x ∈ t.ids} p p') : Descends c p t c p' t' where
  wellFormed := ha.wellFormed hwf
  role := ha.kind ▸ .refl _
  keeps := hk
  parts := by
    rw [hids]
    exact .refl hn
  sinks := ha.outline ▸ .refl _
  steps := Nat.le_refl _
  falls h := absurd h (Nat.lt_irrefl _)

section Child
variable {n : NodeId} {op : Op} {cs : List Tree} {i : Nat} {d d' : Tree}

theorem wellFormed_set (hwf : (Tree.node n op cs).wellFormed) (hd : cs[i]? = some d) (hrole : SameRole d.kind d'.kind)
    (hwf' : d'.wellFormed) : (Tree.node n op (cs.set i d')).wellFormed := by
  obtain ⟨hfits, hwfs⟩ := wellFormed_node.mp hwf
  refine wellFormed_node.mpr ⟨fits_of_sameRole ?_ hfits, fun e he => ?_⟩
  · rw [List.forall₂_map_left_iff, List.forall₂_map_right_iff]
    refine forall₂_set (fun e he => ?_) fun _ _ _ _ => .refl _
    obtain rfl : d = e := Option.some.inj (hd.symm.trans he)
    exact hrole
  · rcases List.mem_or_eq_of_mem_set he with he | rfl
    · exact hwfs e he
    · exact hwf'

theorem Descends.set (hwf : (Tree.node n op cs).wellFormed) (hlt : ∀ x ∈ (Tree.node n op cs).ids, x < p.nodes.size)
    (hd : cs[i]? = some d) (h : Descends c p d c' p' d') (hk : Keeps {n} p' p'') :
    Descends c p (.node n op cs) c' p'' (.node n op (cs.set i d')) where
  wellFormed := wellFormed_set hwf hd h.role h.wellFormed
  role := .refl _
  keeps := by
    refine (h.keeps.mono fun x hx _ => ids_subset_of_child hd x hx).trans hk fun x hx _ => ?_
    obtain rfl : x = n := hx
    exact id_mem_ids (.node x op cs)
  parts := by
    rw [ids_node] at hlt
    rw [ids_node, ids_node]
    exact .set [n] hd h.parts hlt
  sinks := by
    rw [outline_node, outline_node, List.map_set]
    exact h.sinks.set (by rw [List.getElem?_map, hd]; rfl)
  steps := h.steps
  falls hlt := by
    rw [outline_node, outline_node, List.map_set]
    exact (h.falls hlt).set (by rw [List.getElem?_map, hd]; rfl)

theorem rank_child (hd : d ∈ cs) : d.outline.rank < (Tree.node n op cs).outline.rank := by
  obtain ⟨i, hi⟩ := List.mem_iff_getElem?.mp hd
  rw [outline_node]
  exact rank_lt_of_child (i := i) (by rw [List.getElem?_map, hi]; rfl)

end Child

end Lowers

theorem Plan.Shows.ids_lt {n : NodeId} {op : Op} {cs : List Tree} {p : Plan} (h : p.Shows n op cs) :
    ∀ x ∈ (Tree.node n op cs).ids, x < p.nodes.size := fun x hx => by
  rw [ids_node, List.mem_cons, List.mem_flatMap] at hx
  rcases hx with rfl | ⟨d, hd, hx⟩
  · exact h.lt
  · exact (h.below d hd).ids_lt x hx

theorem replaceChild_halts {c : Context} {p p' : Plan} {n : NodeId} {op : Op} {cs : List Tree} {i : Nat} {d d' : Tree}
    (h : p.Shows n op cs) (hn : (Tree.node n op cs).ids.Nodup) (hd : cs[i]? = some d) (hk : Keeps {x | x ∈ d.ids} p p')
    (hh : p'.Holds d') (hn' : (Tree.node n op (cs.set i d')).ids.Nodup) :
    HaltsIn (if d'.id ≠ d.id then (setChild n i d'.id : RuleM Unit) else pure ()) c p' fun _ c' p'' =>
      c' = c ∧ Keeps {n} p' p'' ∧ p''.Shows n op (cs.set i d') := by
  obtain ⟨r, hr, ho, hch⟩ := h.node
  obtain ⟨r', hr', ho', hch'⟩ := hk.node n r hr (not_mem_of_child hn d (List.mem_of_getElem? hd))
  have hbelow := holds_set h hn hd hk hh
  split
  · refine .lift (((setChild_works hr' (ho'.trans ho) ?_ hbelow (not_mem_of_child hn')).when nofun).mono
      fun _ p'' ⟨hk', hh', _⟩ => ⟨rfl, hk', hh'.shows⟩)
    rw [hch', hch, List.map_set]
  · rename_i heq
    refine .pure ⟨rfl, .refl _ _, ⟨r', hr', ho'.trans ho, ?_⟩, hbelow⟩
    obtain ⟨hi, rfl⟩ := List.getElem?_eq_some_iff.mp hd
    rw [hch', hch, List.map_set, not_ne_iff.mp heq, ← List.map_set, List.set_getElem_self]

/-- What a rule ends with: it has changed nothing, or made a tree that stands below. -/
def Reduced (c : Context) (p : Plan) (t : Tree) : Option NodeId → Context → Plan → Prop
  | none, c', p' => c'.steps = c.steps ∧ Keeps ∅ p p'
  | some n, c', p' => ∃ t', t'.id = n ∧ Lowers c p t c' p' t' ∧ Falls t.outline t'.outline

/-- Settling ends on all trees that stand below. -/
def SettlesBelow (settle : Nat → NodeId → RuleM NodeId) (t : Tree) : Prop :=
  ∀ {c p t'}, Standing p t' → t'.outline.rank < t.outline.rank → Stabilizes (fun k => settle k t'.id) c p (Lowered c p t')

def Rule.Reduces (rule : Rule) : Prop :=
  ∀ {settle : Nat → NodeId → RuleM NodeId} {c p t}, Standing p t → SettlesBelow settle t → rule.pattern.holds p t.id = true →
    Stabilizes (fun k => rule.apply (settle k) t.id) c p (Reduced c p t)

/-- What a rule has to make of a tree to reduce it. -/
structure Below (t t' : Tree) : Prop where
  wellFormed : t'.wellFormed = true
  role : SameRole t.kind t'.kind
  falls : Falls t.outline t'.outline

section Reduced
variable {c c' : Context} {p p' : Plan} {t : Tree}

theorem Reduced.of_remade {P : List VarId → VarMap → Tree → Prop} {out : Option NodeId} (hs : Standing p t)
    (h : Remade c p t P out c' p') (hP : ∀ {vs m t'}, P vs m t' → Below t t') : Reduced c p t out c' p' := by
  cases out with
  | none =>
    obtain ⟨rfl, hk⟩ := h
    exact ⟨rfl, hk⟩
  | some n =>
    obtain ⟨t', vs, rfl, ⟨hheld, ⟨fs, hg, hids⟩, hsteps⟩, hP'⟩ := h
    obtain ⟨hwf, hrole, hfalls⟩ := hP hP'
    exact ⟨t', rfl, ⟨⟨hwf, hrole, hg.keeps, hg.nodes.parts hs.holds.ids_lt hids, hfalls.sinks, hsteps.ge, fun _ => hfalls⟩, hheld⟩,
      hfalls⟩

theorem Rule.Makes.reduces {name : String} {pattern : Pattern} {f : NodeId → RuleM (Option NodeId)}
    {P : Context → Plan → Tree → List VarId → VarMap → Tree → Prop} (h : (Rule.simple name pattern f).Makes P)
    (hP : ∀ {c p t vs m t'}, Standing p t → P c p t vs m t' → Below t t') : (Rule.simple name pattern f).Reduces := by
  intro settle c p t hs _ hmatch
  have hrun := h c p t pure hs ((Pattern.holds_eq_fits _ hs.holds).symm.trans hmatch)
  exact (hrun.mono fun _ _ _ hout => .of_remade hs hout (hP hs)).stabilizes

end Reduced

end Planwright
