import Mathlib.Data.List.Nodup
import Mathlib.Data.String.Basic
import Planwright.Plan.Explain
import Planwright.Proofs.Tree.Basic

/-! Drawings of records. Identifiers are made of a name, where some characters are replaced, and of how often
    the name was used before; so they are all different just if the names are still told apart then, which is so
    for the names of operators. -/

namespace Planwright

namespace Record

mutual

/-- A record is laid out under an identifier for its root, with a labelled node for each of its nodes and these edges. -/
inductive Laid : Record → String → List (String × String) → List Edge → Prop
  | node {name id : String} {fields : List (String × String)} {children : List (String × Record)} {ns : List (String × String)}
      {es : List Edge} : LaidBelow id 0 children ns es →
        Laid (node name fields children) id ((id, label name fields (children.map (·.1))) :: ns) es

/-- Children are laid out below a node, which has an edge to each of them from the slot of its index. -/
inductive LaidBelow : String → Nat → List (String × Record) → List (String × String) → List Edge → Prop
  | nil {parent : String} {i : Nat} : LaidBelow parent i [] [] []
  | cons {parent : String} {i : Nat} {name id : String} {child : Record} {rest : List (String × Record)}
      {ns ns' : List (String × String)} {es es' : List Edge} : Laid child id ns es → LaidBelow parent (i + 1) rest ns' es' →
        LaidBelow parent i ((name, child) :: rest) (ns ++ ns') (es ++ ⟨parent, slotName i, id⟩ :: es')

end

def names : Record → List String
  | node name _ children => name :: namesBelow children
where
  namesBelow : List (String × Record) → List String
    | [] => []
    | (_, child) :: rest => child.names ++ namesBelow rest

def used (counts : Counts) (name : String) : Nat := (counts.lookup name).getD 0

theorem used_nextId (counts : Counts) (name x : String) :
    used (nextId counts name).2 x = if x = name then used counts x + 1 else used counts x := by
  rw [nextId, used, List.lookup_cons]
  by_cases h : x = name
  · subst h
    simp [used]
  · have hne : (x == name) = false := beq_false_of_ne h
    have hrest : (counts.filter (·.1 != name)).lookup x = counts.lookup x := by
      induction counts with
      | nil => rfl
      | cons c counts ih =>
        obtain ⟨y, n⟩ := c
        by_cases hy : y = name
        · subst hy
          simpa [List.lookup_cons, hne] using ih
        · simp [List.lookup_cons, hy, ih]
    rw [hne, if_neg h, hrest, used]

/-- The identifier of a name that was used so often before. -/
def identifier (tag : String × Nat) : String := sanitize tag.1 ++ "_" ++ toString tag.2

/-- The tags are new: each name gets the numbers from how often it was used before to how often it has been used now. -/
structure Numbers (counts : Counts) (tags : List (String × Nat)) (counts' : Counts) : Prop where
  nodup : tags.Nodup
  le : ∀ x, used counts x ≤ used counts' x
  within : ∀ t ∈ tags, used counts t.1 ≤ t.2 ∧ t.2 < used counts' t.1
  first : ∀ x, used counts x < used counts' x → (x, used counts x) ∈ tags

variable {k k' k'' : Counts} {ts us : List (String × Nat)}

theorem Numbers.append (h : Numbers k ts k') (h' : Numbers k' us k'') : Numbers k (ts ++ us) k'' where
  nodup := by
    refine h.nodup.append h'.nodup fun t ht hu => ?_
    have := h.within t ht
    have := h'.within t hu
    omega
  le x := Nat.le_trans (h.le x) (h'.le x)
  within t ht := by
    have := h.le t.1
    have := h'.le t.1
    rcases List.mem_append.mp ht with ht | ht
    · have := h.within t ht
      omega
    · have := h'.within t ht
      omega
  first x hx := by
    rcases Nat.lt_or_eq_of_le (h.le x) with hlt | heq
    · exact List.mem_append_left _ (h.first x hlt)
    · rw [heq] at hx ⊢
      exact List.mem_append_right _ (h'.first x hx)

theorem Numbers.next (k : Counts) (name : String) : Numbers k [(name, used k name)] (nextId k name).2 where
  nodup := List.nodup_singleton _
  le x := by
    rw [used_nextId]
    split <;> omega
  within t ht := by
    obtain rfl := List.mem_singleton.mp ht
    simp [used_nextId]
  first x hx := by
    rw [used_nextId] at hx
    split at hx
    · subst x
      exact List.mem_singleton_self _
    · omega

mutual

theorem place_laid : ∀ (r : Record) (d : Drawing) (counts : Counts), ∃ id ns es counts' tags,
    place d counts r = (id, ⟨d.nodes ++ ns, d.edges ++ es⟩, counts') ∧ Laid r id ns es ∧ ns.map (·.1) = tags.map identifier ∧
      tags.map (·.1) = r.names ∧ Numbers counts tags counts'
  | node name fields children, d, counts => by
    obtain ⟨ns, es, counts', tags, hrun, hlaid, hids, hnames, hnumbers⟩ := placeAll_laid children (nextId counts name).1 0
      { d with nodes := d.nodes ++ [((nextId counts name).1, label name fields (children.map (·.1)))] } (nextId counts name).2
    refine ⟨_, _, es, counts', (name, used counts name) :: tags, ?_, .node hlaid, ?_, ?_, (Numbers.next counts name).append hnumbers⟩
    · simp only [place]
      rw [hrun]
      simp
    · rw [List.map_cons, List.map_cons, hids]
      rfl
    · rw [List.map_cons, hnames, names]

theorem placeAll_laid : ∀ (children : List (String × Record)) (parent : String) (i : Nat) (d : Drawing) (counts : Counts),
    ∃ ns es counts' tags, place.placeAll parent i d counts children = (⟨d.nodes ++ ns, d.edges ++ es⟩, counts') ∧
      LaidBelow parent i children ns es ∧ ns.map (·.1) = tags.map identifier ∧ tags.map (·.1) = names.namesBelow children ∧
        Numbers counts tags counts'
  | [], parent, i, d, counts => ⟨[], [], counts, [], by simp [place.placeAll], .nil, rfl, rfl, .nil, fun _ => Nat.le_refl _, nofun,
    fun _ h => absurd h (Nat.lt_irrefl _)⟩
  | (name, child) :: rest, parent, i, d, counts => by
    obtain ⟨id, ns, es, counts₁, tags, hrun, hlaid, hids, hnames, hnumbers⟩ := place_laid child d counts
    obtain ⟨ns', es', counts₂, tags', hrun', hlaid', hids', hnames', hnumbers'⟩ := placeAll_laid rest parent (i + 1)
      ⟨d.nodes ++ ns, d.edges ++ es ++ [⟨parent, slotName i, id⟩]⟩ counts₁
    refine ⟨_, _, counts₂, tags ++ tags', ?_, .cons hlaid hlaid', ?_, ?_, hnumbers.append hnumbers'⟩
    · simp only [place.placeAll, hrun]
      rw [hrun']
      simp
    · rw [List.map_append, List.map_append, hids, hids']
    · rw [List.map_append, hnames, hnames', names.namesBelow]

end

/-! ### Identifiers -/

theorem append_cons_inj {α : Type} {as as' ds ds' : List α} {c : α} (hd : c ∉ ds) (hd' : c ∉ ds')
    (h : as ++ c :: ds = as' ++ c :: ds') : as = as' ∧ ds = ds' := by
  rcases List.append_eq_append_iff.mp h with ⟨bs, rfl, h⟩ | ⟨bs, rfl, h⟩ <;> cases bs with
  | nil => simp_all
  | cons b bs => simp_all

theorem identifier_inj {s t : String × Nat} (h : identifier s = identifier t) : sanitize s.1 = sanitize t.1 ∧ s.2 = t.2 := by
  have hlist : (sanitize s.1).toList ++ '_' :: Nat.toDigits 10 s.2 = (sanitize t.1).toList ++ '_' :: Nat.toDigits 10 t.2 := by
    simpa [identifier] using congrArg String.toList h
  obtain ⟨hname, hdigits⟩ := append_cons_inj Nat.underscore_not_in_toDigits Nat.underscore_not_in_toDigits hlist
  have hnumber := congrArg (Nat.ofDigitChars 10 · 0) hdigits
  rw [Nat.ofDigitChars_toDigits (by decide) (by decide), Nat.ofDigitChars_toDigits (by decide) (by decide)] at hnumber
  exact ⟨String.toList_inj.mp hname, hnumber⟩

/-- The names of a record stay apart where characters are replaced. -/
def NamesApart (r : Record) : Prop := ∀ x ∈ r.names, ∀ y ∈ r.names, sanitize x = sanitize y → x = y

mutual

theorem Laid.targets : ∀ {r : Record} {id : String} {ns : List (String × String)} {es : List Edge}, Laid r id ns es →
    (id :: es.map Edge.target).Perm (ns.map (·.1))
  | _, _, _, _, .node h => h.targets.cons _

theorem LaidBelow.targets : ∀ {parent : String} {i : Nat} {children : List (String × Record)} {ns : List (String × String)}
    {es : List Edge}, LaidBelow parent i children ns es → (es.map Edge.target).Perm (ns.map (·.1))
  | _, _, _, _, _, .nil => .nil
  | _, _, _, _, _, .cons h h' => by
    rw [List.map_append, List.map_append, List.map_cons]
    exact List.perm_middle.trans (h.targets.append h'.targets)

end

end Record

namespace Drawing

theorem insertNode_perm {id label : String} {ns : List (String × String)} (h : id ∉ ns.map (·.1)) :
    (insertNode id label ns).Perm ((id, label) :: ns) := by
  induction ns with
  | nil => exact .refl _
  | cons n ns ih =>
    obtain ⟨other, l⟩ := n
    rw [List.map_cons, List.mem_cons, not_or] at h
    rw [insertNode]
    split
    · exact .refl _
    · rw [if_neg h.1]
      exact ((ih h.2).cons _).trans (.swap _ _ _)

theorem sortedNodes_perm {d : Drawing} (h : (d.nodes.map (·.1)).Nodup) : d.sortedNodes.Perm d.nodes := by
  have hfold : ∀ ns acc : List (String × String), ((acc ++ ns).map (·.1)).Nodup →
      (ns.foldl (fun ns n => insertNode n.1 n.2 ns) acc).Perm (acc ++ ns) := by
    intro ns
    induction ns with
    | nil => exact fun acc _ => by simp
    | cons n ns ih =>
      intro acc hnodup
      have hnew : n.1 ∉ acc.map (·.1) := fun hmem => by
        rw [List.map_append, List.nodup_append] at hnodup
        exact hnodup.2.2 _ hmem _ (List.mem_map_of_mem List.mem_cons_self) rfl
      have hperm : (insertNode n.1 n.2 acc ++ ns).Perm (acc ++ n :: ns) :=
        ((insertNode_perm hnew).append_right ns).trans List.perm_middle.symm
      exact (ih _ ((hperm.map _).nodup_iff.mpr hnodup)).trans hperm
  simpa [sortedNodes] using hfold d.nodes [] (by simpa using h)

/-- The drawing is the tree of the record: each node of the record has a node of its own with its label, which is shown, and each
    but the root is the target of one edge, which comes from the slot of its index at its parent. -/
def IsFaithful (d : Drawing) (r : Record) : Prop :=
  ∃ root, r.Laid root d.nodes d.edges ∧ (d.nodes.map (·.1)).Nodup ∧ d.sortedNodes.Perm d.nodes ∧
    (root :: d.edges.map Edge.target).Perm (d.nodes.map (·.1))

end Drawing

namespace Record

theorem draw_isFaithful_iff (r : Record) : r.draw.IsFaithful r ↔ r.NamesApart := by
  obtain ⟨root, ns, es, counts, tags, hrun, hlaid, hids, hnames, hnumbers⟩ := place_laid r ⟨[], []⟩ []
  have hdraw : r.draw = ⟨ns, es⟩ := by simp [draw, hrun]
  rw [hdraw]
  constructor
  · rintro ⟨-, -, hnodup, -⟩ x hx y hy heq
    -- Both names were numbered from zero.
    have hzero : ∀ z ∈ r.names, (z, 0) ∈ tags := by
      intro z hz
      obtain ⟨t, ht, rfl⟩ := List.mem_map.mp (hnames ▸ hz)
      have hwithin := hnumbers.within t ht
      exact hnumbers.first t.1 (by omega)
    have htags := List.inj_on_of_nodup_map (hids ▸ hnodup) (hzero x hx) (hzero y hy) (by simp [identifier, heq])
    exact (Prod.mk.inj htags).1
  · intro h
    have hnodup : (ns.map (·.1)).Nodup := by
      rw [hids]
      refine hnumbers.nodup.map_on fun s hs t ht heq => ?_
      obtain ⟨hname, hnumber⟩ := identifier_inj heq
      refine Prod.ext (h s.1 ?_ t.1 ?_ hname) hnumber
      all_goals exact hnames ▸ List.mem_map_of_mem ‹_›
    exact ⟨root, hlaid, hnodup, Drawing.sortedNodes_perm hnodup, hlaid.targets⟩

/-! ### Explanations -/

theorem mem_namesBelow {x : String} {children : List (String × Record)} :
    x ∈ names.namesBelow children ↔ ∃ c ∈ children, x ∈ c.2.names := by
  induction children with
  | nil => simp [names.namesBelow]
  | cons c children ih => simp [names.namesBelow, ih]

theorem sanitize_kind_name (k : OpKind) : sanitize k.name = k.name := by
  cases k <;> decide +kernel

end Record

open Record in
theorem Plan.explainTree_names (withInfo : Bool) (t : Tree) : ∀ p : Plan,
    Run.Ends (explainTree withInfo t) p fun r _ => ∀ x ∈ r.names, ∃ k : OpKind, x = k.name := by
  induction t using Tree.induct with
  | node id op cs ih =>
    have hbelow : ∀ p, Run.Ends (cs.mapM (explainTree withInfo)) p fun rs _ =>
        ∀ r ∈ rs, ∀ x ∈ r.names, ∃ k : OpKind, x = k.name := by
      clear op
      induction cs with
      | nil => exact fun p => .pure nofun
      | cons c cs ihcs =>
        intro p
        rw [List.mapM_cons]
        refine .bind (ih c List.mem_cons_self p) fun r p hr => ?_
        refine .bind (ihcs (fun d hd => ih d (List.mem_cons_of_mem _ hd)) p) fun rs p hrs => .pure ?_
        exact List.forall_mem_cons.mpr ⟨hr, hrs⟩
    have hnode : ∀ (fields : List (String × String)) (p : Plan), Run.Ends (do
        if op.kind == .caseWhen && cs.isEmpty then throw .malformed
        let below ← cs.mapM (explainTree withInfo)
        return Record.node op.kind.name fields ((op.kind.childNames cs.length).zip below)) p
          fun r _ => ∀ x ∈ r.names, ∃ k : OpKind, x = k.name := by
      intro fields p
      dsimp only
      split
      · exact .bind (R := fun _ _ => False) .throw fun _ _ h => h.elim
      refine .bind (hbelow p) fun rs p hrs => .pure fun x hx => ?_
      rw [names, List.mem_cons, mem_namesBelow] at hx
      obtain rfl | ⟨c, hc, hx⟩ := hx
      · exact ⟨op.kind, rfl⟩
      · exact hrs c.2 (List.of_mem_zip hc).2 x hx
    intro p
    rw [explainTree]
    refine .get ?_
    dsimp only
    split
    · exact .bind (R := fun _ _ => True) (fun _ _ _ => trivial) fun _ _ _ => hnode _ _
    · exact hnode _ _

namespace Record

/-- A drawing is faithful just if the names of the record are told apart, and so it is if the record explains a plan. -/
theorem draw_faithful (r : Record) : (r.draw.IsFaithful r ↔ r.NamesApart) ∧
    ∀ (n : NodeId) (withInfo : Bool) (p p' : Plan), Plan.explain n withInfo p = .ok (r, p') → r.draw.IsFaithful r := by
  refine ⟨draw_isFaithful_iff r, fun n withInfo p p' h => ?_⟩
  obtain ⟨t, p₁, -, h⟩ := Run.bind_run_ok.mp h
  have hnames := Plan.explainTree_names withInfo t p₁ r p' h
  rw [draw_isFaithful_iff]
  intro x hx y hy heq
  obtain ⟨k, rfl⟩ := hnames x hx
  obtain ⟨l, rfl⟩ := hnames y hy
  rwa [sanitize_kind_name, sanitize_kind_name] at heq

/-- Two single rows side by side. -/
def paired : Plan :=
  { vars := .empty
    nodes := #[⟨.singleRowTable, [], none⟩, ⟨.singleRowTable, [], none⟩, ⟨.crossJoin, [0, 1], none⟩]
    tableCount := 0
    root := 2 }

def pairedRecord : Record :=
  .node "CrossJoin" [] [("left", .node "SingleRowTable" [] []), ("right", .node "SingleRowTable" [] [])]

theorem draw_faithful_paired : Plan.explain 2 false paired = .ok (pairedRecord, paired) ∧
    pairedRecord.draw.nodes.map (·.1) = ["CrossJoin_0", "SingleRowTable_0", "SingleRowTable_1"] ∧
      pairedRecord.draw.IsFaithful pairedRecord := by
  have hrun : Plan.explain 2 false paired = .ok (pairedRecord, paired) := by
    show Plan.explainTree false (.node 2 .crossJoin [.node 0 .singleRowTable [], .node 1 .singleRowTable []]) paired = _
    simp only [Plan.explainTree, List.mapM_cons, List.mapM_nil]
    rfl
  exact ⟨hrun, by decide +kernel, (draw_faithful pairedRecord).2 2 false paired paired hrun⟩

/-- Two names that are one once blanks and dashes are replaced: only one node is shown, with an edge to itself. -/
theorem draw_confused :
    let r : Record := .node "a b" [] [("x", .node "a-b" [] [])]
    r.draw.sortedNodes.map (·.1) = ["a_b_0"] ∧ r.draw.edges = [⟨"a_b_0", "c0", "a_b_0"⟩] ∧ ¬r.draw.IsFaithful r := by
  refine ⟨by decide +kernel, by decide +kernel, fun ⟨_, _, hnodup, _⟩ => ?_⟩
  revert hnodup
  decide +kernel

end Record

end Planwright
