import Planwright.Proofs.Document.Decode

/-! Documents are refused or accepted, and rewriting the plan of one that is accepted ends. -/

namespace Planwright.Document

open Run Plan Planwright.Tree

/-- Decoding never ends with a fault. Every text is refused for what is wrong with it, or gives a document. Its root is relational, every
    node has as many children as its operator wants, each of the kind it wants, and the maps of set operators have all outputs. All
    variables of the tree are registered, no table and no variable is declared under the name of another, the nodes of the tree are all
    nodes there are, numbered children first, and every one of them is analysed. -/
theorem decode_wellFormed (text : String) : (∃ e, decode text = .error e ∧ e.isFault = false) ∨
    ∃ d t, decode text = .ok d ∧ d.plan.tree? d.plan.root = some t ∧ t.IsRelational ∧ t.wellFormed = true ∧
      (∀ s ∈ t.subtrees, ∀ v ∈ s.op.mentions, ∃ x, d.plan.vars.get? v = some x) ∧
      (d.tables.map Prod.fst).Nodup ∧ (d.vars.map Prod.fst).Nodup ∧
      t.postIds = List.range d.plan.nodes.size ∧ t.size = d.plan.nodes.size ∧
      ∀ s ∈ t.subtrees, ∃ i p', info s.id d.plan = .ok (i, p') := by
  rcases decode_answers text with h | ⟨v, d, t, -, hd, h⟩
  · exact .inl h
  · obtain ⟨-, hroot, hheld, -, hwf⟩ := h.rooted
    refine .inr ⟨d, t, hd, ?_, h.relational, hwf, fun s hs v hv => ?_, h.sound.tables, h.sound.vars, h.numbers, h.size, fun s hs => ?_⟩
    · rw [hroot]
      exact hheld.tree?
    · exact exists_var (h.mentions s hs v hv)
    · obtain ⟨i, p', hi, -⟩ := (hheld.of_mem_subtrees hs).info_reaches (wellFormed_of_mem_subtrees hwf hs)
      exact ⟨i, p', hi⟩

/-! ### Runs on documents -/

/-- Rewriting ends. Whatever the rules and the limits, from some budget on a pass over the plan of a document ends in one and
    the same way, which is not for want of a budget, and so do the passes for nullability that follow one another. -/
theorem rewriting_ends {text : String} {d : Document} (h : decode text = .ok d) (options : Options) :
    (∀ group, ∃ n r, r ≠ .error .outOfFuel ∧ ∀ fuel, n ≤ fuel → Engine.pass fuel options group d.plan = r) ∧
      ∃ n r, r ≠ .error .outOfFuel ∧ ∀ fuel, n ≤ fuel → Engine.optimize fuel options d.plan = r := by
  obtain ⟨-, t, -, ⟨-, -, ht, -⟩⟩ := decode_complete h
  refine ⟨fun group => ?_, ?_⟩
  · obtain ⟨n, r, hr, -, hrun⟩ := Engine.pass_ceases options group ht
    exact ⟨n, r, hr, hrun⟩
  · obtain ⟨n, r, hr, -, hrun⟩ := Engine.optimize_ceases options ht
    exact ⟨n, r, hr, hrun⟩

/-- A filter over a join, as the text of a document. -/
def filtered : String :=
  let node (op : String) (children : List Json) : Json := .object [("op", .string op), ("children", .array children)]
  let joined := node "crossjoin" [node "singlerowtable" [], node "singlerowtable" []]
  Json.render (.object [("version", .string "1.0.0"), ("root", node "filter" [joined, node "true" []])])

theorem rewriting_ends_filtered : ∃ d, decode filtered = .ok d ∧ ∀ options,
    (∀ group, ∃ n r, r ≠ .error .outOfFuel ∧ ∀ fuel, n ≤ fuel → Engine.pass fuel options group d.plan = r) ∧
      ∃ n r, r ≠ .error .outOfFuel ∧ ∀ fuel, n ≤ fuel → Engine.optimize fuel options d.plan = r := by
  have haccepted : (decode filtered).toBool = true := by decide +kernel
  cases hd : decode filtered with
  | error e =>
    rw [hd] at haccepted
    cases haccepted
  | ok d => exact ⟨d, rfl, rewriting_ends hd⟩

end Planwright.Document
