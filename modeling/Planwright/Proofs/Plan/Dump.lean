import Planwright.Plan.Dump
import Planwright.Proofs.Text.Cut
import Planwright.Proofs.Tree.Basic

/-! Dumps. If no description has a line feed, a dump has a line for each node, parents first, indented by the
    level of the node. The lines tell the levels; and as a node is below the last one before it that is a level
    higher, the levels tell the tree. -/

namespace Planwright

/-! ### Descriptions -/

theorem OpKind.name_start (k : OpKind) : ∃ c cs, k.name.toList = c :: cs ∧ c ≠ ' ' := by
  cases k <;> exact ⟨_, _, rfl, by decide⟩

theorem Op.describe_start (r : Registry) (op : Op) : ∃ c cs, (op.describe r).toList = c :: cs ∧ c ≠ ' ' := by
  have hname : ∃ s, op.describe r = op.kind.name ++ s := by
    unfold Op.describe
    dsimp only
    split
    case h_17 => exact ⟨"", by simp⟩
    all_goals
      simp only [String.append_assoc]
      exact ⟨_, rfl⟩
  obtain ⟨s, hs⟩ := hname
  obtain ⟨c, cs, hk, hc⟩ := op.kind.name_start
  exact ⟨c, cs ++ s.toList, by rw [hs, String.toList_append, hk]; rfl, hc⟩

namespace Text

theorem go_append {l : List Char} (h : '\n' ∉ l) (rest : List Char) :
    indent.go false (l ++ '\n' :: rest) = l ++ '\n' :: indent.go true rest := by
  induction l with
  | nil => rfl
  | cons c l ih =>
    rw [List.mem_cons, not_or] at h
    simp [indent.go, beq_eq_false_iff_ne.mpr (Ne.symm h.1), ih h.2]

/-- Lines that are not empty are each indented. -/
theorem indent_join {ls : List String} (h : ∀ l ∈ ls, l ≠ "" ∧ '\n' ∉ l.toList) :
    indent (String.join (ls.map (· ++ "\n"))) = String.join (ls.map fun l => "  " ++ l ++ "\n") := by
  rw [← String.toList_inj, indent, String.toList_ofList]
  induction ls with
  | nil => rfl
  | cons l ls ih =>
    rw [List.forall_mem_cons] at h
    obtain ⟨c, cs, hl⟩ := List.exists_cons_of_ne_nil (fun hnil => h.1.1 (String.toList_eq_nil_iff.mp hnil))
    obtain ⟨hc, hcs⟩ : '\n' ≠ c ∧ '\n' ∉ cs := by simpa [hl] using h.1.2
    simpa [hl, indent.go, Ne.symm hc, beq_eq_false_iff_ne.mpr (Ne.symm hc), go_append hcs] using ih h.2

end Text

namespace Tree

variable {r : Registry} {t : Tree} {depth : Nat}

/-- Two trees of one shape, with the same description at each place. -/
inductive ReadsAlike (r r' : Registry) : Tree → Tree → Prop
  | node {id id' : NodeId} {op op' : Op} {cs ds : List Tree} : op.describe r = op'.describe r' → List.Forall₂ (ReadsAlike r r') cs ds →
      ReadsAlike r r' (.node id op cs) (.node id' op' ds)

/-- No description in the tree has a line feed. -/
def OnLines (r : Registry) (t : Tree) : Prop := ∀ s ∈ t.subtrees, '\n' ∉ (s.op.describe r).toList

theorem onLines_node {id : NodeId} {op : Op} {cs : List Tree} :
    (node id op cs).OnLines r ↔ '\n' ∉ (op.describe r).toList ∧ ∀ c ∈ cs, c.OnLines r := forall_subtrees_node

/-- The level and the description of each node, parents first. -/
def levels (r : Registry) (depth : Nat) : Tree → List (Nat × String)
  | node _ op cs => (depth, op.describe r) :: cs.flatMap (levels r (depth + 1))

theorem withPaths_levels (r : Registry) (t : Tree) (path : List Nat) :
    ((t.withPaths path).map fun x => (x.1.length, x.2.op.describe r)) = t.levels r path.length := by
  induction t using induct generalizing path with
  | node id op cs ih =>
    have hbelow : ∀ i, ((withPaths.below path i cs).map fun x => (x.1.length, x.2.op.describe r))
        = cs.flatMap (levels r (path.length + 1)) := by
      induction cs with
      | nil => exact fun _ => rfl
      | cons c cs ihcs =>
        intro i
        rw [withPaths.below, List.map_append, ih c List.mem_cons_self, List.length_append, List.length_singleton,
          ihcs fun d hd => ih d (List.mem_cons_of_mem _ hd), List.flatMap_cons]
    rw [withPaths, List.map_cons, hbelow, levels, op_node]

def line (x : Nat × String) : String := String.ofList (List.replicate (2 * x.1) ' ') ++ x.2

theorem levels_succ (r : Registry) (t : Tree) (depth : Nat) :
    t.levels r (depth + 1) = (t.levels r depth).map fun x => (x.1 + 1, x.2) := by
  induction t using induct generalizing depth with
  | node id op cs ih =>
    rw [levels, levels, List.map_cons, List.map_flatMap, List.flatMap_congr fun c hc => ih c hc (depth + 1)]

theorem map_levels (r : Registry) (t : Tree) (depth : Nat) :
    (t.levels r depth).map (·.2) = t.subtrees.map fun s => s.op.describe r := by
  induction t using induct generalizing depth with
  | node id op cs ih =>
    rw [levels, subtrees_node, List.map_cons, List.map_cons, op_node, List.map_flatMap, List.map_flatMap,
      List.flatMap_congr fun c hc => ih c hc (depth + 1)]

theorem line_of_levels (h : t.OnLines r) (depth : Nat) :
    ∀ l ∈ (t.levels r depth).map line, l ≠ "" ∧ '\n' ∉ l.toList := by
  intro l hl
  obtain ⟨x, hx, rfl⟩ := List.mem_map.mp hl
  have hx := List.mem_map_of_mem (f := (·.2)) hx
  rw [map_levels, List.mem_map] at hx
  obtain ⟨s, hs, hx⟩ := hx
  obtain ⟨c, cs, hstart, -⟩ := s.op.describe_start r
  have hne : s.op.describe r ≠ "" := fun hempty => by simp [hempty] at hstart
  exact ⟨by simp [line, ← hx, hne], by simpa [line, ← hx] using h s hs⟩

/-- Indenting a dump gives the lines of the tree one level deeper. -/
theorem indent_levels (h : t.OnLines r) (depth : Nat) :
    Text.indent (String.join ((t.levels r depth).map fun x => line x ++ "\n"))
      = String.join ((t.levels r (depth + 1)).map fun x => line x ++ "\n") := by
  have hdeeper : ∀ x : Nat × String, line (x.1 + 1, x.2) = "  " ++ line x := by
    intro x
    rw [← String.toList_inj]
    simp [line, Nat.mul_add, List.replicate_succ]
  have hindent := Text.indent_join (line_of_levels h depth)
  simpa only [levels_succ, List.map_map, Function.comp_def, hdeeper] using hindent

theorem dump_eq (h : t.OnLines r) :
    t.dump r = String.join ((t.levels r 0).map fun x => line x ++ "\n") := by
  induction t using induct with
  | node id op cs ih =>
    rw [onLines_node] at h
    have hbelow : cs.map (fun c => Text.indent (dump r c)) = cs.map fun c => String.join ((c.levels r 1).map fun x => line x ++ "\n") :=
      List.map_congr_left fun c hc => by rw [ih c hc (h.2 c hc), indent_levels (h.2 c hc)]
    rw [dump, levels, hbelow, List.map_cons, String.join_cons, ← String.toList_inj]
    simp [line, List.flatMap_assoc, List.map_flatMap, List.flatMap_map]

theorem length_levels (r : Registry) (t : Tree) (depth : Nat) : (t.levels r depth).length = t.size := by
  induction t using induct generalizing depth with
  | node id op cs ih =>
    rw [levels, size_node, List.length_cons, List.length_flatMap, List.map_congr_left fun c hc => ih c hc (depth + 1), Nat.add_comm]

theorem dump_lines (h : t.OnLines r) : Text.cut '\n' (t.dump r) = (t.levels r 0).map line ++ [""] := by
  rw [dump_eq h, ← Text.cut_join fun l hl => (line_of_levels h 0 l hl).2, List.map_map]
  rfl

/-! ### From levels back to the tree -/

theorem levels_cons (r : Registry) (depth : Nat) (t : Tree) : ∃ ls, t.levels r depth = (depth, t.op.describe r) :: ls := by
  obtain ⟨id, op, cs⟩ := t
  exact ⟨_, by rw [levels]; rfl⟩

/-- What stands after all that is below a node starts no lower than the node. -/
def StopsAt (depth : Nat) (rest : List (Nat × String)) : Prop := ∀ x ∈ rest.head?, x.1 ≤ depth

theorem StopsAt.below {rest : List (Nat × String)} (h : StopsAt depth rest) (cs : List Tree) :
    StopsAt (depth + 1) (cs.flatMap (levels r (depth + 1)) ++ rest) := by
  intro x hx
  cases cs with
  | nil => exact Nat.le_succ_of_le (h x hx)
  | cons c cs =>
    obtain ⟨ls, hls⟩ := levels_cons r (depth + 1) c
    rw [List.flatMap_cons, hls] at hx
    obtain rfl := Option.mem_some_iff.mp hx
    exact Nat.le_refl _

theorem StopsAt.ne {rest rest' : List (Nat × String)} (h : StopsAt depth rest) (c : Tree) (cs : List Tree) :
    (c :: cs).flatMap (levels r (depth + 1)) ++ rest' ≠ rest := by
  obtain ⟨ls, hls⟩ := levels_cons r (depth + 1) c
  rintro rfl
  rw [List.flatMap_cons, hls] at h
  exact absurd (h _ rfl) (Nat.not_succ_le_self depth)

theorem readsAlike_of_levels {r r' : Registry} {a b : Tree} {rest rest' : List (Nat × String)}
    (hrest : StopsAt depth rest) (hrest' : StopsAt depth rest') (h : a.levels r depth ++ rest = b.levels r' depth ++ rest') :
    ReadsAlike r r' a b ∧ rest = rest' := by
  induction a using induct generalizing b depth rest rest' with
  | node id op cs ih =>
    obtain ⟨id', op', ds⟩ := b
    rw [levels, levels, List.cons_append, List.cons_append, List.cons.injEq, Prod.mk.injEq] at h
    obtain ⟨⟨-, hop⟩, h⟩ := h
    have hbelow : List.Forall₂ (ReadsAlike r r') cs ds ∧ rest = rest' := by
      clear hop
      induction cs generalizing ds with
      | nil =>
        cases ds with
        | nil => exact ⟨.nil, h⟩
        | cons d ds => exact absurd h.symm (hrest.ne d ds)
      | cons c cs ihcs =>
        cases ds with
        | nil => exact absurd h (hrest'.ne c cs)
        | cons d ds =>
          rw [List.flatMap_cons, List.flatMap_cons, List.append_assoc, List.append_assoc] at h
          obtain ⟨hc, h⟩ := ih c List.mem_cons_self (hrest.below cs) (hrest'.below ds) h
          obtain ⟨hcs, heq⟩ := ihcs (fun e he => ih e (List.mem_cons_of_mem _ he)) ds h
          exact ⟨.cons hc hcs, heq⟩
    exact ⟨.node hop hbelow.1, hbelow.2⟩

theorem levels_of_readsAlike {r r' : Registry} {a b : Tree} (h : ReadsAlike r r' a b) (depth : Nat) :
    a.levels r depth = b.levels r' depth := by
  induction a using induct generalizing b depth with
  | node id op cs ih =>
    obtain ⟨hop, hcs⟩ := h
    rw [levels, levels, hop]
    congr 1
    clear hop
    induction hcs with
    | nil => rfl
    | cons hc _ ihcs =>
      rw [List.flatMap_cons, List.flatMap_cons, ih _ List.mem_cons_self hc, ihcs fun e he => ih e (List.mem_cons_of_mem _ he)]

/-- The level and the description that a line was made of. -/
def level (l : String) : Nat × String :=
  ((l.toList.takeWhile (· == ' ')).length / 2, String.ofList (l.toList.dropWhile (· == ' ')))

theorem level_line {s : String} (h : ∃ c cs, s.toList = c :: cs ∧ c ≠ ' ') (depth : Nat) : level (line (depth, s)) = (depth, s) := by
  obtain ⟨c, cs, hs, hc⟩ := h
  have hlist : (line (depth, s)).toList = List.replicate (2 * depth) ' ' ++ c :: cs := by simp [line, hs]
  rw [level, hlist, List.takeWhile_append_of_pos (by simp), List.dropWhile_append_of_pos (by simp)]
  simp [hc, ← String.toList_inj, hs]

theorem levels_inj {r r' : Registry} {a b : Tree} (h : (a.levels r 0).map line = (b.levels r' 0).map line) :
    a.levels r 0 = b.levels r' 0 := by
  have hback : ∀ (r : Registry) (t : Tree), ((t.levels r 0).map line).map level = t.levels r 0 := by
    intro r t
    rw [List.map_map]
    refine (List.map_congr_left fun x hx => ?_).trans (List.map_id _)
    have hx := List.mem_map_of_mem (f := (·.2)) hx
    rw [map_levels, List.mem_map] at hx
    obtain ⟨s, -, hx⟩ := hx
    exact level_line (hx ▸ s.op.describe_start r) x.1
  rw [← hback r a, h, hback]

/-- If no description has a line feed, dumps are the same just if the trees read alike, and the lines of a dump are the descriptions
    of its nodes, parents first, each after two blanks for each level. -/
theorem dump_determines (r r' : Registry) (a b : Tree) (ha : a.OnLines r) (hb : b.OnLines r') :
    (a.dump r = b.dump r' ↔ ReadsAlike r r' a b) ∧
      Text.cut '\n' (a.dump r) = (a.withPaths []).map (fun x => String.ofList (List.replicate (2 * x.1.length) ' ') ++ x.2.op.describe r)
        ++ [""] ∧
      (a.withPaths []).length = a.size := by
  have hlevels : ((a.withPaths []).map fun x => (x.1.length, x.2.op.describe r)) = a.levels r 0 := withPaths_levels r a []
  refine ⟨⟨fun h => ?_, fun h => ?_⟩, ?_, ?_⟩
  · have hlines := congrArg (Text.cut '\n') h
    rw [dump_lines ha, dump_lines hb, List.append_cancel_right_eq] at hlines
    have hsame : a.levels r 0 ++ [] = b.levels r' 0 ++ [] := congrArg (· ++ []) (levels_inj hlines)
    refine (readsAlike_of_levels ?_ ?_ hsame).1 <;> simp [StopsAt]
  · rw [dump_eq ha, dump_eq hb, levels_of_readsAlike h]
  · rw [dump_lines ha, ← hlevels, List.map_map]
    rfl
  · rw [← length_levels r a 0, ← hlevels, List.length_map]

/-- A filter over a single row, with its nodes under other identifiers. -/
theorem dump_determines_filter :
    let filter (i j k : NodeId) : Tree := .node i .filter [.node j .singleRowTable [], .node k (.constantPredicate true) []]
    (∀ i j k, (filter i j k).OnLines .empty) ∧ (filter 2 0 1).dump .empty = (filter 0 1 2).dump .empty ∧
      Text.cut '\n' ((filter 2 0 1).dump .empty) = ["Filter", "  SingleRowTable", "  ConstantPredicate true", ""] := by
  intro filter
  have hlines : ∀ i j k, (filter i j k).OnLines .empty := by
    intro i j k
    simp only [filter, onLines_node, List.forall_mem_cons]
    exact ⟨by decide +kernel, ⟨by decide +kernel, nofun⟩, ⟨by decide +kernel, nofun⟩, nofun⟩
  have hdump := dump_determines .empty .empty (filter 2 0 1) (filter 0 1 2) (hlines 2 0 1) (hlines 0 1 2)
  refine ⟨hlines, hdump.1.mpr ?_, hdump.2.1.trans (by decide +kernel)⟩
  exact .node rfl (.cons (.node rfl .nil) (.cons (.node rfl .nil) .nil))

end Tree

end Planwright
