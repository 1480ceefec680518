import Mathlib.Data.Finset.Card
import Mathlib.Data.Finset.Sort
import Mathlib.Logic.Function.Basic
import Planwright.Proofs.Run
import Planwright.Proofs.Variable.Set
import Planwright.Variable.History

/-! Histories of variable sets denote finite sets. A set that is made without a registry learns it from the
    first variable or set that is added, so that a set with members can list them. After every history the sets
    answer as the finite sets do that the history denotes, and only what a step names is changed by it. -/

namespace Planwright

namespace BoundSet

/-- A set holds the members of a finite set. If there are any then it knows its registry, and they are registered there. -/
structure Holds (r : Registry) (s : BoundSet) (S : Finset VarId) : Prop where
  mem : ∀ v, v ∈ s.members ↔ v ∈ S
  bound : ∀ v ∈ S, s.isBound = true ∧ v < r.size

variable {r : Registry} {s t : BoundSet} {S T : Finset VarId} {v : VarId} {vs : List VarId}

namespace Holds

theorem empty (isBound : Bool) : (BoundSet.empty isBound).Holds r ∅ :=
  ⟨fun v => by simp [BoundSet.empty], by simp⟩

theorem insert (h : s.Holds r S) (hv : v < r.size) : (s.insert v).Holds r (Insert.insert v S) := by
  refine ⟨fun w => ?_, fun w hw => ⟨rfl, ?_⟩⟩
  · rw [BoundSet.insert, VarSet.mem_insert, h.mem, Finset.mem_insert, or_comm]
  · rcases Finset.mem_insert.mp hw with rfl | hw
    · exact hv
    · exact (h.bound w hw).2

theorem erase (h : s.Holds r S) : (s.erase v).Holds r (S.erase v) := by
  refine ⟨fun w => ?_, fun w hw => h.bound w (Finset.mem_of_mem_erase hw)⟩
  rw [BoundSet.erase, VarSet.mem_erase, h.mem, Finset.mem_erase, and_comm]

theorem union (h : s.Holds r S) (h' : t.Holds r T) : (s.union t).Holds r (S ∪ T) := by
  refine ⟨fun w => ?_, fun w hw => ?_⟩
  · rw [BoundSet.union, VarSet.mem_union, h.mem, h'.mem, Finset.mem_union]
  · rcases Finset.mem_union.mp hw with hw | hw
    · exact ⟨by simp [BoundSet.union, (h.bound w hw).1], (h.bound w hw).2⟩
    · exact ⟨by simp [BoundSet.union, (h'.bound w hw).1], (h'.bound w hw).2⟩

theorem diff (h : s.Holds r S) (h' : t.Holds r T) : (s.diff t).Holds r (S \ T) := by
  refine ⟨fun w => ?_, fun w hw => h.bound w (Finset.mem_sdiff.mp hw).1⟩
  rw [BoundSet.diff, VarSet.mem_diff, h.mem, h'.mem, Finset.mem_sdiff]

theorem inter (h : s.Holds r S) (h' : t.Holds r T) : (s.inter t).Holds r (S ∩ T) := by
  refine ⟨fun w => ?_, fun w hw => h.bound w (Finset.mem_inter.mp hw).1⟩
  rw [BoundSet.inter, VarSet.mem_inter, h.mem, h'.mem, Finset.mem_inter]

theorem unionAll {ss : List BoundSet} {Ss : List (Finset VarId)} (h : List.Forall₂ (BoundSet.Holds r) ss Ss) :
    (BoundSet.unionAll ss).Holds r (Ss.foldl (· ∪ ·) ∅) := by
  have hfold : ∀ {a A}, a.Holds r A → (ss.foldl BoundSet.union a).Holds r (Ss.foldl (· ∪ ·) A) := by
    induction h with
    | nil => exact id
    | cons hs _ ih => exact fun ha => ih (ha.union hs)
  exact hfold (.empty false)

theorem insertAll (h : s.Holds r S) (hvs : ∀ v ∈ vs, v < r.size) : (vs.foldl BoundSet.insert s).Holds r (S ∪ vs.toFinset) := by
  induction vs generalizing s S with
  | nil => simpa using h
  | cons v vs ih =>
    obtain ⟨hv, hvs⟩ := List.forall_mem_cons.mp hvs
    simpa [Finset.insert_union] using ih (h.insert hv) hvs

theorem eraseAll (h : s.Holds r S) : (vs.foldl BoundSet.erase s).Holds r (S \ vs.toFinset) := by
  induction vs generalizing s S with
  | nil => simpa using h
  | cons v vs ih =>
    rw [List.toFinset_cons, Finset.sdiff_insert, ← Finset.erase_sdiff_comm]
    exact ih h.erase

theorem toFinset (h : s.Holds r S) : s.members.toList.toFinset = S := by
  ext v
  rw [List.mem_toFinset, VarSet.mem_toList, h.mem]

theorem resolve (h : s.Holds r S) (hv : v ∈ S) : s.resolve r v = .ok v := by
  obtain ⟨hbound, hlt⟩ := h.bound v hv
  have hfind : r.find v = .ok v := if_pos ⟨Int.natCast_nonneg v, Int.ofNat_lt.mpr hlt⟩
  rw [BoundSet.resolve, if_pos hbound, hfind]

theorem toList (h : s.Holds r S) : s.toList r = .ok s.members.toList := by
  refine Run.mapM_ok.mpr (List.forall₂_same.mpr fun v hv => ?_)
  exact h.resolve ((h.mem v).mp (VarSet.mem_toList.mp hv))

theorem text (h : s.Holds r S) : s.text r = .ok (Registry.braced (s.members.toList.map r.text)) := by
  rw [BoundSet.text, h.toList]
  rfl

theorem first? (h : s.Holds r S) : s.first? r = .ok s.members.toList.head? := by
  rw [BoundSet.first?]
  cases hv : s.members.first? with
  | none => rw [← VarSet.first?, hv]; rfl
  | some v =>
    have hresolve := h.resolve ((h.mem v).mp (VarSet.first?_eq_some hv))
    rw [← VarSet.first?, hv]
    exact congrArg (some <$> ·) hresolve

end Holds

/-- A set answers as a finite set does. Its members can be listed, with the first of them at the head, and printed. -/
structure Answers (r : Registry) (s : BoundSet) (S : Finset VarId) : Prop where
  has : ∀ v, s.members.has v = decide (v ∈ S)
  size : s.members.size = S.card
  isEmpty : s.members.isEmpty = decide (S = ∅)
  bound : S.Nonempty → s.isBound = true
  listed : ∃ vs : List VarId, s.toList r = .ok vs ∧ vs.Pairwise (· < ·) ∧ (∀ v, v ∈ vs ↔ v ∈ S) ∧
    s.first? r = .ok vs.head? ∧ s.text r = .ok (Registry.braced (vs.map r.text))

/-- Two sets compare as two finite sets do. -/
structure Compares (s t : BoundSet) (S T : Finset VarId) : Prop where
  overlaps : s.members.overlaps t.members = decide (S ∩ T).Nonempty
  subset : s.members.isSubset t.members = decide (S ⊆ T)
  equals : (s.members == t.members) = decide (S = T)

theorem Holds.answers (h : s.Holds r S) : s.Answers r S where
  has v := by
    rw [Bool.eq_iff_iff, decide_eq_true_iff]
    exact h.mem v
  size := by rw [VarSet.size, ← List.toFinset_card_of_nodup (VarSet.nodup_toList _), h.toFinset]
  isEmpty := by
    rw [Bool.eq_iff_iff, VarSet.isEmpty_iff, decide_eq_true_iff, Finset.eq_empty_iff_forall_notMem]
    exact forall_congr' fun v => not_congr (h.mem v)
  bound := fun ⟨v, hv⟩ => (h.bound v hv).1
  listed := by
    refine ⟨_, h.toList, List.pairwise_lt_range.filter _, fun v => ?_, h.first?, h.text⟩
    rw [VarSet.mem_toList, h.mem]

theorem Holds.compares (h : s.Holds r S) (h' : t.Holds r T) : s.Compares t S T where
  overlaps := by
    rw [Bool.eq_iff_iff, VarSet.overlaps_iff, decide_eq_true_iff, Finset.Nonempty]
    exact exists_congr fun v => by rw [h.mem, h'.mem, Finset.mem_inter]
  subset := by
    rw [Bool.eq_iff_iff, VarSet.isSubset_iff, decide_eq_true_iff]
    exact forall_congr' fun v => by rw [h.mem, h'.mem]
  equals := by
    rw [Bool.eq_iff_iff, beq_iff_eq, VarSet.ext_iff, decide_eq_true_iff, Finset.ext_iff]
    exact forall_congr' fun v => by rw [h.mem, h'.mem]

end BoundSet

namespace History

/-- Finite sets by their names. -/
abbrev Family := String → Option (Finset VarId)

namespace Step

def vars (s : Step) : List VarId := s.ids.map Int.toNat

/-- What a step makes of finite sets. -/
def denotes (s : Step) (D : Family) : Family :=
  match s.action with
  | .make _ => Function.update D s.name (some s.vars.toFinset)
  | .copyOf => Function.update D s.name (D s.other)
  | .add => Function.update D s.name ((D s.name).map (· ∪ s.vars.toFinset))
  | .remove => Function.update D s.name ((D s.name).map (· \ s.vars.toFinset))
  | .unionOf => Function.update D s.name ((s.sources.mapM D).map (·.foldl (· ∪ ·) ∅))
  | .union => Function.update D s.name (Option.map₂ (· ∪ ·) (D s.name) (D s.other))
  | .minus => Function.update D s.name (Option.map₂ (· \ ·) (D s.name) (D s.other))
  | .intersect => Function.update D s.name (Option.map₂ (· ∩ ·) (D s.name) (D s.other))
  | _ => D

/-- The names of the sets that a step reads. -/
def reads (s : Step) : List String :=
  match s.action with
  | .copyOf => [s.other]
  | .add | .remove | .has | .first => [s.name]
  | .unionOf => s.sources
  | .union | .minus | .intersect | .overlaps | .subset | .equals => [s.name, s.other]
  | _ => []

/-- A step on sets that names registered variables, and reads sets that are there. -/
structure Fits (r : Registry) (D : Family) (s : Step) : Prop where
  onSets : s.action.isOnMaps = false ∧ s.action ≠ .newLike
  registered : ∀ id ∈ s.ids, 0 ≤ id ∧ id < r.size
  made : ∀ name ∈ s.reads, (D name).isSome

end Step

def denotes (steps : List Step) (D : Family) : Family := steps.foldl (fun D s => s.denotes D) D

/-- The finite sets that a history denotes. -/
def family (steps : List Step) : Family := denotes steps fun _ => none

/-- Each step fits the sets that the steps before it have left. -/
def Fits (r : Registry) : Family → List Step → Prop
  | _, [] => True
  | D, s :: rest => s.Fits r D ∧ Fits r (s.denotes D) rest

theorem fits_append {r : Registry} {D : Family} {before after : List Step} :
    Fits r D (before ++ after) ↔ Fits r D before ∧ Fits r (denotes before D) after := by
  induction before generalizing D with
  | nil => simp [Fits, denotes]
  | cons s before ih => simp [Fits, ih, denotes, and_assoc]

/-! ### What a step does -/

/-- The sets of a workspace hold the finite sets of the same names. -/
structure Agrees (r : Registry) (w : Workspace) (D : Family) : Prop where
  vars : w.vars = r
  sets : ∀ name, Option.Rel (BoundSet.Holds r) (w.sets.lookup name) (D name)

/-- A workspace with one more set, in front of any of the same name. -/
def Workspace.put (w : Workspace) (name : String) (s : BoundSet) : Workspace := { w with sets := (name, s) :: w.sets }

variable {r : Registry} {w : Workspace} {D : Family} {s : Step} {steps : List Step}

theorem lookup_put (name name' : String) (b : BoundSet) :
    (w.put name' b).sets.lookup name = if name = name' then some b else w.sets.lookup name := by
  by_cases h : name = name'
  · simp [Workspace.put, h]
  · simp [Workspace.put, h, List.lookup_cons, beq_eq_false_iff_ne.mpr h]

namespace Agrees

theorem put {b : BoundSet} {S : Finset VarId} (h : Agrees r w D) (hb : b.Holds r S) (name : String) :
    Agrees r (w.put name b) (Function.update D name (some S)) := by
  refine ⟨h.vars, fun name' => ?_⟩
  rw [lookup_put, Function.update_apply]
  split
  · exact .some hb
  · exact h.sets name'

theorem found (h : Agrees r w D) {name : String} (hmade : (D name).isSome) :
    ∃ b S, w.sets.lookup name = some b ∧ D name = some S ∧ b.Holds r S := by
  have hrel := h.sets name
  generalize w.sets.lookup name = found, D name = denoted at hrel hmade
  cases hrel with
  | none => cases hmade
  | some hb => exact ⟨_, _, rfl, rfl, hb⟩

theorem holds (h : Agrees r w D) {name : String} {b : BoundSet} (hb : w.sets.lookup name = some b) :
    ∃ S, D name = some S ∧ b.Holds r S := by
  have hrel := h.sets name
  rw [hb] at hrel
  generalize D name = denoted at hrel
  cases hrel with
  | some hb => exact ⟨_, rfl, hb⟩

end Agrees

/-- A step leaves sets that hold what it denotes. Only the set of its name may have changed; a copy is the set it is made of. -/
structure Moves (r : Registry) (s : Step) (w : Workspace) (D : Family) (w' : Workspace) : Prop where
  agrees : Agrees r w' D
  others : ∀ name, name ≠ s.name → w'.sets.lookup name = w.sets.lookup name
  copied : s.action = .copyOf → w'.sets.lookup s.name = w.sets.lookup s.other

theorem Moves.keep (h : Agrees r w D) (hs : s.action ≠ .copyOf) : Moves r s w D w :=
  ⟨h, fun _ _ => rfl, fun hcopy => absurd hcopy hs⟩

theorem Moves.put {b : BoundSet} {S : Finset VarId} (h : Agrees r w D) (hb : b.Holds r S)
    (hs : s.action = .copyOf → w.sets.lookup s.other = some b) :
    Moves r s w (Function.update D s.name (some S)) (w.put s.name b) := by
  refine ⟨h.put hb s.name, fun name hname => ?_, fun hcopy => ?_⟩
  · rw [lookup_put, if_neg hname]
  · rw [lookup_put, if_pos rfl, hs hcopy]

theorem getSet_run {name : String} {b : BoundSet} (h : w.sets.lookup name = some b) : getSet name w = .ok (b, w) := by
  refine Run.bind_run_ok.mpr ⟨w, w, rfl, ?_⟩
  rw [h]
  rfl

theorem getSets_run (h : Agrees r w D) (names : List String) (hmade : ∀ name ∈ names, (D name).isSome) :
    ∃ bs Ss, names.mapM getSet w = .ok (bs, w) ∧ names.mapM D = some Ss ∧ List.Forall₂ (BoundSet.Holds r) bs Ss := by
  induction names with
  | nil => exact ⟨[], [], rfl, rfl, .nil⟩
  | cons name names ih =>
    obtain ⟨hname, hnames⟩ := List.forall_mem_cons.mp hmade
    obtain ⟨b, S, hb, hS, hholds⟩ := h.found hname
    obtain ⟨bs, Ss, hrun, hD, hall⟩ := ih hnames
    refine ⟨b :: bs, S :: Ss, ?_, by simp [hS, hD], .cons hholds hall⟩
    rw [List.mapM_cons]
    exact Run.bind_run_ok.mpr ⟨b, w, getSet_run hb, Run.bind_run_ok.mpr ⟨bs, w, hrun, rfl⟩⟩

theorem lift_run {α : Type} {x : Except Fault α} {a : α} (h : x = .ok a) : (liftM x : WorkspaceM α) w = .ok (a, w) := by
  rw [h]
  rfl

section Kinds
variable (h : Agrees r w D) (hmade : ∀ name ∈ s.reads, (D name).isSome)
include h hmade

theorem change_moves {f : BoundSet → BoundSet} {g : Finset VarId → Finset VarId} (hreads : s.name ∈ s.reads)
    (hs : s.action ≠ .copyOf) (hf : ∀ {b S}, b.Holds r S → (f b).Holds r (g S)) :
    ∃ answer w', (getSet s.name >>= fun b => putSet s.name (f b)) w = .ok (answer, w') ∧
      Moves r s w (Function.update D s.name ((D s.name).map g)) w' := by
  obtain ⟨b, S, hb, hS, hholds⟩ := h.found (hmade s.name hreads)
  refine ⟨.silent, w.put s.name (f b), Run.bind_run_ok.mpr ⟨b, w, getSet_run hb, rfl⟩, ?_⟩
  rw [hS]
  exact .put h (hf hholds) fun hcopy => absurd hcopy hs

theorem combine_moves {f : BoundSet → BoundSet → BoundSet} {g : Finset VarId → Finset VarId → Finset VarId}
    (hreads : s.reads = [s.name, s.other]) (hs : s.action ≠ .copyOf)
    (hf : ∀ {a b S T}, a.Holds r S → b.Holds r T → (f a b).Holds r (g S T)) :
    ∃ answer w', combine s f w = .ok (answer, w') ∧
      Moves r s w (Function.update D s.name (Option.map₂ g (D s.name) (D s.other))) w' := by
  obtain ⟨a, S, ha, hS, hholds⟩ := h.found (hmade s.name (by simp [hreads]))
  obtain ⟨b, T, hb, hT, hholds'⟩ := h.found (hmade s.other (by simp [hreads]))
  refine ⟨.silent, w.put s.name (f a b), ?_, ?_⟩
  · exact Run.bind_run_ok.mpr ⟨a, w, getSet_run ha, Run.bind_run_ok.mpr ⟨b, w, getSet_run hb, rfl⟩⟩
  · rw [hS, hT]
    exact .put h (hf hholds hholds') fun hcopy => absurd hcopy hs

theorem question_moves {f : VarSet → VarSet → Bool} (hreads : s.reads = [s.name, s.other]) (hs : s.action ≠ .copyOf) :
    ∃ answer w', question s f w = .ok (answer, w') ∧ Moves r s w D w' := by
  obtain ⟨a, -, ha, -, -⟩ := h.found (hmade s.name (by simp [hreads]))
  obtain ⟨b, -, hb, -, -⟩ := h.found (hmade s.other (by simp [hreads]))
  refine ⟨.flag (f a.members b.members), w, ?_, .keep h hs⟩
  exact Run.bind_run_ok.mpr ⟨a, w, getSet_run ha, Run.bind_run_ok.mpr ⟨b, w, getSet_run hb, rfl⟩⟩

end Kinds

theorem Step.Fits.vars_lt (hs : s.Fits r D) {v : VarId} (hv : v ∈ s.vars) : v < r.size := by
  obtain ⟨id, hid, rfl⟩ := List.mem_map.mp hv
  have hrange := hs.registered id hid
  exact (Int.toNat_lt hrange.1).mpr hrange.2

theorem onSets_moves (h : Agrees r w D) (hs : s.Fits r D) :
    ∃ answer w', onSets s s.vars w = .ok (answer, w') ∧ Moves r s w (s.denotes D) w' := by
  obtain ⟨action, name, other, ids, sources⟩ := s
  have hmade := hs.made
  cases action with
  | make isBound =>
    have hb := (BoundSet.Holds.empty isBound).insertAll fun _ hv => hs.vars_lt hv
    rw [Finset.empty_union] at hb
    exact ⟨.silent, _, rfl, .put h hb (by rintro ⟨⟩)⟩
  | copyOf =>
    obtain ⟨b, S, hb, hS, hholds⟩ := h.found (hmade other List.mem_cons_self)
    refine ⟨.silent, w.put name b, Run.bind_run_ok.mpr ⟨b, w, getSet_run hb, rfl⟩, ?_⟩
    rw [Step.denotes, hS]
    exact .put h hholds fun _ => hb
  | add => exact change_moves h hmade List.mem_cons_self (by rintro ⟨⟩) fun hb => hb.insertAll fun _ hv => hs.vars_lt hv
  | remove => exact change_moves h hmade List.mem_cons_self (by rintro ⟨⟩) fun hb => hb.eraseAll
  | unionOf =>
    obtain ⟨bs, Ss, hrun, hSs, hholds⟩ := getSets_run h sources hmade
    refine ⟨.silent, w.put name (.unionAll bs), Run.bind_run_ok.mpr ⟨bs, w, hrun, rfl⟩, ?_⟩
    rw [Step.denotes, hSs]
    exact .put h (.unionAll hholds) (by rintro ⟨⟩)
  | union => exact combine_moves h hmade rfl (by rintro ⟨⟩) fun ha hb => ha.union hb
  | minus => exact combine_moves h hmade rfl (by rintro ⟨⟩) fun ha hb => ha.diff hb
  | intersect => exact combine_moves h hmade rfl (by rintro ⟨⟩) fun ha hb => ha.inter hb
  | overlaps | subset | equals => exact question_moves h hmade rfl (by rintro ⟨⟩)
  | has =>
    obtain ⟨b, -, hb, -, -⟩ := h.found (hmade name List.mem_cons_self)
    exact ⟨_, w, Run.bind_run_ok.mpr ⟨b, w, getSet_run hb, rfl⟩, .keep h (by rintro ⟨⟩)⟩
  | first =>
    obtain ⟨b, S, hb, -, hholds⟩ := h.found (hmade name List.mem_cons_self)
    have hfirst := lift_run (w := w) (h.vars ▸ hholds.first?)
    exact ⟨_, w, Run.bind_run_ok.mpr ⟨b, w, getSet_run hb, Run.bind_run_ok.mpr ⟨w, w, rfl, Run.bind_run_ok.mpr ⟨_, w, hfirst, rfl⟩⟩⟩,
      .keep h (by rintro ⟨⟩)⟩
  | keep => exact ⟨.silent, w, rfl, .keep h (by rintro ⟨⟩)⟩
  | newLike => exact absurd rfl hs.onSets.2
  | mapNew | mapPut | mapCopy | mapShow => cases hs.onSets.1

theorem viewSet_run (h : Agrees r w D) (name : String) : ∃ view, viewSet name w = .ok (view, w) := by
  cases hlook : w.sets.lookup name with
  | none =>
    refine ⟨none, Run.bind_run_ok.mpr ⟨w, w, rfl, ?_⟩⟩
    rw [hlook]
    rfl
  | some b =>
    obtain ⟨S, -, hb⟩ := h.holds hlook
    have htext := hb.text
    rw [← h.vars] at htext
    refine ⟨some ⟨Registry.braced (b.members.toList.map w.vars.text), b.members.size, b.members.isEmpty⟩, Run.bind_run_ok.mpr ⟨w, w, rfl, ?_⟩⟩
    rw [hlook]
    exact Run.bind_run_ok.mpr ⟨w, w, rfl, Run.bind_run_ok.mpr ⟨_, w, lift_run htext, rfl⟩⟩

theorem find_run (h : Agrees r w D) {ids : List Int} (hids : ∀ id ∈ ids, 0 ≤ id ∧ id < r.size) :
    (ids.mapM fun id => do ((← get).vars.find id : Except Fault VarId) : WorkspaceM (List VarId)) w =
      .ok (ids.map Int.toNat, w) := by
  induction ids with
  | nil => rfl
  | cons id ids ih =>
    obtain ⟨hid, hids⟩ := List.forall_mem_cons.mp hids
    have hfind : w.vars.find id = .ok id.toNat := by
      rw [h.vars]
      exact if_pos hid
    rw [List.mapM_cons]
    refine Run.bind_run_ok.mpr ⟨_, w, Run.bind_run_ok.mpr ⟨w, w, rfl, lift_run hfind⟩, ?_⟩
    exact Run.bind_run_ok.mpr ⟨_, w, ih hids, rfl⟩

theorem step_moves (h : Agrees r w D) (hs : s.Fits r D) :
    ∃ shown w', (step s).run w = .ok (shown, w') ∧ Moves r s w (s.denotes D) w' := by
  obtain ⟨answer, w', hrun, hmoves⟩ := onSets_moves h hs
  obtain ⟨view, hview⟩ := viewSet_run hmoves.agrees s.name
  refine ⟨.set answer view, w', Run.bind_run_ok.mpr ⟨s.vars, w, find_run h hs.registered, ?_⟩, hmoves⟩
  rw [if_neg (Bool.eq_false_iff.mp hs.onSets.1)]
  exact Run.bind_run_ok.mpr ⟨answer, w', hrun, Run.bind_run_ok.mpr ⟨view, w', hview, rfl⟩⟩

/-! ### Whole histories -/

theorem run_cons {shown : Shown} {w' : Workspace} (h : (step s).run w = .ok (shown, w')) :
    run (s :: steps) w = (.ok shown :: (run steps w').1, (run steps w').2) := by
  rw [run, h]

theorem run_agrees (h : Agrees r w D) (hfits : Fits r D steps) :
    ∃ (shown : List Shown) (w' : Workspace), run steps w = (shown.map .ok, w') ∧ Agrees r w' (denotes steps D) ∧
      (∀ name, (∀ s ∈ steps, s.name ≠ name) → w'.sets.lookup name = w.sets.lookup name) ∧
      ∀ more, (run (steps ++ more) w).2 = (run more w').2 := by
  induction steps generalizing w D with
  | nil => exact ⟨[], w, rfl, h, fun _ _ => rfl, fun _ => rfl⟩
  | cons s steps ih =>
    obtain ⟨first, w₁, hstep, hmoves⟩ := step_moves h hfits.1
    obtain ⟨shown, w', hrun, hagrees, hothers, hmore⟩ := ih hmoves.agrees hfits.2
    refine ⟨first :: shown, w', ?_, hagrees, fun name hname => ?_, fun more => ?_⟩
    · rw [run_cons hstep, hrun]
      rfl
    · obtain ⟨hs, hsteps⟩ := List.forall_mem_cons.mp hname
      rw [hothers name hsteps, hmoves.others name (Ne.symm hs)]
    · rw [List.cons_append, run_cons hstep, hmore]

/-- The workspace that a history starts with. -/
def start (r : Registry) : Workspace := ⟨r, [], []⟩

theorem agrees_start (r : Registry) : Agrees r (start r) fun _ => none := ⟨rfl, fun _ => .none⟩

/-- Every history of steps that name registered variables and sets that were made before runs to its end. Its sets are those
    that it denotes, and answer as these do: also the members of a set that was made without a registry can be listed. A set
    is changed only by steps of its name, so that neither a set nor its copy changes with the other. -/
theorem run_denotes (r : Registry) (steps : List Step) (hfits : Fits r (fun _ => none) steps) :
    ∃ (shown : List Shown) (w : Workspace), run steps (start r) = (shown.map .ok, w) ∧
      (∀ name, (w.sets.lookup name).isSome = (family steps name).isSome) ∧
      (∀ name s S, w.sets.lookup name = some s → family steps name = some S → s.Answers r S ∧
        ∀ name' t T, w.sets.lookup name' = some t → family steps name' = some T → s.Compares t S T) ∧
      (∀ before after name, steps = before ++ after → (∀ s ∈ after, s.name ≠ name) →
        w.sets.lookup name = (run before (start r)).2.sets.lookup name) ∧
      ∀ before copy after, steps = before ++ copy :: after → copy.action = .copyOf → (∀ s ∈ after, s.name ≠ copy.name) →
        w.sets.lookup copy.name = (run before (start r)).2.sets.lookup copy.other := by
  obtain ⟨shown, w, hrun, hagrees, -, -⟩ := run_agrees (agrees_start r) hfits
  have holds : ∀ {name s S}, w.sets.lookup name = some s → family steps name = some S → s.Holds r S := by
    intro name s S hs hS
    obtain ⟨S', hS', hholds⟩ := hagrees.holds hs
    exact Option.some.inj (hS.symm.trans hS') ▸ hholds
  have frame : ∀ {before after name}, steps = before ++ after → (∀ s ∈ after, s.name ≠ name) →
      w.sets.lookup name = (run before (start r)).2.sets.lookup name := by
    rintro before after name rfl hafter
    obtain ⟨hbefore, hfits⟩ := fits_append.mp hfits
    obtain ⟨shown₁, w₁, hrun₁, hagrees₁, -, hmore⟩ := run_agrees (agrees_start r) hbefore
    obtain ⟨shown₂, w₂, hrun₂, -, hothers, -⟩ := run_agrees hagrees₁ hfits
    have hw := hmore after
    rw [hrun, hrun₂] at hw
    obtain rfl : w = w₂ := hw
    rw [hrun₁, hothers name hafter]
  refine ⟨shown, w, hrun, fun name => ?_, fun name s S hs hS => ⟨(holds hs hS).answers, fun name' t T ht hT =>
    (holds hs hS).compares (holds ht hT)⟩, fun before after name => frame, ?_⟩
  · have hrel := hagrees.sets name
    rw [← family] at hrel
    generalize w.sets.lookup name = found, family steps name = denoted at hrel
    cases hrel <;> rfl
  · rintro before copy after rfl hcopy hafter
    obtain ⟨hbefore, hfits, -⟩ := fits_append.mp hfits
    obtain ⟨shown₁, w₁, hrun₁, hagrees₁, -, hmore⟩ := run_agrees (agrees_start r) hbefore
    obtain ⟨first, w₂, hstep, hmoves⟩ := step_moves hagrees₁ hfits
    rw [frame (List.append_cons before copy after) hafter, hmore, run_cons hstep, hrun₁]
    exact hmoves.copied hcopy

/-- A set that is made without a registry, and one with the variables 1 and 0. The second is copied, and a new set is made
    of the three, before 0 is removed from the second. -/
def sharing : List Step :=
  [⟨.make false, "first", "", [], []⟩, ⟨.make true, "second", "", [1, 0], []⟩, ⟨.copyOf, "copy", "second", [], []⟩,
    ⟨.unionOf, "all", "", [], ["first", "second", "copy"]⟩, ⟨.remove, "second", "", [0], []⟩]

def columns : Registry := ⟨#[⟨.column, "a", .int64⟩, ⟨.column, "b", .int64⟩]⟩

theorem run_denotes_sharing : Fits columns (fun _ => none) sharing ∧
    ∃ shown w s t u, run sharing (start columns) = (shown, w) ∧ w.sets.lookup "all" = some s ∧ w.sets.lookup "copy" = some t ∧
      w.sets.lookup "second" = some u ∧ s.Answers columns {0, 1} ∧ t.Answers columns {0, 1} ∧ u.Answers columns {1} ∧
      u.Compares t {1} {0, 1} := by
  have hfits : Fits columns (fun _ => none) sharing :=
    ⟨⟨by decide, by decide, by decide⟩, ⟨by decide, by decide, by decide⟩, ⟨by decide, by decide, by decide⟩,
      ⟨by decide, by decide, by decide⟩, ⟨by decide, by decide, by decide⟩, trivial⟩
  obtain ⟨shown, w, hrun, hmade, hanswers, -, -⟩ := run_denotes columns sharing hfits
  have found : ∀ name S, family sharing name = some S → ∃ s, w.sets.lookup name = some s := by
    intro name S hS
    exact Option.isSome_iff_exists.mp (by rw [hmade, hS]; rfl)
  have hall : family sharing "all" = some {0, 1} := by decide
  have hcopy : family sharing "copy" = some {0, 1} := by decide
  have hsecond : family sharing "second" = some {1} := by decide
  obtain ⟨s, hs⟩ := found _ _ hall
  obtain ⟨t, ht⟩ := found _ _ hcopy
  obtain ⟨u, hu⟩ := found _ _ hsecond
  exact ⟨hfits, _, w, s, t, u, hrun, hs, ht, hu, (hanswers _ _ _ hs hall).1, (hanswers _ _ _ ht hcopy).1,
    (hanswers _ _ _ hu hsecond).1, (hanswers _ _ _ hu hsecond).2 _ _ _ ht hcopy⟩

end History

end Planwright
