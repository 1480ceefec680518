/-! Statistics of a run of the optimizer. -/

namespace Planwright

structure RuleCount where
  name : String
  matched : Nat
  changed : Nat
  deriving DecidableEq, Inhabited

namespace Stats

def addTo (name : String) (matched changed : Nat) : List RuleCount → List RuleCount
  | [] => [⟨name, matched, changed⟩]
  | r :: rest =>
    if name < r.name then ⟨name, matched, changed⟩ :: r :: rest
    else if name = r.name then ⟨r.name, r.matched + matched, r.changed + changed⟩ :: rest
    else r :: addTo name matched changed rest

def addAll (rs ts : List RuleCount) : List RuleCount := ts.foldl (fun rs t => addTo t.name t.matched t.changed rs) rs

variable {name : String} {matched changed : Nat} {rs : List RuleCount}

theorem exists_mem_addTo {n : String} :
    (∃ r ∈ addTo name matched changed rs, r.name = n) ↔ name = n ∨ ∃ r ∈ rs, r.name = n := by
  induction rs with
  | nil => simp [addTo]
  | cons r rs ih =>
    simp only [List.mem_cons, exists_eq_or_imp] at ih ⊢
    rw [addTo]
    split
    · simp only [List.mem_cons, exists_eq_or_imp]
    · split
      · rename_i heq
        simp only [List.mem_cons, exists_eq_or_imp, heq]
        rw [← or_assoc, or_self]
      · simp only [List.mem_cons, exists_eq_or_imp, ih]
        rw [or_left_comm]

theorem name_of_mem_addTo {r : RuleCount} (h : r ∈ addTo name matched changed rs) : name = r.name ∨ ∃ r' ∈ rs, r'.name = r.name :=
  exists_mem_addTo.mp ⟨r, h, rfl⟩

theorem pairwise_addTo (h : rs.Pairwise fun r r' => r.name < r'.name) :
    (addTo name matched changed rs).Pairwise fun r r' => r.name < r'.name := by
  induction rs with
  | nil => exact List.pairwise_singleton ..
  | cons r rs ih =>
    obtain ⟨hr, hrs⟩ := List.pairwise_cons.mp h
    rw [addTo]
    split
    · rename_i hlt
      refine .cons (fun r' hr' => ?_) h
      rcases List.mem_cons.mp hr' with rfl | hr'
      · exact hlt
      · exact String.lt_trans hlt (hr r' hr')
    · split
      · exact .cons hr hrs
      · rename_i hnlt hne
        refine .cons (fun r' hr' => ?_) (ih hrs)
        rcases name_of_mem_addTo hr' with hn | ⟨r'', hr'', hn⟩
        · rw [← hn]
          exact Std.lt_of_le_of_ne (String.not_lt.mp hnlt) (Ne.symm hne)
        · rw [← hn]
          exact hr r'' hr''

theorem pairwise_addAll (ts : List RuleCount) (h : rs.Pairwise fun r r' => r.name < r'.name) :
    (addAll rs ts).Pairwise fun r r' => r.name < r'.name := by
  induction ts generalizing rs with
  | nil => exact h
  | cons t ts ih => exact ih (pairwise_addTo h)

end Stats

/-- What a run did. Whoever starts the run gives it its identifier. Each rule is listed once, in ascending order of names, and no
    counter is ever full. -/
structure Stats where
  invocation : Nat := 0
  group : String
  skipped : Bool
  steps : Int
  nodeCount : Int
  pruningRequired : Bool
  nullabilityRequired : Bool
  rules : List RuleCount
  ascending : rules.Pairwise (fun r r' => r.name < r'.name) := by exact .nil
  deriving DecidableEq

namespace Stats

def empty : Stats :=
  { group := "", skipped := false, steps := 0, nodeCount := 0, pruningRequired := false,
    nullabilityRequired := false, rules := [] }

instance : Inhabited Stats := ⟨empty⟩

def add (s : Stats) (name : String) (matched changed : Nat) : Stats :=
  { s with rules := addTo name matched changed s.rules, ascending := pairwise_addTo s.ascending }

def recordMatch (s : Stats) (name : String) : Stats := s.add name 1 0

def recordChange (s : Stats) (name : String) : Stats := s.add name 0 1

/-- Adds the counters of another run. The identifier, the group and whether the run was skipped stay. -/
def merge (s t : Stats) : Stats :=
  { s with
    steps := s.steps + t.steps
    nodeCount := max s.nodeCount t.nodeCount
    pruningRequired := s.pruningRequired || t.pruningRequired
    nullabilityRequired := s.nullabilityRequired || t.nullabilityRequired
    rules := addAll s.rules t.rules
    ascending := pairwise_addAll t.rules s.ascending }

end Stats

end Planwright
