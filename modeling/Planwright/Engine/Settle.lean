import Planwright.Rule.Group

/-! The engine: rules are applied to a tree, children before parents, until none changes anything. -/

namespace Planwright.Engine

open Plan

def catchUp (n : NodeId) : RuleM Unit := do
  let mappings := (← get).mappings
  if mappings.size != 0 then
    if (← info n).external.overlaps mappings.domain then
      RuleM.renameSubtree n

/-- Enters a subtree: a relational root joins the ancestors, and references renamed meanwhile follow. -/
def enter (n : NodeId) : RuleM Unit := do
  if (← kind n).isRelational then
    modify fun c => { c with ancestors := n :: c.ancestors }
  catchUp n

def leave (n : NodeId) : RuleM Unit := do
  if (← kind n).isRelational then
    match (← get).ancestors with
    | [] => throw .noAncestor
    | a :: rest =>
      if a ≠ n then throw (.wrongAncestor a n)
      modify fun c => { c with ancestors := rest }

def refresh (n : NodeId) : RuleM Unit := do
  let _ ← renameNode (← get).mappings n
  let _ ← recompute n

def keyOf (n : NodeId) (place : Option (NodeId × Nat)) : RuleM SubtreeKey := do
  return ⟨n, (← info n).hash, place⟩

def markSettled (k : SubtreeKey) : RuleM Unit := modify fun c => { c with settled := k :: c.settled }

def record (rule : Rule) (out : NodeId) : RuleM Unit := do
  modify fun c =>
    { c with
      steps := c.steps + 1
      stats := c.stats.recordChange rule.name
      pruningRequired := c.pruningRequired || Rule.requiresPruning rule.name
      nullabilityRequired := c.nullabilityRequired || Rule.requiresNullability rule.name
      log := if c.options.verbose then
          ("applied " ++ rule.name ++ ", produced node " ++ toString out) :: c.log
        else c.log }
  let _ ← recompute out

def tryRules (settle : NodeId → RuleM NodeId) (n : NodeId) : List Rule → RuleM (Option NodeId)
  | [] => pure none
  | rule :: rest => do
    if !rule.pattern.holds (← getThe Plan) n then tryRules settle n rest
    else
      modify fun c => { c with stats := c.stats.recordMatch rule.name }
      match ← rule.apply settle n with
      | none => tryRules settle n rest
      | some out =>
        record rule out
        return some out

def settleChild (settle : Nat → NodeId → RuleM NodeId) (n : NodeId) (i : Nat) : RuleM Unit := do
  let c ← child n i
  let c' ← settle i c
  if c' ≠ c then setChild n i c'

/-- Settles the subtree below a node and gives its replacement. `seen` are the shapes met at this place, so
    that going round in a circle ends. The fuel bounds the depth of calls. -/
def settle (table : RuleTable) : (fuel : Nat) → (seen : List SubtreeKey) → (n : NodeId) →
    (place : Option (NodeId × Nat)) → RuleM NodeId
  | 0, _, _, _ => throw .outOfFuel
  | fuel + 1, seen, n, place => do
    enter n
    let key ← keyOf n place
    if (← get).settled.contains key then
      leave n
      return n
    if seen.contains key then
      markSettled key
      leave n
      return n
    (List.range (← children n).length).forM (settleChild (fun i c => settle table fuel [] c (some (n, i))) n)
    refresh n
    let rules := table.forKind (← kind n)
    match ← tryRules (fun m => settle table fuel [] m none) n rules with
    | none =>
      markSettled (← keyOf n place)
      leave n
      return n
    | some out =>
      leave n
      settle table fuel (key :: seen) out place

def defaultFuel : Nat := 1000000000

end Planwright.Engine
