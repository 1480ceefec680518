import Planwright.Engine.Settle

/-! Passes: one run of a rule group over a plan, and the runs that make up an optimization. -/

namespace Planwright.Engine

structure Outcome where
  changed : Bool
  stats : Stats
  log : List String
  deriving Inhabited

/-- Applies a rule group to the whole tree until nothing changes, unless the tree is too large. -/
def pass (fuel : Nat) (options : Options) (group : RuleGroup) : PlanM Outcome := do
  let p ← get
  let size := (← Plan.tree p.root).size
  let stats := { Stats.empty with group := group.name, nodeCount := size }
  if (size : Int) > options.maxNodeCount then
    let line := "tree has " ++ toString size ++ " nodes, over the limit of " ++ toString options.maxNodeCount
      ++ ", skipping " ++ group.name ++ " rules"
    return ⟨false, { stats with skipped := true }, [line]⟩
  let start := "applying " ++ group.name ++ " rules to " ++ toString size ++ " nodes"
  let table := group.enabledRules options.disabledRules
  let (root, c) ← (settle table fuel [] p.root none).run { Context.start options with stats }
  modify fun p => { p with root }
  let done := "done after " ++ toString c.steps ++ " steps"
  let stats := { c.stats with
    steps := c.steps, pruningRequired := c.pruningRequired, nullabilityRequired := c.nullabilityRequired }
  return ⟨c.steps > 0, stats, start :: c.log.reverse ++ [done]⟩

/-- Applies all rules, then the nullability rules while they are asked for. The statistics are those of all
    passes together. -/
def optimize (fuel : Nat) (options : Options) : PlanM Outcome := do
  let first ← pass fuel options .all
  loop fuel first.stats first.log first
where
  loop : Nat → Stats → List String → Outcome → PlanM Outcome
    | 0, _, _, _ => throw .outOfFuel
    | rounds + 1, stats, log, last => do
      if last.changed && last.stats.nullabilityRequired then
        let next ← pass fuel options .nullability
        loop rounds (stats.merge next.stats) (log ++ next.log) next
      else return ⟨stats.steps > 0, stats, log⟩

end Planwright.Engine
