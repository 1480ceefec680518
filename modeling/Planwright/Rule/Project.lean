import Planwright.Rule.Basic

/-! Rules on projections, and the rule that drops a distinct over distinct rows. -/

namespace Planwright.Rules

open Plan RuleM

def scalarReferences : List NodeId → PlanM (Option (List VarId))
  | [] => pure (some [])
  | d :: ds => do
    let t ← tree (← child d 0)
    if !t.isScalar then return none
    return (← scalarReferences ds).map (t.references ++ ·)

def redefine (s : Substitution) (d : NodeId) : PlanM NodeId := do
  let expr ← substitute s (← child d 0)
  varDef (← definedVar d) expr

/-- Two projections are one, with the inner definitions put in for their variables. Inner definitions that
    are still shown come last. -/
def projectOverProjectApply (n : NodeId) : RuleM (Option NodeId) := do
  let inner ← child n 0
  let .project outputs ← op n | throw .malformed
  let outerDefs ← children (← child n 1)
  let some refs ← scalarReferences outerDefs | return none
  let innerDefs ← child inner 1
  let some s ← substitution? innerDefs (some refs) | return none
  let moved ← outerDefs.mapM fun d => (redefine s d : RuleM NodeId)
  let kept ← (← children innerDefs).filterM fun d => return outputs.has (← definedVar d)
  let list ← varDefList (moved ++ kept)
  return some (← create (.project outputs) [← child inner 0, list])

def projectWithoutDefs (n : NodeId) : RuleM (Option NodeId) := do
  if (← children (← child n 1)).isEmpty then return some (← child n 0) else return none

def plainReference? (definitions : VarSet) (definer : NodeId) : PlanM (Option VarId) := do
  match ← op (← child definer 0) with
  | .varRef w _ => return if definitions.has w then some w else none
  | _ => return none

def showAs (outputs : VarSet) (old new : VarId) : VarSet := (outputs.erase old).insert new

def showAsIf (outputs : VarSet) (old new : VarId) : VarSet := if outputs.has old then showAs outputs old new else outputs

/-- Drops the definitions that have a variable to stand in for them, renames theirs to it, and tells whether there were any. -/
def dropDefs (standIn? : NodeId → PlanM (Option VarId)) (hide : VarSet → VarId → VarId → VarSet) :
    VarSet → List NodeId → RuleM (VarSet × List NodeId × Bool)
  | outputs, [] => pure (outputs, [], false)
  | outputs, d :: ds => do
    match ← standIn? d with
    | none =>
      let (outputs, kept, dropped) ← dropDefs standIn? hide outputs ds
      return (outputs, d :: kept, dropped)
    | some w =>
      let v ← definedVar d
      rename v w
      let (outputs, kept, _) ← dropDefs standIn? hide (hide outputs v w) ds
      return (outputs, kept, true)

def dropFrom (n input : NodeId) (defs : List NodeId) (standIn? : NodeId → PlanM (Option VarId))
    (hide : VarSet → VarId → VarId → VarSet) : RuleM (Option NodeId) := do
  let .project outputs ← op n | throw .malformed
  let (outputs, kept, dropped) ← dropDefs standIn? hide outputs defs
  if !dropped then return none
  let list ← varDefList kept
  return some (← project input list outputs)

def projectReferences (n : NodeId) : RuleM (Option NodeId) := do
  let input ← child n 0
  let definitions := (← relationInfo input).definitions
  dropFrom n input (← children (← child n 1)) (plainReference? definitions) showAs

def constantVar (d : NodeId) : PlanM (List VarId) := do
  match ← op (← child d 0) with
  | .constant value | .internalConstant value =>
    if value.isNull then return [] else return [← definedVar d]
  | .nullSentinel => return [← definedVar d]
  | _ => return []

def constantVars (defs : List NodeId) : PlanM (List VarId) := return (← defs.mapM constantVar).flatten

def sentinel? (chosen : VarId) (d : NodeId) : PlanM (Option VarId) := do
  let v ← definedVar d
  return if (← kind (← child d 0)) == .nullSentinel && v ≠ chosen then some chosen else none

/-- Null sentinels are replaced by a narrow integer that is never null: one of the input, or else one
    defined here as a constant. -/
def projectSentinels (n : NodeId) : RuleM (Option NodeId) := do
  let defs ← children (← child n 1)
  if !(← defs.anyM fun d => return (← kind (← child d 0)) == .nullSentinel) then return none
  if !(← canChangeSentinel) then return none
  let input ← child n 0
  let inputInfo ← relationInfo input
  let vars := (← plan).vars
  match vars.firstInt32? inputInfo.nonNullable.toList with
  | some v => dropFrom n input defs (sentinel? v) showAsIf
  | none =>
    let some v := vars.firstInt32? (← constantVars defs) | return none
    dropFrom n input defs (sentinel? v) showAsIf

/-- A distinct over rows that are unique on some of its keys is a projection to the keys. -/
def distinctOfKeys (n : NodeId) : RuleM (Option NodeId) := do
  let input ← child n 0
  let inputInfo ← relationInfo input
  let .distinct keys ← op n | throw .malformed
  match inputInfo.keys with
  | none => return none
  | some known =>
    if !known.isSubset keys then return none
    let list ← varDefList []
    return some (← project input list keys)

def projectPattern : Pattern := matching .project [.wildcard, .ofKind .varDefList]

def projectOverProject : Rule :=
  .simple "ProjectOverProject" (matching .project [matching .project [.wildcard, .wildcard], .wildcard])
    projectOverProjectApply

def projectWithNoLocalDefinitions : Rule :=
  .simple "ProjectWithNoLocalDefinitions" projectPattern projectWithoutDefs

def projectWithSimpleVarRedefinitions : Rule :=
  .simple "ProjectWithSimpleVarRedefinitions" projectPattern projectReferences

def projectOpWithNullSentinel : Rule := .simple "ProjectOpWithNullSentinel" projectPattern projectSentinels

def distinctOpOfKeys : Rule := .simple "DistinctOpOfKeys" (matching .distinct [.wildcard]) distinctOfKeys

def projectRules : List Rule :=
  [projectOverProject, projectWithNoLocalDefinitions, projectWithSimpleVarRedefinitions, projectOpWithNullSentinel]

def distinctRules : List Rule := [distinctOpOfKeys]

end Planwright.Rules
