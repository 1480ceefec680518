import Planwright.Rule.Basic

/-! Rules that take applies apart: an apply whose right side does not depend on the left is a join, and
    what depends on it is moved up until it can be evaluated above a join. -/

namespace Planwright.Rules

open Plan RuleM

/-- `CrossApply(X, Filter(Y, p))` is `InnerJoin(X, Y, p)`, and `OuterApply(X, Filter(Y, p))` is
    `LeftOuterJoin(X, Y, p)`, if only the predicate refers to `X`. -/
def overFilter (n : NodeId) : RuleM (Option NodeId) := do
  let left ← child n 0
  let filter ← child n 1
  let input ← child filter 0
  let inputInfo ← info input
  let leftInfo ← relationInfo left
  if inputInfo.external.overlaps leftInfo.definitions then return none
  let predicate ← child filter 1
  if (← kind n) == .crossApply then return some (← innerJoin left input predicate)
  return some (← leftOuterJoin left input predicate)

/-- A definition above a join or an apply, which is null where a variable is. One that marks rows with a match is a
    reference to the variable. -/
def guardDef (sentinel : VarId) (isMarker : Bool) (definer expr : NodeId) : PlanM NodeId := do
  let definition ← if isMarker then varRef sentinel else nullIf sentinel expr
  varDef (← definedVar definer) definition

/-- Whether a narrow integer does for an expression that marks rows. -/
def canMark (int32 : Option VarId) (expr : NodeId) : RuleM Bool := do
  if (← kind expr) == .nullSentinel && int32.isSome then canChangeSentinel else return false

/-- `OuterApply(X, Project(Filter(Y, p), c := constant))` is `LeftOuterJoin(X, Y, p)` with `c` defined above it
    as null wherever a variable of `Y` that is never null is null. Without such a variable it is
    `LeftOuterJoin(X, Project(Y, c := constant), p)`. -/
def overConstantProject (n : NodeId) : RuleM (Option NodeId) := do
  let left ← child n 0
  let proj ← child n 1
  let .project outputs ← op proj | throw .malformed
  let filter ← child proj 0
  let input ← child filter 0
  let inputInfo ← relationInfo input
  let leftInfo ← relationInfo left
  if outputs.overlaps leftInfo.definitions || inputInfo.external.overlaps leftInfo.definitions then return none
  let predicate ← child filter 1
  let int32 := (← plan).vars.firstInt32? inputInfo.nonNullable.toList
  match int32.or inputInfo.nonNullable.first? with
  | none =>
    -- The projection stays below the join and shows what the predicate needs.
    let needed := (← info predicate).external ∩ inputInfo.definitions
    let newProject ← project input (← child proj 1) (outputs ∪ needed)
    return some (← leftOuterJoin left newProject predicate)
  | some sentinel =>
    let definer ← child (← child proj 1) 0
    let expr ← child definer 0
    let isMarker ← canMark int32 expr
    let defs ← varDefList [← guardDef sentinel isMarker definer expr]
    let join ← leftOuterJoin left input predicate
    let joinInfo ← relationInfo join
    return some (← project join defs (outputs ∪ joinInfo.definitions))

/-- `CrossApply(X, Project(Y, defs))` is `Project(CrossApply(X, Y), defs)`. -/
def crossOverProject (n : NodeId) : RuleM (Option NodeId) := do
  let proj ← child n 1
  let .project outputs ← op proj | throw .malformed
  let outputs := outputs ∪ (← relationInfo n).definitions
  let apply ← crossApply (← child n 0) (← child proj 0)
  return some (← project apply (← child proj 1) outputs)

/-- What moving definitions above an outer apply has made so far: the variable whose nullness marks rows
    without a match, and the projection and constant that define it when none was there. -/
structure Marker where
  sentinel : Option VarId
  constant : Option NodeId
  projection : Option NodeId

namespace Marker

def withSentinel (input : NodeId) (inputInfo : Info) (m : Marker) : RuleM (Marker × VarId) :=
  match m.sentinel with
  | some v => return (m, v)
  | none => do
    let constant ← internalConstant (.int32 1)
    let (d, v) ← computedVarDef constant
    let defs ← varDefList [d]
    let projection ← project input defs (VarSet.empty.insert v ∪ inputInfo.definitions)
    return (⟨some v, some constant, some projection⟩, v)

def covers (m : Marker) (expr : NodeId) (k : OpKind) : RuleM Bool :=
  match m.constant with
  | none => return false
  | some c => do
    if ← (← tree c).equivalent (← tree expr) then return true else return k == .nullSentinel

end Marker

/-- A definition moved above an outer apply. A plain reference to the input stays; anything else becomes
    null for rows without a match. -/
def moveDef (input : NodeId) (inputInfo : Info) (m : Marker) (definer : NodeId) : RuleM (Marker × NodeId) := do
  let expr ← child definer 0
  let exprOp ← op expr
  let stays := match exprOp with
    | .varRef v _ => inputInfo.definitions.has v
    | _ => false
  if stays then return (m, definer)
  let (m, sentinel) ← m.withSentinel input inputInfo
  return (m, ← guardDef sentinel (← m.covers expr exprOp.kind) definer expr)

def moveDefs (input : NodeId) (inputInfo : Info) : Marker → List NodeId → RuleM (Marker × List NodeId)
  | m, [] => pure (m, [])
  | m, d :: ds => do
    let (m, d') ← moveDef input inputInfo m d
    let (m, ds') ← moveDefs input inputInfo m ds
    return (m, d' :: ds')

/-- Whether definitions are a lone constant over an input without a marker, which is what the rule below makes. -/
def isLoneMarker (sentinel : Option VarId) : List NodeId → RuleM Bool
  | [d] => do
    if sentinel.isSome then return false
    let k ← kind (← child d 0)
    return k == .internalConstant || k == .nullSentinel
  | _ => return false

/-- `OuterApply(X, Project(Y, defs))` is `Project(OuterApply(X, Y), defs)` with the definitions made null for
    rows of `X` without a match. A variable of `Y` that is never null marks such rows, or a constant
    added to `Y`. -/
def outerOverProject (n : NodeId) : RuleM (Option NodeId) := do
  let proj ← child n 1
  let .project outputs ← op proj | throw .malformed
  let defs ← children (← child proj 1)
  let input ← child proj 0
  let inputInfo ← relationInfo input
  let sentinel := inputInfo.nonNullable.first?
  if ← isLoneMarker sentinel defs then return none
  let (m, newDefs) ← moveDefs input inputInfo ⟨sentinel, none, none⟩ defs
  let left ← child n 0
  let apply ← outerApply left (m.projection.getD input)
  let outputs := outputs ∪ (← relationInfo left).definitions
  let list ← varDefList newDefs
  return some (← project apply list outputs)

/-- An apply whose right side does not refer to the left is a join. An outer apply whose right side always
    has a row is a cross apply. -/
def overAnything (n : NodeId) : RuleM (Option NodeId) := do
  let left ← child n 0
  let right ← child n 1
  let leftInfo ← relationInfo left
  let rightInfo ← relationInfo right
  let outer := (← kind n) == .outerApply
  let converted := outer && rightInfo.minRows.rank ≥ RowCount.one.rank
  if rightInfo.external.overlaps leftInfo.definitions then
    if converted then return some (← crossApply left right)
    return none
  if !outer || converted then return some (← crossJoin left right)
  let always ← predicate true
  return some (← leftOuterJoin left right always)

/-- Whether the right side of an apply is a single column and at most one row, exactly one for a cross
    apply. -/
def isElement (k : OpKind) (right : NodeId) : RuleM Bool := do
  let i ← relationInfo right
  if i.definitions.size != 1 || i.maxRows != .one then return false
  if k == .crossApply && i.minRows != .one then return false
  return (← tree right).outputCount == 1

/-- An apply with a single value on its right is a projection that defines it as an element. The element
    gets definitions of its own, so that renaming its variable leaves it alone. -/
def intoElement (n : NodeId) : RuleM (Option NodeId) := do
  let right ← child n 1
  if !(← isElement (← kind n) right) then return none
  let left ← child n 0
  let leftInfo ← relationInfo left
  let some old := (← relationInfo right).definitions.first? | throw .malformed
  RuleM.renameSubtree right
  let (subquery, _) ← copySubtree right
  let value ← element subquery (← typeOf old)
  let (d, new) ← computedVarDef value
  rename old new
  let defs ← varDefList [d]
  return some (← project left defs (leftInfo.definitions.insert new))

/-- `CrossApply(X, LeftOuterJoin(SingleRowTable, Y, p))` is `OuterApply(X, Y)` unless `p` is false. -/
def overSingleRowJoin (n : NodeId) : RuleM (Option NodeId) := do
  let join ← child n 1
  if (← op (← child join 2)).isFalse then return none
  return some (← outerApply (← child n 0) (← child join 1))

def constantProjectPattern (k : OpKind) : Pattern :=
  matching .outerApply
    [.wildcard,
     matching .project
      [matching .filter [.wildcard, .wildcard],
       matching .varDefList [matching .varDef [.ofKind k]]]]

def crossApplyOverAnything : Rule :=
  .simple "CrossApplyOverAnything" (matching .crossApply [.wildcard, .wildcard]) overAnything

def crossApplyOverFilter : Rule :=
  .simple "CrossApplyOverFilter" (matching .crossApply [.wildcard, matching .filter [.wildcard, .wildcard]]) overFilter

def crossApplyOverProject : Rule :=
  .simple "CrossApplyOverProject" (matching .crossApply [.wildcard, matching .project [.wildcard, .wildcard]])
    crossOverProject

def outerApplyOverAnything : Rule :=
  .simple "OuterApplyOverAnything" (matching .outerApply [.wildcard, .wildcard]) overAnything

def outerApplyOverProjectInternalConstantOverFilter : Rule :=
  .simple "OuterApplyOverProjectInternalConstantOverFilter" (constantProjectPattern .internalConstant)
    overConstantProject

def outerApplyOverProjectNullSentinelOverFilter : Rule :=
  .simple "OuterApplyOverProjectNullSentinelOverFilter" (constantProjectPattern .nullSentinel) overConstantProject

def outerApplyOverProject : Rule :=
  .simple "OuterApplyOverProject" (matching .outerApply [.wildcard, matching .project [.wildcard, .wildcard]])
    outerOverProject

def outerApplyOverFilter : Rule :=
  .simple "OuterApplyOverFilter" (matching .outerApply [.wildcard, matching .filter [.wildcard, .wildcard]]) overFilter

def crossApplyOverLeftOuterJoinOverSingleRowTable : Rule :=
  .simple "CrossApplyOverLeftOuterJoinOverSingleRowTable"
    (matching .crossApply
      [.wildcard, matching .leftOuterJoin [.ofKind .singleRowTable, .wildcard, .ofKind .constantPredicate]])
    overSingleRowJoin

def crossApplyIntoScalarSubquery : Rule :=
  .simple "CrossApplyIntoScalarSubquery" (matching .crossApply [.wildcard, .wildcard]) intoElement

def outerApplyIntoScalarSubquery : Rule :=
  .simple "OuterApplyIntoScalarSubquery" (matching .outerApply [.wildcard, .wildcard]) intoElement

def applyRules : List Rule :=
  [crossApplyOverAnything, crossApplyOverFilter, crossApplyOverProject, outerApplyOverAnything,
   outerApplyOverProjectInternalConstantOverFilter, outerApplyOverProjectNullSentinelOverFilter,
   outerApplyOverProject, outerApplyOverFilter, crossApplyOverLeftOuterJoinOverSingleRowTable,
   crossApplyIntoScalarSubquery, outerApplyIntoScalarSubquery]

end Planwright.Rules
