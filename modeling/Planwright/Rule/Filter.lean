import Planwright.Rule.Basic
import Planwright.Predicate

/-! Rules that push filters towards the tables. -/

namespace Planwright.Rules

open Plan RuleM

def splitBy (predicate : NodeId) (columns : VarSet) : RuleM (Option NodeId × Option NodeId) := do
  let (single, other) ← (Predicate.ofTree (← tree predicate)).splitByTable columns
  return (← single.build, ← other.build)

/-- Splits a filter's predicate into what refers to nothing but the columns and the rest; either may be
    missing. Without columns given, those of the filter's input are meant. -/
def splitPredicate (n : NodeId) (columns : Option VarSet) : RuleM (Option NodeId × Option NodeId) := do
  let predicate ← child n 1
  match columns with
  | some columns => splitBy predicate columns
  | none =>
    if (← relationInfo n).external.isEmpty then return (some predicate, none)
    splitBy predicate (← relationInfo (← child n 0)).definitions

def withRest (n : NodeId) : Option NodeId → PlanM NodeId
  | none => pure n
  | some predicate => filter n predicate

def overFilterFilter (n : NodeId) : RuleM (Option NodeId) := do
  let inner ← child n 0
  let both ← Plan.and (← child inner 1) (← child n 1)
  return some (← filter (← child inner 0) both)

/-- A filter over a projection goes below it, with the definitions put in for their variables. -/
def overProject (n : NodeId) : RuleM (Option NodeId) := do
  let predicate ← child n 1
  -- A constant predicate has a rule of its own.
  if (← kind predicate) == .constantPredicate then return none
  let shape ← tree predicate
  if !shape.isScalar then return none
  let proj ← child n 0
  let defs ← child proj 1
  let some s ← substitution? defs (some shape.references) | return none
  let moved ← substitute s predicate
  let inner ← filter (← child proj 0) moved
  return some (← create (← op proj) [inner, defs])

/-- A filter over a set operator goes into its branches, with the outputs replaced by each branch's
    variables. The right branch of a difference is left alone. -/
def overSetOp (settle : NodeId → RuleM NodeId) (n : NodeId) : RuleM (Option NodeId) := do
  let (some pushed, rest) ← splitPredicate n none | return none
  if !(← tree pushed).isScalar then return none
  let combined ← child n 0
  let .combine kind outputs left right ← op combined | throw .malformed
  let leftBranch ← child combined 0
  let rightBranch ← child combined 1
  let leftRefs ← references left
  let leftPredicate ← if kind = .except then pure pushed else copyExpr pushed
  let newLeft ← settle (← filter leftBranch (← substitute leftRefs leftPredicate))
  let newRight ←
    if kind = .except then pure rightBranch
    else do
      let rightRefs ← references right
      settle (← filter rightBranch (← substitute rightRefs pushed))
  let out ← create (.combine kind outputs left right) [newLeft, newRight]
  return some (← withRest out rest)
where
  references (m : VarMap) : RuleM Substitution :=
    m.entries.mapM fun (output, v) => return (output, ← varRef v)

def overDistinct (n : NodeId) : RuleM (Option NodeId) := do
  let (some pushed, rest) ← splitPredicate n none | return none
  let inner ← child n 0
  let filtered ← filter (← child inner 0) pushed
  let out ← create (← op inner) [filtered]
  return some (← withRest out rest)

/-- The parts of a filter that refer to grouping keys only go below the grouping. Without keys there is a row
    even for an empty input, so that nothing may go below. -/
def overGroupBy (n : NodeId) : RuleM (Option NodeId) := do
  let group ← child n 0
  let .groupBy keys outputs ← op group | throw .malformed
  if keys.isEmpty then return none
  let shape ← tree (← child n 1)
  if !shape.isScalar then return none
  let (some pushed, rest) ← splitPredicate n (some keys) | return none
  let keyDefs ← child group 1
  let some s ← substitution? keyDefs (some shape.references) | return none
  let moved ← substitute s pushed
  let filtered ← filter (← child group 0) moved
  let out ← create (.groupBy keys outputs) [filtered, keyDefs, ← child group 2]
  return some (← withRest out rest)

/-- Splits off what refers to one side only, unless that side is a scan, which gets no cheaper by it. -/
def splitSide (side : NodeId) (definitions : VarSet) (p : Predicate) : RuleM (Option NodeId × Predicate) := do
  if (← kind side) == .scanTable then return (none, p)
  let (single, other) ← p.splitByTable definitions
  return (← single.build, other)

def filterSide (settle : NodeId → RuleM NodeId) (side : NodeId) : Option NodeId → RuleM NodeId
  | none => pure side
  | some predicate => do settle (← filter side predicate)

structure JoinSplit where
  kind : OpKind
  join : NodeId
  left : NodeId
  right : NodeId
  leftPart : Option NodeId
  rightPart : Option NodeId
  joinPart : Option NodeId
  rest : Predicate
  rejects : Bool

/-- Splits the predicate of a filter over a join, unless that was done before. A left outer join becomes an inner join
    if the filter rejects the nulls it would make. -/
def splitJoin (n : NodeId) : RuleM (Option JoinSplit) := do
  if ← isSuppressed n then return none
  let join ← child n 0
  let joinKind ← kind join
  let left ← child join 0
  let right ← child join 1
  let leftInfo ← relationInfo left
  let rightInfo ← relationInfo right
  let whole := Predicate.ofTree (← tree (← child n 1))
  let rejects := joinKind == .leftOuterJoin
    && !whole.preservesNulls rightInfo.definitions (← options).ansiNullSemantics
  let joinKind := if rejects then .innerJoin else joinKind
  let (leftPart, p) ← splitSide left leftInfo.definitions whole
  let (rightPart, p) ←
    if joinKind == .leftOuterJoin then pure (none, p) else splitSide right rightInfo.definitions p
  let (joinPart, p) ←
    if joinKind == .leftOuterJoin then pure (none, p)
    else do
      let (equal, other) := p.splitByJoin leftInfo.definitions rightInfo.definitions
      pure (← equal.build, other)
  return some ⟨joinKind, join, left, right, leftPart, rightPart, joinPart, p, rejects⟩

namespace JoinSplit

def changed (s : JoinSplit) : Bool := s.rejects || s.leftPart.isSome || s.rightPart.isSome || s.joinPart.isSome

def condition (s : JoinSplit) : RuleM (OpKind × Option NodeId) :=
  match s.joinPart with
  | some equal => do
    if s.kind == .crossJoin then return (.innerJoin, some equal)
    else return (s.kind, some (← Plan.and (← child s.join 2) equal))
  | none => do
    if s.kind == .crossJoin then return (s.kind, none) else return (s.kind, some (← child s.join 2))

end JoinSplit

def joinOf (left right : NodeId) : OpKind → Option NodeId → PlanM NodeId
  | .crossJoin, _ => crossJoin left right
  | .innerJoin, some c => innerJoin left right c
  | .leftOuterJoin, some c => leftOuterJoin left right c
  | _, _ => throw .malformed

/-- What remains of a predicate stays above a join, and is not tried again. -/
def filterRest (join : NodeId) (p : Predicate) : RuleM (Option NodeId) := do
  match ← p.build with
  | none => return some join
  | some rest =>
    let out ← filter join rest
    suppress out
    return some out

def joinAgain (s : JoinSplit) (newLeft newRight : NodeId) : RuleM (Option NodeId) := do
  let (joinKind, condition) ← s.condition
  if !s.changed then return none
  filterRest (← joinOf newLeft newRight joinKind condition) s.rest

/-- The parts of a filter over a join that refer to one side go to that side, equalities between both sides go
    into the join condition. -/
def overJoin (settle : NodeId → RuleM NodeId) (n : NodeId) : RuleM (Option NodeId) := do
  let some s ← splitJoin n | return none
  let newLeft ← filterSide settle s.left s.leftPart
  let newRight ← filterSide settle s.right s.rightPart
  joinAgain s newLeft newRight

/-- A filter that rejects the nulls of an outer apply makes it a cross apply. -/
def overOuterApply (n : NodeId) : RuleM (Option NodeId) := do
  let apply ← child n 0
  let right ← child apply 1
  let rightInfo ← relationInfo right
  let predicate ← child n 1
  let whole := Predicate.ofTree (← tree predicate)
  if whole.preservesNulls rightInfo.definitions (← options).ansiNullSemantics then return none
  let cross ← crossApply (← child apply 0) right
  return some (← filter cross predicate)

def nullDefs : List VarId → RuleM (List NodeId × List VarId)
  | [] => pure ([], [])
  | v :: vs => do
    let null ← Plan.null (← typeOf v)
    let (d, w) ← computedVarDef null
    rename v w
    let (ds, ws) ← nullDefs vs
    return (d :: ds, w :: ws)

def isEmptied (input : NodeId) : RuleM Bool := do
  match ← kind input with
  | .singleRowTable => return true
  | .project => return (← kind (← child input 0)) == .singleRowTable
  | _ => return false

def emptied (predicate : NodeId) (defs : List NodeId) (vars : List VarId) : RuleM (Option NodeId) := do
  let row ← singleRowTable
  let filtered ← filter row predicate
  let list ← varDefList defs
  return some (← project filtered list (VarSet.ofList vars))

/-- A filter that always holds is its input. One that never holds is an empty relation, over which nulls stand
    in for the variables of its input. -/
def overConstantPredicate (n : NodeId) : RuleM (Option NodeId) := do
  let input ← child n 0
  let predicate ← child n 1
  if (← op predicate).isTrue then return some input
  if ← isEmptied input then return none
  let inputInfo ← relationInfo input
  let (defs, vars) ← nullDefs inputInfo.definitions.toList
  if vars.isEmpty then
    let (d, w) ← computedVarDef (← Plan.null .boolean)
    emptied predicate [d] [w]
  else emptied predicate defs vars

def filterPattern (k : OpKind) (count : Nat) : Pattern :=
  matching .filter [matching k (List.replicate count .wildcard), .wildcard]

def filterWithConstantPredicate : Rule :=
  .simple "FilterWithConstantPredicate" (matching .filter [.wildcard, .ofKind .constantPredicate]) overConstantPredicate

def filterOverCrossJoin : Rule := ⟨"FilterOverCrossJoin", filterPattern .crossJoin 2, overJoin⟩

def filterOverInnerJoin : Rule := ⟨"FilterOverInnerJoin", filterPattern .innerJoin 3, overJoin⟩

def filterOverLeftOuterJoin : Rule := ⟨"FilterOverLeftOuterJoin", filterPattern .leftOuterJoin 3, overJoin⟩

def filterOverDistinct : Rule := .simple "FilterOverDistinct" (filterPattern .distinct 1) overDistinct

def filterOverUnionAll : Rule := ⟨"FilterOverUnionAll", filterPattern .unionAll 2, overSetOp⟩

def filterOverIntersect : Rule := ⟨"FilterOverIntersect", filterPattern .intersect 2, overSetOp⟩

def filterOverExcept : Rule := ⟨"FilterOverExcept", filterPattern .except 2, overSetOp⟩

def filterOverFilter : Rule := .simple "FilterOverFilter" (filterPattern .filter 2) overFilterFilter

def filterOverGroupBy : Rule := .simple "FilterOverGroupBy" (filterPattern .groupBy 3) overGroupBy

def filterOverProject : Rule := .simple "FilterOverProject" (filterPattern .project 2) overProject

def filterOverOuterApply : Rule := .simple "FilterOverOuterApply" (filterPattern .outerApply 2) overOuterApply

def filterRules : List Rule :=
  [filterWithConstantPredicate, filterOverCrossJoin, filterOverDistinct, filterOverExcept, filterOverFilter,
   filterOverGroupBy, filterOverInnerJoin, filterOverIntersect, filterOverLeftOuterJoin, filterOverProject,
   filterOverUnionAll, filterOverOuterApply]

end Planwright.Rules
