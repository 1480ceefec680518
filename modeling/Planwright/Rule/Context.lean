import Planwright.Plan.Copy
import Planwright.Plan.Equivalence
import Planwright.Rule.Options
import Planwright.Rule.Stats
import Planwright.Rule.Scan

/-! The state that rules share during a run: renamed variables, the relational ancestors of the place
    where the run stands, and what was settled before. -/

namespace Planwright

/-- A subtree in its place: the node, its hash, and the parent and child index, if any. -/
structure SubtreeKey where
  node : NodeId
  hash : UInt64
  place : Option (NodeId × Nat)
  deriving DecidableEq

structure Context where
  options : Options
  mappings : VarMap
  /-- Filters whose predicates can be pushed no further. -/
  suppressed : List NodeId
  /-- The relational nodes above the current place, innermost first. -/
  ancestors : List NodeId
  settled : List SubtreeKey
  steps : Nat
  stats : Stats
  pruningRequired : Bool
  nullabilityRequired : Bool
  log : List String

def Context.start (options : Options) : Context :=
  { options, mappings := .empty, suppressed := [], ancestors := [], settled := [], steps := 0, stats := .empty,
    pruningRequired := false, nullabilityRequired := false, log := [] }

abbrev RuleM := StateT Context PlanM

abbrev Substitution := List (VarId × NodeId)

/-! ### Renaming -/

namespace VarMap

def follow (m : VarMap) : Nat → VarId → Except Fault VarId
  | fuel, v =>
    match m.get? v with
    | none => pure v
    | some w =>
      match fuel with
      | 0 => throw .cyclicMapping
      | fuel + 1 => follow m fuel w

/-- What a variable is finally renamed to. A chain longer than the map runs in a circle. -/
def resolve (m : VarMap) (v : VarId) : Except Fault VarId := m.follow m.size v

def resolveSet? (m : VarMap) (s : VarSet) : Except Fault (Option VarSet) :=
  if s.overlaps m.domain then return some (VarSet.ofList (← s.toList.mapM m.resolve)) else pure none

end VarMap

/-- An operator with its references renamed, if any is. What an operator defines keeps its name. -/
def Op.renamed? (m : VarMap) (types : VarId → ScalarType) : Op → Except Fault (Option Op)
  | .varRef v _ => do
    let w ← m.resolve v
    return if w = v then none else some (.varRef w (types w))
  | .project outputs => return (← m.resolveSet? outputs).map .project
  | .distinct keys => return (← m.resolveSet? keys).map .distinct
  | .groupBy keys outputs => do
    let keys' ← m.resolveSet? keys
    let outputs' ← m.resolveSet? outputs
    if keys'.isNone && outputs'.isNone then pure none
    else pure (some (.groupBy (keys'.getD keys) (outputs'.getD outputs)))
  | .combine kind outputs left right => do
    let left' ← left.mapValues m.resolve
    let right' ← right.mapValues m.resolve
    if left' = left ∧ right' = right then pure none else pure (some (.combine kind outputs left' right'))
  | .sort keys => return (← renamedKeys keys).map .sort
  | .constrainedSort keys => return (← renamedKeys keys).map .constrainedSort
  | _ => pure none
where
  renamedKeys (keys : List SortKey) : Except Fault (Option (List SortKey)) := do
    let keys' ← keys.mapM fun k => return (⟨← m.resolve k.var, k.ascending⟩ : SortKey)
    return if keys' = keys then none else some keys'

namespace Plan

def renameNode (m : VarMap) (n : NodeId) : PlanM Bool := do
  let p ← get
  match ← (← op n).renamed? m p.vars.type with
  | some op =>
    setOp n op
    return true
  | none => return false

/-- Renames the references in a tree, children first. The nodes above a change are analysed anew. -/
def renameTree (m : VarMap) : Tree → PlanM Bool
  | .node id _ children => do
    let below ← renameAll children
    let own ← renameNode m id
    if below || own then
      let _ ← recompute id
      return true
    return false
where
  renameAll : List Tree → PlanM Bool
    | [] => pure false
    | c :: cs => do
      let first ← renameTree m c
      let rest ← renameAll cs
      return first || rest

def renameSubtree (m : VarMap) (n : NodeId) : PlanM Bool := do
  if m.size = 0 then return false
  renameTree m (← tree n)

/-- Replaces references by copies of expressions, in place. The fuel bounds the depth. -/
def substituteWithin (s : Substitution) : Nat → NodeId → PlanM NodeId
  | 0, _ => throw .outOfFuel
  | fuel + 1, n => do
    let r ← node n
    if !r.op.kind.isScalar then throw (.scalarExpected r.op.kind)
    match r.op with
    | .varRef v _ =>
      match s.lookup v with
      | some expr => copyExpr expr
      | none => return n
    | _ =>
      (List.range r.children.length).forM fun i => do
        let c ← substituteWithin s fuel (← child n i)
        setChild n i c
      let _ ← recompute n
      return n

/-- Replaces references in an expression by copies of expressions. The result replaces the expression. -/
def substitute (s : Substitution) (n : NodeId) : PlanM NodeId := do
  let size := (← get).nodes.size
  substituteWithin s ((size + 1) * (size + 1)) n

end Plan

namespace RuleM

def plan : RuleM Plan := getThe Plan

def options : RuleM Options := return (← get).options

def rename (old new : VarId) : RuleM Unit :=
  if old = new then pure () else modify fun c => { c with mappings := c.mappings.insert old new }

def renameSubtree (n : NodeId) : RuleM Unit := do
  let _ ← Plan.renameSubtree (← get).mappings n

/-! ### Definitions as a substitution -/

def definedVar (d : NodeId) : PlanM VarId := do
  match ← Plan.op d with
  | .varDef v => pure v
  | _ => throw .malformed

/-- Whether an expression of some size is too large for as many uses as its variable has. -/
def isCostly (uses : Option (List VarId)) (size : Nat) (d : NodeId) : RuleM Bool :=
  match uses with
  | none => return false
  | some uses => do
    if size > (← options).maxScalarTreeSize then return uses.count (← definedVar d) > 2 else return false

/-- Adds the definitions of a list to a substitution, unless one cannot be moved: one that is not
    scalar throughout, or a large one that is used more than twice. -/
def collect (uses : Option (List VarId)) : Substitution → List NodeId → RuleM (Option Substitution)
  | s, [] => pure (some s)
  | s, d :: ds => do
    let expr ← Plan.child d 0
    match (← Plan.tree expr).scan.1 with
    | none => return none
    | some size =>
      if ← isCostly uses size d then return none
      let v ← definedVar d
      match s.lookup v with
      | some other =>
        if other ≠ expr then throw (.definedTwice ((← plan).vars.text v))
        collect uses s ds
      | none => collect uses (s ++ [(v, expr)]) ds

def substitution? (defs : NodeId) (uses : Option (List VarId)) : RuleM (Option Substitution) := do
  collect uses [] (← Plan.children defs)

/-! ### Ancestors -/

/-- Whether a variable is never null, by the first ancestor that can tell, innermost first. -/
def isNeverNull (v : VarId) : RuleM Bool := do ask (← get).ancestors
where
  ask : List NodeId → RuleM Bool
    | [] => pure false
    | a :: rest => do
      let _ ← Plan.recompute a
      let i ← Plan.relationInfo a
      if i.nonNullableVisible.has v then return true
      if i.locals.has v then return false
      ask rest

/-- Whether the right side of an ancestor that is an apply, and is not an ancestor itself, compares rows. -/
def besideCompares (ancestors : List NodeId) : List NodeId → RuleM Bool
  | [] => pure false
  | a :: rest => do
    if (← Plan.kind a).isApply then
      let right ← Plan.child a 1
      if !ancestors.contains right && (← Plan.tree right).hasRowComparison then return true
    besideCompares ancestors rest

/-- Whether a null sentinel may get another value that is not null. That would show in operators above it
    that compare rows by value, and in those that an apply runs beside it. -/
def canChangeSentinel : RuleM Bool := do
  let ancestors := (← get).ancestors
  if ← ancestors.anyM fun a => return Tree.comparesRows (← Plan.kind a) then return false
  return !(← besideCompares ancestors ancestors.reverse)

def nullIf (sentinel : VarId) (expr : NodeId) : PlanM NodeId := do
  let type := (← Plan.op expr).type
  let reference ← Plan.varRef sentinel
  let test ← Plan.isNull reference
  let null ← Plan.null type
  Plan.caseWhen type [test, null, expr]

def suppress (n : NodeId) : RuleM Unit := modify fun c => { c with suppressed := n :: c.suppressed }

def isSuppressed (n : NodeId) : RuleM Bool := return (← get).suppressed.contains n

end RuleM

end Planwright
