import Planwright.Plan.Tree
import Planwright.Plan.Build

/-! Copies of subtrees. Every variable that a subtree defines gets a fresh one in the copy, and references
    to it follow. -/

namespace Planwright.Plan

abbrev CopyM := StateT VarMap PlanM

def freshVar (v : VarId) : CopyM VarId := do
  let w ← newVarLike v
  modify fun m => m.insert v w
  return w

def copiedVar (v : VarId) : CopyM VarId := return (← get).apply v

def copiedSet (s : VarSet) : CopyM VarSet := return VarSet.ofList (← s.toList.mapM copiedVar)

/-- A branch variable may be missing, and then is missing in the copy. -/
def copiedEntry (m : VarMap) (v w : VarId) : CopyM VarMap := do
  match m.get? v with
  | some x => return .ofList [(w, ← copiedVar x)]
  | none => return .empty

def mergeMaps (ms : List VarMap) : VarMap := VarMap.ofList (ms.flatMap (·.entries))

def copiedKeys (keys : List SortKey) : CopyM (List SortKey) :=
  keys.mapM fun k => return ⟨← copiedVar k.var, k.ascending⟩

/-- The operator of a copy. The children are copied before it, so what is defined below is known. -/
def copiedOp : Op → CopyM Op
  | .scanTable t => do
    let columns ← t.columns.mapM freshVar
    let nonNullable ← copiedSet t.nonNullable
    let keys ← t.keys.mapM copiedSet
    let id ← modifyGetThe Plan fun p => (p.tableCount, { p with tableCount := p.tableCount + 1 })
    return .scanTable { id, name := t.name, columns, nonNullable, keys }
  | .project outputs => return .project (← copiedSet outputs)
  | .combine kind outputs left right => do
    let entries ← outputs.toList.mapM fun v => do
      let w ← freshVar v
      return (w, ← copiedEntry left v w, ← copiedEntry right v w)
    return .combine kind (VarSet.ofList (entries.map (·.1))) (mergeMaps (entries.map (·.2.1)))
      (mergeMaps (entries.map (·.2.2)))
  | .distinct keys => return .distinct (← copiedSet keys)
  | .groupBy keys outputs => return .groupBy (← copiedSet keys) (← copiedSet outputs)
  | .sort keys => return .sort (← copiedKeys keys)
  | .constrainedSort keys => return .constrainedSort (← copiedKeys keys)
  | .varDef v => return .varDef (← freshVar v)
  | .varRef v type => return .varRef (← copiedVar v) type
  | op => pure op

def copyTree : Tree → CopyM NodeId
  | .node _ op children => do
    let copies ← copyAll children
    create (← copiedOp op) copies
where
  copyAll : List Tree → CopyM (List NodeId)
    | [] => pure []
    | c :: cs => do return (← copyTree c) :: (← copyAll cs)

def copySubtree (n : NodeId) : PlanM (NodeId × VarMap) := do
  (copyTree (← tree n)).run .empty

/-- A copy of an expression. A single reference stays a reference to the same variable. -/
def copyExpr (n : NodeId) : PlanM NodeId := do
  match ← op n with
  | .varRef v _ => varRef v
  | _ => return (← copySubtree n).1

end Planwright.Plan
