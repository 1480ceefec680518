import Planwright.Analysis.Info

/-! Plans: numbered nodes over a registry of variables. Nodes refer to their children by number, so that a
    node keeps its identity while its operator and children change, and every reader of a number sees
    the change. A node remembers its analysis until it is changed itself. -/

namespace Planwright

abbrev NodeId := Nat

structure Node where
  op : Op
  children : List NodeId
  info : Option Info
  deriving Inhabited

structure Plan where
  vars : Registry
  nodes : Array Node
  /-- How many tables were made, to tell them apart. -/
  tableCount : Nat
  root : NodeId
  deriving Inhabited

def Plan.empty : Plan := ⟨.empty, #[], 0, 0⟩

abbrev PlanM := StateT Plan (Except Fault)

namespace Plan

/-! ### Reading -/

def node (n : NodeId) : PlanM Node := do
  match (← get).nodes[n]? with
  | some r => pure r
  | none => throw .malformed

def op (n : NodeId) : PlanM Op := return (← node n).op

def kind (n : NodeId) : PlanM OpKind := return (← op n).kind

def children (n : NodeId) : PlanM (List NodeId) := return (← node n).children

def child (n : NodeId) (i : Nat) : PlanM NodeId := do
  match (← children n)[i]? with
  | some c => pure c
  | none => throw .malformed

def nodeCount : PlanM Nat := return (← get).nodes.size

def isStale (n : NodeId) : PlanM Bool := return (← node n).info.isNone

/-! ### Changing -/

def setNode (n : NodeId) (r : Node) : PlanM Unit :=
  modify fun p => { p with nodes := p.nodes.setIfInBounds n r }

def checkCount (k : OpKind) (count : Nat) : PlanM Unit :=
  if k.admits count then pure () else throw (.childCount k count)

def create (op : Op) (children : List NodeId) : PlanM NodeId := do
  checkCount op.kind children.length
  modifyGet fun p => (p.nodes.size, { p with nodes := p.nodes.push ⟨op, children, none⟩ })

def setChild (n : NodeId) (i : Nat) (c : NodeId) : PlanM Unit := do
  let r ← node n
  if i < r.children.length then setNode n { r with children := r.children.set i c, info := none }
  else throw .malformed

def setChildren (n : NodeId) (cs : List NodeId) : PlanM Unit := do
  let r ← node n
  checkCount r.op.kind cs.length
  setNode n { r with children := cs, info := none }

def appendChild (n : NodeId) (c : NodeId) : PlanM Unit := do
  let r ← node n
  if r.op.kind.arity?.isSome then throw (.cannotAppend r.op.kind)
  setNode n { r with children := r.children ++ [c], info := none }

def removeChild (n : NodeId) (i : Nat) : PlanM Unit := do
  let r ← node n
  if r.op.kind.arity?.isSome then throw (.cannotRemove r.op.kind)
  if i < r.children.length then setNode n { r with children := r.children.eraseIdx i, info := none }
  else throw .malformed

def setOp (n : NodeId) (op : Op) : PlanM Unit := do
  let r ← node n
  checkCount op.kind r.children.length
  setNode n { r with op, info := none }

def setInfo (n : NodeId) (i : Info) : PlanM Unit := do
  let r ← node n
  setNode n { r with info := some i }

/-! ### Variables -/

def newVar (v : Variable) : PlanM VarId :=
  modifyGet fun p =>
    let (id, vars) := p.vars.add v
    (id, { p with vars })

def newVarLike (v : VarId) : PlanM VarId := do
  match (← get).vars.get? v with
  | some x => newVar x
  | none => throw (.unregistered v)

def typeOf (v : VarId) : PlanM ScalarType := return (← get).vars.type v

/-! ### Analysis -/

def innerOps (n : NodeId) : PlanM (List (Op × Option Op)) := do
  (← children n).mapM fun c => do
    let r ← node c
    match r.children with
    | [] => return (r.op, none)
    | e :: _ => return (r.op, some (← op e))

def askChild (compute : NodeId → PlanM Info) (c : NodeId) : PlanM Child := do
  let remembered ← node c
  let info ← match remembered.info with
    | some i => pure i
    | none => do
      let i ← compute c
      setInfo c i
      pure i
  return ⟨remembered.op, info, ← innerOps c⟩

/-- The analysis of a node from what is remembered about its children, computing what is missing. The
    fuel bounds the depth of what is missing. -/
def computeInfo : Nat → NodeId → PlanM Info
  | 0, _ => throw .outOfFuel
  | fuel + 1, n => do
    let r ← node n
    r.op.analyze (← r.children.mapM (askChild (computeInfo fuel)))

def recompute (n : NodeId) : PlanM Info := do
  let i ← computeInfo ((← get).nodes.size + 1) n
  setInfo n i
  pure i

def info (n : NodeId) : PlanM Info := do
  match (← node n).info with
  | some i => pure i
  | none => recompute n

def relationInfo (n : NodeId) : PlanM Info := do
  let k ← kind n
  if k.isRelational then info n else throw (.notRelational k)

end Plan

end Planwright
