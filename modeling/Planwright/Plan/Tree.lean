import Planwright.Plan.Basic

/-! Trees: the subtree below a node as a value. What only looks at operators and shape is defined on
    trees. -/

namespace Planwright

inductive Tree
  | node (id : NodeId) (op : Op) (children : List Tree)
  deriving Inhabited

namespace Tree

def id : Tree → NodeId
  | node id _ _ => id

def op : Tree → Op
  | node _ op _ => op

def children : Tree → List Tree
  | node _ _ children => children

def kind (t : Tree) : OpKind := t.op.kind

def size : Tree → Nat
  | node _ _ children => 1 + total children
where
  total : List Tree → Nat
    | [] => 0
    | c :: cs => size c + total cs

/-- All nodes with their places, parents first: a place is the list of child indexes from the root. -/
def withPaths (path : List Nat) : Tree → List (List Nat × Tree)
  | node id op children =>
    (path, node id op children) :: below path 0 children
where
  below (path : List Nat) (i : Nat) : List Tree → List (List Nat × Tree)
    | [] => []
    | c :: cs => withPaths (path ++ [i]) c ++ below path (i + 1) cs

end Tree

namespace Plan

/-- The tree below a node, if it ends within the given depth. -/
def view (p : Plan) : Nat → NodeId → Option Tree
  | 0, _ => none
  | depth + 1, n => do
    let r ← p.nodes[n]?
    let children ← r.children.mapM (p.view depth)
    return .node n r.op children

/-- The tree below a node. No path without a repetition is longer than the number of nodes. -/
def tree? (p : Plan) (n : NodeId) : Option Tree := p.view p.nodes.size n

def tree (n : NodeId) : PlanM Tree := do
  match (← get).tree? n with
  | some t => pure t
  | none => throw .malformed

end Plan

end Planwright
