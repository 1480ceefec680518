import Planwright.Plan.Basic

/-! Patterns: the shapes of subtree that rules apply to. -/

namespace Planwright

/-- A wildcard matches any node. A pattern without children matches any node of its kind. -/
inductive Pattern
  | wildcard
  | node (kind : OpKind) (children : List Pattern)
  deriving Inhabited

namespace Pattern

def ofKind (k : OpKind) : Pattern := node k []

def isWildcard : Pattern → Bool
  | wildcard => true
  | node _ _ => false

def holds (p : Plan) : Pattern → NodeId → Bool
  | wildcard, _ => true
  | node k ps, n =>
    match p.nodes[n]? with
    | none => false
    | some r => r.op.kind == k && (ps.isEmpty || (ps.length == r.children.length && each p ps r.children))
where
  each (p : Plan) : List Pattern → List NodeId → Bool
    | q :: qs, c :: cs => holds p q c && each p qs cs
    | _, _ => true

def text : Pattern → String
  | wildcard => "_"
  | node k [] => k.name
  | node k ps => k.name ++ "(" ++ ", ".intercalate (ps.map text) ++ ")"

end Pattern

end Planwright
