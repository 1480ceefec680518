import Planwright.Plan.Tree

/-! Scans of expressions: whether they are scalar throughout, how large they are and what they refer to. -/

namespace Planwright.Tree

/-- The number of inner nodes of a tree of scalar operators, or `none` if another operator was met, with
    the references passed on the way there. -/
def scan : Tree → Option Nat × List VarId
  | node _ op children =>
    if !op.kind.isScalar then (none, [])
    else
      let own := match op with
        | .varRef v _ => [v]
        | _ => []
      let (below, refs) := scanAll children
      (below.map (· + if children.isEmpty then 0 else 1), own ++ refs)
where
  scanAll : List Tree → Option Nat × List VarId
    | [] => (some 0, [])
    | c :: cs =>
      match scan c with
      | (none, refs) => (none, refs)
      | (some n, refs) =>
        let (rest, more) := scanAll cs
        (rest.map (n + ·), refs ++ more)

def isScalar (t : Tree) : Bool := t.scan.1.isSome

def references (t : Tree) : List VarId := t.scan.2

def comparesRows : OpKind → Bool
  | .distinct | .groupBy | .intersect | .except => true
  | _ => false

def hasRowComparison : Tree → Bool
  | node _ op children => comparesRows op.kind || anyOf children
where
  anyOf : List Tree → Bool
    | [] => false
    | c :: cs => hasRowComparison c || anyOf cs

def outputCount : Tree → Nat
  | node _ op children =>
    match op with
    | .scanTable t => t.columns.length
    | .singleRowTable => 0
    | .combine _ outputs _ _ => outputs.size
    | .project outputs => outputs.size
    | .groupBy _ outputs => outputs.size
    | .distinct keys => keys.size
    | .filter | .sort _ | .constrainedSort _ => firstOf children
    | _ => sumOf children
where
  firstOf : List Tree → Nat
    | [] => 0
    | c :: _ => outputCount c
  sumOf : List Tree → Nat
    | [] => 0
    | c :: cs => (if c.kind.isRelational then outputCount c else 0) + sumOf cs

end Planwright.Tree
