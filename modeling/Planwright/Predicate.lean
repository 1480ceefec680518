import Planwright.Plan.Tree
import Planwright.Plan.Build

/-! Predicates as conjunctions: the parts under nested `And` operators, and the ways to split them. -/

namespace Planwright

namespace Tree

def conjuncts : Tree → List Tree
  | node _ (.scalar .and _) [a, b] => a.conjuncts ++ b.conjuncts
  | t => [t]

/-- The two variables of an equality between references, when one is defined on each side. -/
def equiJoin? (left right : VarSet) : Tree → Option (VarId × VarId)
  | node _ (.scalar .eq _) (node _ (.varRef a _) _ :: node _ (.varRef b _) _ :: _) =>
    if left.has a && right.has b then some (a, b)
    else if left.has b && right.has a then some (b, a)
    else none
  | _ => none

def refersTo (vars : VarSet) : Tree → Bool
  | node _ (.varRef v _) _ => vars.has v
  | _ => false

/-- Whether a pattern operand still tells nothing: anything but a reference or a constant that is not null. -/
def isOpenPattern : Tree → Bool
  | node _ (.varRef _ _) _ => false
  | node _ (.constant value) _ | node _ (.internalConstant value) _ => value.isNull
  | _ => true

/-- Whether a part may hold for rows with nulls in the columns. It does not if it compares one of the
    columns, matches one against a pattern, or asks one to be not null. Without ANSI null semantics
    comparisons may hold for nulls, so that only the last counts. -/
def admitsNulls (columns : VarSet) (ansi : Bool) : Tree → Bool
  | node _ (.scalar .not _) (node _ (.scalar .isNull _) (x :: _) :: _) => !x.refersTo columns
  | node _ (.scalar .like _) (s :: pattern :: _) => !ansi || pattern.isOpenPattern || !s.refersTo columns
  | node _ (.scalar kind _) (a :: b :: _) =>
    if kind.kind.isComparison then !ansi || (!a.refersTo columns && !b.refersTo columns) else true
  | _ => true

end Tree

structure Predicate where
  parts : List Tree

namespace Predicate

def empty : Predicate := ⟨[]⟩

def ofTree (t : Tree) : Predicate := ⟨t.conjuncts⟩

def addPart (p : Predicate) (t : Tree) : Predicate := ⟨p.parts ++ t.conjuncts⟩

def isEmpty (p : Predicate) : Bool := p.parts.isEmpty

def isTrue (p : Predicate) : Bool := p.parts.all (·.op.isTrue)

def isFalse (p : Predicate) : Bool := p.parts.any (·.op.isFalse)

def build (p : Predicate) : PlanM (Option NodeId) :=
  match p.parts with
  | [] => pure none
  | first :: rest => return some (← rest.foldlM (fun acc part => Plan.and acc part.id) first.id)

def splitM {m : Type → Type} [Monad m] (test : Tree → m Bool) (p : Predicate) : m (Predicate × Predicate) := do
  let marked ← p.parts.mapM fun t => return (t, ← test t)
  return (⟨(marked.filter (·.2)).map (·.1)⟩, ⟨(marked.filter (!·.2)).map (·.1)⟩)

def splitByTable (table : VarSet) (p : Predicate) : PlanM (Predicate × Predicate) :=
  p.splitM fun t => return (← Plan.info t.id).external.isSubset table

def splitByJoin (left right : VarSet) (p : Predicate) : Predicate × Predicate :=
  p.splitM fun t => (Id.run (pure (t.equiJoin? left right).isSome) : Id Bool)

/-- The key variable that an equality pins to something free of the definitions. -/
def pinned? (keys definitions : VarSet) (a b : Tree) : PlanM (Option VarId) := do
  match a with
  | .node _ (.varRef v _) _ =>
    if !keys.has v then return none
    if (← Plan.info b.id).external.overlaps definitions then return none
    return some v
  | _ => return none

def unpinned (keys definitions : VarSet) : VarSet → List Tree → PlanM VarSet
  | missing, [] => pure missing
  | missing, .node _ (.scalar .eq _) (a :: b :: _) :: rest => do
    match ← pinned? keys definitions a b with
    | some v => unpinned keys definitions (missing.erase v) rest
    | none =>
      match ← pinned? keys definitions b a with
      | some v => unpinned keys definitions (missing.erase v) rest
      | none => unpinned keys definitions missing rest
  | missing, _ :: rest => unpinned keys definitions missing rest

/-- Whether every key variable is pinned to something free of the definitions. -/
def satisfiesKey (keys definitions : VarSet) (p : Predicate) : PlanM Bool := do
  if keys.isEmpty then return false
  return (← unpinned keys definitions keys p.parts).isEmpty

def preservesNulls (columns : VarSet) (ansi : Bool) (p : Predicate) : Bool :=
  p.parts.all (·.admitsNulls columns ansi)

end Predicate

end Planwright
