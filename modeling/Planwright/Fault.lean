import Planwright.Operator.Kind

/-! Faults: broken promises between the parts of the library, as opposed to errors in what a user
    wrote. A fault ends the computation that meets it. -/

namespace Planwright

inductive Fault
  | unknownKind (code : Int)
  | unknownGroup (code : Int)
  | unknownTypeName (name : String)
  /-- A value whose type code is outside the catalogue was printed or compared. -/
  | unknownType
  | anyCompared
  | unregistered (id : Int)
  | childCount (kind : OpKind) (count : Nat)
  | cannotAppend (kind : OpKind)
  | cannotRemove (kind : OpKind)
  | notSetOperator (kind : OpKind)
  | notScalarOperator (kind : OpKind)
  | scalarExpected (kind : OpKind)
  /-- Relational analysis was asked of a node that produces no rows. -/
  | notRelational (kind : OpKind)
  | definedTwice (name : String)
  | cyclicMapping
  | noAncestor
  | wrongAncestor (found expected : Nat)
  /-- A rule whose pattern is a wildcard has no kind to be filed under. -/
  | wildcardRoot (rule : String)
  /-- A node, child, branch variable or default is not of the shape its reader relies on. -/
  | malformed
  | outOfFuel
  deriving DecidableEq, Inhabited

def OpKind.countMessage (k : OpKind) (count : Nat) : String :=
  let found := "invalid child count " ++ toString count ++ " for " ++ k.name
  match k.arity? with
  | some n => found ++ ", expected " ++ toString n
  | none => found

def Fault.message : Fault → String
  | unknownKind code => "unexhaustive op type match: " ++ toString code
  | unknownGroup code => "unexhaustive rule group match: RuleGroup(" ++ toString code ++ ")"
  | unknownTypeName name => "unknown type: " ++ name
  | unknownType => "impossible, type switch bug"
  | anyCompared => "can't have any type as concrete value instance"
  | unregistered id => "variable " ++ toString id ++ " is not registered"
  | childCount kind count => kind.countMessage count
  | cannotAppend kind => "can't append a child to " ++ kind.name
  | cannotRemove kind => "can't remove a child from " ++ kind.name
  | notSetOperator kind => kind.name ++ " is not a set operator"
  | notScalarOperator kind => kind.name ++ " is not a scalar operator"
  | scalarExpected kind => "expected a scalar op, found " ++ kind.name
  | notRelational kind => "extended node info requested for non-relational op " ++ kind.name
  | definedTwice name => "variable " ++ name ++ " defined twice"
  | cyclicMapping => "cyclic variable remapping"
  | noAncestor => "relational ancestor stack is empty"
  | wrongAncestor found expected =>
    "popped ancestor " ++ toString found ++ " is not the processed subtree root " ++ toString expected
  | wildcardRoot rule => "rule " ++ rule ++ " has a leaf pattern at the root"
  | malformed => "runtime"
  | outOfFuel => "out of fuel"

end Planwright
