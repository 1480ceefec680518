import Planwright.Variable.Registry
import Planwright.Scalar.Value

/-! Operators: a kind with what it carries. An operator never holds its children. -/

namespace Planwright

structure Table where
  id : Nat
  name : String
  columns : List VarId
  nonNullable : VarSet
  keys : Option VarSet
  deriving DecidableEq, Inhabited

structure SortKey where
  var : VarId
  ascending : Bool
  deriving DecidableEq, Inhabited

inductive Op
  | scanTable (table : Table)
  | filter
  | project (outputs : VarSet)
  | crossJoin
  | innerJoin
  | leftOuterJoin
  | crossApply
  | outerApply
  /-- A set operator: each output is mapped to a variable of the left and of the right branch. -/
  | combine (kind : SetKind) (outputs : VarSet) (left right : VarMap)
  | distinct (keys : VarSet)
  | groupBy (keys outputs : VarSet)
  | sort (keys : List SortKey)
  | constrainedSort (keys : List SortKey)
  | singleRowTable
  | varDefList
  | varDef (var : VarId)
  | varRef (var : VarId) (type : ScalarType)
  | constant (value : Value)
  | null (type : ScalarType)
  | internalConstant (value : Value)
  /-- A constant column whose nullness marks the outer rows without a match. -/
  | nullSentinel
  | constantPredicate (holds : Bool)
  | scalar (kind : ScalarKind) (type : ScalarType)
  | aggregate (name : String) (type : ScalarType)
  deriving DecidableEq, Inhabited

namespace Op

def kind : Op → OpKind
  | scanTable _ => .scanTable
  | filter => .filter
  | project _ => .project
  | crossJoin => .crossJoin
  | innerJoin => .innerJoin
  | leftOuterJoin => .leftOuterJoin
  | crossApply => .crossApply
  | outerApply => .outerApply
  | combine kind _ _ _ => kind.kind
  | distinct _ => .distinct
  | groupBy _ _ => .groupBy
  | sort _ => .sort
  | constrainedSort _ => .constrainedSort
  | singleRowTable => .singleRowTable
  | varDefList => .varDefList
  | varDef _ => .varDef
  | varRef _ _ => .varRef
  | constant _ => .constant
  | null _ => .null
  | internalConstant _ => .internalConstant
  | nullSentinel => .nullSentinel
  | constantPredicate _ => .constantPredicate
  | scalar kind _ => kind.kind
  | aggregate _ _ => .aggregate

def type : Op → ScalarType
  | varRef _ type => type
  | constant value => value.type
  | null type => type
  | internalConstant value => value.type
  | nullSentinel => .int32
  | constantPredicate _ => .boolean
  | scalar _ type => type
  | aggregate _ type => type
  | _ => .null

def value? : Op → Option Value
  | constant value => some value
  | null _ => some .null
  | internalConstant value => some value
  | nullSentinel => some (.int32 1)
  | constantPredicate holds => some (.boolean holds)
  | _ => none

def isTrue : Op → Bool
  | constantPredicate holds => holds
  | _ => false

def isFalse : Op → Bool
  | constantPredicate holds => !holds
  | _ => false

def literal? : Op → Option Value
  | constant value => some value
  | internalConstant value => some value
  | _ => none

end Op

end Planwright
