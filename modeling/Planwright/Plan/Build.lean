import Planwright.Plan.Basic

/-! Builders for the operators of a plan. -/

namespace Planwright

structure Column where
  name : String
  type : ScalarType
  notNull : Bool
  key : Bool
  deriving Inhabited

namespace Plan

/-- Makes a table with a fresh variable for each column. A table without a key column has no known key. -/
def newTable (name : String) (columns : List Column) : PlanM Table := do
  let vs ← columns.mapM fun c => newVar ⟨.column, name ++ "." ++ c.name, c.type⟩
  let withColumns := vs.zip columns
  let chosen (p : Column → Bool) : List VarId := (withColumns.filter fun x => p x.2).map (·.1)
  let keys := chosen (·.key)
  let id ← modifyGet fun p => (p.tableCount, { p with tableCount := p.tableCount + 1 })
  return { id, name, columns := vs, nonNullable := VarSet.ofList (chosen (·.notNull)),
           keys := if keys.isEmpty then none else some (VarSet.ofList keys) }

def scanTable (table : Table) : PlanM NodeId := create (.scanTable table) []

def filter (input predicate : NodeId) : PlanM NodeId := create .filter [input, predicate]

def project (input defs : NodeId) (outputs : VarSet) : PlanM NodeId := create (.project outputs) [input, defs]

def varDefList (defs : List NodeId) : PlanM NodeId := create .varDefList defs

def varDef (v : VarId) (expr : NodeId) : PlanM NodeId := create (.varDef v) [expr]

def computedVarDef (expr : NodeId) : PlanM (NodeId × VarId) := do
  let v ← newVar ⟨.computed, "", (← op expr).type⟩
  return (← varDef v expr, v)

def crossJoin (left right : NodeId) : PlanM NodeId := create .crossJoin [left, right]

def innerJoin (left right predicate : NodeId) : PlanM NodeId := create .innerJoin [left, right, predicate]

def leftOuterJoin (left right predicate : NodeId) : PlanM NodeId := create .leftOuterJoin [left, right, predicate]

def crossApply (left right : NodeId) : PlanM NodeId := create .crossApply [left, right]

def outerApply (left right : NodeId) : PlanM NodeId := create .outerApply [left, right]

def setOperator (kind : OpKind) (left right : NodeId) (outputs : VarSet) (leftMap rightMap : VarMap) : PlanM NodeId :=
  match SetKind.ofKind? kind with
  | some k => create (.combine k outputs leftMap rightMap) [left, right]
  | none => throw (.notSetOperator kind)

def distinct (input : NodeId) (keys : VarSet) : PlanM NodeId := create (.distinct keys) [input]

def groupBy (input keyDefs aggregates : NodeId) (keys outputs : VarSet) : PlanM NodeId :=
  create (.groupBy keys outputs) [input, keyDefs, aggregates]

def sort (input : NodeId) (keys : List SortKey) : PlanM NodeId := create (.sort keys) [input]

def constrainedSort (input skip limit : NodeId) (keys : List SortKey) : PlanM NodeId :=
  create (.constrainedSort keys) [input, skip, limit]

def singleRowTable : PlanM NodeId := create .singleRowTable []

def varRef (v : VarId) : PlanM NodeId := do create (.varRef v (← typeOf v)) []

def null (type : ScalarType) : PlanM NodeId := create (.null type) []

def constant (value : Value) : PlanM NodeId := create (.constant value) []

def internalConstant (value : Value) : PlanM NodeId := create (.internalConstant value) []

def nullSentinel : PlanM NodeId := create .nullSentinel []

def predicate (holds : Bool) : PlanM NodeId := create (.constantPredicate holds) []

def scalar (kind : ScalarKind) (type : ScalarType) (args : List NodeId) : PlanM NodeId :=
  create (.scalar kind type) args

def scalarOfKind (kind : OpKind) (type : ScalarType) (args : List NodeId) : PlanM NodeId :=
  match ScalarKind.ofKind? kind with
  | some k => scalar k type args
  | none =>
    if !kind.isScalar then throw (.notScalarOperator kind)
    else if kind.admits args.length then throw .malformed
    else throw (.childCount kind args.length)

def compare (kind : OpKind) (left right : NodeId) : PlanM NodeId := scalarOfKind kind .boolean [left, right]

def arithmetic (kind : OpKind) (left right : NodeId) : PlanM NodeId := do
  scalarOfKind kind (← op left).type [left, right]

def and (left right : NodeId) : PlanM NodeId := scalar .and .boolean [left, right]

def or (left right : NodeId) : PlanM NodeId := scalar .or .boolean [left, right]

def not (arg : NodeId) : PlanM NodeId := scalar .not .boolean [arg]

def like (string pattern escape : NodeId) : PlanM NodeId := scalar .like .boolean [string, pattern, escape]

def cast (arg : NodeId) (type : ScalarType) : PlanM NodeId := scalar .cast type [arg]

def softCast (arg : NodeId) (type : ScalarType) : PlanM NodeId := scalar .softCast type [arg]

def aggregate (function : String) (type : ScalarType) (args : List NodeId) : PlanM NodeId :=
  create (.aggregate function type) args

def isNull (arg : NodeId) : PlanM NodeId := scalar .isNull .boolean [arg]

def caseWhen (type : ScalarType) (args : List NodeId) : PlanM NodeId := scalar .caseWhen type args

def element (input : NodeId) (type : ScalarType) : PlanM NodeId := scalar .element type [input]

end Plan

end Planwright
