import Planwright.Graph.Basic
import Planwright.Plan.Dump

/-! Explanations: a plan as a record graph. -/

namespace Planwright

def Op.fields (r : Registry) : Op → List (String × String)
  | .scanTable t => [("table", t.name)]
  | .project outputs => [("outputs", r.setText outputs)]
  | .combine _ outputs left right =>
    [("outputs", r.setText outputs), ("left_map", r.mapText left), ("right_map", r.mapText right)]
  | .distinct keys => [("keys", r.setText keys)]
  | .groupBy keys outputs => [("keys", r.setText keys), ("outputs", r.setText outputs)]
  | .sort keys | .constrainedSort keys => [("keys", r.sortKeysText keys)]
  | .varDef v | .varRef v _ => [("var", r.text v)]
  | .constant value | .internalConstant value => [("value", value.text)]
  | .constantPredicate holds => [("value", (Value.boolean holds).text)]
  | .aggregate function _ => [("function", function)]
  | _ => []

def Info.fields (r : Registry) (i : Info) : List (String × String) :=
  [("definitions", r.setText i.definitions), ("external", r.setText i.external),
   ("non_nullable", r.setText i.nonNullable)]
  ++ (match i.keys with
    | some keys => [("keys", r.setText keys)]
    | none => [])
  ++ [("rows", i.rowsText)]

def OpKind.childNames (k : OpKind) (count : Nat) : List String :=
  match k with
  | filter => ["input", "predicate"]
  | project => ["input", "definitions"]
  | crossJoin | crossApply | outerApply | unionAll | intersect | except => ["left", "right"]
  | innerJoin | leftOuterJoin => ["left", "right", "predicate"]
  | groupBy => ["input", "keys", "aggregates"]
  | constrainedSort => ["input", "skip", "limit"]
  | like => ["string", "pattern", "escape"]
  | caseWhen => (List.range count).map fun i =>
    if i + 1 = count then "else" else (if i % 2 = 0 then "when_" else "then_") ++ toString (i / 2)
  | _ => (List.range count).map fun i => "arg_" ++ toString i

namespace Plan

def explainTree (withInfo : Bool) : Tree → PlanM Record
  | .node id op children => do
    let r := (← get).vars
    let typeField := if op.kind.isScalar then [("type", op.type.text)] else []
    let infoFields ← if withInfo && op.kind.isRelational then do pure ((← relationInfo id).fields r) else pure []
    if op.kind == .caseWhen && children.isEmpty then throw .malformed
    let below ← children.mapM (explainTree withInfo)
    return .node op.kind.name (op.fields r ++ typeField ++ infoFields)
      ((op.kind.childNames children.length).zip below)

def explain (n : NodeId) (withInfo : Bool) : PlanM Record := do explainTree withInfo (← tree n)

end Plan

end Planwright
