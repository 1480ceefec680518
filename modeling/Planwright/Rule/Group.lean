import Planwright.Rule.Apply
import Planwright.Rule.Filter
import Planwright.Rule.Project
import Planwright.Rule.Scalar

/-! Rule groups: which rules a run uses. -/

namespace Planwright

inductive RuleGroup
  | all | project | postJoinElimination | nullability
  deriving DecidableEq, Inhabited

namespace RuleGroup

def name : RuleGroup → String
  | all => "all"
  | project => "project"
  | postJoinElimination => "postjoin"
  | nullability => "nullability"

def ofCode? : Int → Option RuleGroup
  | 0 => some all
  | 1 => some project
  | 2 => some postJoinElimination
  | 3 => some nullability
  | _ => none

def codeName (code : Int) : String :=
  match ofCode? code with
  | some g => g.name
  | none => "RuleGroup(" ++ toString code ++ ")"

def ofName? (s : String) : Option RuleGroup :=
  match Text.lowerName s with
  | "all" => some all
  | "project" => some project
  | "postjoin" | "postjoinelimination" => some postJoinElimination
  | "nullability" => some nullability
  | _ => none

def unknownMessage (s : String) : String := "unknown rule group: " ++ s

open Rules

def postJoinFilterRules : List Rule :=
  [filterOverFilter, filterWithConstantPredicate, filterOverProject, filterOverCrossJoin, filterOverInnerJoin,
   filterOverLeftOuterJoin]

def nullabilityRules : List Rule :=
  [isNullOverVarRef, andOverConstantPredRight, andOverConstantPredLeft, orOverConstantPredRight,
   orOverConstantPredLeft, notOverConstantPred, filterOverLeftOuterJoin, filterOverOuterApply,
   filterWithConstantPredicate]

def rules : RuleGroup → List Rule
  | all => applyRules ++ filterRules ++ projectRules ++ scalarRules ++ distinctRules
  | project => projectRules
  | postJoinElimination => projectRules ++ postJoinFilterRules ++ scalarRules
  | nullability => nullabilityRules

def rulesOfCode (code : Int) : Except Fault (List Rule) :=
  match ofCode? code with
  | some g => pure g.rules
  | none => throw (.unknownGroup code)

def enabledRules (g : RuleGroup) (disabled : List String) : List Rule :=
  g.rules.filter fun r => !disabled.contains r.name

end RuleGroup

abbrev RuleTable := List Rule

def RuleTable.forKind (t : RuleTable) (k : OpKind) : List Rule :=
  t.filter fun r => match r.pattern with
    | .node root _ => root == k
    | .wildcard => false

/-- The rules after which outputs may be left that nothing uses. -/
def Rule.requiresPruning (name : String) : Bool :=
  ["OuterApplyOverProject", "OuterApplyOverProjectInternalConstantOverFilter",
   "OuterApplyOverProjectNullSentinelOverFilter", "CrossApplyOverProject", "ProjectWithNoLocalDefinitions",
   "CrossApplyIntoScalarSubquery", "OuterApplyIntoScalarSubquery"].contains name

/-- The rules after which more variables may be known to be never null. -/
def Rule.requiresNullability (name : String) : Bool := name == "FilterOverLeftOuterJoin"

end Planwright
