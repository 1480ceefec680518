import Planwright.Plan.Tree

/-! Dumps: a tree as indented text, one operator after the other. -/

namespace Planwright

namespace Registry

def sortKeysText (r : Registry) (keys : List SortKey) : String :=
  ", ".intercalate (keys.map fun k => r.text k.var ++ (if k.ascending then " asc" else " desc"))

end Registry

def Op.describe (r : Registry) (op : Op) : String :=
  let name := op.kind.name
  match op with
  | .scanTable t => name ++ " " ++ t.name ++ "(" ++ ", ".intercalate (t.columns.map r.text) ++ ")"
  | .project outputs => name ++ " outputs=" ++ r.setText outputs
  | .combine _ outputs left right =>
    name ++ " outputs=" ++ r.setText outputs ++ " left=" ++ r.mapText left ++ " right=" ++ r.mapText right
  | .distinct keys => name ++ " keys=" ++ r.setText keys
  | .groupBy keys outputs => name ++ " keys=" ++ r.setText keys ++ " outputs=" ++ r.setText outputs
  | .sort keys | .constrainedSort keys => name ++ " " ++ r.sortKeysText keys
  | .varDef v | .varRef v _ => name ++ " " ++ r.text v
  | .constant value | .internalConstant value => name ++ " " ++ value.text
  | .constantPredicate holds => name ++ " " ++ (Value.boolean holds).text
  | .null type | .scalar .cast type | .scalar .softCast type => name ++ " " ++ type.text
  | .aggregate function _ => name ++ " " ++ function
  | _ => name

namespace Text

/-- The text with two blanks before each line that is not empty. -/
def indent (s : String) : String := String.ofList (go true s.toList)
where
  go (atStart : Bool) : List Char → List Char
    | [] => []
    | c :: cs => (if atStart && c != '\n' then [' ', ' ', c] else [c]) ++ go (c == '\n') cs

end Text

namespace Tree

def dump (r : Registry) : Tree → String
  | node _ op children => op.describe r ++ "\n" ++ String.join (children.map fun c => Text.indent (dump r c))

end Tree

namespace Plan

def dump (n : NodeId) : PlanM String := do
  let t ← tree n
  return t.dump (← get).vars

end Plan

end Planwright
