import Planwright.Rule.Context
import Planwright.Rule.Pattern

/-! Rules: local changes of a tree. -/

namespace Planwright

/-- A rule. `apply` is given a way to settle a subtree with the rules of the run, and the node that the
    pattern matched; it gives the replacement of the node if it changes anything. -/
structure Rule where
  name : String
  pattern : Pattern
  apply : (settle : NodeId → RuleM NodeId) → NodeId → RuleM (Option NodeId)

namespace Rule

def simple (name : String) (pattern : Pattern) (apply : NodeId → RuleM (Option NodeId)) : Rule :=
  ⟨name, pattern, fun _ => apply⟩

def rootKind (r : Rule) : Except Fault OpKind :=
  match r.pattern with
  | .node k _ => pure k
  | .wildcard => throw (.wildcardRoot r.name)

def text (r : Rule) : String := r.name ++ ": " ++ r.pattern.text

end Rule

abbrev matching (k : OpKind) (children : List Pattern) : Pattern := .node k children

end Planwright
