import Planwright.Plan.Tree

/-! Equivalence: two trees with the same operators at the same places, over the same variables. -/

namespace Planwright

/-- Whether two operators do the same. Values are compared by content, tables by identity. -/
def Op.equivalent (a b : Op) : Except Fault Bool :=
  if a.kind ≠ b.kind ∨ a.type ≠ b.type then pure false
  else
    match a, b with
    | .scanTable s, .scanTable t => pure (s.id == t.id)
    | .project s, .project t => pure (s == t)
    | .combine _ s l r, .combine _ t l' r' => pure (s == t && l == l' && r == r')
    | .distinct s, .distinct t => pure (s == t)
    | .groupBy s t, .groupBy s' t' => pure (s == s' && t == t')
    | .sort s, .sort t => pure (s == t)
    | .constrainedSort s, .constrainedSort t => pure (s == t)
    | .varDef v, .varDef w => pure (v == w)
    | .varRef v _, .varRef w _ => pure (v == w)
    | .aggregate f _, .aggregate g _ => pure (f == g)
    | a, b =>
      match a.value?, b.value? with
      | some v, some w => v.equals w
      | _, _ => pure true

namespace Tree

def equivalent : Tree → Tree → Except Fault Bool
  | node i a cs, node j b ds =>
    if i = j then pure true
    else do
      if !(← a.equivalent b) || cs.length ≠ ds.length then return false
      each cs ds
where
  each : List Tree → List Tree → Except Fault Bool
    | c :: cs, d :: ds => do if ← equivalent c d then each cs ds else pure false
    | _, _ => pure true

end Tree

end Planwright
