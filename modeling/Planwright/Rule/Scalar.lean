import Planwright.Rule.Basic

/-! Rules that simplify scalar expressions. -/

namespace Planwright.Rules

open Plan RuleM

def alternate : List NodeId → List NodeId
  | a :: _ :: rest => a :: alternate rest
  | rest => rest

/-- Whether all trees are equivalent to the first, asked in the given order until one is not. -/
def allEquivalent (first : Tree) : List Tree → Except Fault Bool
  | [] => pure true
  | t :: ts => do if ← t.equivalent first then allEquivalent first ts else pure false

/-- A `Case` whose results are all equivalent is its first result. The else is compared first. -/
def collapseCase (n : NodeId) : RuleM (Option NodeId) := do
  match ← children n with
  | _ :: first :: rest =>
    let firstTree ← tree first
    let last ← tree ((first :: rest).getLast (by simp))
    if !(← firstTree.equivalent last) then return none
    -- The conditions and results between the first result and the else.
    let middle ← (alternate (rest.dropLast.drop 1)).mapM fun r => tree r
    if ← allEquivalent firstTree middle then return some first else return none
  | _ => throw .malformed

/-- Drops the branches whose condition is false; a true condition makes its result the else. Gives `none` when
    a result is a soft cast, whose type the simplification could change, and `some none` when no condition
    is constant. `kept` is what remains once a branch was decided, `before` what stood before. -/
def decideBranches (kept : Option (List NodeId)) (before : List NodeId) :
    List (NodeId × Op) → Option (Option (List NodeId))
  | [] => some kept
  | [(e, op)] => if op.kind == .softCast then none else some (kept.map (· ++ [e]))
  | (w, test) :: (r, result) :: rest =>
    if result.kind == .softCast then none
    else
      match test with
      | .constantPredicate holds =>
        let kept := kept.getD before
        if holds then some (some (kept ++ [r])) else decideBranches (some kept) (before ++ [w, r]) rest
      | _ => decideBranches (kept.map (· ++ [w, r])) (before ++ [w, r]) rest

def dropDecidedBranches (n : NodeId) : RuleM (Option NodeId) := do
  let cs ← children n
  let withOps ← cs.mapM fun c => return (c, ← op c)
  match decideBranches none [] withOps with
  | none => return none
  | some none => return none
  | some (some [only]) => return some only
  | some (some args) => return some (← caseWhen (← op n).type args)

def simplifyCaseApply (n : NodeId) : RuleM (Option NodeId) := do
  match ← collapseCase n with
  | some out => return some out
  | none => dropDecidedBranches n

/-- A `Case` that is the else of another continues it. -/
def flattenCaseApply (n : NodeId) : RuleM (Option NodeId) := do
  let cs ← children n
  let some last := cs.getLast? | throw .malformed
  if (← kind last) != .caseWhen then return none
  return some (← caseWhen (← op n).type (cs.dropLast ++ (← children last)))

/-- Decides a pattern that is a plain beginning and one `%` at its end. Other patterns are left alone, and so
    are those longer than the text allows. -/
def matchesBeginning? (s pattern : String) : Option Bool :=
  match pattern.toList.span (· != '%') with
  | (beginning, ['%']) =>
    if pattern.utf8ByteSize > s.utf8ByteSize + 1 || beginning.any fun c => c == '_' || c == '[' then none
    else some (beginning.isPrefixOf s.toList)
  | _ => none

def stringLiteral? (op : Op) : Option String :=
  match op.literal? with
  | some (.string s) => some s
  | _ => none

def foldLike (n : NodeId) : RuleM (Option NodeId) := do
  let some s := stringLiteral? (← op (← child n 0)) | return none
  let some pattern := stringLiteral? (← op (← child n 1)) | return none
  let some holds := matchesBeginning? s pattern | return none
  return some (← predicate holds)

def knownValue? (op : Op) : Option Value := op.literal?.filter (!·.isNull)

def isComparable (a b : Value) : Bool :=
  (a.type.isInteger && b.type.isInteger) || (a.type == b.type && a.type != .any)

def comparisonHolds (k : OpKind) (o : Ordering) : Option Bool :=
  match k with
  | .eq => some (o == .eq)
  | .ne => some (o != .eq)
  | .lt => some (o == .lt)
  | .gt => some (o == .gt)
  | .le => some (o != .gt)
  | .ge => some (o != .lt)
  | _ => none

def foldComparison (n : NodeId) : RuleM (Option NodeId) := do
  let some a := knownValue? (← op (← child n 0)) | return none
  let some b := knownValue? (← op (← child n 1)) | return none
  if !isComparable a b then return none
  let some holds := comparisonHolds (← kind n) (← a.compare b) | throw .malformed
  return some (← predicate holds)

/-- `And` and `Or` with a constant operand: the constant decides, or the other operand does. -/
def foldLogical (constant other n : NodeId) : RuleM (Option NodeId) := do
  let holds := (← op constant).isTrue
  match ← kind n with
  | .and => return some (if holds then other else constant)
  | .or => return some (if holds then constant else other)
  | _ => throw .malformed

def foldLogicalRight (n : NodeId) : RuleM (Option NodeId) := do foldLogical (← child n 1) (← child n 0) n

def foldLogicalLeft (n : NodeId) : RuleM (Option NodeId) := do foldLogical (← child n 0) (← child n 1) n

def foldNot (n : NodeId) : RuleM (Option NodeId) := do
  return some (← predicate (!(← op (← child n 0)).isTrue))

def foldIsNull (n : NodeId) : RuleM (Option NodeId) := do
  if (knownValue? (← op (← child n 0))).isNone then return none
  return some (← predicate false)

def foldNullCast (n : NodeId) : RuleM (Option NodeId) := do return some (← null (← op n).type)

def foldIsNullReference (n : NodeId) : RuleM (Option NodeId) := do
  let .varRef v _ ← op (← child n 0) | throw .malformed
  if ← isNeverNull v then return some (← predicate false) else return none

def simplifyCase : Rule := .simple "SimplifyCase" (.ofKind .caseWhen) simplifyCaseApply

def flattenCase : Rule := .simple "FlattenCase" (.ofKind .caseWhen) flattenCaseApply

def likeOverConstants : Rule :=
  .simple "LikeOverConstants" (matching .like [.wildcard, .wildcard, .ofKind .null]) foldLike

def comparisonRule (name : String) (k : OpKind) : Rule :=
  .simple name (matching k [.wildcard, .wildcard]) foldComparison

def equalsOverConstant : Rule := comparisonRule "EqualsOverConstant" .eq
def notEqualsOverConstant : Rule := comparisonRule "NotEqualsOverConstant" .ne
def lessOverConstant : Rule := comparisonRule "LessOverConstant" .lt
def greaterOverConstant : Rule := comparisonRule "GreaterOverConstant" .gt
def lessEqualOverConstant : Rule := comparisonRule "LessEqualOverConstant" .le
def greaterEqualOverConstant : Rule := comparisonRule "GreaterEqualOverConstant" .ge

def andOverConstantPredRight : Rule :=
  .simple "AndOverConstantPredRight" (matching .and [.wildcard, .ofKind .constantPredicate]) foldLogicalRight

def andOverConstantPredLeft : Rule :=
  .simple "AndOverConstantPredLeft" (matching .and [.ofKind .constantPredicate, .wildcard]) foldLogicalLeft

def orOverConstantPredRight : Rule :=
  .simple "OrOverConstantPredRight" (matching .or [.wildcard, .ofKind .constantPredicate]) foldLogicalRight

def orOverConstantPredLeft : Rule :=
  .simple "OrOverConstantPredLeft" (matching .or [.ofKind .constantPredicate, .wildcard]) foldLogicalLeft

def notOverConstantPred : Rule :=
  .simple "NotOverConstantPred" (matching .not [.ofKind .constantPredicate]) foldNot

def isNullOverConstant : Rule := .simple "IsNullOverConstant" (matching .isNull [.wildcard]) foldIsNull

def isNullOverNullSentinel : Rule :=
  .simple "IsNullOverNullSentinel" (matching .isNull [.ofKind .nullSentinel]) fun _ => return some (← predicate false)

def isNullOverNull : Rule :=
  .simple "IsNullOverNull" (matching .isNull [.ofKind .null]) fun _ => return some (← predicate true)

def nullCast : Rule := .simple "NullCast" (matching .cast [.ofKind .null]) foldNullCast

def isNullOverVarRef : Rule := .simple "IsNullOverVarRef" (matching .isNull [.ofKind .varRef]) foldIsNullReference

def scalarRules : List Rule :=
  [simplifyCase, flattenCase, likeOverConstants, equalsOverConstant, notEqualsOverConstant, lessOverConstant,
   greaterOverConstant, lessEqualOverConstant, greaterEqualOverConstant, andOverConstantPredRight,
   andOverConstantPredLeft, orOverConstantPredRight, orOverConstantPredLeft, notOverConstantPred,
   isNullOverConstant, isNullOverNullSentinel, isNullOverNull, nullCast, isNullOverVarRef]

end Planwright.Rules
