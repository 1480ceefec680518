import Planwright.Operator.Basic
import Planwright.Text.SipHash

/-! What the analysis knows about a node, computed from its operator and what is known about its
    children. -/

namespace Planwright

inductive RowCount
  | zero | one | unbounded
  deriving DecidableEq, Inhabited

namespace RowCount

def rank : RowCount → Nat
  | zero => 0
  | one => 1
  | unbounded => 2

def text : RowCount → String
  | zero => "0"
  | one => "1"
  | unbounded => "n"

def min (a b : RowCount) : RowCount := if a.rank < b.rank then a else b

def max (a b : RowCount) : RowCount := if a.rank > b.rank then a else b

def product : RowCount → RowCount → RowCount
  | zero, _ => zero
  | _, zero => zero
  | one, one => one
  | _, _ => unbounded

end RowCount

/-- What is known about a node. For a node that is not relational only `external`, `definitions`,
    `locals` and `hash` mean anything. -/
structure Info where
  /-- Variables the subtree uses and does not define. -/
  external : VarSet
  hash : UInt64
  definitions : VarSet
  locals : VarSet
  nonNullable : VarSet
  /-- Variables of the inputs that are never null where the operator's own expressions see them. -/
  nonNullableVisible : VarSet
  /-- Definitions on which rows are unique, when known. Unique on nothing means at most one row. -/
  keys : Option VarSet
  minRows : RowCount
  maxRows : RowCount
  deriving DecidableEq, Inhabited

namespace Info

def blank (hash : UInt64) : Info :=
  { external := .empty, hash, definitions := .empty, locals := .empty, nonNullable := .empty,
    nonNullableVisible := .empty, keys := none, minRows := .zero, maxRows := .unbounded }

/-- Takes over what passes unchanged from the input to the output of an operator. -/
def inherit (i input : Info) : Info :=
  { i with
    definitions := i.definitions ∪ input.definitions
    nonNullable := i.nonNullable ∪ input.nonNullable
    nonNullableVisible := i.nonNullableVisible ∪ input.nonNullable
    keys := input.keys }

/-- Adds the references of an input, and those of an expression over it that the input does not define. -/
def refer (i input expr : Info) : Info :=
  { i with external := i.external ∪ input.external ∪ (expr.external \ input.definitions) }

def rowsText (i : Info) : String := i.minRows.text ++ ".." ++ i.maxRows.text

end Info

structure Child where
  op : Op
  info : Info
  /-- The operators of the child's own children, each with that of its first child. -/
  inner : List (Op × Option Op)

/-- Adds what a definition of a list refers to and defines. -/
def Info.withDefinition (i : Info) (d : Child) : Info :=
  { i with
    external := i.external ∪ d.info.external
    definitions := i.definitions ∪ d.info.definitions
    locals := i.locals ∪ d.info.locals }

namespace Op

def intBytes (n : Int) : List UInt8 := SipHash.wordBytes (UInt64.ofInt n)

def setBytes (s : VarSet) : List UInt8 := (s.toList.flatMap fun (v : VarId) => intBytes v) ++ intBytes (-1)

def mapBytes (m : VarMap) : List UInt8 := m.entries.flatMap fun p => intBytes p.1 ++ intBytes p.2

/-- A value field by field: fields of other types than the value's own are empty. -/
def valueBytes (v : Value) : List UInt8 :=
  let int : Int := v.integer?.getD 0
  let float : UInt64 := match v with | .float d => d.bits | _ => 0
  let string : List UInt8 := match v with | .string s => SipHash.textBytes s | _ => []
  let boolean : List UInt8 := match v with | .boolean true => [1] | _ => []
  let time := match v with | .time t => t | _ => .zero
  let duration : Int := match v with | .duration d => d.toInt | _ => 0
  intBytes v.type.code ++ intBytes int ++ SipHash.wordBytes float ++ string ++ boolean
    ++ intBytes time.instant ++ intBytes duration

/-- What an operator adds to the hash of a node beside its kind. -/
def payloadBytes (op : Op) : List UInt8 :=
  intBytes op.type.code ++
    match op with
    | scanTable t => SipHash.textBytes t.name ++ t.columns.flatMap fun (v : VarId) => intBytes v
    | project outputs => setBytes outputs
    | combine _ outputs left right => setBytes outputs ++ mapBytes left ++ mapBytes right
    | distinct keys => setBytes keys
    | groupBy keys outputs => setBytes keys ++ setBytes outputs
    | sort keys | constrainedSort keys =>
      keys.flatMap fun k => intBytes k.var ++ (if k.ascending then [1] else [])
    | varDef v | varRef v _ => intBytes v
    | aggregate name _ => SipHash.textBytes name
    | op => (op.value?.map valueBytes).getD []

def hash (op : Op) (children : List UInt64) : UInt64 :=
  SipHash.hash 0x6f63746f706c616e 0x7265777269746573
    (intBytes op.kind.code ++ op.payloadBytes ++ children.flatMap SipHash.wordBytes)

def isNeverNull (expr : Op) (known : VarSet) : Bool :=
  match expr with
  | constant value => !value.isNull
  | internalConstant _ | nullSentinel | constantPredicate _ => true
  | varRef v _ => known.has v
  | _ => false

def neverNullDefs (known : VarSet) : VarSet → List (Op × Option Op) → Except Fault VarSet
  | acc, [] => pure acc
  | _, (_, none) :: _ => throw .malformed
  | acc, (d, some expr) :: rest =>
    if expr.isNeverNull known then
      match d with
      | varDef v => neverNullDefs known (acc.insert v) rest
      | _ => throw .malformed
    else neverNullDefs known acc rest

def limit? (op : Op) : Option RowCount :=
  match op.literal?.bind Value.integer? with
  | some 0 => some .zero
  | some 1 => some .one
  | _ => none

def branch (m : VarMap) (v : VarId) : Except Fault VarId :=
  match m.get? v with
  | some w => pure w
  | none => throw .malformed

def neverNullOutputs (kind : SetKind) (outputs : VarSet) (left right : VarMap) (l r : Info) : Except Fault VarSet := do
  let known ← outputs.toList.filterM fun v => do
    let inLeft := l.nonNullable.has (← branch left v)
    let inRight := r.nonNullable.has (← branch right v)
    return match kind with
      | .unionAll => inLeft && inRight
      | .intersect => inLeft || inRight
      | .except => inLeft
  return VarSet.ofList known

def analyze (op : Op) (children : List Child) : Except Fault Info :=
  let i := Info.blank (op.hash (children.map (·.info.hash)))
  match op, children with
  | varRef v _, _ => pure { i with external := i.external.insert v }
  | varDef v, e :: _ =>
    pure { i with external := e.info.external, definitions := i.definitions.insert v, locals := i.locals.insert v }
  | varDefList, defs => pure (defs.foldl Info.withDefinition i)
  | scanTable t, _ =>
    let columns := VarSet.ofList t.columns
    pure { i with definitions := columns, locals := columns, nonNullable := t.nonNullable, keys := t.keys }
  | singleRowTable, _ => pure { i with keys := some .empty, minRows := .one, maxRows := .one }
  | filter, [input, predicate] =>
    let i := (i.inherit input.info).refer input.info predicate.info
    pure { i with maxRows := if predicate.op.isFalse then .zero else .unbounded }
  | project outputs, [input, defs] => do
    let known ← neverNullDefs input.info.nonNullable input.info.nonNullable defs.inner
    let i := i.refer input.info defs.info
    return { i with
      definitions := outputs
      locals := defs.info.locals
      nonNullable := known ∩ outputs
      nonNullableVisible := input.info.nonNullable
      keys := input.info.keys.filter (·.isSubset outputs)
      minRows := input.info.minRows
      maxRows := input.info.maxRows }
  | groupBy keys outputs, [input, keyDefs, aggregateDefs] => do
    let known ← neverNullDefs input.info.nonNullable (keys ∩ input.info.nonNullable) keyDefs.inner
    let i := (i.refer input.info keyDefs.info).refer input.info aggregateDefs.info
    let single := keys.isEmpty
    return { i with
      definitions := outputs
      locals := keyDefs.info.locals ∪ aggregateDefs.info.locals
      nonNullable := known ∩ outputs
      nonNullableVisible := input.info.nonNullable
      keys := some keys
      minRows := if single || input.info.minRows == .one then .one else .zero
      maxRows := if single then .one else input.info.maxRows }
  | crossJoin, [left, right] =>
    let i := pairUp i left.info right.info
    pure { i with
      external := left.info.external ∪ right.info.external
      nonNullable := left.info.nonNullable ∪ right.info.nonNullable
      minRows := left.info.minRows.min right.info.minRows
      maxRows := left.info.maxRows.product right.info.maxRows }
  | innerJoin, [left, right, predicate] =>
    let i := pairUp i left.info right.info
    pure { i with
      external := left.info.external ∪ right.info.external ∪ (predicate.info.external \ i.definitions)
      nonNullable := left.info.nonNullable ∪ right.info.nonNullable
      maxRows := if predicate.op.isFalse then .zero else left.info.maxRows.product right.info.maxRows }
  | leftOuterJoin, [left, right, predicate] =>
    let i := pairUp i left.info right.info
    pure { i with
      external := left.info.external ∪ right.info.external ∪ (predicate.info.external \ i.definitions)
      nonNullable := left.info.nonNullable
      minRows := left.info.minRows
      maxRows := outerRows left.info right.info }
  | crossApply, [left, right] =>
    let i := pairUp i left.info right.info
    pure { i with
      external := left.info.external ∪ (right.info.external \ left.info.definitions)
      nonNullable := left.info.nonNullable ∪ right.info.nonNullable
      minRows := if right.info.minRows == .one then left.info.minRows else .zero
      maxRows := left.info.maxRows.product right.info.maxRows }
  | outerApply, [left, right] =>
    let i := pairUp i left.info right.info
    pure { i with
      external := left.info.external ∪ (right.info.external \ left.info.definitions)
      nonNullable := left.info.nonNullable
      minRows := left.info.minRows
      maxRows := outerRows left.info right.info }
  | combine kind outputs leftMap rightMap, [left, right] => do
    let known ← neverNullOutputs kind outputs leftMap rightMap left.info right.info
    let i := { i with
      definitions := outputs
      locals := outputs
      external := left.info.external ∪ right.info.external
      nonNullable := known }
    return match kind with
      | .unionAll =>
        { i with
          minRows := left.info.minRows.max right.info.minRows
          maxRows :=
            if left.info.maxRows == .zero then right.info.maxRows
            else if right.info.maxRows == .zero then left.info.maxRows
            else .unbounded }
      | .intersect => { i with keys := some outputs, maxRows := left.info.maxRows.min right.info.maxRows }
      | .except => { i with keys := some outputs, maxRows := left.info.maxRows }
  | distinct keys, [input] =>
    pure { i with
      definitions := keys
      external := input.info.external
      nonNullable := input.info.nonNullable ∩ keys
      nonNullableVisible := input.info.nonNullable
      keys := some keys
      minRows := input.info.minRows
      maxRows := input.info.maxRows }
  | sort _, [input] =>
    let i := i.inherit input.info
    pure { i with
      external := input.info.external, minRows := input.info.minRows, maxRows := input.info.maxRows }
  | constrainedSort _, [input, skip, limit] =>
    let i := ((i.inherit input.info).refer input.info skip.info).refer input.info limit.info
    pure { i with maxRows := limit.op.limit?.getD input.info.maxRows }
  | op, children =>
    if op.kind.isScalar then
      pure { i with external := children.foldl (fun s c => s ∪ c.info.external) i.external }
    else throw .malformed
where
  pairUp (i left right : Info) : Info :=
    { i with
      definitions := left.definitions ∪ right.definitions
      nonNullableVisible := left.nonNullable ∪ right.nonNullable
      keys := match left.keys, right.keys with
        | some l, some r => some (l ∪ r)
        | _, _ => none }
  outerRows (left right : Info) : RowCount :=
    if right.maxRows == .unbounded then left.maxRows.product right.maxRows else left.maxRows

end Op

end Planwright
