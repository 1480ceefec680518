import Planwright.Document.Error
import Planwright.Json.Reading
import Planwright.Number.Reading
import Planwright.Plan.Build

/-! Tree documents: a plan with the names its tables and variables were declared under. -/

namespace Planwright

structure Document where
  version : Version
  group : String
  plan : Plan
  tables : List (String × Table)
  vars : List (String × VarId)
  deriving Inhabited

namespace Document

abbrev DecodeM := StateT Document (Except DocumentError)

def onPlan {α : Type} (step : PlanM α) : DecodeM α := do
  let d ← get
  match step.run d.plan with
  | .ok (a, plan) =>
    set { d with plan }
    return a
  | .error f => throw (.fault f)

def within {α : Type} (wrap : DocumentError → DocumentError) (step : DecodeM α) : DecodeM α := fun d =>
  match step d with
  | .ok r => .ok r
  | .error e => .error (wrap e)

def textField? (v : Json) (earlier : List String) (name : String) : Option String :=
  (v.get? earlier name).bind Json.text?

def textField (v : Json) (earlier : List String) (name : String) : String := (textField? v earlier name).getD ""

def listField (v : Json) (earlier : List String) (name : String) : List Json :=
  ((v.get? earlier name).map Json.items).getD []

def boolField (v : Json) (earlier : List String) (name : String) : Bool :=
  ((v.get? earlier name).map Json.isTrue).getD false

def decodeType (v : Json) (earlier : List String) : Except DocumentError ScalarType :=
  match textField? v earlier "type" with
  | none => throw .missingType
  | some name =>
    match ScalarType.ofName? name with
    | some t => pure t
    | none => throw (.unknownType name)

def decodeColumn (v : Json) : Except DocumentError Column :=
  match decodeType v [] with
  | .ok type =>
    pure { name := textField v ["type"] "name", type, notNull := boolField v ["type", "name"] "notNull",
           key := boolField v ["type", "name", "notNull"] "key" }
  | .error e => throw (.inColumnType (textField v ["type"] "name") e)

def register (name : String) (v : VarId) : DecodeM Unit := do
  let d ← get
  if (d.vars.lookup name).isSome then throw (.variableTwice name)
  set { d with vars := d.vars ++ [(name, v)] }

def decodeTable (v : Json) : DecodeM Unit := do
  let name := textField v [] "name"
  if name.isEmpty then throw .tableUnnamed
  if ((← get).tables.lookup name).isSome then throw (.tableTwice name)
  let columns ← (listField v ["name"] "columns").mapM fun c => (decodeColumn c : Except DocumentError Column)
  let table ← onPlan (Plan.newTable name columns)
  (table.columns.zip columns).forM fun (id, c) => register (name ++ "." ++ c.name) id
  modify fun d => { d with tables := d.tables ++ [(name, table)] }

def decodeVar (kind : VarKind) (earlier : List String) (v : Json) : DecodeM Unit := do
  let name := textField v earlier "name"
  if name.isEmpty then throw .variableUnnamed
  match decodeType v (earlier ++ ["name"]) with
  | .error e => throw (.inVariableType name e)
  | .ok type =>
    let shown := if kind == .parameter then name else ""
    let id ← onPlan (Plan.newVar ⟨kind, shown, type⟩)
    register name id

def eachIndexed (step : Nat → Json → DecodeM Unit) (items : List Json) : DecodeM Unit :=
  items.zipIdx.forM fun (v, i) => step i v

def lookupVar (name : String) : DecodeM VarId := do
  match (← get).vars.lookup name with
  | some v => pure v
  | none => throw (.undeclaredVariable name)

def decodeVarField (v : Json) (earlier : List String) (field : String) : DecodeM VarId := do
  match textField? v earlier field with
  | some name => lookupVar name
  | none => throw (.missingField field)

def expectText (v : Json) : Except Mismatch String :=
  match v.text? with
  | some s => pure s
  | none => throw ⟨"string", v.kindText⟩

def expectBool : Json → Except Mismatch Bool
  | .boolean holds => pure holds
  | v => throw ⟨"bool", v.kindText⟩

def expectNumber : Json → Except Mismatch String
  | .number spelling => pure spelling
  | v => throw ⟨"number", v.kindText⟩

def orMismatch {α : Type} (wrap : Mismatch → DocumentError) : Except Mismatch α → Except DocumentError α
  | .ok a => .ok a
  | .error m => .error (wrap m)

def decodeVarSet (v : Json) (earlier : List String) (field : String) : DecodeM VarSet := do
  match v.get? earlier field with
  | none => throw (.missingField field)
  | some list =>
    let ids ← list.items.mapM fun item => do
      let name ← orMismatch (.invalidField field) (expectText item)
      lookupVar name
    return VarSet.ofList ids

def decodeVarMap (v : Json) : DecodeM VarMap := do
  match v.members? with
  | none => throw (.mapNotObject ⟨"object", v.kindText⟩)
  | some members =>
    let pairs ← members.mapM fun (key, value) => do
      let output ← lookupVar key
      let name ← orMismatch (.invalidMapping key) (expectText value)
      return (output, ← lookupVar name)
    return VarMap.ofList pairs

def decodeSortKeys (v : Json) (earlier : List String) : DecodeM (List SortKey) :=
  (listField v earlier "keys").mapM fun key => do
    let id ← within .inSortKey (decodeVarField key [] "var")
    let ascending := match key.get? ["var"] "ascending" with
      | some b => b.isTrue
      | none => true
    return ⟨id, ascending⟩

/-- A constant of a type. An absent or null value is null whatever the type. -/
def decodeValue (type : ScalarType) (v : Option Json) : Except DocumentError Value :=
  match v with
  | none | some .null => pure .null
  | some v =>
    match type with
    | .int32 => return .int32 (Int32.ofInt (← integer v))
    | .int64 => return .int64 (Int64.ofInt (← integer v))
    | .float => do
      let spelling ← orMismatch (.literalMismatch .float) (expectNumber v)
      match Double.ofNumeral? spelling with
      | some d => pure (.float d)
      | none => throw (.literalMalformed .float)
    | .boolean => return .boolean (← orMismatch (.literalMismatch .boolean) (expectBool v))
    | .string => return .string (← orMismatch (.literalMismatch .string) (expectText v))
    | .time => do
      match Timestamp.ofText? (← orMismatch (.literalMismatch .time) (expectText v)) with
      | some t => pure (.time t)
      | none => throw (.literalMalformed .time)
    | .duration => do
      match Duration.ofText? (← orMismatch (.literalMismatch .duration) (expectText v)) with
      | some d => pure (.duration d)
      | none => throw (.literalMalformed .duration)
    | type => throw (.unsupportedConstant type.text)
where
  integer (v : Json) : Except DocumentError Int := do
    let spelling ← orMismatch (.literalMismatch .integer) (expectNumber v)
    match Text.int? spelling with
    | some n => if Int64.minValue.toInt ≤ n ∧ n ≤ Int64.maxValue.toInt then pure n else throw (.literalMalformed .integer)
    | none => throw (.literalMalformed .integer)

def kindOf? (name : String) : Option OpKind :=
  if name == "true" || name == "false" then some .constantPredicate
  else OpKind.all.find? fun k => Text.lower k.name == name

inductive Wanted
  | relational | scalar | kind (k : OpKind)

def Wanted.text : Wanted → String
  | relational => "relational"
  | scalar => "scalar"
  | kind k => k.name

def Wanted.admits : Wanted → OpKind → Bool
  | relational, k => k.isRelational
  | scalar, k => k.isScalar
  | kind want, k => k == want

def wantedChildren (kind : OpKind) (count : Nat) : List Wanted :=
  match kind with
  | .filter => [.relational, .scalar]
  | .project => [.relational, .kind .varDefList]
  | .groupBy => [.relational, .kind .varDefList, .kind .varDefList]
  | .innerJoin | .leftOuterJoin => [.relational, .relational, .scalar]
  | .constrainedSort => [.relational, .scalar, .scalar]
  | .varDefList => List.replicate count (.kind .varDef)
  | .element => [.relational]
  | kind => List.replicate count (if kind.isRelational then .relational else .scalar)

def checkChildKinds (kind : OpKind) (children : List OpKind) : Except DocumentError Unit :=
  ((wantedChildren kind children.length).zip children).zipIdx.forM fun ((want, found), i) =>
    if want.admits found then pure () else throw (.childKind i kind want.text found)

def nodeFields : List String := ["op", "children"]

def decodeOp (kind : OpKind) (name : String) (v : Json) (children : List Op) : DecodeM Op := do
  match kind with
  | .scanTable =>
    let table := textField v nodeFields "table"
    match (← get).tables.lookup table with
    | some t => return .scanTable t
    | none => throw (.undeclaredTable table)
  | .singleRowTable => return .singleRowTable
  | .filter => return .filter
  | .crossJoin => return .crossJoin
  | .innerJoin => return .innerJoin
  | .leftOuterJoin => return .leftOuterJoin
  | .crossApply => return .crossApply
  | .outerApply => return .outerApply
  | .varDefList => return .varDefList
  | .nullSentinel => return .nullSentinel
  | .project => return .project (← decodeVarSet v nodeFields "outputs")
  | .unionAll => decodeSetOp .unionAll
  | .intersect => decodeSetOp .intersect
  | .except => decodeSetOp .except
  | .distinct => return .distinct (← decodeVarSet v nodeFields "keys")
  | .groupBy =>
    let keys ← decodeVarSet v nodeFields "keys"
    return .groupBy keys (← decodeVarSet v (nodeFields ++ ["keys"]) "outputs")
  | .sort => return .sort (← decodeSortKeys v nodeFields)
  | .constrainedSort => return .constrainedSort (← decodeSortKeys v nodeFields)
  | .varDef => return .varDef (← decodeVarField v nodeFields "var")
  | .varRef =>
    let id ← decodeVarField v nodeFields "var"
    return .varRef id ((← get).plan.vars.type id)
  | .constant => return .constant (← decodeConstant)
  | .internalConstant => return .internalConstant (← decodeConstant)
  | .null => return .null (← (decodeType v nodeFields : Except DocumentError ScalarType))
  | .constantPredicate =>
    if name != "constantpredicate" then return .constantPredicate (name == "true")
    match v.get? nodeFields "value" with
    | none => throw .missingPredicateValue
    | some value => return .constantPredicate (← orMismatch .invalidPredicateValue (expectBool value))
  | .aggregate =>
    let function := textField v nodeFields "name"
    if function.isEmpty then throw .aggregateUnnamed
    return .aggregate function (← (decodeType v (nodeFields ++ ["name"]) : Except DocumentError ScalarType))
  | kind =>
    match ScalarKind.ofKind? kind with
    | some s => return .scalar s (← (resultType s : Except DocumentError ScalarType))
    | none => throw (.fault .malformed)
where
  decodeConstant : DecodeM Value := do
    let type ← (decodeType v nodeFields : Except DocumentError ScalarType)
    (decodeValue type (v.get? (nodeFields ++ ["type"]) "value") : Except DocumentError Value)
  decodeSetOp (kind : SetKind) : DecodeM Op := do
    let outputs ← decodeVarSet v nodeFields "outputs"
    match listField v (nodeFields ++ ["outputs"]) "maps" with
    | [left, right] =>
      let left ← decodeBranch outputs 0 left
      let right ← decodeBranch outputs 1 right
      return .combine kind outputs left right
    | maps => throw (.mapCount maps.length)
  decodeBranch (outputs : VarSet) (i : Nat) (v : Json) : DecodeM VarMap := do
    let m ← within (.inMap i) (decodeVarMap v)
    match outputs.toList.find? fun o => (m.get? o).isNone with
    | some o => throw (.mapIncomplete i ((← get).plan.vars.text o))
    | none => return m
  /-- Tests give booleans, casts and elements say their type, a `Case` takes that of its first result
      and the others that of their first operand. -/
  resultType (s : ScalarKind) : Except DocumentError ScalarType :=
    match s with
    | .eq | .ne | .lt | .gt | .le | .ge | .and | .or | .not | .isNull | .like => pure .boolean
    | s =>
      if (v.get? nodeFields "type").isSome then decodeType v nodeFields
      else
        match s with
        | .caseWhen => childType 1
        | .cast | .softCast | .element => throw (.typeNeeded name)
        | _ => childType 0
  childType (i : Nat) : Except DocumentError ScalarType :=
    match children[i]? with
    | some c => pure c.type
    | none => throw (.fault .malformed)

/-- A node with everything below it, children first. Documents are nested no deeper than `depth`. -/
def decodeNode : (depth : Nat) → Json → DecodeM NodeId
  | 0, _ => throw (.fault .outOfFuel)
  | depth + 1, v => do
    let name := textField v [] "op"
    match kindOf? name with
    | none => throw (.unknownOp name)
    | some kind =>
      let children ← (listField v ["op"] "children").zipIdx.mapM fun (c, i) =>
        within (.inChild i name) (decodeNode depth c)
      if !kind.admits children.length then throw (.childCount kind children.length)
      let ops ← onPlan (children.mapM Plan.op)
      (checkChildKinds kind (ops.map Op.kind) : Except DocumentError Unit)
      let op ← within (.inOp name) (decodeOp kind name v ops)
      onPlan (Plan.create op children)

def decodeVersion (v : Json) : Except DocumentError Version :=
  match Version.ofText (textField v [] "version") with
  | .error e => throw (.version e)
  | .ok version => if version.isSupported then pure version else throw (.unsupportedVersion version)

def decodeBody (v : Json) : DecodeM Unit := do
  eachIndexed (fun i t => within (.inTable i) (decodeTable t)) (listField v ["version", "group"] "tables")
  eachIndexed (fun i p => within (.inParameter i) (decodeVar .parameter [] p))
    (listField v ["version", "group", "tables"] "parameters")
  eachIndexed (fun i x =>
      let kind := if textField x [] "kind" == "setop" then .setOp else .computed
      within (.inVariable i) (decodeVar kind ["kind"] x))
    (listField v ["version", "group", "tables", "parameters"] "vars")
  match v.get? ["version", "group", "tables", "parameters", "vars"] "root" with
  | none => throw .noRoot
  | some tree =>
    let root ← within .inRoot (decodeNode Json.depthLimit tree)
    let kind ← onPlan (Plan.kind root)
    if !kind.isRelational then throw (.rootNotRelational kind)
    modify fun d => { d with plan := { d.plan with root } }

def decode (text : String) : Except DocumentError Document := do
  match Json.ofText? text with
  | none => throw .unreadable
  | some v =>
    match v with
    | .object _ =>
      let version ← decodeVersion v
      let start : Document :=
        { version, group := textField v ["version"] "group", plan := .empty, tables := [], vars := [] }
      return (← (decodeBody v).run start).2
    | v => throw (.notObject v.kindText)

def fingerprint (text : String) : Except DocumentError UInt64 :=
  match Json.ofText? text with
  | none => throw .unreadable
  | some v => pure (SipHash.hash 0x646f63756d656e74 0x6f6374706c616e31 (SipHash.textBytes v.render))

end Document

end Planwright
