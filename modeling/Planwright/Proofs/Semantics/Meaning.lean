import Planwright.Proofs.Semantics.Row
import Planwright.Proofs.Tree.Basic
import Planwright.Rule.Scalar

/-! What trees mean. A relational tree takes a database and an outer row to a list of rows, a scalar tree an
    environment to a value. A node's meaning is made of its operator and the meanings of its children. -/

namespace Planwright

/-- The rows of each table by its name, with the values in the order of the columns. -/
abbrev Database := String → List (List Value)

/-- How the operators are read whose result a plan alone does not fix. -/
structure Interpretation where
  /-- Arithmetic other than addition, patterns and casts, from the values of the operands. -/
  scalar : ScalarKind → ScalarType → List Value → Value
  /-- An aggregate, from the values of its operands for each row of the group. -/
  aggregate : String → ScalarType → List (List Value) → Value
  /-- The order that sorting puts rows in. -/
  arrange : List SortKey → List Row → List Row
  arrange_perm : ∀ keys rows, (arrange keys rows).Perm rows
  /-- What tells values apart where rows are compared: their texts, or the values themselves. -/
  mark : Value → Value
  mark_null : ∀ v, mark v = mark .null → v = .null

/-- What a tree means where it stands: `rows` for a relational one, given the outer row; `value` for an
    expression, given the row it sees and the rows of the group; `defs` for definitions. -/
structure Meaning where
  columns : VarSet
  rows : Row → List Row
  value : Row → List Row → Value
  defs : List (VarId × (Row → List Row → Value))

namespace Meaning

def blank : Meaning := ⟨.empty, fun _ => [], fun _ _ => .null, []⟩

def relation (columns : VarSet) (rows : Row → List Row) : Meaning := { blank with columns, rows }

def expression (value : Row → List Row → Value) : Meaning := { blank with value }

/-- Whether an expression holds for a row, seen together with the outer row. -/
def holds (m : Meaning) (outer r : Row) : Bool := (m.value (outer.merge r) []).holds

def bindings (m : Meaning) (env : Row) (group : List Row) : Row := fun v =>
  (m.defs.reverse.lookup v).map fun e => e env group

end Meaning

namespace Row

/-- A left row with its matches, or with nulls when there is none. -/
def orNulls (columns : VarSet) (left : Row) (found : List Row) : List Row :=
  if found.isEmpty then [left.merge (nulls columns)] else found

/-- The rows of each group, in the order of their first rows. Without keys all rows are one group. -/
def groups (mark : Value → Value) (keys : VarSet) (rows : List Row) : List (List Row) :=
  if keys.isEmpty then [rows]
  else (firsts (marks mark keys.toList) rows).map fun r =>
    rows.filter fun s => s.marks mark keys.toList = r.marks mark keys.toList

/-- The row a group is shown as: aggregates over the group, all else from its first row. -/
def ofGroup (outputs : VarSet) (aggregates : Meaning) (outer : Row) (group : List Row) : Row :=
  let first := group.headD empty
  (first.merge (aggregates.bindings (outer.merge first) (group.map outer.merge))).shown outputs

end Row

/-- The row of a table for the values of its columns. A missing value is null. -/
def Table.row (t : Table) (values : List Value) : Row := fun v =>
  if v ∈ t.columns then some (values.getD (t.columns.idxOf v) .null) else none

/-- The number of rows a value asks to be skipped or kept, if it is an integer. -/
def Value.count? (v : Value) : Option Nat := v.integer?.map Int.toNat

/-- The value of a comparison, null if an operand is. -/
def Value.compared (k : OpKind) (a b : Value) : Value :=
  if a.isNull || b.isNull then .null else .boolean ((Rules.comparisonHolds k (a.order b)).getD false)

/-- The sum as a wide integer, null if an operand is. Other values count as zero. -/
def Value.plus (a b : Value) : Value :=
  if a.isNull || b.isNull then .null else .int64 (Int64.ofInt (a.integer?.getD 0 + b.integer?.getD 0))

/-- `And` and `Or`: the value that decides wins over null. -/
def Value.connected (decides : Bool) (a b : Value) : Value :=
  if !a.isNull && a.holds == decides || !b.isNull && b.holds == decides then .boolean decides
  else if a.isNull || b.isNull then .null
  else .boolean !decides

def Value.negated (a : Value) : Value := if a.isNull then a else .boolean !a.holds

/-- The result of the first condition that holds, or the else. -/
def Meaning.chosen : List Meaning → Row → List Row → Value
  | [], _, _ => .null
  | [last], env, group => last.value env group
  | condition :: result :: rest, env, group =>
    if (condition.value env group).holds then result.value env group else chosen rest env group

namespace Op

variable (I : Interpretation) (db : Database)

/-- The value of a scalar operator over its operands. -/
def scalarValue (kind : ScalarKind) (type : ScalarType) (args : List Meaning) (env : Row) (group : List Row) : Value :=
  match kind, args with
  | .plus, [a, b] => (a.value env group).plus (b.value env group)
  | .and, [a, b] => (a.value env group).connected false (b.value env group)
  | .or, [a, b] => (a.value env group).connected true (b.value env group)
  | .not, [a] => (a.value env group).negated
  | .isNull, [a] => .boolean (a.value env group).isNull
  | .caseWhen, args => Meaning.chosen args env group
  | .element, [input] =>
    match input.rows env, input.columns.first? with
    | r :: _, some v => r.read v
    | _, _ => .null
  | kind, args =>
    match kind.kind.isComparison, args with
    | true, [a, b] => (a.value env group).compared kind.kind (b.value env group)
    | _, _ => I.scalar kind type (args.map fun a => a.value env group)

/-- What a set operator makes of its branches, given under its outputs. -/
def combined (kind : SetKind) (outputs : VarSet) (left right : List Row) : List Row :=
  let marks := Row.marks I.mark outputs.toList
  match kind with
  | .unionAll => left ++ right
  | .intersect => Row.firsts marks (left.filter fun r => (right.map marks).contains (marks r))
  | .except => Row.firsts marks (left.filter fun r => !(right.map marks).contains (marks r))

/-- The meaning of a node from its operator and the meanings of its children. -/
def meaning (op : Op) (children : List Meaning) : Meaning :=
  match op, children with
  | scanTable t, _ => .relation (.ofList t.columns) fun _ => (db t.name).map t.row
  | singleRowTable, _ => .relation .empty fun _ => [.empty]
  | filter, [input, predicate] =>
    .relation input.columns fun outer => (input.rows outer).filter (predicate.holds outer)
  | project outputs, [input, defs] =>
    .relation outputs fun outer =>
      (input.rows outer).map fun r => (r.merge (defs.bindings (outer.merge r) [])).only outputs
  | crossJoin, [left, right] =>
    .relation (left.columns ∪ right.columns) fun outer =>
      (left.rows outer).flatMap fun l => (right.rows outer).map l.merge
  | innerJoin, [left, right, predicate] =>
    .relation (left.columns ∪ right.columns) fun outer =>
      (left.rows outer).flatMap fun l => ((right.rows outer).map l.merge).filter (predicate.holds outer)
  | leftOuterJoin, [left, right, predicate] =>
    .relation (left.columns ∪ right.columns) fun outer =>
      (left.rows outer).flatMap fun l =>
        l.orNulls right.columns (((right.rows outer).map l.merge).filter (predicate.holds outer))
  | crossApply, [left, right] =>
    .relation (left.columns ∪ right.columns) fun outer =>
      (left.rows outer).flatMap fun l => (right.rows (outer.merge l)).map l.merge
  | outerApply, [left, right] =>
    .relation (left.columns ∪ right.columns) fun outer =>
      (left.rows outer).flatMap fun l => l.orNulls right.columns ((right.rows (outer.merge l)).map l.merge)
  | combine kind outputs l r, [left, right] =>
    .relation outputs fun outer =>
      combined I kind outputs ((left.rows outer).map (Row.renamed outputs l)) ((right.rows outer).map (Row.renamed outputs r))
  | distinct keys, [input] =>
    .relation keys fun outer => Row.firsts (Row.marks I.mark keys.toList) (input.rows outer)
  | groupBy keys outputs, [input, keyDefs, aggregates] =>
    .relation outputs fun outer =>
      let rows := (input.rows outer).map fun r => r.merge (keyDefs.bindings (outer.merge r) [])
      (Row.groups I.mark keys rows).map (Row.ofGroup outputs aggregates (outer.without input.columns))
  | sort _, [input] => .relation input.columns input.rows
  | constrainedSort keys, [input, skip, limit] =>
    .relation input.columns fun outer =>
      -- The counts are the same for all rows and see none of their columns.
      let env := outer.without input.columns
      let rows := (I.arrange keys (input.rows outer)).drop ((skip.value env []).count?.getD 0)
      match (limit.value env []).count? with
      | some n => rows.take n
      | none => rows
  | varDef v, [e] => { Meaning.blank with columns := VarSet.empty.insert v, defs := [(v, e.value)] }
  | varDefList, defs =>
    { Meaning.blank with
      columns := defs.foldl (fun s d => s ∪ d.columns) .empty, defs := defs.flatMap (·.defs) }
  | varRef v _, _ => .expression fun env _ => env.read v
  | scalar kind type, args => .expression (scalarValue I kind type args)
  | aggregate name type, args =>
    .expression fun _ group => I.aggregate name type (group.map fun r => args.map fun a => a.value r [])
  | op, _ => .expression fun _ _ => op.value?.getD .null

end Op

theorem Op.value?_of_literal? {op : Op} {v : Value} (h : op.literal? = some v) : op.value? = some v := by
  cases op with
  | constant | internalConstant => exact h
  | _ => cases h

namespace Tree

variable (I : Interpretation) (db : Database)

def meaning : Tree → Meaning
  | node _ op children => op.meaning I db (meanings children)
where
  meanings : List Tree → List Meaning
    | [] => []
    | c :: cs => meaning c :: meanings cs

theorem meanings_eq_map (cs : List Tree) : meaning.meanings I db cs = cs.map (meaning I db) := by
  induction cs with
  | nil => rfl
  | cons c cs ih => rw [meaning.meanings, ih, List.map_cons]

@[simp] theorem meaning_node (id : NodeId) (op : Op) (cs : List Tree) :
    (node id op cs).meaning I db = op.meaning I db (cs.map (meaning I db)) := by
  rw [meaning, meanings_eq_map]

def rows (t : Tree) (outer : Row) : List Row := (t.meaning I db).rows outer

section Rows
variable {I db} {id : NodeId} {x y q d k : Tree} {outer : Row}

theorem rows_filter : (node id .filter [x, q]).rows I db outer = (x.rows I db outer).filter ((q.meaning I db).holds outer) := by
  simp only [rows, meaning_node]
  rfl

theorem rows_project {outputs : VarSet} : (node id (.project outputs) [x, d]).rows I db outer = (x.rows I db outer).map fun r =>
    (r.merge ((d.meaning I db).bindings (outer.merge r) [])).only outputs := by
  simp only [rows, meaning_node]
  rfl

theorem rows_crossJoin : (node id .crossJoin [x, y]).rows I db outer =
    (x.rows I db outer).flatMap fun l => (y.rows I db outer).map l.merge := by
  simp only [rows, meaning_node]
  rfl

theorem rows_innerJoin : (node id .innerJoin [x, y, q]).rows I db outer = (x.rows I db outer).flatMap fun l =>
    ((y.rows I db outer).map l.merge).filter ((q.meaning I db).holds outer) := by
  simp only [rows, meaning_node]
  rfl

theorem rows_leftOuterJoin : (node id .leftOuterJoin [x, y, q]).rows I db outer = (x.rows I db outer).flatMap fun l =>
    l.orNulls (y.meaning I db).columns (((y.rows I db outer).map l.merge).filter ((q.meaning I db).holds outer)) := by
  simp only [rows, meaning_node]
  rfl

theorem rows_crossApply : (node id .crossApply [x, y]).rows I db outer =
    (x.rows I db outer).flatMap fun l => (y.rows I db (outer.merge l)).map l.merge := by
  simp only [rows, meaning_node]
  rfl

theorem rows_outerApply : (node id .outerApply [x, y]).rows I db outer = (x.rows I db outer).flatMap fun l =>
    l.orNulls (y.meaning I db).columns ((y.rows I db (outer.merge l)).map l.merge) := by
  simp only [rows, meaning_node]
  rfl

theorem rows_combine {kind : SetKind} {outputs : VarSet} {l r : VarMap} :
    (node id (.combine kind outputs l r) [x, y]).rows I db outer = Op.combined I kind outputs
      ((x.rows I db outer).map (Row.renamed outputs l)) ((y.rows I db outer).map (Row.renamed outputs r)) := by
  simp only [rows, meaning_node]
  rfl

theorem rows_distinct {keys : VarSet} : (node id (.distinct keys) [x]).rows I db outer =
    Row.firsts (Row.marks I.mark keys.toList) (x.rows I db outer) := by
  simp only [rows, meaning_node]
  rfl

theorem rows_groupBy {keys outputs : VarSet} : (node id (.groupBy keys outputs) [x, k, d]).rows I db outer =
    (Row.groups I.mark keys ((x.rows I db outer).map fun r => r.merge ((k.meaning I db).bindings (outer.merge r) []))).map
      (Row.ofGroup outputs (d.meaning I db) (outer.without (x.meaning I db).columns)) := by
  simp only [rows, meaning_node]
  rfl

theorem columns_filter : ((node id .filter [x, q]).meaning I db).columns = (x.meaning I db).columns := by
  rw [meaning_node]
  rfl

theorem value_of_value? {env : Row} {group : List Row} {t : Tree} {v : Value} (h : t.op.value? = some v) :
    (t.meaning I db).value env group = v := by
  obtain ⟨id, op, cs⟩ := t
  cases op with
  | constant | null | internalConstant | nullSentinel | constantPredicate =>
    rw [meaning_node]
    exact Option.some.inj h
  | _ => cases h

end Rows

end Tree

/-! ### Readings -/

def ScalarKind.isTest (kind : ScalarKind) : Bool := kind.kind.isComparison || kind == .like

/-- What comparisons and patterns give for the values of their operands. -/
abbrev Reading := ScalarKind → ScalarType → List Value → Value

def Interpretation.reading (I : Interpretation) : Reading := fun kind type values =>
  match kind.kind.isComparison, values with
  | true, [a, b] => a.compared kind.kind b
  | _, _ => I.scalar kind type values

variable (C : Reading) (I : Interpretation) (db : Database)

/-- The meaning of a node, with comparisons and patterns read in a given way. -/
def Op.meaningUnder (op : Op) (children : List Meaning) : Meaning :=
  match op with
  | .scalar kind type =>
    if kind.isTest then .expression fun env group => C kind type (children.map fun c => c.value env group)
    else op.meaning I db children
  | op => op.meaning I db children

/-- The meaning of a tree, with comparisons and patterns read in a given way. -/
def Tree.meaningUnder : Tree → Meaning
  | node _ op children => op.meaningUnder C I db (meanings children)
where
  meanings : List Tree → List Meaning
    | [] => []
    | c :: cs => meaningUnder c :: meanings cs

variable {C I db}

theorem Op.meaningUnder_reading (op : Op) (ms : List Meaning) : op.meaningUnder I.reading I db ms = op.meaning I db ms := by
  cases op with
  | scalar kind type =>
    rw [meaningUnder]
    split
    · have hvalue : ∀ env group, I.reading kind type (ms.map fun m => m.value env group) = scalarValue I kind type ms env group := by
        intro env group
        match ms with
        | [] | [_] | [_, _] | _ :: _ :: _ :: _ => cases kind <;> first | rfl | contradiction
      simp only [hvalue]
      rfl
    · rfl
  | _ => rfl

variable (C I db) in
theorem Op.meaningUnder_scalar (kind : ScalarKind) (type : ScalarType) (ms : List Meaning) :
    ∃ value, (Op.scalar kind type).meaningUnder C I db ms = .expression value := by
  rw [meaningUnder]
  split
  · exact ⟨_, rfl⟩
  · exact ⟨_, rfl⟩

namespace Tree

@[simp] theorem meaningUnder_node (id : NodeId) (op : Op) (cs : List Tree) :
    (node id op cs).meaningUnder C I db = op.meaningUnder C I db (cs.map (meaningUnder C I db)) := by
  have hmap : ∀ cs, meaningUnder.meanings C I db cs = cs.map (meaningUnder C I db) := by
    intro cs
    induction cs with
    | nil => rfl
    | cons c cs ih => rw [meaningUnder.meanings, ih, List.map_cons]
  rw [meaningUnder, hmap]

theorem meaningUnder_reading (t : Tree) : t.meaningUnder I.reading I db = t.meaning I db := by
  induction t using induct with
  | node id op cs ih => rw [meaningUnder_node, meaning_node, List.map_congr_left ih, Op.meaningUnder_reading]

/-- Trees are evaluated node by node, with comparisons and patterns read in a given way. -/
class Evaluation (C : outParam Reading) (I : outParam Interpretation) (db : outParam Database) (M : Tree → Meaning) : Prop where
  node : ∀ id op cs, M (.node id op cs) = op.meaningUnder C I db (cs.map M)

instance : Evaluation C I db (meaningUnder C I db) := ⟨meaningUnder_node⟩

instance : Evaluation I.reading I db (meaning I db) :=
  ⟨fun id op cs => by rw [meaning_node, Op.meaningUnder_reading]⟩

end Tree

end Planwright
