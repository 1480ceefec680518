import Planwright.Document.Decode
import Planwright.Engine.Pass
import Planwright.Plan.Dump

/-! The workbench: a document's plan and one context of the engine, worked on step by step. Nodes are named by
    their place below the root, or kept in registers. -/

namespace Planwright

/-- A node by its place, a list of child indexes from the root, or by the register that holds it. -/
inductive NodeRef
  | path (indexes : List Nat)
  | register (name : String)
  deriving DecidableEq, Inhabited

structure Workbench where
  registers : List (String × NodeId)
  names : List (String × VarId)
  table : RuleTable

abbrev WorkbenchM := StateT Workbench RuleM

structure Attempt where
  changed : Bool
  node : NodeId
  isSame : Bool

namespace Workbench

def start (d : Document) (group : RuleGroup) (options : Options) : Workbench × Context :=
  (⟨[], d.vars, group.enabledRules options.disabledRules⟩,
   { Context.start options with stats := { Stats.empty with group := group.name } })

def walk (n : NodeId) : List Nat → PlanM NodeId
  | [] => pure n
  | i :: rest => do walk (← Plan.child n i) rest

def find : NodeRef → WorkbenchM NodeId
  | .path indexes => do walk (← getThe Plan).root indexes
  | .register name => do
    match (← get).registers.lookup name with
    | some n => pure n
    | none => throw .malformed

def store (name : String) (n : NodeId) : WorkbenchM Unit :=
  if name.isEmpty then pure () else modify fun w => { w with registers := (name, n) :: w.registers }

def replace (r : NodeRef) (n : NodeId) : WorkbenchM Unit := do
  match r with
  | .register name => store name n
  | .path indexes =>
    match indexes.getLast? with
    | none => modifyThe Plan fun p => { p with root := n }
    | some i =>
      let parent ← walk (← getThe Plan).root indexes.dropLast
      (Plan.setChild parent i n : PlanM Unit)

/-- A variable by its declared name, or by its number behind a `#`. -/
def findVar (name : String) : WorkbenchM VarId := do
  match name.toList with
  | '#' :: digits =>
    match Text.int? (String.ofList digits) with
    | some id => ((← getThe Plan).vars.find id : Except Fault VarId)
    | none => throw .malformed
  | _ =>
    match (← get).names.lookup name with
    | some v => pure v
    | none => throw .malformed

def findSet (names : List String) : WorkbenchM VarSet := return VarSet.ofList (← names.mapM findVar)

def findMap : List String → WorkbenchM VarMap
  | k :: v :: rest => do
    let k ← findVar k
    let v ← findVar v
    return mergeOnto k v (← findMap rest)
  | _ => pure .empty
where
  /-- A later pair for the same variable wins. -/
  mergeOnto (k v : VarId) (m : VarMap) : VarMap := if (m.get? k).isSome then m else m.insert k v

def settle (n : NodeId) : WorkbenchM NodeId := do
  (Engine.settle (← get).table Engine.defaultFuel [] n none : RuleM NodeId)

def run (r : NodeRef) : WorkbenchM NodeId := do
  let out ← settle (← find r)
  replace r out
  return out

/-- Tries one rule on a node, when the pattern matches, and puts the result in the node's place. -/
def tryRule (name : String) (r : NodeRef) : WorkbenchM (Option Attempt) := do
  let some rule := RuleGroup.all.rules.find? (·.name == name) | throw .malformed
  let n ← find r
  if !rule.pattern.holds (← getThe Plan) n then return none
  let table := (← get).table
  match ← (rule.apply (fun m => Engine.settle table Engine.defaultFuel [] m none) n : RuleM (Option NodeId)) with
  | none =>
    replace r n
    return some ⟨false, n, true⟩
  | some out =>
    replace r out
    return some ⟨true, out, out == n⟩

def setAncestors (nodes : List NodeId) : WorkbenchM Unit :=
  modifyThe Context fun c => { c with ancestors := nodes.reverse }

/-- Replaces references to the variables of a definition list in an expression, and puts the result in the
    expression's place. Nothing is done if a definition cannot be moved. -/
def substitute (defs : NodeRef) (expr : NodeRef) : WorkbenchM (Option NodeId) := do
  match ← (RuleM.substitution? (← find defs) none : RuleM (Option Substitution)) with
  | none => return none
  | some s =>
    let out ← (Plan.substitute s (← find expr) : PlanM NodeId)
    replace expr out
    return some out

end Workbench

end Planwright
