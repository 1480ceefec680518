import Planwright.Variable.Registry

/-! Histories of variable sets: named sets and maps over one registry, and the steps that make, change and
    question them. A set learns its registry when it is made for one, when a variable is added, or from a
    set that is added; it needs the registry to list its members. -/

namespace Planwright

structure BoundSet where
  members : VarSet
  isBound : Bool
  deriving DecidableEq, Inhabited

namespace BoundSet

def empty (isBound : Bool) : BoundSet := ⟨.empty, isBound⟩

def insert (s : BoundSet) (v : VarId) : BoundSet := ⟨s.members.insert v, true⟩

def erase (s : BoundSet) (v : VarId) : BoundSet := { s with members := s.members.erase v }

def union (s t : BoundSet) : BoundSet := ⟨s.members ∪ t.members, s.isBound || t.isBound⟩

def diff (s t : BoundSet) : BoundSet := { s with members := s.members \ t.members }

def inter (s t : BoundSet) : BoundSet := { s with members := s.members ∩ t.members }

def unionAll (ss : List BoundSet) : BoundSet := ss.foldl union (empty false)

def ofList (isBound : Bool) (vs : List VarId) : BoundSet := vs.foldl insert (empty isBound)

/-- A member as its registry knows it. Only a set that has learnt its registry can look one up. -/
def resolve (r : Registry) (s : BoundSet) (v : VarId) : Except Fault VarId :=
  if s.isBound then r.find v else throw .malformed

def toList (r : Registry) (s : BoundSet) : Except Fault (List VarId) := s.members.toList.mapM (s.resolve r)

def first? (r : Registry) (s : BoundSet) : Except Fault (Option VarId) :=
  match s.members.first? with
  | none => pure none
  | some v => some <$> s.resolve r v

def text (r : Registry) (s : BoundSet) : Except Fault String :=
  return Registry.braced ((← s.toList r).map r.text)

end BoundSet

namespace History

inductive Action
  | make (isBound : Bool)
  | unionOf | copyOf
  | add | remove | union | minus | intersect | keep
  | has | overlaps | subset | equals | first
  | newLike
  | mapNew | mapPut | mapCopy | mapShow
  deriving DecidableEq, Inhabited

structure Step where
  action : Action
  name : String
  other : String
  ids : List Int
  /-- The sets of which a new one is made. -/
  sources : List String := [name, other]

inductive Answer
  | silent
  | flag (b : Bool)
  | flags (bs : List Bool)
  | member (name : Option String)
  deriving DecidableEq, Inhabited

structure SetView where
  text : String
  size : Nat
  isEmpty : Bool
  deriving DecidableEq, Inhabited

/-- What a step shows: the answer and the set it was about, if there is one, or a map. -/
inductive Shown
  | set (answer : Answer) (view : Option SetView)
  | map (text : String)
  deriving DecidableEq, Inhabited

structure Workspace where
  vars : Registry
  sets : List (String × BoundSet)
  maps : List (String × VarMap)

abbrev WorkspaceM := StateT Workspace (Except Fault)

def getSet (name : String) : WorkspaceM BoundSet := do
  match (← get).sets.lookup name with
  | some s => pure s
  | none => throw .malformed

def putSet (name : String) (s : BoundSet) : WorkspaceM Answer := do
  modify fun w => { w with sets := (name, s) :: w.sets }
  return .silent

def combine (step : Step) (f : BoundSet → BoundSet → BoundSet) : WorkspaceM Answer := do
  let s ← getSet step.name
  let t ← getSet step.other
  putSet step.name (f s t)

def question (step : Step) (f : VarSet → VarSet → Bool) : WorkspaceM Answer := do
  let s ← getSet step.name
  let t ← getSet step.other
  return .flag (f s.members t.members)

def onSets (step : Step) (vs : List VarId) : WorkspaceM Answer := do
  match step.action with
  | .make isBound => putSet step.name (.ofList isBound vs)
  | .unionOf => putSet step.name (.unionAll (← step.sources.mapM getSet))
  | .copyOf => putSet step.name (← getSet step.other)
  | .add => putSet step.name (vs.foldl .insert (← getSet step.name))
  | .remove => putSet step.name (vs.foldl .erase (← getSet step.name))
  | .union => combine step .union
  | .minus => combine step .diff
  | .intersect => combine step .inter
  | .has => return .flags (vs.map (← getSet step.name).members.has)
  | .overlaps => question step VarSet.overlaps
  | .subset => question step VarSet.isSubset
  | .equals => question step (· == ·)
  | .first => do
    let v ← (← getSet step.name).first? (← get).vars
    return .member (v.map (← get).vars.text)
  | .newLike =>
    match vs with
    | [] => throw .malformed
    | v :: _ =>
      let some x := (← get).vars.get? v | throw .malformed
      let w ← modifyGet fun w =>
        let (id, vars) := w.vars.add x
        (id, { w with vars })
      return .member (some ((← get).vars.text w))
  | _ => return .silent

def putMap (name : String) (m : VarMap) : WorkspaceM Unit :=
  modify fun w => { w with maps := (name, m) :: w.maps }

/-- Does a step on maps with the variables it names. A map that was never made is empty, and so is its copy,
    but nothing can be put into it. -/
def onMaps (step : Step) (vs : List VarId) : WorkspaceM Unit := do
  match step.action with
  | .mapNew => putMap step.name .empty
  | .mapPut =>
    match vs, (← get).maps.lookup step.name with
    | v :: w :: _, some m => putMap step.name (m.insert v w)
    | _, _ => throw .malformed
  | .mapCopy =>
    match (← get).maps.lookup step.other with
    | some m => putMap step.name m
    | none => modify fun w => { w with maps := w.maps.filter (·.1 != step.name) }
  | _ => pure ()

def Action.isOnMaps : Action → Bool
  | mapNew | mapPut | mapCopy | mapShow => true
  | _ => false

def viewSet (name : String) : WorkspaceM (Option SetView) := do
  match (← get).sets.lookup name with
  | none => return none
  | some s => return some ⟨← s.text (← get).vars, s.members.size, s.members.isEmpty⟩

def step (s : Step) : WorkspaceM Shown := do
  let vs ← s.ids.mapM fun id => do ((← get).vars.find id : Except Fault VarId)
  if s.action.isOnMaps then
    onMaps s vs
    let w ← get
    return .map (w.vars.mapText ((w.maps.lookup s.name).getD .empty))
  else
    let answer ← onSets s vs
    return .set answer (← viewSet s.name)

def run : List Step → Workspace → List (Except Fault Shown) × Workspace
  | [], w => ([], w)
  | s :: rest, w =>
    match (step s).run w with
    | .error f => ([.error f], w)
    | .ok (shown, w) =>
      let (more, w) := run rest w
      (.ok shown :: more, w)

end History

end Planwright
