import Planwright.Report.Statistics

/-! Batches: results for many documents, which may arrive in any order and are printed by index. -/

namespace Planwright

structure Result where
  index : Int
  name : String
  dump : String
  diff : String
  stats : Option Stats
  cached : Bool
  failure : Option String
  deriving Inhabited

def Result.status (r : Result) : String :=
  if r.failure.isSome then "error"
  else if r.cached then "cached"
  else if r.stats.any (·.skipped) then "skipped"
  else "done"

structure Batch where
  total : Int
  withStats : Bool
  results : List Result

namespace Batch

def start (total : Int) (withStats : Bool) : Batch := ⟨total, withStats, []⟩

def insert (r : Result) : List Result → List Result
  | [] => [r]
  | other :: rest =>
    if r.index < other.index then r :: other :: rest
    else if r.index = other.index then r :: rest
    else other :: insert r rest

def report (b : Batch) (r : Result) : Batch := { b with results := insert r b.results }

def progress (b : Batch) : String :=
  let rows := b.results.map fun r =>
    [toString r.index, r.name, r.status, (r.stats.map fun s => toString s.steps).getD ""]
  (Grid.report ["#", "document", "status", "steps"] rows).render
    ++ toString b.results.length ++ "/" ++ toString b.total ++ " documents\n"

/-- What is printed for a result. Names are only printed when there are several documents. -/
def resultText (naming : Naming) (b : Batch) (r : Result) : String :=
  let title := if b.total > 1 then "-- " ++ r.name ++ "\n" else ""
  match r.failure with
  | some message => title ++ "error: " ++ message ++ "\n"
  | none =>
    let stats := if b.withStats then (r.stats.map (·.report naming)).getD "" else ""
    title ++ r.dump ++ r.diff ++ stats

def text (naming : Naming) (b : Batch) : String := String.join (b.results.map (b.resultText naming))

def failure? (b : Batch) : Option String :=
  b.results.findSome? fun r => r.failure.map fun message => r.name ++ ": " ++ message

end Batch

end Planwright
