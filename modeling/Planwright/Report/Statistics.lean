import Planwright.Report.Grid
import Planwright.Rule.Stats

/-! Statistics of a run as text. -/

namespace Planwright

namespace Grid

def report (header : List String) (rows : List (List String)) : Grid := ⟨header, rows, some 64⟩

end Grid

/-- How the identifiers of runs are written. -/
structure Naming where
  name : Nat → String

namespace Naming

/-- All runs under one name. -/
instance : Coe String Naming := ⟨fun name => ⟨fun _ => name⟩⟩

def digits : List Char := "0123456789ABCDEFGHJKMNPQRSTVWXYZ".toList

def lowDigits : Nat → Nat → List Char
  | 0, _ => []
  | count + 1, n => lowDigits count (n / 32) ++ [(digits[n % 32]?).getD '0']

/-- Identifiers of 128 bits, in 26 digits of five bits. -/
def standard : Naming := ⟨fun n => String.ofList (lowDigits 26 n)⟩

end Naming

def Stats.report (naming : Naming) (s : Stats) : String :=
  let summary := "invocation " ++ naming.name s.invocation ++ ": group " ++ s.group ++ ", " ++ toString s.nodeCount ++ " nodes, "
    ++ toString s.steps ++ " steps\n"
  if s.skipped then summary ++ "skipped: tree over the node limit\n"
  else
    let table := Grid.report ["rule", "matched", "changed"]
      (s.rules.map fun r => [r.name, toString r.matched, toString r.changed])
    summary ++ (if s.pruningRequired then "projection pruning required\n" else "")
      ++ (if s.nullabilityRequired then "nullability rules required\n" else "") ++ table.render

end Planwright
