import Planwright.Command.Folder
import Planwright.Report.Statistics

/-! What a run takes from its surroundings. -/

namespace Planwright

/-- The runs of a batch are named by the number of the document. -/
structure Setup where
  program : String
  invocation : Naming
  home : Option String
  read : ReadFile

namespace Setup

def defaultConfig? (s : Setup) : Option String :=
  s.home.map fun home => home ++ "/." ++ s.program ++ "/" ++ s.program ++ ".yml"

end Setup

end Planwright
