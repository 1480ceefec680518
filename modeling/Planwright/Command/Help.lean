import Planwright.Command.Request

/-! The help of the commands. -/

namespace Planwright.Help

def valueWord : FlagKind → String
  | .text => " string"
  | .number => " int"
  | .switch => ""

def flagHead (f : Flag) : String :=
  (if f.letter.isSome then "  " else "      ") ++ f.title ++ valueWord f.kind

def flagLines (flags : List Flag) : String :=
  let sorted := flags.mergeSort fun a b => a.name ≤ b.name
  let width := sorted.foldl (fun w f => max w (flagHead f).length) 0
  String.join (sorted.map fun f =>
    let head := flagHead f
    head ++ String.ofList (List.replicate (width + 3 - head.length) ' ') ++ f.usage ++ "\n")

def optimizeText (program : String) : String :=
  let examples := ["tree.json", "--group postjoin --diff tree.json", "--parallel 8 --live --stats trees/*.json"]
  program.capitalize ++ " reads operator tree documents, applies a group of rewrite rules to each,\n"
    ++ "and prints the rewritten trees.\n\nUsage:\n  "
    ++ program ++ " [files...] [flags]\n  " ++ program ++ " [command]\n\nExamples:\n"
    ++ String.join (examples.map fun e => program ++ " " ++ e ++ "\n")
    ++ "\nAvailable Commands:\n"
    ++ "  completion  Generate the autocompletion script for the specified shell\n"
    ++ "  describe    Print the analysis of a document's root operator.\n"
    ++ "  help        Help about any command\n\nFlags:\n"
    ++ flagLines (Request.helpFlag program :: Request.runFlags program)
    ++ "\nUse \"" ++ program ++ " [command] --help\" for more information about a command.\n"

def describeText (program : String) : String :=
  "Print the analysis of a document's root operator.\n\nUsage:\n  " ++ program ++ " describe [file] [flags]\n\nFlags:\n"
    ++ flagLines [Request.helpFlag "describe"] ++ "\nGlobal Flags:\n" ++ flagLines [Request.configFlag program]

def text (program : String) : Topic → String
  | .optimize => optimizeText program
  | .describe => describeText program

end Planwright.Help
