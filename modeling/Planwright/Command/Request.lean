import Planwright.Command.Flag

/-! Requests: what the arguments of a run ask for. -/

namespace Planwright

structure RunSettings where
  config : String
  group : String
  /-- Whether to draw the tree: not at all up to 0, with its analysis from 2 on. -/
  explain : Int
  diff : Bool
  stats : Bool
  verbose : Bool
  noCache : Bool
  deriving DecidableEq, Inhabited

/-- The settings that flags give. Progress, profiles and the number of documents at once change no answer. -/
def RunSettings.ofArguments (a : Arguments) : RunSettings :=
  { config := a.text "config", group := a.text "group", explain := a.number "explain", diff := a.switch "diff",
    stats := a.switch "stats", verbose := a.switch "verbose", noCache := a.switch "no-cache" }

inductive Topic
  | optimize | describe
  deriving DecidableEq, Inhabited

inductive Request
  | optimize (settings : RunSettings) (paths : List String)
  | describe (path : String)
  | help (topic : Topic)
  deriving DecidableEq, Inhabited

inductive RequestError
  | flag (cause : FlagError)
  | noDocument
  | notOneDocument (count : Nat)
  deriving DecidableEq, Inhabited

def RequestError.message : RequestError → String
  | flag cause => cause.message
  | noDocument => "requires at least 1 arg(s), only received 0"
  | notOneDocument count => "accepts 1 arg(s), received " ++ toString count

namespace Request

def configFlag (program : String) : Flag :=
  ⟨"config", none, .text, "Configuration file, ~/." ++ program ++ "/" ++ program ++ ".yml by default."⟩

def helpFlag (command : String) : Flag := ⟨"help", some 'h', .switch, "help for " ++ command⟩

def runFlags (program : String) : List Flag :=
  [configFlag program,
   ⟨"diff", none, .switch, "Print a diff between the original and rewritten tree."⟩,
   ⟨"explain", none, .number, "Render the rewritten tree as a graph. 2 includes node analysis."⟩,
   ⟨"group", none, .text,
    "Rule group to apply: all, project, postjoin or nullability. Defaults to the document's group, or all."⟩,
   ⟨"live", none, .switch, "Show live progress while rewriting."⟩,
   ⟨"no-cache", none, .switch, "Rewrite identical documents again instead of reusing the result."⟩,
   ⟨"parallel", none, .number, "Number of documents rewritten concurrently, GOMAXPROCS by default."⟩,
   ⟨"profile", none, .switch, "Write a CPU profile to the cache directory."⟩,
   ⟨"stats", none, .switch, "Print rule statistics for each document."⟩,
   ⟨"verbose", none, .switch, "Log every rule application."⟩]

def parsed (flags : List Flag) (topic : Topic) (args : List String) (request : Arguments → Except RequestError Request) :
    Except RequestError Request :=
  match Arguments.parse flags args with
  | .error e => throw (.flag e)
  | .ok a => if a.switch "help" then pure (.help topic) else request a

/-- What arguments ask for. The first word may name a command; it is taken out wherever it first stands. -/
def ofArgs (program : String) (args : List String) : Except RequestError Request :=
  let flags := runFlags program
  let smaller (command : String) : List Flag := [configFlag program, helpFlag command]
  match Arguments.commandWords flags args with
  | "describe" :: _ =>
    parsed (smaller "describe") .describe (args.erase "describe") fun a =>
      match a.words with
      | [path] => pure (.describe path)
      | words => throw (.notOneDocument words.length)
  | "help" :: _ =>
    parsed (smaller "help") .optimize (args.erase "help") fun a =>
      pure (.help (if (Arguments.commandWords flags a.words).head? == some "describe" then .describe else .optimize))
  | _ =>
    parsed (helpFlag program :: flags) .optimize args fun a =>
      if a.words.isEmpty then throw .noDocument else pure (.optimize (RunSettings.ofArguments a) a.words)

def paths : Request → List String
  | optimize s paths => s.config :: paths
  | describe path => [path]
  | help _ => []

end Request

end Planwright
