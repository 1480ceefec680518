import Planwright.Command.Help
import Planwright.Command.Setup
import Planwright.Config.Basic
import Planwright.Document.Decode
import Planwright.Engine.Pass
import Planwright.Plan.Explain
import Planwright.Report.Batch
import Planwright.Report.Diff

/-! Runs: what is printed for a request, given the files. -/

namespace Planwright

structure Output where
  stdout : String
  failure : Option String
  deriving DecidableEq, Inhabited

inductive RunError
  | unknownGroup (name : String)
  | configUnread (cause : FileError)
  | configUnreadable
  | badOptions (cause : SettingError)
  | badCacheSize (cause : SettingError)
  | emptyCache
  | manyExplained (count : Nat)
  | unread (cause : FileError)
  | noFingerprint (cause : DocumentError)
  | refused (cause : DocumentError)
  | fault (cause : Fault)
  deriving Inhabited

namespace RunError

def message : RunError → String
  | unknownGroup name => RuleGroup.unknownMessage name
  | configUnread cause => "couldn't read config: couldn't open file: " ++ cause.message
  | configUnreadable => "couldn't read config: " ++ Config.unreadableMessage
  | badOptions cause => "couldn't read optimizer options: " ++ cause.message
  | badCacheSize cause => "couldn't read cache options: " ++ cause.message
  | emptyCache => "couldn't create rewrite cache: NumCounters can't be zero"
  | manyExplained count => "--explain works with a single document, got " ++ toString count
  | unread cause => "couldn't read file: " ++ cause.message
  | noFingerprint cause => "couldn't fingerprint document: " ++ cause.message
  | refused cause => "couldn't decode document: " ++ cause.message
  | fault cause => cause.message

def ofDocument (wrap : DocumentError → RunError) : DocumentError → RunError
  | .fault f => fault f
  | e => wrap e

end RunError

namespace Request

def groupFor (asked own : String) : Except RunError RuleGroup :=
  let name := if asked == "" then own else asked
  if name == "" then pure .all
  else
    match RuleGroup.ofName? name with
    | some g => pure g
    | none => throw (.unknownGroup name)

structure Optimized where
  plan : Plan
  before : String
  after : String
  stats : Stats

/-- Optimizes a plan under a rule group; the group of all rules goes on with the nullability rules. -/
def optimizePlan (options : Options) (group : RuleGroup) : PlanM (String × String × Stats) := do
  let before ← Plan.dump (← get).root
  let outcome ←
    if group = .all then Engine.optimize Engine.defaultFuel options
    else Engine.pass Engine.defaultFuel options group
  let after ← Plan.dump (← get).root
  return (before, after, outcome.stats)

def optimizeDocument (s : RunSettings) (options : Options) (text : String) : Except RunError Optimized := do
  let d ← (Document.decode text).mapError (RunError.ofDocument .refused)
  let group ← groupFor s.group d.group
  let ((before, after, stats), plan) ← ((optimizePlan options group).run d.plan).mapError RunError.fault
  return { plan, before, after, stats }

/-- What is remembered of a document. -/
structure Rewritten where
  dump : String
  diff : String
  stats : Stats

/-- Documents that were optimized in this run, by their keys. -/
abbrev Cache := List (String × Rewritten)

def cacheKey (s : RunSettings) (text : String) : Except RunError String := do
  let print ← (Document.fingerprint text).mapError (RunError.ofDocument .noFingerprint)
  return Text.hex 16 print.toNat ++ "/" ++ s.group ++ "/" ++ toString s.diff

def rewrite (s : RunSettings) (options : Options) (text : String) (invocation : Nat) : Except RunError Rewritten := do
  let d ← optimizeDocument s options text
  let diff := if s.diff then Diff.unified 2 "Original Tree" "Rewritten Tree" d.before d.after else ""
  return ⟨d.after, diff, { d.stats with invocation }⟩

/-- What comes of a document, whether it was remembered, and what is remembered from now on. -/
def processText (s : RunSettings) (options : Options) (text : String) (invocation : Nat) (cache : Cache) :
    Except RunError (Rewritten × Bool × Cache) := do
  if s.noCache then return (← rewrite s options text invocation, false, cache)
  let key ← cacheKey s text
  match cache.lookup key with
  | some r => return (r, true, cache)
  | none =>
    let r ← rewrite s options text invocation
    return (r, false, (key, r) :: cache)

/-- The result for the document at a path. Only a fault ends the run. -/
def resultFor (s : RunSettings) (options : Options) (read : ReadFile) (cache : Cache) (index : Nat) (path : String) :
    Except Fault (Result × Cache) :=
  let result : Result :=
    { index, name := path, dump := "", diff := "", stats := none, cached := false, failure := none }
  match (read path).mapError RunError.unread >>= fun text => processText s options text index cache with
  | .ok (r, cached, cache) => pure ({ result with dump := r.dump, diff := r.diff, stats := some r.stats, cached }, cache)
  | .error (.fault f) => throw f
  | .error e => pure ({ result with failure := some e.message }, cache)

def configAt (read : ReadFile) (path : String) (needed : Bool) : Except RunError Config :=
  match read path with
  | .ok text =>
    match Config.ofText? text with
    | some c => pure c
    | none => throw .configUnreadable
  | .error (.missing path) => if needed then throw (.configUnread (.missing path)) else pure .empty
  | .error (.folder _) => throw .configUnreadable
  | .error e => throw (.configUnread e)

def configFor (s : RunSettings) (setup : Setup) : Except RunError Config :=
  if s.config != "" then configAt setup.read s.config true
  else
    match setup.defaultConfig? with
    | some path => configAt setup.read path false
    | none => pure .empty

def optionsFor (s : RunSettings) (setup : Setup) : Except RunError Options := do
  if s.group != "" && (RuleGroup.ofName? s.group).isNone then throw (.unknownGroup s.group)
  let config ← configFor s setup
  let options ← config.options.mapError RunError.badOptions
  if !s.noCache then
    if (← config.cacheSize.mapError RunError.badCacheSize) = 0 then throw .emptyCache
  return { options with verbose := options.verbose || s.verbose }

def explained (s : RunSettings) (options : Options) (read : ReadFile) (path : String) : Except RunError String := do
  let d ← optimizeDocument s options (← (read path).mapError RunError.unread)
  let (record, _) ← ((Plan.explain d.plan.root (s.explain ≥ 2)).run d.plan).mapError RunError.fault
  return record.draw.text

def batch (s : RunSettings) (options : Options) (read : ReadFile) (paths : List String) : Except Fault Batch :=
  return (← paths.zipIdx.foldlM step (Batch.start paths.length s.stats, [])).1
where
  step (state : Batch × Cache) (document : String × Nat) : Except Fault (Batch × Cache) := do
    let (result, cache) ← resultFor s options read state.2 document.2 document.1
    return (state.1.report result, cache)

def description : PlanM Grid := do
  let p ← get
  let i ← Plan.relationInfo p.root
  let kind ← Plan.kind p.root
  return {
    header := ["property", "value"]
    rows :=
      [["op", kind.name], ["definitions", p.vars.setText i.definitions], ["non_nullable", p.vars.setText i.nonNullable],
       ["external", p.vars.setText i.external], ["keys", (i.keys.map p.vars.setText).getD "unknown"],
       ["rows", i.rowsText], ["hash", Text.hex 16 i.hash.toNat]]
    wrapAt := none }

def described (read : ReadFile) (path : String) : Except RunError String := do
  let d ← (Document.decode (← (read path).mapError RunError.unread)).mapError (RunError.ofDocument .refused)
  let (grid, _) ← (description.run d.plan).mapError RunError.fault
  return grid.render

def output : Except RunError String → Except Fault Output
  | .ok s => pure ⟨s, none⟩
  | .error (.fault f) => throw f
  | .error e => pure ⟨"", some e.message⟩

def run (setup : Setup) : Request → Except Fault Output
  | .help topic => pure ⟨Help.text setup.program topic, none⟩
  | .describe path => output (described setup.read path)
  | .optimize s paths =>
    match optionsFor s setup with
    | .error e => output (throw e)
    | .ok options =>
      if s.explain > 0 then
        match paths with
        | [path] => output (explained s options setup.read path)
        | paths => output (throw (.manyExplained paths.length))
      else do
        let b ← batch s options setup.read paths
        return ⟨b.text setup.invocation, b.failure?⟩

end Request

def Setup.runArgs (setup : Setup) (args : List String) : Except Fault Output :=
  match Request.ofArgs setup.program args with
  | .ok r => r.run setup
  | .error e => pure ⟨"", some e.message⟩

end Planwright
