import CondRegions.Command.Arguments
import CondRegions.Emit
import CondRegions.LineDiff
import CondRegions.Report

/-!
# Running commands

What a command prints, reports and leaves behind. A command first builds its configuration, then
reads its file, and only then prints or writes.

* `Command.perform` — a command on a host;
* `runArguments` — a whole command line on a host, with its exit status.
-/

namespace CondRegions

/-- What a command comes to. -/
structure CommandResult where
  stdout : String := ""
  /-- What was reported on the way, in order. -/
  reported : List Diagnostic := []
  summary : Option Summary := none
  /-- Why the command failed. -/
  failure : Option Diagnostic := none

namespace Command

variable {m : Type → Type} [Monad m]

/-! ### Steps -/

/-- An action of a host, its failure told about a path. -/
def onPath {α : Type} (path : String) (action : m (Except FileError α)) : ExceptT Diagnostic m α :=
  ExceptT.mk do
    match ← action with
    | .ok a => return .ok a
    | .error e => return .error (.ofFileError path e)

/-- The transformer of settings. -/
def transformer (host : Host m) (s : Settings) : ExceptT Diagnostic m Transformer := do
  let config ← ExceptT.mk (Config.build host s)
  ExceptT.mk (pure (Transformer.ofConfig config))

/-! ### Actions -/

/-- Transforms one file. -/
def transformFile (host : Host m) (s : Settings) (file : String) (inPlace : Bool) :
    ExceptT Diagnostic m CommandResult := do
  let t ← transformer host s
  let source ← onPath file (host.readText file)
  let (code, reported) := t.transformDocument source file
  if inPlace then
    match ← host.write file code.toUTF8 with
    | .ok _ => return { reported }
    | .error e => return { reported, failure := some (.ofFileError file e) }
  else return { stdout := code, reported }

/-- What emitting comes to: a summary, unless it failed. -/
def emitResult (outcomes : List FileOutcome) : CommandResult :=
  let failure := outcomes.findSome? FileOutcome.error?
  { reported := outcomes.flatMap FileOutcome.reported
    summary := if failure.isSome then none else some (.ofOutcomes outcomes)
    failure }

/-- The diagnostic of a directory that is to be emitted into itself. -/
def sameDirectory (target : String) : Diagnostic :=
  .unplaced "file-system" (.invalidPath
    (target ++ " (output directory must differ from the source directory)"))

/-- Emits a directory; the target is made if it is missing. Which files are selected is settled
before the first one is written. -/
def processDirectory (host : Host m) (s : Settings) (source target : String) :
    ExceptT Diagnostic m CommandResult := do
  let src ← onPath source (host.place source)
  onPath target (host.createDirs target)
  let out ← onPath target (host.place target)
  if src = out then throw (sameDirectory target)
  let t ← transformer host { s with root := Place.text src }
  let selected ← ExceptT.mk (t.discover host (Place.text src) (some (Place.text out)))
  let outcomes ← ExceptT.lift (emitTree host t selected src out)
  return emitResult outcomes

/-- Lists the regions of a file. -/
def listRegions (host : Host m) (s : Settings) (file : String) (asJson : Bool) :
    ExceptT Diagnostic m CommandResult := do
  let config ← ExceptT.mk (Config.build host s)
  let source ← onPath file (host.readText file)
  let reports := inspect source file config.definitions
  return {
    stdout := if asJson then (reportsToJson reports).pretty ++ "\n" else reportsListing reports
    reported := reports.flatMap FamilyReport.diagnostics }

/-- Evaluates a condition. A malformed one is an error of the command. -/
def evaluate (host : Host m) (s : Settings) (condition : String) (kind : Kind) :
    ExceptT Diagnostic m CommandResult := do
  let config ← ExceptT.mk (Config.build host s)
  match Condition.value condition config.definitions,
    Condition.holds kind condition config.definitions with
  | .ok value, .ok result => return { stdout := evaluationText value result }
  | .error e, _ | _, .error e => throw (.ofSyntaxError "condition" condition e)

/-- Shows what transforming would change; nothing, if the file is not selected. -/
def showDiff (host : Host m) (s : Settings) (file : String) :
    ExceptT Diagnostic m CommandResult := do
  let t ← transformer host s
  let source ← onPath file (host.readText file)
  match t.transform? source file with
  | some out => return { stdout := LineDiff.text source out.code, reported := out.diagnostics }
  | none => return {}

/-- An action on a host. -/
def act (host : Host m) (s : Settings) : Action → ExceptT Diagnostic m CommandResult
  | .transform file inPlace => transformFile host s file inPlace
  | .process source target => processDirectory host s source target
  | .regions file asJson => listRegions host s file asJson
  | .eval condition kind => evaluate host s condition kind
  | .diff file => showDiff host s file

/-- **Performing.** A command on a host, in an environment. -/
def perform (host : Host m) (env : List (String × String)) (c : Command) : m CommandResult := do
  match ← (act host { c.settings with processEnv := env } c.action).run with
  | .ok result => return result
  | .error d => return { failure := some d }

/-- The exit status: one after a failure, and after any report if the command is strict. -/
def exitStatus (c : Command) (r : CommandResult) : Nat :=
  if r.failure.isSome || (c.strict && !r.reported.isEmpty) then 1 else 0

end Command

/-! ### Command lines -/

/-- What a command line comes to. -/
structure Outcome where
  status : Nat
  stdout : String
  /-- All diagnostics, the failure last. -/
  diagnostics : List Diagnostic
  summary : List String

/-- What is printed when the version is asked for. -/
def versionText : String := "region-ifdef 0.1.0\n"

/-- What is printed when help is asked for, or needed. -/
def usageText : String :=
  "usage: region-ifdef [OPTIONS] " ++
    "<transform FILE | process SRC OUT | regions FILE | eval CONDITION | diff FILE>\n"

/-- The end of a command line that gives no command. -/
def Stop.outcome : Stop → Outcome
  | .usage => ⟨2, "", [], []⟩
  | .help => ⟨0, usageText, [], []⟩
  | .version => ⟨0, versionText, [], []⟩

/-- What a command comes to, as the end of a command line. -/
def CommandResult.outcome (c : Command) (r : CommandResult) : Outcome where
  status := c.exitStatus r
  stdout := r.stdout
  diagnostics := r.reported ++ r.failure.toList
  summary := (r.summary.map Summary.lines).getD []

/-- **Command lines.** The arguments are read, and the command that they give is performed. -/
def runArguments {m : Type → Type} [Monad m] (host : Host m) (env : List (String × String))
    (args : List String) : m Outcome := do
  match Command.ofArguments args with
  | .error stop => return stop.outcome
  | .ok c => return (← c.perform host env).outcome c

end CondRegions
