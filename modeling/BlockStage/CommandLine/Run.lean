import BlockStage.CommandLine.Arguments
import BlockStage.Lint
import BlockStage.Program.Json
import BlockStage.Session.Drive
import BlockStage.Settings.Load
import BlockStage.Settings.Printer

/-! # Commands

What the commands do and print. A command ends with an exit code and the texts for the two output
streams.
-/
namespace BlockStage.CommandLine

open BlockStage.Json (Value Decoder)

structure Outcome where
  code : Nat := 0
  stdout : String := ""
  stderr : String := ""
  deriving Repr, DecidableEq

def failureCode : Nat := 1

def usageCode : Nat := 2

def abortCode : Nat := 101

namespace Outcome

def failure (reason : String) : Outcome :=
  { code := failureCode, stderr := "Error: " ++ reason ++ "\n" }

def abort (reason : String) : Outcome := { code := abortCode, stderr := reason ++ "\n" }

def print (text : String) : Outcome := { stdout := text }

end Outcome

def line (s : String) : String := s ++ "\n"

def usage : String :=
  line "Usage: stagehand [--config FILE] [--project FILE] COMMAND" ++
  line "" ++
  line "  run WORKSPACE [-d SECONDS] [--realtime] [--fps N] [--max-ops N]" ++
  line "  compile WORKSPACE [--pretty]" ++
  line "  check WORKSPACE" ++
  line "  save WORKSPACE" ++
  line "  load" ++
  line "  config"

/-! ## Reports -/

def places (x : Float) : String := .ofList (Decimal.writeFixed 2 x)

def runReport (s : Session) (summary : RunSummary) : String :=
  let ending := if summary.finished then "stopped" else "time limit"
  let a := s.sprite
  String.join (s.log.lines.map line) ++
    line "" ++
    line (ending ++ " after " ++ toString summary.frames ++ " frame(s), " ++
      places (Time.seconds summary.elapsed) ++ "s") ++
    line ("sprite: x=" ++ places a.x ++ " y=" ++ places a.y ++ " rotation=" ++
      places a.rotation ++ " scale=" ++ places a.scale) ++
    String.join (s.engine.store.entries.map fun e =>
      line ("  " ++ e.1 ++ " = " ++ Decimal.display e.2))

def checkReport (p : Program) : Outcome :=
  match Lint.check p with
  | [] => .print (line "✓ No problems found")
  | findings =>
    { code := if Lint.hasErrors p then failureCode else 0
      stdout := String.join (findings.map fun f => line f.display) }

/-- The reason at the bottom of an error is told once more after it. -/
def projectReason : ProjectError → String
  | .io path fault => ProjectError.message (.io path fault) ++ ": " ++ fault.message
  | e => e.message

/-! ## Commands -/

variable {m : Type → Type} [Monad m] [Host m]

def readWorkspace (path : String) : m (Except Outcome Value) := do
  match ← Host.readText path with
  | .error fault =>
    return .error (.failure ("failed to read workspace " ++ path ++ ": " ++ fault.message))
  | .ok text =>
    match Decoder.any.text text with
    | .ok v => return .ok v
    | .error _ => return .error (.failure ("workspace " ++ path ++ " is not valid JSON:"))

def readProgram (path : String) : m (Except Outcome Program) := do
  match ← readWorkspace path with
  | .error o => return .error o
  | .ok v =>
    match Workspace.Graph.ofJson v with
    | .ok g => return .ok g.compile
    | .error e => return .error (.failure e.message)

/-- The time limit of a run; a negative one, or none that is a number, is zero. -/
def timeLimit? (seconds : Float) : Option Nat :=
  Time.ofSeconds? (if 0 < seconds then seconds else 0)

def run (settings : Settings) (path : String) (duration : Option Float) (realtime : Bool) :
    m Outcome := do
  match ← readWorkspace path with
  | .error o => return o
  | .ok v =>
    match timeLimit? (duration.getD settings.runner.defaultDurationSecs) with
    | none => return .abort "the time limit is too long"
    | some limit =>
      let frame := settings.runner.frameInterval
      let session := Session.new settings
      if realtime then
        let created ← (Host.clock : m Nat)
        let now : m Nat := do return (← (Host.clock : m Nat)) - created
        match session.runWorkspace (← now) v with
        | .error e => return .failure e.message
        | .ok session =>
          match ← session.driveRealtime now frame limit with
          | none => return .abort "the frame rate is too high"
          | some (session, summary) => return .print (runReport session summary)
      else
        match session.runWorkspace 0 v with
        | .error e => return .failure e.message
        | .ok session =>
          let (session, summary) := session.driveSimulated 0 frame limit
          return .print (runReport session summary)

def save (settings : Settings) (path : String) : m Outcome := do
  match ← readWorkspace path with
  | .error o => return o
  | .ok v =>
    let store := FileStore.mk settings.storage.projectPath
    match ← (store.save v : m _) with
    | .ok () => return .print (line ("✓ Saved project to " ++ store.path))
    | .error e =>
      return .failure ("failed to save project to " ++ store.path ++ ": " ++ projectReason e)

def load (settings : Settings) : m Outcome := do
  let store := FileStore.mk settings.storage.projectPath
  match ← (store.load : m _) with
  | .ok (some v) => return .print (line (v.render .pretty))
  | .ok none =>
    return { code := failureCode, stderr := line ("No saved project at " ++ store.path) }
  | .error e => return .failure (projectReason e)

def showConfig (settings : Settings) : Outcome :=
  match settings.toToml? with
  | some text => .print text
  | none => .failure "failed to render configuration: out-of-range value for u64 type"

def perform (settings : Settings) : Command → m Outcome
  | .run workspace duration realtime _ _ => run settings workspace duration realtime
  | .compile workspace pretty => do
    match ← readProgram workspace with
    | .error o => return o
    | .ok p => return .print (line (p.toJson.render (if pretty then .pretty else .compact)))
  | .check workspace => do
    match ← readProgram workspace with
    | .error o => return o
    | .ok p => return checkReport p
  | .save workspace => save settings workspace
  | .load => load settings
  | .config => pure (showConfig settings)

def Invocation.request (i : Invocation) : SettingsRequest :=
  let request : SettingsRequest := { configPath := i.config, projectPath := i.project }
  match i.command with
  | .run _ _ _ fps maxOps => { request with frameRate := fps, maxOpsPerSecond := maxOps }
  | _ => request

def execute (args : List String) : m Outcome := do
  match Invocation.ofArguments args with
  | .error .help => return .print usage
  | .error .usage => return { code := usageCode, stderr := usage }
  | .ok i =>
    match ← (Settings.load i.request : m _) with
    | .error e => return .failure ("failed to load configuration: " ++ e.message)
    | .ok settings => perform settings i.command

end BlockStage.CommandLine
