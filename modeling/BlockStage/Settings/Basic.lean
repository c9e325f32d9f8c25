import BlockStage.Engine.Basic
import BlockStage.Json.Decoder
import BlockStage.Word

/-! # Settings

The bounds of the engine, how a session is run, and where projects are kept. Read from JSON, every
setting may be left out.
-/
namespace BlockStage

open BlockStage.Json (Value Fault Decoder)

structure RunnerSettings where
  frameRate : Nat := 60
  logCapacity : Nat := 200
  defaultDurationSecs : Float := 10

/-- The time between two frames; a rate of zero counts as one. -/
def RunnerSettings.frameInterval (r : RunnerSettings) : Nat :=
  (Time.ofSeconds? (1 / Decimal.ofDecimal (max r.frameRate 1) 0)).getD 0

structure StorageSettings where
  projectPath : String := ".stagehand/project.json"

structure Settings where
  engine : Limits := {}
  runner : RunnerSettings := {}
  storage : StorageSettings := {}

inductive SettingsError where
  | load
  | missingFile (path : String)
  | invalid (reason : String)
  deriving Repr, DecidableEq

namespace Limits

def decoder : Decoder Limits :=
  Decoder.record ["max_ops_per_second", "max_steps_per_tick", "max_frame_delta_ms"]
    (fun key levels doc (draft : Limits) => do
      let n ← Decoder.natBelow Word.limit64 levels doc
      match key with
      | "max_ops_per_second" => return { draft with maxOpsPerSecond := n }
      | "max_steps_per_tick" => return { draft with maxStepsPerTick := n }
      | _ => return { draft with maxFrameDeltaMs := n })
    {}

def ofJson (v : Value) : Except Fault Limits := decoder.value v

def toJson (l : Limits) : Value :=
  .object [("max_ops_per_second", .ofNat l.maxOpsPerSecond),
    ("max_steps_per_tick", .ofNat l.maxStepsPerTick),
    ("max_frame_delta_ms", .ofNat l.maxFrameDeltaMs)]

end Limits

namespace RunnerSettings

def decoder : Decoder RunnerSettings :=
  Decoder.record ["frame_rate", "log_capacity", "default_duration_secs"]
    (fun key levels doc (draft : RunnerSettings) => do
      match key with
      | "frame_rate" =>
        return { draft with frameRate := ← Decoder.natBelow Word.limit32 levels doc }
      | "log_capacity" =>
        return { draft with logCapacity := ← Decoder.natBelow Word.limit64 levels doc }
      | _ => return { draft with defaultDurationSecs := ← Decoder.float levels doc })
    {}

def ofJson (v : Value) : Except Fault RunnerSettings := decoder.value v

end RunnerSettings

namespace StorageSettings

def decoder : Decoder StorageSettings :=
  Decoder.record ["project_path"]
    (fun _ levels doc _ => do return { projectPath := ← Decoder.string levels doc })
    {}

end StorageSettings

namespace Settings

def decoder : Decoder Settings :=
  Decoder.record ["engine", "runner", "storage"]
    (fun key levels doc (draft : Settings) => do
      match key with
      | "engine" => return { draft with engine := ← Limits.decoder levels doc }
      | "runner" => return { draft with runner := ← RunnerSettings.decoder levels doc }
      | _ => return { draft with storage := ← StorageSettings.decoder levels doc })
    {}

def ofJson (v : Value) : Except Fault Settings := decoder.value v

def validate (s : Settings) : Except SettingsError Settings :=
  if s.engine.maxStepsPerTick = 0 then
    .error (.invalid "engine.max_steps_per_tick must be at least 1")
  else if s.runner.frameRate = 0 then
    .error (.invalid "runner.frame_rate must be at least 1")
  else .ok s

end Settings

namespace SettingsError

def message : SettingsError → String
  | .load => "failed to load configuration:"
  | .missingFile path => "config file not found: " ++ path
  | .invalid reason => "invalid configuration: " ++ reason

end SettingsError

end BlockStage
