import BlockStage.Settings.Basic
import BlockStage.Toml.Printer
import BlockStage.Word

/-! # Writing settings -/
namespace BlockStage.Settings

/-- The settings as a document; whole numbers from `2 ^ 63` on cannot be written. -/
def toToml? (s : Settings) : Option String := do
  let whole (n : Nat) : Option (List Char) :=
    if n < Word.signedLimit64 then some (Text.digits n) else none
  return .ofList (Toml.writeTables [
    ("engine", [
      ("max_ops_per_second", ← whole s.engine.maxOpsPerSecond),
      ("max_steps_per_tick", ← whole s.engine.maxStepsPerTick),
      ("max_frame_delta_ms", ← whole s.engine.maxFrameDeltaMs)]),
    ("runner", [
      ("frame_rate", ← whole s.runner.frameRate),
      ("log_capacity", ← whole s.runner.logCapacity),
      ("default_duration_secs", Toml.writeFloat s.runner.defaultDurationSecs)]),
    ("storage", [("project_path", Toml.writeString s.storage.projectPath)])])

end BlockStage.Settings
