import BlockStage.Host.Path
import BlockStage.Settings.Convert
import BlockStage.Settings.EnvFile
import BlockStage.Settings.Variables
import BlockStage.Toml.Reader

/-! # Where settings come from

The layers, from the lowest to the highest: defaults, a file, variables of the environment, and
what a caller asks for. An environment file counts as part of the environment.
-/
namespace BlockStage

structure SettingsRequest where
  configPath : Option String := none
  skipEnvironment : Bool := false
  maxOpsPerSecond : Option Nat := none
  maxStepsPerTick : Option Nat := none
  frameRate : Option Nat := none
  projectPath : Option String := none

namespace Settings

variable {m : Type → Type} [Monad m] [Host m]

def defaultFile : String := "stagehand.toml"

def pathVariable : String := "STAGEHAND_CONFIG_PATH"

def firstFile : List String → m (Option String)
  | [] => pure none
  | path :: rest => do
    if (← Host.kind? path) = some .file then return some path else firstFile rest

/-- The environment together with the nearest environment file, which is in the working directory or
one above it. -/
def environment : m Environment := do
  let env ← Host.environment
  let levels ← (Host.levelsUp : m Nat)
  let candidates := (List.range (levels + 1)).map fun n =>
    String.join (List.replicate n "../") ++ ".env"
  match ← firstFile candidates with
  | none => return env
  | some path =>
    match ← Host.readText path with
    | .ok text => return EnvFile.load env text
    | .error _ => return env

def layerOf (text : String) : Except SettingsError Layer.Tree :=
  match Toml.read? text with
  | none => .error .load
  | some t => .ok t

def readLayer (path : String) : m (Except SettingsError Layer.Tree) := do
  match ← Host.readText path with
  | .error _ => return .error .load
  | .ok text => return layerOf text

/-- The layer in a file that was asked for. Its extension has to be known; in place of a directory
the file beside it is read. -/
def requestedLayer (path : String) : m (Except SettingsError Layer.Tree) := do
  match ← Host.kind? path with
  | none => return .error (.missingFile path)
  | some .file =>
    if Path.extension? path = some "toml" then readLayer path else return .error .load
  | some .directory =>
    match ← firstFile (Path.extend? path ".toml").toList with
    | some path => readLayer path
    | none => return .error .load

def defaultLayer : m (Except SettingsError Layer.Tree) := do
  match ← firstFile [defaultFile, defaultFile ++ ".toml"] with
  | none => return .ok []
  | some path =>
    match ← Host.readText path with
    | .error _ => return .ok []
    | .ok text => return layerOf text

def override (s : Settings) (r : SettingsRequest) : Settings where
  engine :=
    { s.engine with
      maxOpsPerSecond := r.maxOpsPerSecond.getD s.engine.maxOpsPerSecond
      maxStepsPerTick := r.maxStepsPerTick.getD s.engine.maxStepsPerTick }
  runner := { s.runner with frameRate := r.frameRate.getD s.runner.frameRate }
  storage := { projectPath := r.projectPath.getD s.storage.projectPath }

def load (r : SettingsRequest) : m (Except SettingsError Settings) := do
  let env ← if r.skipEnvironment then pure {} else environment
  let file ← match r.configPath <|> env.find? pathVariable with
    | some path => requestedLayer path
    | none => defaultLayer
  match file with
  | .error e => return .error e
  | .ok layer =>
    let tree := Layer.overlay (Layer.overlay [] layer) (Layer.ofEnvironment env)
    match Layer.settings? tree with
    | none => return .error .load
    | some s => return (s.override r).validate

end Settings

end BlockStage
