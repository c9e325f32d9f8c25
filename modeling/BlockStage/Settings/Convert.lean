import BlockStage.Settings.Basic
import BlockStage.Settings.Layer
import BlockStage.Word

/-! # Settings of a layer

The values of a layer are converted to the types of the settings; `none` if that cannot be done.
-/
namespace BlockStage.Layer

open BlockStage.Toml (Value)

def truth? (s : String) : Option Bool :=
  let word := Text.lowerCase s
  if word = "true" || word = "on" || word = "yes" then some true
  else if word = "false" || word = "off" || word = "no" then some false
  else none

def unsigned? (cs : List Char) : Option Nat :=
  let ds := match cs with
    | '+' :: r => r
    | r => r
  if ds.isEmpty || !ds.all Text.isDigit then none else some (Text.number ds)

/-- The nearest whole number between zero and `2 ^ 64 - 1`, a half going up. -/
def roundToNat (x : Float) : Nat :=
  match Decimal.shape x with
  | .notANumber => 0
  | .infinite negative => if negative then 0 else Word.limit64 - 1
  | .finite true _ => 0
  | .finite false b =>
    let (a, a') := Decimal.power 2 b.exponent
    min ((2 * b.significand * a + a') / (2 * a')) (Word.limit64 - 1)

def natBelow? (bound : Nat) (v : Value) : Option Nat := do
  let n ← match v with
    | .integer n => if 0 ≤ n then some n.toNat else none
    | .float x => some (roundToNat x)
    | .boolean b => some b.toNat
    | .string s | .datetime s =>
      match truth? s with
      | some b => some b.toNat
      | none => unsigned? s.toList
    | .array _ | .table _ => none
  if n < bound then some n else none

def float? : Value → Option Float
  | .integer n => some (Json.Number.int n).toFloat
  | .float x => some x
  | .boolean b => some (if b then 1 else 0)
  | .string s | .datetime s =>
    match truth? s with
    | some b => some (if b then 1 else 0)
    | none => Decimal.read? s.toList
  | .array _ | .table _ => none

def text? : Value → Option String
  | .string s | .datetime s => some s
  | .integer n => some (.ofList (Text.signedDigits n))
  | .float x => some (Decimal.display x)
  | .boolean b => some (if b then "true" else "false")
  | .array _ | .table _ => none

def fields? (names : List String) : Value → Option Tree
  | .table ms => some ms
  | .array vs => some (names.zip vs)
  | _ => none

/-- A field, or its default if it is missing. -/
def field? {α : Type} (tree : Tree) (name : String) (default : α) (convert : Value → Option α) :
    Option α :=
  match tree.lookup name with
  | none => some default
  | some v => convert v

def limits? (v : Value) : Option Limits := do
  let t ← fields? ["max_ops_per_second", "max_steps_per_tick", "max_frame_delta_ms"] v
  let d : Limits := {}
  return {
    maxOpsPerSecond := ← field? t "max_ops_per_second" d.maxOpsPerSecond (natBelow? Word.limit64)
    maxStepsPerTick := ← field? t "max_steps_per_tick" d.maxStepsPerTick (natBelow? Word.limit64)
    maxFrameDeltaMs := ← field? t "max_frame_delta_ms" d.maxFrameDeltaMs (natBelow? Word.limit64) }

def runner? (v : Value) : Option RunnerSettings := do
  let t ← fields? ["frame_rate", "log_capacity", "default_duration_secs"] v
  let d : RunnerSettings := {}
  return {
    frameRate := ← field? t "frame_rate" d.frameRate (natBelow? Word.limit32)
    logCapacity := ← field? t "log_capacity" d.logCapacity (natBelow? Word.limit64)
    defaultDurationSecs := ← field? t "default_duration_secs" d.defaultDurationSecs float? }

def storage? (v : Value) : Option StorageSettings := do
  let t ← fields? ["project_path"] v
  let d : StorageSettings := {}
  return { projectPath := ← field? t "project_path" d.projectPath text? }

def settings? (t : Tree) : Option Settings := do
  return {
    engine := ← field? t "engine" {} limits?
    runner := ← field? t "runner" {} runner?
    storage := ← field? t "storage" {} storage? }

end BlockStage.Layer
