import BlockStage.CommandLine.Run
import Std.Time.DateTime

/-! # The program

The machine as a host, and the entry point.
-/
namespace BlockStage

def FileFault.ofError : IO.Error → FileFault
  | .noFileOrDirectory _ _ _ => .missing
  | .alreadyExists _ _ _ => .exists
  | .inappropriateType _ code details =>
    if code = 20 then .notDirectory
    else if code = 21 then .isDirectory
    else .other (details ++ " (os error " ++ toString code ++ ")")
  | .permissionDenied _ code details | .resourceExhausted _ code details
  | .invalidArgument _ code details | .noSuchThing _ code details =>
    .other (details ++ " (os error " ++ toString code ++ ")")
  | .userError text => .other text
  | e => .other (toString e)

def attempt {α : Type} (act : IO α) : IO (Except FileFault α) := do
  try return .ok (← act) catch e => return .error (.ofError e)

def kindOf (path : String) : IO (Option PathKind) := do
  match ← attempt (IO.FS.Handle.mk path .read) with
  | .error _ => return none
  | .ok h =>
    match ← attempt (h.read 1) with
    | .ok _ => return some .file
    | .error _ => return some .directory

def readTextOf (path : String) : IO (Except FileFault String) := do
  match ← attempt (IO.FS.readBinFile path) with
  | .error e => return .error e
  | .ok bytes =>
    match String.fromUTF8? bytes with
    | some text => return .ok text
    | none => return .error .badText

def processEnvironment : IO Environment := do
  match ← readTextOf "/proc/self/environ" with
  | .error _ => return {}
  | .ok text =>
    return ⟨(text.splitOn "\x00").filterMap fun entry =>
      match entry.toList.span (· != '=') with
      | (name, _ :: value) => some (.ofList name, .ofList value)
      | _ => none⟩

def sleepTo (t : Nat) : IO Unit := do
  let now ← IO.monoNanosNow
  if now < t then IO.sleep (UInt32.ofNat ((t - now + 999999) / 1000000))

instance : Host IO where
  kind? := kindOf
  readText := readTextOf
  writeText path text := attempt (IO.FS.writeFile path text)
  makeDirs path := attempt (IO.FS.createDirAll path)
  levelsUp := do return ((Path.names (← IO.currentDir).toString).filter (· != "")).length
  environment := processEnvironment
  date := do
    let nanos := (← Std.Time.Timestamp.now).toNanosecondsSinceUnixEpoch.val.toNat
    return .ofUnix (nanos / Time.nanosPerSecond) (nanos % Time.nanosPerSecond)
  clock := IO.monoNanosNow
  sleepUntil := sleepTo

end BlockStage

def main (args : List String) : IO UInt32 := do
  let outcome ← BlockStage.CommandLine.execute args
  IO.print outcome.stdout
  IO.eprint outcome.stderr
  return UInt32.ofNat outcome.code
