import BlockStage.Timestamp

/-! # The host

What the program asks of the machine that it runs on: files, the environment and clocks.
-/
namespace BlockStage

inductive FileFault where
  | missing
  | exists
  | notDirectory
  | isDirectory
  | nameTooLong
  | badName
  | badText
  | other (text : String)
  deriving Repr, DecidableEq

def FileFault.message : FileFault → String
  | .missing => "No such file or directory (os error 2)"
  | .exists => "File exists (os error 17)"
  | .notDirectory => "Not a directory (os error 20)"
  | .isDirectory => "Is a directory (os error 21)"
  | .nameTooLong => "File name too long (os error 36)"
  | .badName => "file name contained an unexpected NUL byte"
  | .badText => "stream did not contain valid UTF-8"
  | .other text => text

inductive PathKind where
  | file
  | directory
  deriving Repr, DecidableEq

/-- The environment: variables with their values, in the order in which they were set. -/
structure Environment where
  entries : List (String × String) := []
  deriving Repr, DecidableEq

namespace Environment

def find? (env : Environment) (name : String) : Option String := env.entries.lookup name

/-- Sets a variable; one that is set already keeps its value. -/
def add (env : Environment) (name value : String) : Environment :=
  match env.find? name with
  | some _ => env
  | none => ⟨env.entries ++ [(name, value)]⟩

end Environment

class Host (m : Type → Type) where
  kind? : String → m (Option PathKind)
  readText : String → m (Except FileFault String)
  writeText : String → String → m (Except FileFault Unit)
  makeDirs : String → m (Except FileFault Unit)
  /-- The number of directories above the working directory. -/
  levelsUp : m Nat
  environment : m Environment
  date : m Timestamp
  /-- The time in nanoseconds on a clock that is never set back. -/
  clock : m Nat
  sleepUntil : Nat → m Unit

end BlockStage
