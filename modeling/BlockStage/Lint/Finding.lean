import BlockStage.Program.Basic

/-! # Findings

A rule looks at a program and reports findings. Findings never keep a program from running.
-/
namespace BlockStage.Lint

inductive Severity where
  | error
  | warning
  | hint
  deriving Repr, DecidableEq

def Severity.name : Severity → String
  | .error => "error"
  | .warning => "warning"
  | .hint => "hint"

structure Finding where
  blockId : String
  message : String
  severity : Severity
  rule : String
  deriving Repr, DecidableEq

namespace Finding

def isError (f : Finding) : Bool := f.severity == .error

def display (f : Finding) : String :=
  f.severity.name ++ " at block '" ++ f.blockId ++ "': " ++ f.message ++ " [" ++ f.rule ++ "]"

end Finding

structure Rule where
  id : String
  description : String
  check : Program → List Finding

end BlockStage.Lint
