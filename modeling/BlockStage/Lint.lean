import BlockStage.Lint.LoopControl
import BlockStage.Lint.Unreachable
import BlockStage.Lint.UnhandledBroadcast
import BlockStage.Lint.UnsetVariable

/-! # The rules for programs -/
namespace BlockStage.Lint

def rules : List Rule :=
  [LoopControl.rule, Unreachable.rule, UnhandledBroadcast.rule, UnsetVariable.rule]

def check (p : Program) : List Finding := rules.flatMap fun r => r.check p

def hasErrors (p : Program) : Bool := (check p).any Finding.isError

end BlockStage.Lint
