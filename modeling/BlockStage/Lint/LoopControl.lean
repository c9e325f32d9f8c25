import BlockStage.Lint.Finding

/-! # Loop control outside of loops

Reports every `break` and `continue` that no loop of its script surrounds.
-/
namespace BlockStage.Lint.LoopControl

def ruleId : String := "loop-control"

def finding (blockId name : String) : Finding :=
  ⟨blockId, "'" ++ name ++ "' is not inside a loop and will be skipped", .error, ruleId⟩

mutual

def checkCommand (inLoop : Bool) : Command → List Finding
  | .simple id .breakLoop => if inLoop then [] else [finding id "break"]
  | .simple id .continueLoop => if inLoop then [] else [finding id "continue"]
  | .simple _ _ => []
  | .repeatTimes _ _ body => checkList true body
  | .forever _ body => checkList true body
  | .ifThen _ _ body => checkList inLoop body
  | .ifElse _ _ thenBody elseBody => checkList inLoop thenBody ++ checkList inLoop elseBody

def checkList (inLoop : Bool) : List Command → List Finding
  | [] => []
  | c :: cs => checkCommand inLoop c ++ checkList inLoop cs

end

def rule : Rule where
  id := ruleId
  description := "break and continue must be inside a loop"
  check p := p.roots.flatMap fun s => checkList false s.commands

end BlockStage.Lint.LoopControl
