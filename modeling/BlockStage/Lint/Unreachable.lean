import BlockStage.Lint.Finding

/-! # Unreachable commands

Reports in each command list the command behind the first one that control is held not to pass.
-/
namespace BlockStage.Lint.Unreachable

def ruleId : String := "unreachable-code"

/-- Control is held not to pass the command. -/
def isTerminator : Command → Bool
  | .simple _ i =>
    match i with
    | .stopAll | .stopThis | .breakLoop | .continueLoop => true
    | _ => false
  | .forever _ _ => true
  | _ => false

/-- The command behind the first terminator of a list, with that terminator. -/
def firstUnreachable? : List Command → Option (Command × Command)
  | [] => none
  | c :: cs =>
    if isTerminator c then cs.head?.map fun d => (c, d) else firstUnreachable? cs

def checkHere (cs : List Command) : List Finding :=
  match firstUnreachable? cs with
  | none => []
  | some (c, d) =>
    [⟨d.blockId, "unreachable: follows '" ++ c.name ++ "'", .warning, ruleId⟩]

mutual

def checkInside : Command → List Finding
  | .simple _ _ => []
  | .repeatTimes _ _ body => checkHere body ++ checkAllInside body
  | .forever _ body => checkHere body ++ checkAllInside body
  | .ifThen _ _ body => checkHere body ++ checkAllInside body
  | .ifElse _ _ thenBody elseBody =>
    checkHere thenBody ++ checkAllInside thenBody ++
      (checkHere elseBody ++ checkAllInside elseBody)

def checkAllInside : List Command → List Finding
  | [] => []
  | c :: cs => checkInside c ++ checkAllInside cs

end

def checkList (cs : List Command) : List Finding := checkHere cs ++ checkAllInside cs

def rule : Rule where
  id := ruleId
  description := "Blocks after stop, forever, break or continue never run"
  check p := p.roots.flatMap fun s => checkList s.commands

end BlockStage.Lint.Unreachable
