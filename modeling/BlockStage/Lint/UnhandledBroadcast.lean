import BlockStage.Lint.Finding

/-! # Messages without a receiver

Reports broadcasts of a literal message that has no handler, and handlers of the empty message.
-/
namespace BlockStage.Lint.UnhandledBroadcast

def ruleId : String := "unhandled-broadcast"

def checkCommand (p : Program) : Command → List Finding
  | .simple id (.broadcast message _) =>
    match message.literal? with
    | none => []
    | some text =>
      if (p.handlersFor text).isEmpty then
        [⟨id, "no handler receives \"" ++ text ++ "\"", .warning, ruleId⟩]
      else []
  | _ => []

def emptyMessage (handler : Script) : Finding :=
  ⟨handler.id, "handler message is empty or not a text literal; it only receives \"\"", .warning,
    ruleId⟩

def rule : Rule where
  id := ruleId
  description := "Broadcast messages should have a receiver"
  check p :=
    (p.roots.flatMap fun s => (Command.preorderList s.commands).flatMap (checkCommand p)) ++
      (p.handlersFor "").map emptyMessage

end BlockStage.Lint.UnhandledBroadcast
