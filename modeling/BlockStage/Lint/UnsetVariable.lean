import BlockStage.Lint.Finding

/-! # Variables that are never set

Reports each variable that some expression reads and no command of the program writes, at the first
block that reads it.
-/
namespace BlockStage.Lint.UnsetVariable

def ruleId : String := "unset-variable"

def reads : Expr → List String
  | .var name => [name]
  | .bin _ l r => reads l ++ reads r
  | .cmp _ l r => reads l ++ reads r
  | .logic _ l r => reads l ++ reads r
  | _ => []

def written? : Command → Option String
  | .simple _ (.setVar name _) => some name
  | .simple _ (.changeVar name _) => some name
  | _ => none

def commands (p : Program) : List Command :=
  p.roots.flatMap fun s => Command.preorderList s.commands

def writes (p : Program) : List String := (commands p).filterMap written?

def readings (p : Program) : List (String × String) :=
  (commands p).flatMap fun c =>
    match c.operand? with
    | none => []
    | some e => (reads e).map fun name => (name, c.blockId)

/-- Keeps the first reading of each name that is not among the given ones. -/
def firstReadings : (known : List String) → List (String × String) → List (String × String)
  | _, [] => []
  | known, r :: rs =>
    if known.contains r.1 then firstReadings known rs
    else r :: firstReadings (r.1 :: known) rs

def finding (r : String × String) : Finding :=
  ⟨r.2, "variable '" ++ r.1 ++ "' is never set and always reads as 0", .hint, ruleId⟩

def rule : Rule where
  id := ruleId
  description := "Variables should be written before they are read"
  check p := (firstReadings (writes p) (readings p)).map finding

end BlockStage.Lint.UnsetVariable
