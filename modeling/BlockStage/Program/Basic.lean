import BlockStage.Dict

/-! # Programs

A program is what the engine runs: scripts that start at once, and handlers that start when their
message is broadcast. Commands carry the identifier of the block they came from, for highlighting
only. Control commands own the command lists they repeat or choose from.
-/
namespace BlockStage

inductive ArithOp where
  | add
  | sub
  | mul
  | div
  deriving Repr, DecidableEq

inductive CompareOp where
  | eq
  | lt
  | gt
  deriving Repr, DecidableEq

inductive LogicOp where
  | and
  | or
  deriving Repr, DecidableEq

inductive Expr where
  | num (value : Float)
  | bool (value : Bool)
  | str (value : String)
  | var (name : String)
  | bin (op : ArithOp) (left right : Expr)
  | cmp (op : CompareOp) (left right : Expr)
  | logic (op : LogicOp) (left right : Expr)
  /-- An expression of a kind that is not known; it counts as zero. -/
  | unsupported
  deriving Inhabited

def Expr.literal? : Expr → Option String
  | .str s => some s
  | _ => none

inductive Instruction where
  | move (steps : Expr)
  | turn (degrees : Expr)
  | wait (seconds : Expr)
  | setVar (name : String) (value : Expr)
  | changeVar (name : String) (delta : Expr)
  | deleteVar (name : String)
  | broadcast (message : Expr) (wait : Bool)
  | breakLoop
  | continueLoop
  | stopAll
  | stopThis
  /-- A command of a kind that is not known; it does nothing. -/
  | unsupported

inductive Command where
  | simple (blockId : String) (instruction : Instruction)
  | repeatTimes (blockId : String) (times : Expr) (body : List Command)
  | forever (blockId : String) (body : List Command)
  | ifThen (blockId : String) (cond : Expr) (body : List Command)
  | ifElse (blockId : String) (cond : Expr) (thenBody elseBody : List Command)

structure Script where
  id : String
  commands : List Command

structure Program where
  scripts : List Script
  /-- Handlers by message, for one message in the order of their blocks. -/
  handlers : Dict (List Script)

namespace Instruction

def name : Instruction → String
  | .move _ => "move"
  | .turn _ => "turn"
  | .wait _ => "wait"
  | .setVar _ _ => "set_var"
  | .changeVar _ _ => "change_var"
  | .deleteVar _ => "delete_var"
  | .broadcast _ _ => "broadcast"
  | .breakLoop => "break"
  | .continueLoop => "continue"
  | .stopAll => "stop_all"
  | .stopThis => "stop_this"
  | .unsupported => "unsupported"

def operand? : Instruction → Option Expr
  | .move e | .turn e | .wait e | .setVar _ e | .changeVar _ e | .broadcast e _ => some e
  | _ => none

end Instruction

namespace Command

def blockId : Command → String
  | .simple id _ | .repeatTimes id _ _ | .forever id _ | .ifThen id _ _ | .ifElse id _ _ _ => id

def name : Command → String
  | .simple _ i => i.name
  | .repeatTimes _ _ _ => "repeat"
  | .forever _ _ => "forever"
  | .ifThen _ _ _ => "if"
  | .ifElse _ _ _ _ => "if_else"

def operand? : Command → Option Expr
  | .simple _ i => i.operand?
  | .repeatTimes _ e _ | .ifThen _ e _ | .ifElse _ e _ _ => some e
  | .forever _ _ => none

def bodies : Command → List (List Command)
  | .simple _ _ => []
  | .repeatTimes _ _ body | .forever _ body | .ifThen _ _ body => [body]
  | .ifElse _ _ thenBody elseBody => [thenBody, elseBody]

mutual

/-- The command and all commands inside it, each before its own bodies. -/
def preorder : Command → List Command
  | c@(.simple _ _) => [c]
  | c@(.repeatTimes _ _ body) => c :: preorderList body
  | c@(.forever _ body) => c :: preorderList body
  | c@(.ifThen _ _ body) => c :: preorderList body
  | c@(.ifElse _ _ thenBody elseBody) => c :: (preorderList thenBody ++ preorderList elseBody)

def preorderList : List Command → List Command
  | [] => []
  | c :: cs => c.preorder ++ preorderList cs

end

end Command

namespace Program

def empty : Program := ⟨[], .empty⟩

instance : Inhabited Program := ⟨empty⟩

def handlersFor (p : Program) (message : String) : List Script :=
  (p.handlers.find? message).getD []

def allHandlers (p : Program) : List Script := p.handlers.values.flatten

def handlerCount (p : Program) : Nat := p.allHandlers.length

def roots (p : Program) : List Script := p.scripts ++ p.allHandlers

end Program

end BlockStage
