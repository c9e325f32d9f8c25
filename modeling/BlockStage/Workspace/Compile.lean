import BlockStage.Workspace.Graph
import BlockStage.Program.Basic
import BlockStage.Decimal.Reader
import BlockStage.Text.Blank

/-! # From blocks to programs

Start blocks become scripts and receive blocks become handlers. What follows a start block, or is
inside a block, is a chain of statements: blocks of unknown kind are left out of it and do not end
it. An input without a block of known kind takes the default of its kind.
-/
namespace BlockStage.Workspace

/-- The number in a field; zero if there is none. -/
def fieldNumber (text : Option String) : Float :=
  match text.bind fun t => Decimal.read? (Text.trim t.toList) with
  | some x => if x.isFinite then x else 0
  | none => 0

namespace Graph

def arithOp (g : Graph) (i : Nat) : ArithOp :=
  match g.field? i "OP" with
  | some "MINUS" => .sub
  | some "MULTIPLY" => .mul
  | some "DIVIDE" => .div
  | _ => .add

def compareOp (g : Graph) (i : Nat) : CompareOp :=
  match g.field? i "OP" with
  | some "LT" => .lt
  | some "GT" => .gt
  | _ => .eq

def logicOp (g : Graph) (i : Nat) : LogicOp :=
  match g.field? i "OP" with
  | some "OR" => .or
  | _ => .and

def fieldOrEmpty (g : Graph) (i : Nat) (name : String) : String := (g.field? i name).getD ""

/-- The expression of a value block. Nodes lead only to later ones, so the number of nodes bounds
the depth. -/
def value? (g : Graph) : (fuel : Nat) → (i : Nat) → Option Expr
  | 0, _ => none
  | fuel + 1, i =>
    let operand (name : String) (fallback : Expr) : Expr :=
      ((g.input? i name).bind (value? g fuel)).getD fallback
    match g.kind i with
    | "math_number" => some (.num (fieldNumber (g.field? i "NUM")))
    | "logic_boolean" => some (.bool (g.field? i "BOOL" == some "TRUE"))
    | "text" => some (.str (g.fieldOrEmpty i "TEXT"))
    | "variables_get" => some (.var (g.fieldOrEmpty i "VAR"))
    | "math_arithmetic" =>
      some (.bin (g.arithOp i) (operand "A" (.num 0)) (operand "B" (.num 0)))
    | "logic_compare" =>
      some (.cmp (g.compareOp i) (operand "A" (.num 0)) (operand "B" (.num 0)))
    | "logic_operation" =>
      some (.logic (g.logicOp i) (operand "A" (.bool false)) (operand "B" (.bool false)))
    | _ => none

def inputOr (g : Graph) (fuel i : Nat) (name : String) (fallback : Expr) : Expr :=
  ((g.input? i name).bind (g.value? fuel)).getD fallback

/-- The message of a block: its input, else the text of its field, else the empty text. -/
def message (g : Graph) (fuel i : Nat) : Expr :=
  g.inputOr fuel i "MSG" (.str (g.fieldOrEmpty i "MSG"))

def statement? (g : Graph) (fuel : Nat) (list : Option Nat → List Command) (i : Nat) :
    Option Command :=
  let id := g.id i
  let number (name : String) : Expr := g.inputOr fuel i name (.num 0)
  let cond := g.inputOr fuel i "COND" (.bool false)
  let body (name : String) : List Command := list (g.input? i name)
  match g.kind i with
  | "bp_move" => some (.simple id (.move (number "STEPS")))
  | "bp_turn" => some (.simple id (.turn (number "DEG")))
  | "bp_wait" => some (.simple id (.wait (number "SECS")))
  | "bp_repeat" => some (.repeatTimes id (number "TIMES") (body "DO"))
  | "bp_forever" => some (.forever id (body "DO"))
  | "bp_if" => some (.ifThen id cond (body "DO"))
  | "bp_if_else" => some (.ifElse id cond (body "DO") (body "ELSE"))
  | "variables_set" => some (.simple id (.setVar (g.fieldOrEmpty i "VAR") (number "VALUE")))
  | "math_change" =>
    some (.simple id
      (.changeVar (g.fieldOrEmpty i "VAR") (g.inputOr fuel i "DELTA" (.num 1))))
  | "bp_delete_var" => some (.simple id (.deleteVar (g.fieldOrEmpty i "VAR")))
  | "bp_broadcast" => some (.simple id (.broadcast (g.message fuel i) false))
  | "bp_broadcast_wait" => some (.simple id (.broadcast (g.message fuel i) true))
  | "bp_break" => some (.simple id .breakLoop)
  | "bp_continue" => some (.simple id .continueLoop)
  | "bp_stop_all" => some (.simple id .stopAll)
  | "bp_stop" => some (.simple id .stopAll)
  | "bp_stop_this" => some (.simple id .stopThis)
  | _ => none

def chain (g : Graph) : (fuel : Nat) → (first : Option Nat) → List Command
  | 0, _ => []
  | _, none => []
  | fuel + 1, some i =>
    (g.statement? fuel (chain g fuel) i).toList ++ chain g fuel (g.next? i)

/-- Adds a script under a message, behind those that are there. -/
def addHandler (p : Program) (message : String) (s : Script) : Program :=
  { p with handlers := p.handlers.insert message (p.handlersFor message ++ [s]) }

def addRoot (g : Graph) (p : Program) (i : Nat) : Program :=
  match g.kind i with
  | "bp_start" =>
    { p with scripts := p.scripts ++ [⟨g.id i, g.chain g.size (g.next? i)⟩] }
  | "bp_when_receive" =>
    let m := ((g.message g.size i).literal?).getD ""
    addHandler p m ⟨g.id i, g.chain g.size (g.input? i "DO")⟩
  | _ => p

def compile (g : Graph) : Program := g.topLevel.foldl g.addRoot .empty

end Graph

end BlockStage.Workspace
