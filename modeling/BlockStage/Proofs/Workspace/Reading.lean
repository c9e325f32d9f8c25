import BlockStage.Proofs.Workspace.Order
import BlockStage.Workspace.Compile

/-! # The program of a tree

The program that a workspace stands for, read off its tree from the leaves up. Every block has a
meaning of its own, made from the meanings of what is connected to it; nothing is numbered or put
into a list first.
-/
namespace BlockStage.Workspace

open BlockStage.Json (Value)

def lastName? (named : List Variable) (id : String) : Option String :=
  named.foldl (fun found v => if v.id = id then some v.name else found) none

def memberText? (key : String) (members : Entries Value) : Option String :=
  match Entries.find? key members with
  | some (.string s) => some s
  | _ => none

/-- Fields are kept as text. An object refers to a variable by its identifier; without a known one
it is read by its own name, and by the identifier itself if it has no name. -/
def textOf (named : List Variable) : Value → Option String
  | .string s => some s
  | .number n => some (String.ofList n.write)
  | .bool true => some "TRUE"
  | .bool false => some "FALSE"
  | .object members =>
    ((memberText? "id" members).bind (lastName? named)).or <|
      if (Entries.find? "name" members).isSome then memberText? "name" members
      else memberText? "id" members
  | _ => none

def textsOf (named : List Variable) (fields : List (String × Value)) : Entries String :=
  fields.filterMap fun f => (textOf named f.2).map fun t => (f.1, t)

/-- What a block means: as a value, and as the first block of a chain. -/
structure Meaning where
  value? : Option Expr
  commands : List Command

/-- What the meaning of a block is made from. -/
structure Parts where
  kind : String
  id : String
  fields : Entries String
  /-- The meanings of the blocks on inputs. -/
  inputs : Entries Meaning
  /-- The commands of the chain that follows. -/
  after : List Command

namespace Parts

def field? (q : Parts) (name : String) : Option String := Entries.find? name q.fields

def text (q : Parts) (name : String) : String := (q.field? name).getD ""

/-- The value on an input; the literal stands in where nothing is connected, or what is connected is
no value. -/
def operand (q : Parts) (name : String) (literal : Expr) : Expr :=
  ((Entries.find? name q.inputs).bind Meaning.value?).getD literal

def body (q : Parts) (name : String) : List Command :=
  ((Entries.find? name q.inputs).map Meaning.commands).getD []

def message (q : Parts) : Expr := q.operand "MSG" (.str (q.text "MSG"))

def arith (q : Parts) : ArithOp :=
  if q.field? "OP" = some "MINUS" then .sub
  else if q.field? "OP" = some "MULTIPLY" then .mul
  else if q.field? "OP" = some "DIVIDE" then .div
  else .add

def compare (q : Parts) : CompareOp :=
  if q.field? "OP" = some "LT" then .lt else if q.field? "OP" = some "GT" then .gt else .eq

def logic (q : Parts) : LogicOp := if q.field? "OP" = some "OR" then .or else .and

def value? (q : Parts) : Option Expr :=
  match q.kind with
  | "math_number" => some (.num (fieldNumber (q.field? "NUM")))
  | "logic_boolean" => some (.bool (q.field? "BOOL" == some "TRUE"))
  | "text" => some (.str (q.text "TEXT"))
  | "variables_get" => some (.var (q.text "VAR"))
  | "math_arithmetic" => some (.bin q.arith (q.operand "A" (.num 0)) (q.operand "B" (.num 0)))
  | "logic_compare" => some (.cmp q.compare (q.operand "A" (.num 0)) (q.operand "B" (.num 0)))
  | "logic_operation" =>
    some (.logic q.logic (q.operand "A" (.bool false)) (q.operand "B" (.bool false)))
  | _ => none

def instruction? (q : Parts) : Option Instruction :=
  match q.kind with
  | "bp_move" => some (.move (q.operand "STEPS" (.num 0)))
  | "bp_turn" => some (.turn (q.operand "DEG" (.num 0)))
  | "bp_wait" => some (.wait (q.operand "SECS" (.num 0)))
  | "variables_set" => some (.setVar (q.text "VAR") (q.operand "VALUE" (.num 0)))
  | "math_change" => some (.changeVar (q.text "VAR") (q.operand "DELTA" (.num 1)))
  | "bp_delete_var" => some (.deleteVar (q.text "VAR"))
  | "bp_broadcast" => some (.broadcast q.message false)
  | "bp_broadcast_wait" => some (.broadcast q.message true)
  | "bp_break" => some .breakLoop
  | "bp_continue" => some .continueLoop
  | "bp_stop_all" | "bp_stop" => some .stopAll
  | "bp_stop_this" => some .stopThis
  | _ => none

def command? (q : Parts) : Option Command :=
  match q.kind with
  | "bp_repeat" => some (.repeatTimes q.id (q.operand "TIMES" (.num 0)) (q.body "DO"))
  | "bp_forever" => some (.forever q.id (q.body "DO"))
  | "bp_if" => some (.ifThen q.id (q.operand "COND" (.bool false)) (q.body "DO"))
  | "bp_if_else" =>
    some (.ifElse q.id (q.operand "COND" (.bool false)) (q.body "DO") (q.body "ELSE"))
  | _ => q.instruction?.map (.simple q.id)

/-- A block without a command does not end the chain. -/
def meaning (q : Parts) : Meaning := ⟨q.value?, q.command?.toList ++ q.after⟩

end Parts

mutual

def Block.parts (named : List Variable) : Block → Parts
  | .mk kind id _ _ fields inputs next =>
    { kind := kind, id := id, fields := textsOf named fields, inputs := meanings named inputs
      after := following named next }

def meanings (named : List Variable) : List (String × Plug Block) → Entries Meaning
  | [] => []
  | (name, plug) :: rest =>
    ((plugged? named plug).map fun m => (name, m)).toList ++ meanings named rest

def following (named : List Variable) : Option (Plug Block) → List Command
  | none => []
  | some plug => ((plugged? named plug).map Meaning.commands).getD []

/-- The real block counts, and the shadow where there is none. -/
def plugged? (named : List Variable) : Plug Block → Option Meaning
  | ⟨some b, _⟩ => some (b.parts named).meaning
  | ⟨none, some b⟩ => some (b.parts named).meaning
  | ⟨none, none⟩ => none

end

/-- From top to bottom, then from left to right. -/
def Block.notBehind (a b : Block) : Bool :=
  decide (Before a.y b.y ∨ a.y = b.y ∧ ¬ Before b.x a.x)

def Parts.addTo (q : Parts) (p : Program) : Program :=
  match q.kind with
  | "bp_start" => { p with scripts := p.scripts ++ [⟨q.id, q.after⟩] }
  | "bp_when_receive" =>
    let message := q.message.literal?.getD ""
    let earlier := p.handlersFor message
    { p with handlers := p.handlers.insert message (earlier ++ [⟨q.id, q.body "DO"⟩]) }
  | _ => p

/-- The program of a tree; blocks at the same place keep their order. -/
def Tree.program (t : Tree) : Program :=
  (t.blocks.mergeSort Block.notBehind).foldl (fun p b => (b.parts t.named).addTo p) .empty

end BlockStage.Workspace
