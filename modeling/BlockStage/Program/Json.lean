import BlockStage.Program.Basic
import BlockStage.Json.Decoder

/-! # Written programs

Programs as JSON. An expression is an object with its `kind`, or an array of the kind and the
fields in order; a command is an object with its `type`. Kinds and types that are not known are read
as unsupported, whatever else they hold. A command is taken in whole before it is looked at, so only
its block identifier can be found unfit before the command ends.
-/
namespace BlockStage

open BlockStage.Json (Value Doc Fault Decoder)

/-! ## Writing -/

namespace ArithOp

def symbol : ArithOp → String
  | .add => "+"
  | .sub => "-"
  | .mul => "*"
  | .div => "/"

def ofSymbol? : String → Option ArithOp
  | "+" => some .add
  | "-" => some .sub
  | "*" => some .mul
  | "/" => some .div
  | _ => none

end ArithOp

namespace CompareOp

def symbol : CompareOp → String
  | .eq => "=="
  | .lt => "<"
  | .gt => ">"

def ofSymbol? : String → Option CompareOp
  | "==" => some .eq
  | "<" => some .lt
  | ">" => some .gt
  | _ => none

end CompareOp

namespace LogicOp

def symbol : LogicOp → String
  | .and => "and"
  | .or => "or"

def ofSymbol? : String → Option LogicOp
  | "and" => some .and
  | "or" => some .or
  | _ => none

end LogicOp

namespace Expr

def toJson : Expr → Value
  | .num x => .object [("kind", .string "num"), ("value", .ofFloat x)]
  | .bool b => .object [("kind", .string "bool"), ("value", .bool b)]
  | .str s => .object [("kind", .string "str"), ("value", .string s)]
  | .var n => .object [("kind", .string "var"), ("name", .string n)]
  | .bin op l r =>
    .object [("kind", .string "bin"), ("op", .string op.symbol), ("left", l.toJson),
      ("right", r.toJson)]
  | .cmp op l r =>
    .object [("kind", .string "cmp"), ("op", .string op.symbol), ("left", l.toJson),
      ("right", r.toJson)]
  | .logic op l r =>
    .object [("kind", .string "logic"), ("op", .string op.symbol), ("left", l.toJson),
      ("right", r.toJson)]
  | .unsupported => .object [("kind", .string "unsupported")]

end Expr

namespace Instruction

def fieldsJson : Instruction → List (String × Value)
  | .move e => [("steps", e.toJson)]
  | .turn e => [("degrees", e.toJson)]
  | .wait e => [("seconds", e.toJson)]
  | .setVar n e => [("name", .string n), ("value", e.toJson)]
  | .changeVar n e => [("name", .string n), ("delta", e.toJson)]
  | .deleteVar n => [("name", .string n)]
  | .broadcast e w => [("message", e.toJson), ("wait", .bool w)]
  | _ => []

end Instruction

namespace Command

def objectJson (id type : String) (fields : List (String × Value)) : Value :=
  .object (("block_id", .string id) :: ("type", .string type) :: fields)

mutual

def toJson : Command → Value
  | .simple id i => objectJson id i.name i.fieldsJson
  | .repeatTimes id e body =>
    objectJson id "repeat" [("times", e.toJson), ("body", .array (listJson body))]
  | .forever id body => objectJson id "forever" [("body", .array (listJson body))]
  | .ifThen id e body =>
    objectJson id "if" [("cond", e.toJson), ("body", .array (listJson body))]
  | .ifElse id e thenBody elseBody =>
    objectJson id "if_else" [("cond", e.toJson), ("then_body", .array (listJson thenBody)),
      ("else_body", .array (listJson elseBody))]

def listJson : List Command → List Value
  | [] => []
  | c :: cs => c.toJson :: listJson cs

end

end Command

def Script.toJson (s : Script) : Value :=
  .object [("id", .string s.id), ("commands", .array (Command.listJson s.commands))]

def Program.toJson (p : Program) : Value :=
  .object [("scripts", .array (p.scripts.map Script.toJson)),
    ("handlers", .object (p.handlers.entries.map fun e => (e.1, .array (e.2.map Script.toJson))))]

/-! ## Reading -/

abbrev Members := List (Except Fault String × Doc)

def Members.under (key : String) (members : Members) : List Doc :=
  members.filterMap fun
    | (.ok k, d) => if k = key then some d else none
    | _ => none

def Members.once (key : String) (members : Members) : Except Fault Doc :=
  match members.under key with
  | [d] => .ok d
  | _ => .error .unfit

def Members.atMostOnce (key : String) (members : Members) : Except Fault (Option Doc) :=
  match members.under key with
  | [] => .ok none
  | [d] => .ok (some d)
  | _ => .error .unfit

/-- The name of a variant: given as such, or by its number in the list of names. Numbers beyond the
list stand for what is not known. -/
def variantName (names : List String) : Doc → Except Fault String
  | .string (.ok s) => .ok s
  | .number (.ok (.int n)) =>
    if 0 ≤ n then .ok (names.getD n.toNat "unsupported") else .error .unfit
  | _ => .error .unfit

/-- The name of an operator: a string, or an object with the name as its only key and nothing
under it. -/
def operatorName : Doc → Except Fault String
  | .string (.ok s) => .ok s
  | .object [(.ok k, .null)] _ => .ok k
  | .object [(.ok k, .object [] _)] _ => .ok k
  | _ => .error .unfit

def operator {α : Type} (ofSymbol? : String → Option α) (d : Doc) : Except Fault α := do
  Decoder.required (ofSymbol? (← operatorName d))

namespace Expr

def kinds : List String :=
  ["num", "bool", "str", "var", "bin", "cmp", "logic", "unsupported"]

/-- The kind of an expression and a look-up of its fields. An array has as many items after the
kind as the kind has fields. -/
def parts : Doc → Except Fault (String × (List String → Except Fault (List Doc)))
  | .object members _ => do
    let kind ← variantName kinds (← Members.once "kind" members)
    return (kind, fun fields => fields.mapM fun f => Members.once f members)
  | .array (tag :: items) _ => do
    let kind ← variantName kinds tag
    return (kind, fun fields => if fields.length = items.length then .ok items else .error .unfit)
  | _ => .error .unfit

def operands {α : Type} (sub : Doc → Except Fault Expr) (ofSymbol? : String → Option α)
    (make : α → Expr → Expr → Expr) : List Doc → Except Fault Expr
  | [op, left, right] => do
    return make (← operator ofSymbol? op) (← sub left) (← sub right)
  | _ => .error .unfit

def single {α : Type} (d : Decoder α) (make : α → Expr) : List Doc → Except Fault Expr
  | [doc] => make <$> d 0 doc
  | _ => .error .unfit

/-- An expression inside at most so many others; its document has been read without fault. -/
def decodeWithin : (fuel : Nat) → Doc → Except Fault Expr
  | 0, _ => .error .unfit
  | fuel + 1, doc => do
    let (kind, fields) ← parts doc
    match kind with
    | "num" => single Decoder.float .num (← fields ["value"])
    | "bool" => single Decoder.bool .bool (← fields ["value"])
    | "str" => single Decoder.string .str (← fields ["value"])
    | "var" => single Decoder.string .var (← fields ["name"])
    | "bin" =>
      operands (decodeWithin fuel) ArithOp.ofSymbol? .bin (← fields ["op", "left", "right"])
    | "cmp" =>
      operands (decodeWithin fuel) CompareOp.ofSymbol? .cmp (← fields ["op", "left", "right"])
    | "logic" =>
      operands (decodeWithin fuel) LogicOp.ofSymbol? .logic (← fields ["op", "left", "right"])
    | _ => do
      let _ ← fields []
      return .unsupported

def ofJson (v : Value) : Except Fault Expr := do
  match v with
  | .object members =>
    match Entries.find? "kind" members with
    | some (.string _) => decodeWithin (v.depth + 1) (.ofValue v)
    | _ => .error .unfit
  | .array (.string _ :: _) => decodeWithin (v.depth + 1) (.ofValue v)
  | _ => .error .unfit

end Expr

namespace Command

def types : List String :=
  ["move", "turn", "wait", "repeat", "forever", "if", "if_else", "set_var", "change_var",
    "delete_var", "broadcast", "break", "continue", "stop_all", "stop_this", "unsupported"]

/-- Reads the members of a command in order: the block identifier as such, all others as any
value. -/
def takeIn (levels : Nat) (members : Members) : Except Fault (Option String) :=
  members.foldlM (fun id m => do
    let key ← m.1
    if key = "block_id" then
      match id with
      | some _ => .error .unfit
      | none => return some (← Decoder.string levels m.2)
    else
      let _ ← Decoder.any levels m.2
      return id) none

def decodeWithin : (fuel : Nat) → Decoder Command
  | 0, _, _ => .error .malformed
  | _, 0, .object _ _ => .error .malformed
  | fuel + 1, levels + 1, .object members gap => do
    let id := (← takeIn levels members).getD ""
    Decoder.close gap
    let expr (key : String) : Except Fault Expr := do
      Expr.decodeWithin (levels + 1) (← Members.once key members)
    let name : Except Fault String := do
      Decoder.string levels (← Members.once "name" members)
    let body (key : String) : Except Fault (List Command) := do
      Decoder.list (decodeWithin fuel) levels (← Members.once key members)
    match ← variantName types (← Members.once "type" members) with
    | "move" => return .simple id (.move (← expr "steps"))
    | "turn" => return .simple id (.turn (← expr "degrees"))
    | "wait" => return .simple id (.wait (← expr "seconds"))
    | "repeat" => return .repeatTimes id (← expr "times") (← body "body")
    | "forever" => return .forever id (← body "body")
    | "if" => return .ifThen id (← expr "cond") (← body "body")
    | "if_else" => return .ifElse id (← expr "cond") (← body "then_body") (← body "else_body")
    | "set_var" => return .simple id (.setVar (← name) (← expr "value"))
    | "change_var" => return .simple id (.changeVar (← name) (← expr "delta"))
    | "delete_var" => return .simple id (.deleteVar (← name))
    | "broadcast" =>
      let message ← expr "message"
      let wait ← match ← Members.atMostOnce "wait" members with
        | none => pure false
        | some d => Decoder.bool levels d
      return .simple id (.broadcast message wait)
    | "break" => return .simple id .breakLoop
    | "continue" => return .simple id .continueLoop
    | "stop_all" => return .simple id .stopAll
    | "stop_this" => return .simple id .stopThis
    | _ => return .simple id .unsupported
  | _, _, doc => .error doc.mismatch

def decoder : Decoder Command := fun levels => decodeWithin (levels + 1) levels

end Command

namespace Script

structure Draft where
  id : Option String := none
  commands : Option (List Command) := none

def decoder : Decoder Script := fun levels doc => do
  let draft ← Decoder.record ["id", "commands"] (fun key levels doc draft => do
    match key with
    | "id" => return { draft with id := some (← Decoder.string levels doc) }
    | _ => return { draft with commands := some (← Decoder.list Command.decoder levels doc) })
    ({} : Draft) levels doc
  return ⟨← Decoder.required draft.id, ← Decoder.required draft.commands⟩

end Script

namespace Program

structure Draft where
  scripts : Option (List Script) := none
  handlers : Option (Entries (List Script)) := none

def decoder : Decoder Program := fun levels doc => do
  let draft ← Decoder.record ["scripts", "handlers"] (fun key levels doc draft => do
    match key with
    | "scripts" => return { draft with scripts := some (← Decoder.list Script.decoder levels doc) }
    | _ =>
      let handlers ← Decoder.entries (Decoder.list Script.decoder) levels doc
      return { draft with handlers := some handlers })
    ({} : Draft) levels doc
  return ⟨← Decoder.required draft.scripts, .ofList (draft.handlers.getD [])⟩

def ofJson (v : Value) : Except Fault Program := decoder.value v

def ofText (s : String) : Except Fault Program := decoder.text s

end Program

end BlockStage
