import BlockStage.Decimal.Reader
import BlockStage.Settings.Convert
import BlockStage.Word

/-! # Arguments

A command line is the name of a command with its options and operands. `--config` and `--project`
may also stand before the name; after it they count more. Options have their values attached with
`=` or in the next argument, which must not look like an option; no option is given twice. After
`--` there are only operands.

Arguments are looked at from left to right, and the first thing that is wrong, or that asks for an
explanation, decides.
-/
namespace BlockStage.CommandLine

inductive Command where
  | run (workspace : String) (duration : Option Float) (realtime : Bool) (fps maxOps : Option Nat)
  | compile (workspace : String) (pretty : Bool)
  | check (workspace : String)
  | save (workspace : String)
  | load
  | config

structure Invocation where
  config : Option String
  project : Option String
  command : Command

inductive Refusal where
  | usage
  | help
  deriving Repr, DecidableEq

/-! ## Values of options -/

inductive OptionValue where
  | path (s : String)
  | seconds (x : Float)
  | whole (n : Nat)

inductive OptionKind where
  | path
  | seconds
  /-- A whole number below a bound; `-` may stand before zero if there is room for signed
  numbers. -/
  | whole (bound : Nat) (signed : Bool)

/-- A whole number; `+` may stand before it, and `-` before zero if numbers are signed. -/
def whole? (signed : Bool) : List Char → Option Nat
  | '-' :: ds =>
    match Layer.unsigned? ('+' :: ds) with
    | some 0 => if signed then some 0 else none
    | _ => none
  | ds => Layer.unsigned? ds

def OptionKind.read? (kind : OptionKind) (text : String) : Option OptionValue :=
  match kind with
  | .path => if text = "" then none else some (.path text)
  | .seconds => (Decimal.read? text.toList).map .seconds
  | .whole bound signed =>
    match whole? signed text.toList with
    | some n => if n < bound then some (.whole n) else none
    | none => none

/-! ## What is given -/

structure Form where
  flags : List String := []
  valued : List (String × OptionKind) := [("config", .path), ("project", .path)]
  letters : List (Char × String) := []
  operands : Nat := 0

structure Given where
  flags : List String := []
  values : List (String × OptionValue) := []
  operands : List String := []

namespace Given

def addFlag (g : Given) (name : String) : Except Refusal Given :=
  if g.flags.contains name then .error .usage else .ok { g with flags := name :: g.flags }

def addValue (g : Given) (form : Form) (name text : String) : Except Refusal Given :=
  match g.values.lookup name, (form.valued.lookup name).bind (·.read? text) with
  | none, some v => .ok { g with values := (name, v) :: g.values }
  | _, _ => .error .usage

def addOperand (g : Given) (form : Form) (text : String) : Except Refusal Given :=
  if g.operands.length < form.operands && text != "" then
    .ok { g with operands := g.operands ++ [text] }
  else .error .usage

def path? (g : Given) (name : String) : Option String :=
  match g.values.lookup name with
  | some (.path s) => some s
  | _ => none

def seconds? (g : Given) (name : String) : Option Float :=
  match g.values.lookup name with
  | some (.seconds x) => some x
  | _ => none

def whole? (g : Given) (name : String) : Option Nat :=
  match g.values.lookup name with
  | some (.whole n) => some n
  | _ => none

end Given

/-! ## Taking arguments -/

def looksLikeOption (arg : String) : Bool := arg.startsWith "-" && arg != "-"

def splitEquals (cs : List Char) : String × Option String :=
  match cs.span (· != '=') with
  | (name, _ :: value) => (.ofList name, some (.ofList value))
  | (name, []) => (.ofList name, none)

def option? (form : Form) (arg : List Char) : Except Refusal (String × Option String) :=
  match arg with
  | '-' :: '-' :: r =>
    match splitEquals r with
    | ("help", none) => .error .help
    | given => .ok given
  | '-' :: c :: r =>
    match form.letters.lookup c, r with
    | some name, [] => .ok (name, none)
    | some name, '=' :: value => .ok (name, some (.ofList value))
    | some name, value => .ok (name, some (.ofList value))
    | none, _ => .error (if c = 'h' then .help else .usage)
  | _ => .error .usage

inductive Waiting where
  | nothing
  | value (name : String)
  /-- A value in an argument of its own, which nobody has looked at yet. -/
  | look (name text : String)
  deriving Repr, DecidableEq

def Given.settle (g : Given) (form : Form) : Waiting → Except Refusal Given
  | .nothing => .ok g
  | .value _ => .error .usage
  | .look name text => g.addValue form name text

def Given.addOperands (g : Given) (form : Form) : List String → Except Refusal Given
  | [] => .ok g
  | arg :: rest => do (← g.addOperand form arg).addOperands form rest

/-- Takes arguments to the end or, where no operands are expected, up to the first one that is no
option. Gives back what is open then and the arguments that are left. -/
def take (form : Form) :
    Waiting → Given → List String → Except Refusal (Given × Waiting × List String)
  | waiting, g, [] => .ok (g, waiting, [])
  | .value name, g, arg :: rest =>
    if looksLikeOption arg then .error .usage else take form (.look name arg) g rest
  | waiting, g, arg :: rest =>
    if form.operands = 0 && !looksLikeOption arg then .ok (g, waiting, arg :: rest)
    else
      match g.settle form waiting with
      | .error e => .error e
      | .ok g =>
        if arg = "--" then (g.addOperands form rest).map fun g => (g, .nothing, [])
        else if looksLikeOption arg then
          match option? form arg.toList with
          | .error e => .error e
          | .ok (name, none) =>
            if form.flags.contains name then
              match g.addFlag name with
              | .ok g => take form .nothing g rest
              | .error e => .error e
            else if (form.valued.lookup name).isSome then take form (.value name) g rest
            else .error .usage
          | .ok (name, some text) =>
            match g.addValue form name text with
            | .ok g => take form .nothing g rest
            | .error e => .error e
        else
          match g.addOperand form arg with
          | .ok g => take form .nothing g rest
          | .error e => .error e

/-! ## Commands -/

def form? : String → Option Form
  | "run" =>
    some { flags := ["realtime"]
           valued := [("config", .path), ("project", .path), ("duration", .seconds),
             ("fps", .whole Word.limit32 true), ("max-ops", .whole Word.limit64 false)]
           letters := [('d', "duration")]
           operands := 1 }
  | "compile" => some { flags := ["pretty"], operands := 1 }
  | "check" | "save" => some { operands := 1 }
  | "load" | "config" => some {}
  | _ => none

def helpOn : List String → Refusal
  | [] => .help
  | [name] => if name = "help" || (form? name).isSome then .help else .usage
  | _ => .usage

def commandOf (name : String) (g : Given) : Except Refusal Command :=
  match name, g.operands with
  | "run", [workspace] =>
    .ok (.run workspace (g.seconds? "duration") (g.flags.contains "realtime") (g.whole? "fps")
      (g.whole? "max-ops"))
  | "compile", [workspace] => .ok (.compile workspace (g.flags.contains "pretty"))
  | "check", [workspace] => .ok (.check workspace)
  | "save", [workspace] => .ok (.save workspace)
  | "load", [] => .ok .load
  | "config", [] => .ok .config
  | _, _ => .error .usage

/-- A value right before the name of the command is looked at last. -/
def Invocation.ofArguments (args : List String) : Except Refusal Invocation := do
  match ← take {} .nothing {} args with
  | (_, _, []) => .error .usage
  | (outer, waiting, name :: rest) =>
    if name = "help" then .error (helpOn rest)
    match form? name with
    | none => .error .usage
    | some form =>
      let (inner, last, left) ← take form .nothing {} rest
      let inner ← inner.settle form last
      unless left.isEmpty do .error .usage
      let command ← commandOf name inner
      let outer ← outer.settle {} waiting
      return { config := inner.path? "config" <|> outer.path? "config"
               project := inner.path? "project" <|> outer.path? "project"
               command }

end BlockStage.CommandLine
