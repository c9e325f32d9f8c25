import BlockStage.Host.Basic
import BlockStage.Text.Alphanumeric
import BlockStage.Text.Blank

/-! # Environment files

Lines `NAME=value`, with quotes, escapes, comments and `$NAME` for the value of a variable. Quotes
may run over several lines. Reading stops at the first line that is wrong; the lines before it
count.
-/
namespace BlockStage.EnvFile

/-! ## Lines -/

def rawLines : List Char → List (List Char)
  | [] => []
  | c :: cs =>
    if c = '\n' then [c] :: rawLines cs
    else
      match rawLines cs with
      | [] => [[c]]
      | l :: ls => (c :: l) :: ls

inductive Mark where
  | plain
  /-- After a blank, where a comment can begin. -/
  | blank
  | escape
  | single
  | singleEscape
  | double
  | doubleEscape
  deriving Repr, DecidableEq

def Mark.next (m : Mark) (c : Char) : Mark :=
  match m with
  | .escape => .plain
  | .single => if c = '\\' then .singleEscape else if c = '\'' then .plain else .single
  | .singleEscape => .single
  | .double => if c = '\\' then .doubleEscape else if c = '"' then .plain else .double
  | .doubleEscape => .double
  | .plain | .blank =>
    if m = .plain && Text.isBlank c && c != '\n' && c != '\r' then .blank
    else if c = '\\' then .escape
    else if c = '"' then .double
    else if c = '\'' then .single
    else .plain

def scan : Mark → List Char → List Char × Option Mark
  | m, [] => ([], some m)
  | m, c :: cs =>
    if m = .blank && c = '#' then ([], none)
    else
      let (before, final) := scan (m.next c) cs
      (c :: before, final)

def dropLineEnd (cs : List Char) : List Char :=
  match cs.reverse with
  | '\n' :: '\r' :: r => r.reverse
  | '\n' :: r => r.reverse
  | _ => cs

def joinLines : (buffer : List Char) → Mark → List (List Char) → List (List Char)
  | _, _, [] => []
  | buffer, m, line :: rest =>
    let text := buffer ++ line
    if (text.dropWhile Text.isBlank).head? = some '#' then [] :: joinLines [] .plain rest
    else
      match scan m line with
      | (before, none) => (buffer ++ before) :: joinLines [] .plain rest
      | (_, some .plain) => dropLineEnd text :: joinLines [] .plain rest
      | (_, some m) => joinLines text m rest

/-! ## Values -/

inductive Quote where
  | none
  | single
  | double
  deriving Repr, DecidableEq

inductive Mode where
  | text
  | escaped
  | name (braced : Bool) (read : List Char)
  | ended
  deriving Repr, DecidableEq

def escaped? (c : Char) : Option Char :=
  if c = 'n' then some '\n'
  else if c = '\\' || c = '\'' || c = '"' || c = '$' || c = ' ' then some c
  else none

/-- Reads a value up to its end; `env` gives the values of variables and `out` is what has been
read. The character after a name without braces belongs to the text, even a quote. -/
def value? (env : List Char → List Char) :
    Mode → Quote → (out : List Char) → List Char → Option (List Char)
  | .name true _, _, _, [] => none
  | .name false n, .none, out, [] => some (out ++ env n)
  | _, q, out, [] => if q = .none then some out else none
  | .ended, q, out, c :: cs =>
    if c = ' ' || c = '\t' then value? env .ended q out cs
    else if c = '#' then some out
    else none
  | .escaped, q, out, c :: cs =>
    match escaped? c with
    | some d => value? env .text q (out ++ [d]) cs
    | none => none
  | .name braced n, q, out, c :: cs =>
    if Text.isAlphanumeric c then value? env (.name braced (n ++ [c])) q out cs
    else if braced then
      if c = '\x7d' then value? env .text q (out ++ env n) cs
      else value? env (.name true (n ++ [c])) q out cs
    else if c = '\x7b' && n.isEmpty then value? env (.name true []) q out cs
    else if c = '$' then value? env (.name false []) q (out ++ env n) cs
    else value? env .text q (out ++ env n ++ [c]) cs
  | .text, .single, out, c :: cs =>
    if c = '\'' then value? env .text .none out cs else value? env .text .single (out ++ [c]) cs
  | .text, .double, out, c :: cs =>
    if c = '$' then value? env (.name false []) .double out cs
    else if c = '"' then value? env .text .none out cs
    else if c = '\\' then value? env .escaped .double out cs
    else value? env .text .double (out ++ [c]) cs
  | .text, .none, out, c :: cs =>
    if c = '$' then value? env (.name false []) .none out cs
    else if c = '\'' then value? env .text .single out cs
    else if c = '"' then value? env .text .double out cs
    else if c = '\\' then value? env .escaped .none out cs
    else if c = ' ' || c = '\t' then value? env .ended .none out cs
    else value? env .text .none (out ++ [c]) cs

/-! ## Entries -/

def skipBlanks (cs : List Char) : List Char := cs.dropWhile Text.isBlank

def key? (cs : List Char) : Option (String × List Char) :=
  match cs with
  | c :: _ =>
    if c.isAlpha || c = '_' then
      let (k, r) := cs.span fun c => c.isAlphanum || c = '_' || c = '.'
      some (.ofList k, skipBlanks r)
    else none
  | [] => none

def equals? : List Char → Option (List Char)
  | '=' :: r => some (skipBlanks r)
  | _ => none

/-- The name of a line and the text of its value. `export` before a name does not count. -/
def entry? (cs : List Char) : Option (String × List Char) := do
  let (k, r) ← key? cs
  match equals? r with
  | some r => return (k, r)
  | none =>
    if k = "export" then
      let (k, r) ← key? r
      return (k, ← equals? r)
    else none

def isVoid (cs : List Char) : Bool := cs.isEmpty || cs.head? = some '#'

/-- One line; variables that are already set keep their values. -/
def addLine (env : Environment) (line : List Char) : Option Environment := do
  let cs := skipBlanks (Text.trimEnd line)
  if isVoid cs then return env
  let (name, text) ← entry? cs
  let look (n : List Char) : List Char := ((env.find? (.ofList n)).getD "").toList
  let value ← if isVoid text then some [] else value? look .text .none [] text
  return env.add name (.ofList value)

def addLines (env : Environment) : List (List Char) → Environment
  | [] => env
  | line :: rest =>
    match addLine env line with
    | some env => addLines env rest
    | none => env

def load (env : Environment) (text : String) : Environment :=
  let cs := match text.toList with
    | '\uFEFF' :: r => r
    | r => r
  addLines env (joinLines [] .plain (rawLines cs))

end BlockStage.EnvFile
