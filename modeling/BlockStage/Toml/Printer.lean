import BlockStage.Decimal.Notation
import BlockStage.Text.Hex

/-! # Writing TOML

Simple values, and tables that hold only such values.
-/
namespace BlockStage.Toml

/-- Floating point numbers are never written with an exponent, and always with a point. -/
def floatStyle : Decimal.Style :=
  { Decimal.plain with pointZero := true, notANumber := ['n', 'a', 'n'] }

def writeFloat (x : Float) : List Char := floatStyle.write x

/-! ## Strings -/

def isControl (c : Char) : Bool := c < ' ' || c = '\x7f'

def longestRun (mark : Char) (run : Nat) : List Char → Nat
  | [] => run
  | c :: cs =>
    if c = mark then longestRun mark (run + 1) cs else max run (longestRun mark 0 cs)

inductive Quoting where
  | basic
  | literal
  | longBasic
  | longLiteral
  deriving Repr, DecidableEq

/-- The quoting of a text: the first that needs no escapes, or else one with escapes. Three marks
can hold runs of up to two. -/
def quoting (cs : List Char) : Quoting :=
  let clean := cs.all fun c => c = '\t' || c = '\n' || !isControl c
  let oneLine := !cs.contains '\n'
  let straight := clean && !cs.contains '\\'
  let single := longestRun '\'' 0 cs
  let double := longestRun '"' 0 cs
  if straight && oneLine && double = 0 then .basic
  else if clean && oneLine && single = 0 then .literal
  else if straight && double ≤ 2 then .longBasic
  else if clean && single ≤ 2 then .longLiteral
  else if oneLine then .basic
  else .longBasic

def escapeChar (long : Bool) (c : Char) : List Char :=
  match c with
  | '\x08' => ['\\', 'b']
  | '\t' => ['\\', 't']
  | '\n' => if long then ['\n'] else ['\\', 'n']
  | '\x0c' => ['\\', 'f']
  | '\r' => ['\\', 'r']
  | '"' => ['\\', '"']
  | '\\' => ['\\', '\\']
  | c =>
    if isControl c then '\\' :: 'u' :: (Text.hexDigits 4 c.toNat).map Char.toUpper else [c]

/-- A text between double quotes. Up to two double quotes in a row stay between three of them; `run`
is the number of those just before the text. -/
def escape (long : Bool) (run : Nat) : List Char → List Char
  | [] => []
  | c :: cs =>
    if long && c = '"' && run < 2 then '"' :: escape long (run + 1) cs
    else escapeChar long c ++ escape long 0 cs

def between (mark : Char) (count : Nat) (cs : List Char) : List Char :=
  List.replicate count mark ++ cs ++ List.replicate count mark

/-- Between three marks a text with line ends begins on a line of its own. -/
def writeString (s : String) : List Char :=
  let cs := s.toList
  let lead := if cs.contains '\n' then ['\n'] else []
  match quoting cs with
  | .basic => between '"' 1 (escape false 0 cs)
  | .literal => between '\'' 1 cs
  | .longBasic => between '"' 3 (lead ++ escape true 0 cs)
  | .longLiteral => between '\'' 3 (lead ++ cs)

/-! ## Tables -/

def writePair (pair : String × List Char) : List Char :=
  pair.1.toList ++ ' ' :: '=' :: ' ' :: pair.2 ++ ['\n']

def writeTable (table : String × List (String × List Char)) : List Char :=
  '[' :: table.1.toList ++ [']', '\n'] ++ table.2.flatMap writePair

def writeTables (tables : List (String × List (String × List Char))) : List Char :=
  ['\n'].intercalate (tables.map writeTable)

end BlockStage.Toml
