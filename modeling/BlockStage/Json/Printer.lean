import BlockStage.Json.Basic
import BlockStage.Decimal.Notation
import BlockStage.Text.Hex

/-! # JSON text

The compact form has no blanks. The pretty form puts every item on a line of its own, two blanks
deeper than what surrounds it, and leaves empty containers closed.
-/
namespace BlockStage.Json

open BlockStage.Text (signedDigits hexDigits)

/-- Floating point numbers always show a point or a power of ten, which is written for leading
digits below `10 ^ -5` and from `10 ^ 16` on. -/
def numberStyle : Decimal.Style where
  positional := fun e => decide (-5 ≤ e) && decide (e < 16)
  pointZero := true
  tie := .even
  infinity := []
  notANumber := []

/-- The text of a number; JSON has none for what is not finite. -/
def Number.write : Number → List Char
  | .int n => signedDigits n
  | .float x =>
    match Decimal.shape x with
    | .finite _ _ => numberStyle.write x
    | _ => ['n', 'u', 'l', 'l']

def escape (c : Char) : List Char :=
  if c = '"' then ['\\', '"']
  else if c = '\\' then ['\\', '\\']
  else if c = '\x08' then ['\\', 'b']
  else if c = '\x0c' then ['\\', 'f']
  else if c = '\n' then ['\\', 'n']
  else if c = '\r' then ['\\', 'r']
  else if c = '\t' then ['\\', 't']
  else if c.toNat < 0x20 then ['\\', 'u'] ++ hexDigits 4 c.toNat
  else [c]

def quote (s : String) : List Char :=
  '"' :: (s.toList.flatMap escape ++ ['"'])

inductive Layout where
  | compact
  | pretty
  deriving Repr, DecidableEq

def Layout.line : Layout → Nat → List Char
  | .compact, _ => []
  | .pretty, depth => '\n' :: List.replicate (2 * depth) ' '

def Layout.colon : Layout → List Char
  | .compact => [':']
  | .pretty => [':', ' ']

namespace Value

mutual

def write (layout : Layout) (depth : Nat) : Value → List Char
  | .null => ['n', 'u', 'l', 'l']
  | .bool true => ['t', 'r', 'u', 'e']
  | .bool false => ['f', 'a', 'l', 's', 'e']
  | .number n => n.write
  | .string s => quote s
  | .array [] => ['[', ']']
  | .array (v :: vs) =>
    '[' :: (layout.line (depth + 1) ++ (v.write layout (depth + 1) ++
      (writeItems layout depth vs ++ (layout.line depth ++ [']']))))
  | .object [] => ['{', '}']
  | .object ((k, v) :: ms) =>
    '{' :: (layout.line (depth + 1) ++ (quote k ++ (layout.colon ++ (v.write layout (depth + 1) ++
      (writeMembers layout depth ms ++ (layout.line depth ++ ['}']))))))

def writeItems (layout : Layout) (depth : Nat) : List Value → List Char
  | [] => []
  | v :: vs =>
    ',' :: (layout.line (depth + 1) ++ (v.write layout (depth + 1) ++ writeItems layout depth vs))

def writeMembers (layout : Layout) (depth : Nat) : List (String × Value) → List Char
  | [] => []
  | (k, v) :: ms =>
    ',' :: (layout.line (depth + 1) ++ (quote k ++ (layout.colon ++ (v.write layout (depth + 1) ++
      writeMembers layout depth ms))))

end

def render (layout : Layout) (v : Value) : String :=
  String.ofList (v.write layout 0)

end Value

end BlockStage.Json
