import BlockStage.Dict
import BlockStage.Decimal.Reader

/-! # JSON values

Whole numbers of 64 bits are kept apart from floating point numbers. The members of an object are
a list; a value read from a text has them in the order of their keys, without repetition.
-/
namespace BlockStage.Json

/-- A whole number between `-2 ^ 63` and `2 ^ 64 - 1`, or a floating point number. -/
inductive Number where
  | int (n : Int)
  | float (x : Float)

inductive Value where
  | null
  | bool (b : Bool)
  | number (n : Number)
  | string (s : String)
  | array (items : List Value)
  | object (members : List (String × Value))

instance : Inhabited Value := ⟨.null⟩

def Number.toFloat : Number → Float
  | .int n =>
    let x := Decimal.ofDecimal n.natAbs 0
    if n < 0 then -x else x
  | .float x => x

namespace Value

def member? (v : Value) (key : String) : Option Value :=
  match v with
  | .object members => Entries.find? key members
  | _ => none

def ofNat (n : Nat) : Value := .number (.int n)

/-- A floating point number, or `null` in place of one that is not finite. -/
def ofFloat (x : Float) : Value := if x.isFinite then .number (.float x) else .null

mutual

/-- The number of arrays and objects around the innermost value. -/
def depth : Value → Nat
  | .array items => depthItems items + 1
  | .object members => depthMembers members + 1
  | _ => 0

def depthItems : List Value → Nat
  | [] => 0
  | v :: vs => max v.depth (depthItems vs)

def depthMembers : List (String × Value) → Nat
  | [] => 0
  | (_, v) :: vs => max v.depth (depthMembers vs)

end

end Value

end BlockStage.Json
