import BlockStage.Program.Basic
import BlockStage.Decimal.Notation
import BlockStage.Decimal.Reader
import BlockStage.Text.Blank

/-! # Evaluation

Every expression has a value in every store, and evaluation changes nothing. Numbers that are not
finite count as zero, except where a variable holds one: it is read as it is.
-/
namespace BlockStage

inductive Val where
  | num (x : Float)
  | bool (b : Bool)
  | str (s : String)

/-- The variables; a name that is not there reads as zero. -/
abbrev Store := Dict Float

namespace Store

def read (store : Store) (name : String) : Float := (store.find? name).getD 0

end Store

def finiteOrZero (x : Float) : Float := if x.isFinite then x else 0

namespace Val

/-- A text counts as the number it spells, without the blanks around it, and else as zero. -/
def numberOfText (s : String) : Float :=
  (Decimal.read? (Text.trim s.toList)).getD 0

def toNumber : Val → Float
  | .num x => finiteOrZero x
  | .bool b => if b then 1 else 0
  | .str s => finiteOrZero (numberOfText s)

def truthy : Val → Bool
  | .num x => x != 0 && !x.isNaN
  | .bool b => b
  | .str s => !s.isEmpty

def display : Val → String
  | .num x => Decimal.display x
  | .bool b => if b then "true" else "false"
  | .str s => s

end Val

/-- Division by zero gives zero. -/
def ArithOp.apply (op : ArithOp) (a b : Float) : Float :=
  match op with
  | .add => a + b
  | .sub => a - b
  | .mul => a * b
  | .div => if b == 0 then 0 else a / b

def CompareOp.apply (op : CompareOp) (a b : Float) : Bool :=
  match op with
  | .eq => a == b
  | .lt => a < b
  | .gt => a > b

def LogicOp.apply (op : LogicOp) (a b : Bool) : Bool :=
  match op with
  | .and => a && b
  | .or => a || b

namespace Expr

def eval (store : Store) : Expr → Val
  | .num x => .num (finiteOrZero x)
  | .bool b => .bool b
  | .str s => .str s
  | .var name => .num (store.read name)
  | .bin op l r => .num (finiteOrZero (op.apply (l.eval store).toNumber (r.eval store).toNumber))
  | .cmp op l r => .bool (op.apply (l.eval store).toNumber (r.eval store).toNumber)
  | .logic op l r => .bool (op.apply (l.eval store).truthy (r.eval store).truthy)
  | .unsupported => .num 0

def evalNumber (store : Store) (e : Expr) : Float := (e.eval store).toNumber

def evalCondition (store : Store) (e : Expr) : Bool := (e.eval store).truthy

end Expr

end BlockStage
