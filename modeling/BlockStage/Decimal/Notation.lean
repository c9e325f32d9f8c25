import BlockStage.Decimal.Shortest
import BlockStage.Text.Digit

/-! # Writing floating point numbers

A `Style` holds the decisions of one written format. `write` gives the shortest decimal in that
format, `writeFixed` a decimal with a fixed number of places, rounded from the exact binary value.
-/
namespace BlockStage.Decimal

open BlockStage.Text (digits)

structure Style where
  /-- The powers of ten of the leading digit that are written without an exponent. -/
  positional : Int → Bool
  /-- Whether a whole number written without an exponent ends in `.0`. -/
  pointZero : Bool
  tie : Tie
  infinity : List Char
  notANumber : List Char

def signed (negative : Bool) (cs : List Char) : List Char :=
  if negative then '-' :: cs else cs

def positionalForm (pointZero : Bool) (ds : List Char) (whole : Int) : List Char :=
  let tail := if pointZero then ['.', '0'] else []
  if whole ≤ 0 then '0' :: '.' :: List.replicate (-whole).toNat '0' ++ ds
  else if whole.toNat < ds.length then ds.take whole.toNat ++ '.' :: ds.drop whole.toNat
  else ds ++ List.replicate (whole.toNat - ds.length) '0' ++ tail

def scientificForm (ds : List Char) (power : Int) : List Char :=
  let mantissa := match ds with
    | [] => []
    | [d] => [d]
    | d :: rest => d :: '.' :: rest
  let sign := if power < 0 then '-' else '+'
  mantissa ++ 'e' :: sign :: digits power.natAbs

def Scaled.write (style : Style) (d : Scaled) : List Char :=
  if d.coefficient == 0 then (if style.pointZero then ['0', '.', '0'] else ['0'])
  else
    let ds := digits d.coefficient
    let whole : Int := ds.length + d.exponent
    if style.positional (whole - 1) then positionalForm style.pointZero ds whole
    else scientificForm ds (whole - 1)

def Style.write (style : Style) (x : Float) : List Char :=
  match shape x with
  | .notANumber => style.notANumber
  | .infinite negative => signed negative style.infinity
  | .finite negative b => signed negative ((b.shortest style.tie).write style)

/-- Messages, log lines and field texts: never an exponent, whole numbers without a point. -/
def plain : Style where
  positional := fun _ => true
  pointZero := false
  tie := .up
  infinity := ['i', 'n', 'f']
  notANumber := ['N', 'a', 'N']

/-- The quotient rounded to the nearest whole number; a half goes to the even neighbour. -/
def roundDiv (num den : Nat) : Nat :=
  let q := num / den
  match compare (2 * (num % den)) den with
  | .lt => q
  | .gt => q + 1
  | .eq => if q % 2 == 0 then q else q + 1

def writeFixed (places : Nat) (x : Float) : List Char :=
  match shape x with
  | .notANumber => plain.notANumber
  | .infinite negative => signed negative plain.infinity
  | .finite negative b =>
    let (a, a') := power 2 b.exponent
    let scaled := roundDiv (b.significand * a * Nat.pow 10 places) a'
    let ds := digits scaled
    let ds := List.replicate (places + 1 - ds.length) '0' ++ ds
    let whole := ds.length - places
    let point := if places == 0 then [] else ['.']
    signed negative (ds.take whole ++ point ++ ds.drop whole)

def display (x : Float) : String := String.ofList (plain.write x)

end BlockStage.Decimal
