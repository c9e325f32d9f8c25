import BlockStage.Text.Digit

/-! # Reading floating point numbers

A numeral is an optional sign, digits with at most one point, and an optional power of ten.
`ofDecimal` rounds it to the nearest number; values out of range become zero or infinity.
-/
namespace BlockStage.Decimal

open BlockStage.Text (isDigit number)

/-- `coefficient * 10 ^ exponent` rounded to the nearest floating point number. Far outside the
range of the format the answer needs no power of ten. -/
def ofDecimal (coefficient : Nat) (exponent : Int) : Float :=
  if coefficient == 0 then 0
  else
    let size : Int := coefficient.log2
    if exponent > 400 then 1 / 0
    else if size + exponent * 3 < -1200 then 0
    else Float.ofScientific coefficient (exponent < 0) exponent.natAbs

def takeSign : List Char → Bool × List Char
  | '-' :: cs => (true, cs)
  | '+' :: cs => (false, cs)
  | cs => (false, cs)

def exponentPart? : List Char → Option Int
  | [] => some 0
  | c :: cs =>
    if c == 'e' || c == 'E' then
      let (negative, ds) := takeSign cs
      if ds.isEmpty || !ds.all isDigit then none
      else some (if negative then -(number ds : Int) else number ds)
    else none

/-- An unsigned numeral: a point needs a digit on one of its sides. -/
def readUnsigned? (cs : List Char) : Option Float :=
  let whole := cs.takeWhile isDigit
  let (fraction, rest) := match cs.dropWhile isDigit with
    | '.' :: r => (r.takeWhile isDigit, r.dropWhile isDigit)
    | r => ([], r)
  if whole.isEmpty && fraction.isEmpty then none
  else
    (exponentPart? rest).map fun e =>
      ofDecimal (number (whole ++ fraction)) (e - (fraction.length : Int))

/-- A floating point number in words or digits: `inf`, `infinity` and `nan` in any case, else a
numeral that takes up the whole text. -/
def read? (cs : List Char) : Option Float :=
  let (negative, body) := takeSign cs
  let word := body.map Char.toLower
  let magnitude :=
    if word == ['i', 'n', 'f'] || word == ['i', 'n', 'f', 'i', 'n', 'i', 't', 'y'] then
      some (1 / 0 : Float)
    else if word == ['n', 'a', 'n'] then some (0 / 0 : Float)
    else readUnsigned? body
  magnitude.map fun x => if negative then -x else x

end BlockStage.Decimal
