/-! # Shortest decimals of binary floating point numbers

A finite number is `significand * 2 ^ exponent`. The reals that round to it form an interval, and
`shortest` is the decimal with the fewest digits inside that interval. Of two such decimals the one
nearer to the number is taken; only a decimal exactly as near on either side is left to the caller.
-/
namespace BlockStage.Decimal

structure Binary where
  significand : Nat
  exponent : Int
  deriving Repr, DecidableEq

structure Scaled where
  coefficient : Nat
  exponent : Int
  deriving Repr, DecidableEq

inductive Tie where
  | up
  | even
  deriving Repr, DecidableEq

/-- The kinds of floating point number; the sign of a zero counts. -/
inductive Shape where
  | finite (negative : Bool) (magnitude : Binary)
  | infinite (negative : Bool)
  | notANumber
  deriving Repr, DecidableEq

def shapeOfBits (bits : UInt64) : Shape :=
  let n := bits.toNat
  let negative := n / Nat.pow 2 63 == 1
  let field : Nat := n / Nat.pow 2 52 % Nat.pow 2 11
  let fraction : Nat := n % Nat.pow 2 52
  if field == 2047 then
    if fraction == 0 then .infinite negative else .notANumber
  else if field == 0 then .finite negative ⟨fraction, -1074⟩
  else .finite negative ⟨Nat.pow 2 52 + fraction, Int.ofNat field - 1075⟩

def shape (x : Float) : Shape := shapeOfBits x.toBits

def power (base : Nat) (exponent : Int) : Nat × Nat :=
  (Nat.pow base exponent.toNat, Nat.pow base (-exponent).toNat)

/-- The ends of the interval of `b`, in quarters of the last place of its significand. Below a
power of two the neighbouring numbers lie closer together. -/
def Binary.lower (b : Binary) : Nat :=
  if b.significand == Nat.pow 2 52 && b.exponent > -1074 then 4 * b.significand - 1
  else 4 * b.significand - 2

def Binary.upper (b : Binary) : Nat := 4 * b.significand + 2

/-- The comparison of `c * 10 ^ k` with `quarters` quarters of the last place of `b`. -/
def Binary.compareTo (b : Binary) (c : Nat) (k : Int) (quarters : Nat) : Ordering :=
  let (a, a') := power 2 (b.exponent - 2)
  let (t, t') := power 10 k
  compare (c * t * a') (quarters * a * t')

/-- The decimal lies in the interval; its ends belong to it if the significand is even. -/
def Binary.contains (b : Binary) (c : Nat) (k : Int) : Bool :=
  let low := b.compareTo c k b.lower
  let high := b.compareTo c k b.upper
  if b.significand % 2 == 0 then low != .lt && high != .gt else low == .gt && high == .lt

def Binary.leadingExponent (b : Binary) : Int :=
  let guess := ((b.significand.log2 : Int) + b.exponent) * 30103 / 100000
  let fits (e : Int) : Bool := b.compareTo 1 e (4 * b.significand) != .gt
  if fits (guess + 1) then guess + 1
  else if fits guess then guess
  else guess - 1

/-- The greatest `c` with `c * 10 ^ k` at most the number. -/
def Binary.floorAt (b : Binary) (k : Int) : Nat :=
  let (a, a') := power 2 b.exponent
  let (t, t') := power 10 k
  b.significand * a * t' / (a' * t)

/-- The better of the two neighbours of `b` among the multiples of `10 ^ k`, if one of them is in
the interval. -/
def Binary.neighbour? (tie : Tie) (b : Binary) (k : Int) : Option Nat :=
  let c := b.floorAt k
  match b.contains c k, b.contains (c + 1) k with
  | true, false => some c
  | false, true => some (c + 1)
  | false, false => none
  | true, true =>
    -- the midpoint of both neighbours decides
    let (a, a') := power 2 b.exponent
    let (t, t') := power 10 k
    match compare ((2 * c + 1) * t * a') (2 * b.significand * a * t') with
    | .lt => some (c + 1)
    | .gt => some c
    | .eq =>
      match tie with
      | .up => some (c + 1)
      | .even => if c % 2 == 0 then some c else some (c + 1)

def Scaled.normalize : (fuel : Nat) → Scaled → Scaled
  | 0, d => d
  | fuel + 1, d =>
    if d.coefficient != 0 && d.coefficient % 10 == 0 then
      normalize fuel ⟨d.coefficient / 10, d.exponent + 1⟩
    else d

/-- The decimal with the fewest digits that rounds to `b`; seventeen digits always suffice. -/
def Binary.shortest (tie : Tie) (b : Binary) : Scaled :=
  if b.significand == 0 then ⟨0, 0⟩
  else
    let e := b.leadingExponent
    let grids := (List.range 17).map fun n => e - Int.ofNat n
    match grids.findSome? fun k => (b.neighbour? tie k).map fun c => Scaled.mk c k with
    | some d => d.normalize 18
    | none => ⟨b.floorAt (e - 16), e - 16⟩

end BlockStage.Decimal
