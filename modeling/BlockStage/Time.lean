import BlockStage.Decimal.Notation
import BlockStage.Decimal.Reader
import BlockStage.Word

/-! # Time

Times and durations are whole numbers of nanoseconds.
-/
namespace BlockStage.Time

def nanosPerSecond : Nat := 1000000000

def nanosPerMilli : Nat := 1000000

/-- The seconds of a duration: whole seconds and their fraction are converted apart and added. -/
def seconds (nanos : Nat) : Float :=
  Decimal.ofDecimal (nanos / nanosPerSecond) 0 +
    Decimal.ofDecimal (nanos % nanosPerSecond) 0 / 1000000000

/-- The duration nearest to so many seconds, a half going to the even neighbour. There is none for
negative numbers, for what is no number, and from `2 ^ 64` seconds on. -/
def ofSeconds? (x : Float) : Option Nat :=
  match Decimal.shape x with
  | .finite negative b =>
    if negative && b.significand != 0 then none
    else
      let (a, a') := Decimal.power 2 b.exponent
      let nanos := Decimal.roundDiv (b.significand * a * nanosPerSecond) a'
      if nanos < Word.limit64 * nanosPerSecond then some nanos else none
  | _ => none

end BlockStage.Time
