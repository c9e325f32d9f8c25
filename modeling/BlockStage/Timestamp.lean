import BlockStage.Text.Blank
import BlockStage.Text.Digit

/-! # Points in time

A point in time in UTC, to the nanosecond, on the Gregorian calendar extended to all years. It is
written in the form of RFC 3339 with `Z`, and read from a more liberal form of it with any offset.
-/
namespace BlockStage

structure Timestamp where
  /-- Year 0 comes before year 1. -/
  year : Int
  month : Nat
  day : Nat
  hour : Nat
  minute : Nat
  /-- 60 in a leap second. -/
  second : Nat
  nano : Nat
  deriving Repr, DecidableEq

namespace Timestamp

def isLeap (year : Int) : Bool := year % 4 == 0 && (year % 100 != 0 || year % 400 == 0)

def daysInMonth (year : Int) (month : Nat) : Nat :=
  if month = 2 then if isLeap year then 29 else 28
  else if month = 4 ∨ month = 6 ∨ month = 9 ∨ month = 11 then 30
  else 31

def inRange (year : Int) : Bool := -262143 ≤ year && year ≤ 262142

def isValid (t : Timestamp) : Bool :=
  inRange t.year && 1 ≤ t.month && t.month ≤ 12 && 1 ≤ t.day &&
    t.day ≤ daysInMonth t.year t.month && t.hour < 24 && t.minute < 60 && t.second ≤ 60 &&
    t.nano < 1000000000

def nextDay (t : Timestamp) : Timestamp :=
  if t.day < daysInMonth t.year t.month then { t with day := t.day + 1 }
  else if t.month < 12 then { t with month := t.month + 1, day := 1 }
  else { t with year := t.year + 1, month := 1, day := 1 }

def previousDay (t : Timestamp) : Timestamp :=
  if 1 < t.day then { t with day := t.day - 1 }
  else if 1 < t.month then
    { t with month := t.month - 1, day := daysInMonth t.year (t.month - 1) }
  else { t with year := t.year - 1, month := 12, day := 31 }

def back (t : Timestamp) (minutes : Int) : Timestamp :=
  let m : Int := t.hour * 60 + t.minute - minutes
  let onDay (t : Timestamp) (m : Int) : Timestamp :=
    { t with hour := m.toNat / 60, minute := m.toNat % 60 }
  if m < 0 then onDay t.previousDay (m + 1440)
  else if 1440 ≤ m then onDay t.nextDay (m - 1440)
  else onDay t m

/-- The time so many seconds after the start of 1970. Days are counted from the first of March of
year 0, so that a leap day is the last of its year. -/
def ofUnix (seconds nano : Nat) : Timestamp :=
  let days := seconds / 86400 + 719468
  let era := days / 146097
  let dayOfEra := days % 146097
  let yearOfEra := (dayOfEra - dayOfEra / 1460 + dayOfEra / 36524 - dayOfEra / 146096) / 365
  let dayOfYear := dayOfEra - (365 * yearOfEra + yearOfEra / 4 - yearOfEra / 100)
  let m := (5 * dayOfYear + 2) / 153
  let month := if m < 10 then m + 3 else m - 9
  let year := yearOfEra + era * 400 + (if month ≤ 2 then 1 else 0)
  let s := seconds % 86400
  { year := year, month, day := dayOfYear - (153 * m + 2) / 5 + 1
    hour := s / 3600, minute := s / 60 % 60, second := s % 60, nano }

/-! ## Writing -/

/-- Four digits, and years that do not have four with a sign. -/
def writeYear (year : Int) : List Char :=
  if 0 ≤ year ∧ year ≤ 9999 then Text.padded 4 year.toNat
  else (if year < 0 then '-' else '+') :: Text.padded 4 year.natAbs

/-- The fraction of a second in three, six or nine digits, the fewest that hold it. -/
def writeFraction (nano : Nat) : List Char :=
  if nano = 0 then []
  else if nano % 1000000 = 0 then '.' :: Text.padded 3 (nano / 1000000)
  else if nano % 1000 = 0 then '.' :: Text.padded 6 (nano / 1000)
  else '.' :: Text.padded 9 nano

def write (t : Timestamp) : List Char :=
  writeYear t.year ++ '-' :: Text.padded 2 t.month ++ '-' :: Text.padded 2 t.day ++
    'T' :: Text.padded 2 t.hour ++ ':' :: Text.padded 2 t.minute ++
    ':' :: Text.padded 2 t.second ++ writeFraction t.nano ++ ['Z']

def display (t : Timestamp) : String := .ofList t.write

/-! ## Reading

Each function reads from the front of a text and gives back the rest. -/

def skipBlanks (cs : List Char) : List Char := cs.dropWhile Text.isBlank

def numeral (most : Nat) (cs : List Char) : Option (Nat × List Char) :=
  let ds := (cs.takeWhile Text.isDigit).take most
  if ds.isEmpty then none else some (Text.number ds, cs.drop ds.length)

def readField (cs : List Char) : Option (Nat × List Char) := numeral 2 (skipBlanks cs)

def readYear (cs : List Char) : Option (Int × List Char) :=
  match skipBlanks cs with
  | '-' :: r => (numeral r.length r).map fun (n, r) => (-(n : Int), r)
  | '+' :: r => (numeral r.length r).map fun (n, r) => ((n : Int), r)
  | r => (numeral 4 r).map fun (n, r) => ((n : Int), r)

def expect (c : Char) (cs : List Char) : Option (List Char) :=
  match skipBlanks cs with
  | d :: r => if d = c then some r else none
  | [] => none

/-- A fraction of a second in nanoseconds; digits beyond the ninth are dropped. -/
def readFraction : List Char → Option (Nat × List Char)
  | '.' :: r =>
    let ds := r.takeWhile Text.isDigit
    if ds.isEmpty then none
    else some (Text.number (ds.take 9) * Nat.pow 10 (9 - ds.length), r.drop ds.length)
  | r => some (0, r)

def readTwoDigits : List Char → Option (Nat × List Char)
  | a :: b :: r => if Text.isDigit a && Text.isDigit b then some (Text.number [a, b], r) else none
  | _ => none

def readOffsetClock (cs : List Char) : Option (Nat × List Char) := do
  let (hours, r) ← readTwoDigits cs
  let (minutes, r) ← readTwoDigits (r.dropWhile fun c => c = ':' || Text.isBlank c)
  if minutes < 60 then some (hours * 60 + minutes, r) else none

def readOffset (cs : List Char) : Option (Int × List Char) :=
  match cs with
  | 'Z' :: r | 'z' :: r => some (0, r)
  | '+' :: r => (readOffsetClock r).map fun (n, r) => ((n : Int), r)
  | '-' :: r | '\u2212' :: r => (readOffsetClock r).map fun (n, r) => (-(n : Int), r)
  | u :: t :: c :: r =>
    if [u, t, c].map Char.toUpper = ['U', 'T', 'C'] then some (0, r) else none
  | _ => none

def read? (cs : List Char) : Option Timestamp := do
  let (year, r) ← readYear cs
  let (month, r) ← readField (← expect '-' r)
  let (day, r) ← readField (← expect '-' r)
  let r ← match r with
    | 'T' :: r | 't' :: r | ' ' :: r => some r
    | _ => none
  let (hour, r) ← readField r
  let (minute, r) ← readField (← expect ':' r)
  let (second, r) ← readField (← expect ':' r)
  let (nano, r) ← readFraction r
  let (offset, r) ← readOffset (skipBlanks r)
  let t : Timestamp := { year, month, day, hour, minute, second, nano }
  if t.isValid && (skipBlanks r).isEmpty && offset.natAbs < 1440 then
    let t := t.back offset
    if inRange t.year then some t else none
  else none

end Timestamp

end BlockStage
