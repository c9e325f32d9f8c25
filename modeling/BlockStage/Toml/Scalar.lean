import BlockStage.Decimal.Reader
import BlockStage.Text.Hex
import BlockStage.Timestamp
import BlockStage.Toml.Basic
import BlockStage.Word

/-! # Keys and simple values of TOML

Readers of blanks, comments, keys, strings, numbers and dates. Each reads from the front of a text
and gives back the rest.
-/
namespace BlockStage.Toml

open BlockStage.Text (isDigit number)

/-! ## Blanks and comments -/

def isSpace (c : Char) : Bool := c = ' ' || c = '\t'

def skipSpace (cs : List Char) : List Char := cs.dropWhile isSpace

def isPrintable (c : Char) : Bool := c = '\t' || (' ' ≤ c && c != '\x7f')

def newline? : List Char → Option (List Char)
  | '\n' :: r => some r
  | '\r' :: '\n' :: r => some r
  | _ => none

def skipComment : List Char → List Char
  | '#' :: r => r.dropWhile isPrintable
  | r => r

def lineEnd? (cs : List Char) : Option (List Char) :=
  match skipComment (skipSpace cs) with
  | [] => some []
  | r => newline? r

def skipFiller : (inComment : Bool) → List Char → List Char
  | _, [] => []
  | _, '\n' :: r => skipFiller false r
  | _, '\r' :: '\n' :: r => skipFiller false r
  | true, c :: r => if isPrintable c then skipFiller true r else c :: r
  | false, c :: r =>
    if c = '#' then skipFiller true r
    else if isSpace c then skipFiller false r
    else c :: r

/-! ## Strings -/

def scalar? (ds : List Char) : Option Char := do
  let n ← Text.hexNumber? ds
  if n < 0xD800 ∨ (0xE000 ≤ n ∧ n < 0x110000) then some (Char.ofNat n) else none

def escape? : List Char → Option (Char × List Char)
  | 'b' :: r => some ('\x08', r)
  | 't' :: r => some ('\t', r)
  | 'n' :: r => some ('\n', r)
  | 'f' :: r => some ('\x0c', r)
  | 'r' :: r => some ('\r', r)
  | '"' :: r => some ('"', r)
  | '\\' :: r => some ('\\', r)
  | 'u' :: r => if r.length < 4 then none else (scalar? (r.take 4)).map (·, r.drop 4)
  | 'U' :: r => if r.length < 8 then none else (scalar? (r.take 8)).map (·, r.drop 8)
  | _ => none

def basicString : (fuel : Nat) → List Char → Option (List Char × List Char)
  | 0, _ => none
  | _, [] => none
  | _ + 1, '"' :: r => some ([], r)
  | fuel + 1, '\\' :: r => do
    let (c, r) ← escape? r
    let (s, r) ← basicString fuel r
    return (c :: s, r)
  | fuel + 1, c :: r => do
    if isPrintable c then
      let (s, r) ← basicString fuel r
      return (c :: s, r)
    else none

/-- Up to two quotes before the closing quotes belong to the string. -/
def surplusQuotes (q : Char) : List Char → List Char × List Char
  | a :: b :: r =>
    if a = q then if b = q then ([q, q], r) else ([q], b :: r) else ([], a :: b :: r)
  | [a] => if a = q then ([q], []) else ([], [a])
  | [] => ([], [])

def skipBlankLines : List Char → List Char
  | '\n' :: r => skipBlankLines r
  | '\r' :: '\n' :: r => skipBlankLines r
  | c :: r => if isSpace c then skipBlankLines r else c :: r
  | [] => []

/-- The text after a backslash that ends its line, without the blanks and line ends that follow. -/
def joinLine? (cs : List Char) : Option (List Char) :=
  (newline? (skipSpace cs)).map skipBlankLines

def longBasicString : (fuel : Nat) → List Char → Option (List Char × List Char)
  | 0, _ => none
  | _, [] => none
  | _ + 1, '"' :: '"' :: '"' :: r => some (surplusQuotes '"' r)
  | fuel + 1, '\\' :: r => do
    match joinLine? r with
    | some r => longBasicString fuel r
    | none =>
      let (c, r) ← escape? r
      let (s, r) ← longBasicString fuel r
      return (c :: s, r)
  | fuel + 1, c :: r => do
    match newline? (c :: r) with
    | some r =>
      let (s, r) ← longBasicString fuel r
      return ('\n' :: s, r)
    | none =>
      if isPrintable c then
        let (s, r) ← longBasicString fuel r
        return (c :: s, r)
      else none

def literalString (cs : List Char) : Option (List Char × List Char) :=
  match cs.span fun c => isPrintable c && c != '\'' with
  | (s, '\'' :: r) => some (s, r)
  | _ => none

def longLiteralString : List Char → Option (List Char × List Char)
  | [] => none
  | '\'' :: '\'' :: '\'' :: r => some (surplusQuotes '\'' r)
  | '\r' :: '\n' :: r => (longLiteralString r).map fun (s, r) => ('\n' :: s, r)
  | c :: r =>
    if c = '\n' || isPrintable c then (longLiteralString r).map fun (s, r) => (c :: s, r) else none

def quoted? : List Char → Option (String × List Char)
  | '"' :: r => (basicString (r.length + 1) r).map fun (s, r) => (.ofList s, r)
  | '\'' :: r => (literalString r).map fun (s, r) => (.ofList s, r)
  | _ => none

def skipFirstLineEnd (cs : List Char) : List Char := (newline? cs).getD cs

def string? : List Char → Option (String × List Char)
  | '"' :: '"' :: '"' :: r =>
    (longBasicString (r.length + 1) (skipFirstLineEnd r)).map fun (s, r) => (.ofList s, r)
  | '\'' :: '\'' :: '\'' :: r =>
    (longLiteralString (skipFirstLineEnd r)).map fun (s, r) => (.ofList s, r)
  | r => quoted? r

/-! ## Keys -/

def isBareKey (c : Char) : Bool := c.isAlphanum || c = '_' || c = '-'

def simpleKey? (cs : List Char) : Option (String × List Char) :=
  match cs.span isBareKey with
  | ([], _) => quoted? cs
  | (s, r) => some (.ofList s, r)

def dottedKey? : (parts : Nat) → List Char → Option (List String × List Char)
  | 0, _ => none
  | parts + 1, cs => do
    let (k, r) ← simpleKey? (skipSpace cs)
    match skipSpace r with
    | '.' :: r =>
      let (ks, r) ← dottedKey? parts r
      return (k :: ks, r)
    | r => return ([k], r)

/-- The names that a key may have, and the containers that may be opened inside one another. -/
def depthLimit : Nat := 79

def key? (cs : List Char) : Option ((List String × String) × List Char) := do
  let (ks, r) ← dottedKey? depthLimit cs
  let name ← ks.getLast?
  return ((ks.dropLast, name), r)

/-! ## Numbers -/

def splitAt (sep : Char) : List Char → List (List Char)
  | [] => [[]]
  | c :: cs =>
    if c = sep then [] :: splitAt sep cs
    else
      match splitAt sep cs with
      | [] => [[c]]
      | part :: parts => (c :: part) :: parts

def digitRun? (ok : Char → Bool) (cs : List Char) : Option (List Char) :=
  let parts := splitAt '_' cs
  if parts.all fun p => !p.isEmpty && p.all ok then some parts.flatten else none

def wholeDigits? (cs : List Char) : Option (List Char) :=
  match digitRun? isDigit cs with
  | some ('0' :: _ :: _) => none
  | r => r

def inBase? (base : Nat) (cs : List Char) : Option Nat := do
  let ds ← digitRun? (fun c => (Text.hexValue? c).any (· < base)) cs
  return ds.foldl (fun n c => base * n + (Text.hexValue? c).getD 0) 0

def integer? (cs : List Char) : Option Int := do
  let n : Int ← match cs with
    | '0' :: 'x' :: r => (inBase? 16 r).map Int.ofNat
    | '0' :: 'o' :: r => (inBase? 8 r).map Int.ofNat
    | '0' :: 'b' :: r => (inBase? 2 r).map Int.ofNat
    | _ =>
      let (negative, r) := Decimal.takeSign cs
      (wholeDigits? r).map fun ds => if negative then -(number ds : Int) else number ds
  if Word.fitsSigned64 n then some n else none

/-- The fraction and the exponent of a floating point number, which has at least one of them,
without underscores. -/
def floatTail? (cs : List Char) : Option (List Char) :=
  let exponent (r : List Char) : Option (List Char) :=
    let sign := r.takeWhile fun c => c = '+' || c = '-'
    if 1 < sign.length then none
    else (digitRun? isDigit (r.drop sign.length)).map fun ds => 'e' :: sign ++ ds
  match cs with
  | '.' :: r =>
    let (frac, r) := r.span fun c => c != 'e' && c != 'E'
    match digitRun? isDigit frac, r with
    | some ds, [] => some ('.' :: ds)
    | some ds, _ :: r => (exponent r).map fun e => '.' :: ds ++ e
    | none, _ => none
  | 'e' :: r | 'E' :: r => exponent r
  | _ => none

/-- A floating point number; one that is too large is refused unless it is negative. -/
def float? (cs : List Char) : Option Float := do
  let (negative, r) := Decimal.takeSign cs
  let signed (x : Float) : Float := if negative then -x else x
  match r with
  | ['i', 'n', 'f'] => return signed (1 / 0)
  | ['n', 'a', 'n'] => return signed (0 / 0)
  | _ =>
    let (whole, tail) := r.span fun c => c != '.' && c != 'e' && c != 'E'
    let ds ← wholeDigits? whole
    let x ← Decimal.read? (ds ++ (← floatTail? tail))
    if !negative && x == 1 / 0 then none else return signed x

/-! ## Dates and times -/

def fixedDigits? (n : Nat) (cs : List Char) : Option (Nat × List Char) :=
  let ds := cs.take n
  if ds.length = n ∧ ds.all isDigit then some (number ds, cs.drop n) else none

def literal? (c : Char) : List Char → Option (List Char)
  | d :: r => if d = c then some r else none
  | [] => none

def field? (least most : Nat) (cs : List Char) : Option (Nat × List Char) := do
  let (n, r) ← fixedDigits? 2 cs
  if least ≤ n ∧ n ≤ most then some (n, r) else none

def date? (cs : List Char) : Option (List Char × List Char) := do
  let (year, r) ← fixedDigits? 4 cs
  let (month, r) ← field? 1 12 (← literal? '-' r)
  let (day, r) ← field? 1 (Timestamp.daysInMonth year month) (← literal? '-' r)
  return (Text.padded 4 year ++ '-' :: Text.padded 2 month ++ '-' :: Text.padded 2 day, r)

/-- A fraction of a second: nine digits count, zeros at the end do not. -/
def fraction (cs : List Char) : List Char × List Char :=
  match cs with
  | '.' :: r =>
    let ds := r.takeWhile isDigit
    if ds.isEmpty then ([], cs)
    else
      let kept := ((ds.take 9).reverse.dropWhile (· = '0')).reverse
      (if kept.isEmpty then [] else '.' :: kept, r.drop ds.length)
  | _ => ([], cs)

def time? (cs : List Char) : Option (List Char × List Char) := do
  let (hour, r) ← field? 0 23 cs
  let (minute, r) ← field? 0 59 (← literal? ':' r)
  let (second, r) ← field? 0 60 (← literal? ':' r)
  let (frac, r) := fraction r
  return (Text.padded 2 hour ++ ':' :: Text.padded 2 minute ++ ':' :: Text.padded 2 second ++ frac,
    r)

def offset? (cs : List Char) : Option (List Char × List Char) :=
  let clock (sign : Char) (r : List Char) : Option (List Char × List Char) := do
    let (hour, r) ← field? 0 23 r
    let (minute, r) ← field? 0 59 (← literal? ':' r)
    let sign := if hour = 0 ∧ minute = 0 then '+' else sign
    return (sign :: Text.padded 2 hour ++ ':' :: Text.padded 2 minute, r)
  match cs with
  | 'Z' :: r | 'z' :: r => some (['Z'], r)
  | '+' :: r => clock '+' r
  | '-' :: r => clock '-' r
  | r => some ([], r)

def datetime? (cs : List Char) : Option (String × List Char) :=
  match date? cs with
  | some (d, r) =>
    let full : Option (List Char × List Char) := do
      let r ← match r with
        | 'T' :: r | 't' :: r | ' ' :: r => some r
        | _ => none
      let (t, r) ← time? r
      let (o, r) ← offset? r
      return (d ++ 'T' :: t ++ o, r)
    match full with
    | some (text, r) => some (.ofList text, r)
    | none => some (.ofList d, r)
  | none => (time? cs).map fun (t, r) => (.ofList t, r)

def wholeDatetime? (cs : List Char) : Option String :=
  match datetime? cs with
  | some (text, []) => some text
  | _ => none

/-! ## Simple values -/

def isTokenChar (c : Char) : Bool :=
  c.isAlphanum || c = '_' || c = '+' || c = '-' || c = '.' || c = ':'

def scalarValue? (cs : List Char) : Option (Value × List Char) :=
  match cs with
  | '"' :: _ | '\'' :: _ => (string? cs).map fun (s, r) => (.string s, r)
  | _ =>
    match datetime? cs with
    | some (text, r) => some (.datetime text, r)
    | none =>
      let (token, r) := cs.span isTokenChar
      if token = ['t', 'r', 'u', 'e'] then some (.boolean true, r)
      else if token = ['f', 'a', 'l', 's', 'e'] then some (.boolean false, r)
      else
        match integer? token, float? token with
        | some n, _ => some (.integer n, r)
        | none, some x => some (.float x, r)
        | none, none => none

end BlockStage.Toml
