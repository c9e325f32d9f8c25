import BlockStage.Json.Basic
import BlockStage.Text.Hex
import BlockStage.Word

/-! # JSON documents

A `Doc` is a JSON text taken apart without judging it: keys may repeat, numbers may be out of
range, and where the text stops being JSON the tree holds a `broken` leaf after which nothing
follows. A reader that walks the tree from left to right therefore meets the first problem of the
text first, and it alone decides which parts it reads and which it skips over: some faults of
strings and numbers count only in what is read.
-/
namespace BlockStage.Json

open BlockStage.Text (isDigit number hexValue?)

/-- Why a text or a value is refused: it ends too early, it is no JSON, or it is JSON of another
shape than expected. -/
inductive Fault where
  | ended
  | malformed
  | unfit
  deriving Repr, DecidableEq

inductive Doc where
  | null
  | bool (b : Bool)
  /-- A number; reading it fails outside the range of floating point numbers. -/
  | number (n : Except Fault Number)
  /-- A string; reading it fails at a surrogate without its partner. -/
  | string (s : Except Fault String)
  /-- Items, and the fault in place of the closing bracket. -/
  | array (items : List Doc) (gap : Option Fault)
  | object (members : List (Except Fault String × Doc)) (gap : Option Fault)
  /-- No value: the fault for a reader, and the fault for one that skips it. -/
  | broken (onRead onSkip : Fault)

/-! ## Strings -/

inductive Piece where
  | char (c : Char)
  | high (n : Nat)
  | low (n : Nat)

inductive Mode where
  | plain
  | escape
  | hex (left value : Nat)

def Piece.ofUnit (n : Nat) : Piece :=
  if 0xD800 ≤ n && n ≤ 0xDBFF then .high n
  else if 0xDC00 ≤ n && n ≤ 0xDFFF then .low n
  else .char (Char.ofNat n)

def escaped? (c : Char) : Option Char :=
  match c with
  | '"' => some '"'
  | '\\' => some '\\'
  | '/' => some '/'
  | 'b' => some '\x08'
  | 'f' => some '\x0c'
  | 'n' => some '\n'
  | 'r' => some '\r'
  | 't' => some '\t'
  | _ => none

def fourBytesLeft (cs : List Char) : Bool :=
  4 ≤ (cs.take 4).foldl (fun n c => n + c.utf8Size) 0

/-- The pieces of a string after its opening quote, up to its closing quote or its first fault, and
the text after it. -/
def scanString : Mode → List Char → List Piece × Except Fault (List Char)
  | _, [] => ([], .error .ended)
  | .plain, c :: cs =>
    if c = '"' then ([], .ok cs)
    else if c = '\\' then scanString .escape cs
    else if c.toNat < 0x20 then ([], .error .malformed)
    else
      let (ps, rest) := scanString .plain cs
      (.char c :: ps, rest)
  | .escape, c :: cs =>
    if c = 'u' then
      if fourBytesLeft cs then scanString (.hex 4 0) cs else ([], .error .ended)
    else
      match escaped? c with
      | some d =>
        let (ps, rest) := scanString .plain cs
        (.char d :: ps, rest)
      | none => ([], .error .malformed)
  | .hex left value, c :: cs =>
    match hexValue? c with
    | none => ([], .error .malformed)
    | some d =>
      if left ≤ 1 then
        let (ps, rest) := scanString .plain cs
        (Piece.ofUnit (16 * value + d) :: ps, rest)
      else scanString (.hex (left - 1) (16 * value + d)) cs

def joinPair (high low : Nat) : Char :=
  Char.ofNat (0x10000 + (high - 0xD800) * 0x400 + (low - 0xDC00))

/-- The characters of a complete string; `none` if a surrogate has no partner. -/
def joinPieces : List Piece → Option (List Char)
  | [] => some []
  | .char c :: ps => (joinPieces ps).map (c :: ·)
  | .high h :: .low l :: ps => (joinPieces ps).map (joinPair h l :: ·)
  | _ => none

def hasLone : List Piece → Bool
  | [] => false
  | .char _ :: ps => hasLone ps
  | .high _ :: .low _ :: ps => hasLone ps
  | [.high _] => false
  | _ => true

structure StringToken where
  content : Except Fault String
  rest : Except (Fault × Fault) (List Char)

def stringToken (cs : List Char) : StringToken :=
  match scanString .plain cs with
  | (ps, .ok rest) =>
    match joinPieces ps with
    | some s => ⟨.ok (String.ofList s), .ok rest⟩
    | none => ⟨.error .malformed, .ok rest⟩
  | (ps, .error f) =>
    let onRead := if hasLone ps then .malformed else f
    ⟨.error onRead, .error (onRead, f)⟩

/-! ## Numbers -/

structure Numeral where
  negative : Bool
  whole : List Char
  fraction : Option (List Char)
  power : Option (Bool × List Char)

/-- A numeral without fraction and power that fits 64 bits is a whole number, any other a floating
point number; minus zero is one of the latter. -/
def Numeral.read (n : Numeral) : Except Fault Number :=
  let whole := number n.whole
  let asInt : Option Int :=
    if n.fraction.isSome || n.power.isSome then none
    else if n.negative then
      if 0 < whole && whole ≤ Word.signedLimit64 then some (-(whole : Int)) else none
    else if whole < Word.limit64 then some whole else none
  match asInt with
  | some i => .ok (.int i)
  | none =>
    let fraction := n.fraction.getD []
    let power : Int := match n.power with
      | none => 0
      | some (minus, ds) => if minus then -(number ds : Int) else number ds
    let x := Decimal.ofDecimal (number (n.whole ++ fraction)) (power - (fraction.length : Int))
    if x.isInf then .error .malformed
    else .ok (.float (if n.negative then -x else x))

/-- The faults of a number that lacks a digit here: at the end of the text a reader wants more text,
while skipping finds a bad number. -/
def lacksDigit : List Char → Fault × Fault
  | [] => (.ended, .malformed)
  | _ => (.malformed, .malformed)

def scanPower (cs : List Char) :
    Except (Fault × Fault) (Option (Bool × List Char) × List Char) :=
  match cs with
  | [] => .ok (none, [])
  | c :: r =>
    if c = 'e' ∨ c = 'E' then
      let (minus, r) := Decimal.takeSign r
      let ds := r.takeWhile isDigit
      if ds.isEmpty then .error (lacksDigit r)
      else .ok (some (minus, ds), r.dropWhile isDigit)
    else .ok (none, cs)

def scanFraction (negative : Bool) (whole cs : List Char) :
    Except (Fault × Fault) (Numeral × List Char) :=
  match cs with
  | '.' :: r =>
    let ds := r.takeWhile isDigit
    if ds.isEmpty then .error (lacksDigit r)
    else do
      let (power, rest) ← scanPower (r.dropWhile isDigit)
      return (⟨negative, whole, some ds, power⟩, rest)
  | _ => do
    let (power, rest) ← scanPower cs
    return (⟨negative, whole, none, power⟩, rest)

def scanNumber (cs : List Char) : Except (Fault × Fault) (Numeral × List Char) :=
  let (negative, cs) := match cs with
    | '-' :: r => (true, r)
    | _ => (false, cs)
  match cs with
  | '0' :: r =>
    match r with
    | d :: _ => if isDigit d then .error (.malformed, .malformed) else scanFraction negative ['0'] r
    | [] => scanFraction negative ['0'] r
  | _ =>
    let whole := cs.takeWhile isDigit
    if whole.isEmpty then .error (lacksDigit cs)
    else scanFraction negative whole (cs.dropWhile isDigit)

/-! ## Values -/

def isGap (c : Char) : Bool := c == ' ' || c == '\n' || c == '\t' || c == '\r'

def skipGaps (cs : List Char) : List Char := cs.dropWhile isGap

def scanWord : List Char → List Char → Except Fault (List Char)
  | [], cs => .ok cs
  | _ :: _, [] => .error .ended
  | w :: ws, c :: cs => if c = w then scanWord ws cs else .error .malformed

abbrev Scan (α : Type) := α × Option (List Char)

def wordDoc (d : Doc) (word cs : List Char) : Scan Doc :=
  match scanWord word cs with
  | .ok rest => (d, some rest)
  | .error f => (.broken f f, none)

def stringDoc (cs : List Char) : Scan Doc :=
  let t := stringToken cs
  match t.rest with
  | .ok rest => (.string t.content, some rest)
  | .error (onRead, onSkip) => (.broken onRead onSkip, none)

def numberDoc (cs : List Char) : Scan Doc :=
  match scanNumber cs with
  | .ok (n, rest) => (.number n.read, some rest)
  | .error (onRead, onSkip) => (.broken onRead onSkip, none)

mutual

/-- The value at the head of a text. Every third step takes a character, so a text never needs
more fuel than three units for each of its characters and three more. -/
def scanValue : (fuel : Nat) → List Char → Scan Doc
  | 0, _ => (.broken .ended .ended, none)
  | fuel + 1, cs =>
    match skipGaps cs with
    | [] => (.broken .ended .ended, none)
    | c :: rest =>
      if c = '"' then stringDoc rest
      else if c = '[' then
        let ((items, gap), rest) := scanItems fuel true rest
        (.array items gap, rest)
      else if c = '{' then
        let ((members, gap), rest) := scanMembers fuel true rest
        (.object members gap, rest)
      else if c = 'n' then wordDoc .null ['u', 'l', 'l'] rest
      else if c = 't' then wordDoc (.bool true) ['r', 'u', 'e'] rest
      else if c = 'f' then wordDoc (.bool false) ['a', 'l', 's', 'e'] rest
      else if c = '-' ∨ isDigit c then numberDoc (c :: rest)
      else (.broken .malformed .malformed, none)

/-- The items of an array from the place of an item or of the closing bracket on. Behind a comma an
item has to follow. -/
def scanItems : (fuel : Nat) → (first : Bool) → List Char → Scan (List Doc × Option Fault)
  | 0, _, _ => (([], some .ended), none)
  | fuel + 1, first, cs =>
    match skipGaps cs with
    | [] => (([], some .ended), none)
    | c :: rest =>
      if c = ']' then (([], none), some rest)
      else if first then scanItem fuel (c :: rest)
      else if c = ',' then
        match skipGaps rest with
        | [] => (([.broken .ended .ended], some .ended), none)
        | d :: rest =>
          if d = ']' then (([.broken .malformed .malformed], some .malformed), none)
          else scanItem fuel (d :: rest)
      else (([], some .malformed), none)

def scanItem : (fuel : Nat) → List Char → Scan (List Doc × Option Fault)
  | 0, _ => (([], some .ended), none)
  | fuel + 1, cs =>
    match scanValue fuel cs with
    | (d, none) => (([d], some .malformed), none)
    | (d, some rest) =>
      let ((items, gap), rest) := scanItems fuel false rest
      ((d :: items, gap), rest)

def scanMembers : (fuel : Nat) → (first : Bool) → List Char →
    Scan (List (Except Fault String × Doc) × Option Fault)
  | 0, _, _ => (([], some .ended), none)
  | fuel + 1, first, cs =>
    match skipGaps cs with
    | [] => (([], some .ended), none)
    | c :: rest =>
      if c = '}' then (([], none), some rest)
      else if first then
        if c = '"' then scanMember fuel rest else (([], some .malformed), none)
      else if c = ',' then
        match skipGaps rest with
        | [] => (([], some .ended), none)
        | d :: rest =>
          if d = '"' then scanMember fuel rest else (([], some .malformed), none)
      else (([], some .malformed), none)

def scanMember : (fuel : Nat) → List Char → Scan (List (Except Fault String × Doc) × Option Fault)
  | 0, _ => (([], some .ended), none)
  | fuel + 1, cs =>
    let key := stringToken cs
    match key.rest with
    | .error (onRead, onSkip) =>
      (([(key.content, .broken onRead onSkip)], some .malformed), none)
    | .ok rest =>
      match skipGaps rest with
      | [] => (([(key.content, .broken .ended .ended)], some .ended), none)
      | c :: rest =>
        if c = ':' then
          match scanValue fuel rest with
          | (d, none) => (([(key.content, d)], some .malformed), none)
          | (d, some rest) =>
            let ((members, gap), rest) := scanMembers fuel false rest
            (((key.content, d) :: members, gap), rest)
        else (([(key.content, .broken .malformed .malformed)], some .malformed), none)

end

structure Document where
  root : Doc
  trailing : Bool

def Document.ofChars (cs : List Char) : Document :=
  match scanValue (3 * cs.length + 3) cs with
  | (d, none) => ⟨d, false⟩
  | (d, some rest) => ⟨d, !(skipGaps rest).isEmpty⟩

namespace Doc

mutual

def skipFault : Doc → Option Fault
  | .array items gap => (skipItems items).or gap
  | .object members gap => (skipMembers members).or gap
  | .broken _ onSkip => some onSkip
  | _ => none

def skipItems : List Doc → Option Fault
  | [] => none
  | d :: ds => d.skipFault.or (skipItems ds)

def skipMembers : List (Except Fault String × Doc) → Option Fault
  | [] => none
  | (_, d) :: ds => d.skipFault.or (skipMembers ds)

end

/-- The fault of a document found in place of something else. What a container holds is not looked
at. -/
def mismatch : Doc → Fault
  | .broken onRead _ => onRead
  | .number (.error f) => f
  | .string (.error f) => f
  | _ => .unfit

mutual

def ofValue : Value → Doc
  | .null => .null
  | .bool b => .bool b
  | .number n => .number (.ok n)
  | .string s => .string (.ok s)
  | .array items => .array (ofItems items) none
  | .object members => .object (ofMembers members) none

def ofItems : List Value → List Doc
  | [] => []
  | v :: vs => ofValue v :: ofItems vs

def ofMembers : List (String × Value) → List (Except Fault String × Doc)
  | [] => []
  | (k, v) :: vs => (.ok k, ofValue v) :: ofMembers vs

end

end Doc

end BlockStage.Json
