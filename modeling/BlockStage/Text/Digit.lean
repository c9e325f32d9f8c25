/-! # Decimal digits

Numerals are lists of characters, the most significant digit first. `digits` writes the one
numeral without leading zeros, `number` reads any numeral.
-/
namespace BlockStage.Text

def isDigit (c : Char) : Bool := '0' ≤ c && c ≤ '9'

def digitValue (c : Char) : Nat := c.toNat - '0'.toNat

def digitChar (d : Nat) : Char := Char.ofNat ('0'.toNat + d)

def digits (n : Nat) : List Char :=
  if n < 10 then [digitChar n] else digits (n / 10) ++ [digitChar (n % 10)]
termination_by n

def number (cs : List Char) : Nat :=
  cs.foldl (fun n c => 10 * n + digitValue c) 0

def padded (width n : Nat) : List Char :=
  let ds := digits n
  List.replicate (width - ds.length) '0' ++ ds

def signedDigits : Int → List Char
  | .ofNat n => digits n
  | .negSucc n => '-' :: digits (n + 1)

theorem digits_ne_nil (n : Nat) : digits n ≠ [] := by
  unfold digits
  split <;> simp

theorem digitValue_digitChar {d : Nat} (h : d < 10) : digitValue (digitChar d) = d := by
  match d, h with
  | 0, _ | 1, _ | 2, _ | 3, _ | 4, _ | 5, _ | 6, _ | 7, _ | 8, _ | 9, _ => decide

theorem number_append_singleton (cs : List Char) (c : Char) :
    number (cs ++ [c]) = 10 * number cs + digitValue c := by
  simp [number, List.foldl_append]

theorem number_digits (n : Nat) : number (digits n) = n := by
  induction n using Nat.strongRecOn with
  | _ n ih =>
    unfold digits
    split
    next h => simp [number, digitValue_digitChar h]
    next h =>
      rw [number_append_singleton, ih (n / 10) (by omega), digitValue_digitChar (by omega)]
      omega

end BlockStage.Text
