import BlockStage.Json.Document
import BlockStage.Json.Printer
import BlockStage.Proofs.Decimal.Shortest
import BlockStage.Proofs.Digits

/-! # Numbers in JSON texts

A written number is a numeral, and the scan of a text takes a numeral for what it is. Whole numbers
of 64 bits and finite floating point numbers are read back as they were written.
-/
namespace BlockStage.Json

open BlockStage.Text (isDigit number digits EndsNumeral)
open BlockStage.Decimal (Scaled)

/-- A number in front of the text would end there. -/
def EndsNumber (rest : List Char) : Prop :=
  ∀ c ∈ rest.head?, isDigit c = false ∧ c ≠ '.' ∧ c ≠ 'e' ∧ c ≠ 'E'

theorem EndsNumber.numeral {rest : List Char} (ends : EndsNumber rest) : EndsNumeral rest :=
  fun c hc => (ends c hc).1

namespace Numeral

def fractionText : Option (List Char) → List Char
  | none => []
  | some ds => '.' :: ds

def powerText : Option (Bool × List Char) → List Char
  | none => []
  | some (minus, ds) => 'e' :: (if minus then '-' else '+') :: ds

def text (n : Numeral) : List Char :=
  Decimal.signed n.negative (n.whole ++ (fractionText n.fraction ++ powerText n.power))

/-- Parts that are there have digits, and the whole part has no leading zeros. -/
structure WellFormed (n : Numeral) : Prop where
  whole : ∀ c ∈ n.whole, isDigit c = true
  leading : n.whole = ['0'] ∨ ∃ c cs, n.whole = c :: cs ∧ c ≠ '0'
  fraction : ∀ ds ∈ n.fraction, ds ≠ [] ∧ ∀ c ∈ ds, isDigit c = true
  power : ∀ p ∈ n.power, p.2 ≠ [] ∧ ∀ c ∈ p.2, isDigit c = true

end Numeral

open Numeral (fractionText powerText)

section Scan

variable {rest : List Char} {fraction : Option (List Char)} {power : Option (Bool × List Char)}

theorem endsNumeral_powerText (ends : EndsNumber rest) : EndsNumeral (powerText power ++ rest) := by
  cases power with
  | none => exact ends.numeral
  | some p =>
    intro c hc
    obtain rfl : 'e' = c := by simpa [powerText] using hc
    decide

theorem endsNumeral_fractionText (ends : EndsNumber rest) :
    EndsNumeral (fractionText fraction ++ (powerText power ++ rest)) := by
  cases fraction with
  | none => exact endsNumeral_powerText ends
  | some ds =>
    intro c hc
    obtain rfl : '.' = c := by simpa [fractionText] using hc
    decide

theorem scanPower_text (ends : EndsNumber rest)
    (digits : ∀ p ∈ power, p.2 ≠ [] ∧ ∀ c ∈ p.2, isDigit c = true) :
    scanPower (powerText power ++ rest) = .ok (power, rest) := by
  cases power with
  | none =>
    cases rest with
    | nil => rfl
    | cons c cs =>
      obtain ⟨-, -, notSmall, notLarge⟩ := ends c rfl
      change scanPower (c :: cs) = _
      unfold scanPower
      dsimp only
      rw [if_neg (by simp [notSmall, notLarge])]
  | some p =>
    obtain ⟨minus, ds⟩ := p
    obtain ⟨nonempty, all⟩ := digits (minus, ds) rfl
    have sign : Decimal.takeSign ((if minus then '-' else '+') :: (ds ++ rest)) =
        (minus, ds ++ rest) := by
      cases minus <;> rfl
    change scanPower ('e' :: (if minus then '-' else '+') :: (ds ++ rest)) = _
    unfold scanPower
    dsimp only
    rw [if_pos (.inl rfl), sign]
    dsimp only
    rw [Text.takeWhile_digits all ends.numeral, Text.dropWhile_digits all ends.numeral,
      if_neg (by simpa using nonempty)]

theorem scanFraction_text (negative : Bool) (whole : List Char) (ends : EndsNumber rest)
    (digits : ∀ ds ∈ fraction, ds ≠ [] ∧ ∀ c ∈ ds, isDigit c = true)
    (digits' : ∀ p ∈ power, p.2 ≠ [] ∧ ∀ c ∈ p.2, isDigit c = true) :
    scanFraction negative whole (fractionText fraction ++ (powerText power ++ rest)) =
      .ok (⟨negative, whole, fraction, power⟩, rest) := by
  have scanned := scanPower_text ends digits'
  cases fraction with
  | none =>
    change scanFraction negative whole (powerText power ++ rest) = _
    have noPoint : ∀ r, powerText power ++ rest ≠ '.' :: r := by
      intro r same
      cases power with
      | none =>
        obtain rfl : rest = '.' :: r := same
        exact (ends '.' rfl).2.1 rfl
      | some p => cases same
    unfold scanFraction
    split
    next r same => exact absurd same (noPoint r)
    · rw [scanned]
      rfl
  | some ds =>
    obtain ⟨nonempty, all⟩ := digits ds rfl
    have ends' := @endsNumeral_powerText rest power ends
    have point (r : List Char) : scanFraction negative whole ('.' :: r) =
        if (r.takeWhile isDigit).isEmpty then .error (lacksDigit r)
        else scanPower (r.dropWhile isDigit) >>= fun scanned =>
          .ok (⟨negative, whole, some (r.takeWhile isDigit), scanned.1⟩, scanned.2) := rfl
    change scanFraction negative whole ('.' :: (ds ++ (powerText power ++ rest))) = _
    rw [point, Text.takeWhile_digits all ends', Text.dropWhile_digits all ends',
      if_neg (by simpa using nonempty), scanned]
    rfl

/-- The scan of a number behind its sign. -/
def scanMagnitude (negative : Bool) (cs : List Char) :
    Except (Fault × Fault) (Numeral × List Char) :=
  match cs with
  | '0' :: r =>
    match r with
    | d :: _ => if isDigit d then .error (.malformed, .malformed) else scanFraction negative ['0'] r
    | [] => scanFraction negative ['0'] r
  | _ =>
    if (cs.takeWhile isDigit).isEmpty then .error (lacksDigit cs)
    else scanFraction negative (cs.takeWhile isDigit) (cs.dropWhile isDigit)

theorem scanNumber_minus (cs : List Char) : scanNumber ('-' :: cs) = scanMagnitude true cs := rfl

theorem scanNumber_unsigned {c : Char} (unsigned : c ≠ '-') (cs : List Char) :
    scanNumber (c :: cs) = scanMagnitude false (c :: cs) := by
  unfold scanNumber
  split
  next negative r minus =>
    split at minus
    next same => exact absurd (List.cons.inj same).1 unsigned
    · obtain ⟨rfl, rfl⟩ := Prod.mk.inj minus
      rfl

theorem scanMagnitude_text (negative : Bool) {whole : List Char}
    (all : ∀ c ∈ whole, isDigit c = true)
    (leading : whole = ['0'] ∨ ∃ c cs, whole = c :: cs ∧ c ≠ '0') (ends : EndsNumeral rest) :
    scanMagnitude negative (whole ++ rest) = scanFraction negative whole rest := by
  rcases leading with rfl | ⟨c, cs, rfl, nonzero⟩
  · cases rest with
    | nil => rfl
    | cons d r =>
      have zero : scanMagnitude negative ('0' :: d :: r) =
        if isDigit d then .error (.malformed, .malformed)
        else scanFraction negative ['0'] (d :: r) := rfl
      change scanMagnitude negative ('0' :: d :: r) = _
      rw [zero, if_neg (by simp [ends d rfl])]
  · unfold scanMagnitude
    split
    next r same => exact absurd (List.cons.inj same).1 nonzero
    · rw [Text.takeWhile_digits all ends, Text.dropWhile_digits all ends, if_neg (by simp)]

/-- A numeral is taken from the text for what it is. -/
theorem scanNumber_text {n : Numeral} (wellFormed : n.WellFormed) (ends : EndsNumber rest) :
    scanNumber (n.text ++ rest) = .ok (n, rest) := by
  obtain ⟨negative, whole, fraction, power⟩ := n
  obtain ⟨all, leading, digits, digits'⟩ := wellFormed
  dsimp only at all leading digits digits'
  have scanned := scanMagnitude_text negative all leading
    (@endsNumeral_fractionText rest fraction power ends)
  rw [scanFraction_text negative whole ends digits digits'] at scanned
  unfold Numeral.text Decimal.signed
  dsimp only
  cases negative with
  | true =>
    rw [if_pos rfl, List.cons_append, scanNumber_minus, List.append_assoc, List.append_assoc]
    exact scanned
  | false =>
    rw [if_neg (by simp), List.append_assoc, List.append_assoc]
    obtain ⟨c, cs, front⟩ : ∃ c cs, whole = c :: cs := by
      rcases leading with zero | ⟨c, cs, front, -⟩
      · exact ⟨_, _, zero⟩
      · exact ⟨c, cs, front⟩
    have unsigned : c ≠ '-' := by
      rintro rfl
      have := all '-' (by simp [front])
      revert this
      decide
    rw [front] at scanned ⊢
    rw [List.cons_append] at scanned ⊢
    rw [scanNumber_unsigned unsigned]
    exact scanned

end Scan

namespace Numeral

/-- The digits of a numeral as one whole number. -/
def coefficient (n : Numeral) : Nat := number (n.whole ++ n.fraction.getD [])

def powerOfTen : Option (Bool × List Char) → Int
  | none => 0
  | some (minus, ds) => if minus then -(number ds : Int) else number ds

/-- The power of ten that the last digit counts. -/
def exponent (n : Numeral) : Int := powerOfTen n.power - ((n.fraction.getD []).length : Int)

theorem read_float {n : Numeral} (marked : (n.fraction.isSome || n.power.isSome) = true) :
    n.read =
      if (Decimal.ofDecimal n.coefficient n.exponent).isInf then .error .malformed
      else .ok (.float (if n.negative then -Decimal.ofDecimal n.coefficient n.exponent
        else Decimal.ofDecimal n.coefficient n.exponent)) := by
  unfold Numeral.read
  dsimp only
  rw [if_pos marked]
  rfl

theorem read_natural (k : Nat) (small : k < Word.limit64) :
    (Numeral.mk false (digits k) none none).read = .ok (.int k) := by
  unfold Numeral.read
  simp [Text.number_digits, small]

theorem read_negative (k : Nat) (small : k + 1 ≤ Word.signedLimit64) :
    (Numeral.mk true (digits (k + 1)) none none).read = .ok (.int (Int.negSucc k)) := by
  unfold Numeral.read
  simp [Text.number_digits, small, Int.negSucc_eq]

end Numeral

/-- The numeral that a decimal is written as, and what it stands for. -/
structure Writes (d : Scaled) (n : Numeral) : Prop where
  wellFormed : n.WellFormed
  marked : (n.fraction.isSome || n.power.isSome) = true
  unsigned : n.negative = false
  text : n.text = d.write numberStyle
  value : (n.coefficient : ℚ) * 10 ^ n.exponent = d.value

section Forms

variable {d : Scaled} {n : Numeral} {whole : Int}

theorem Writes.of_exact (wellFormed : n.WellFormed)
    (marked : (n.fraction.isSome || n.power.isSome) = true) (unsigned : n.negative = false)
    (text : n.text = d.write numberStyle) (coefficient : n.coefficient = d.coefficient)
    (exponent : n.exponent = d.exponent) : Writes d n := by
  refine ⟨wellFormed, marked, unsigned, text, ?_⟩
  rw [coefficient, exponent]
  rfl

theorem isDigit_of_mem_zeros {n : Nat} {c : Char} (h : c ∈ List.replicate n '0') :
    isDigit c = true := by
  rw [List.eq_of_mem_replicate h]
  decide

theorem isDigit_of_mem_append {cs ds : List Char} (left : ∀ c ∈ cs, isDigit c = true)
    (right : ∀ c ∈ ds, isDigit c = true) : ∀ c ∈ cs ++ ds, isDigit c = true := by
  intro c hc
  exact (List.mem_append.mp hc).elim (left c) (right c)

theorem writes_zero (zero : d.coefficient = 0) : Writes d ⟨false, ['0'], some ['0'], none⟩ := by
  have digit : ∀ c ∈ ['0'], isDigit c = true := fun _ => isDigit_of_mem_zeros (n := 1)
  refine ⟨⟨digit, .inl rfl, ?_, ?_⟩, rfl, rfl, ?_, ?_⟩
  · rintro ds ⟨⟩
    exact ⟨by simp, digit⟩
  · rintro p ⟨⟩
  · unfold Scaled.write
    rw [if_pos (by simpa using zero)]
    rfl
  · simp [Numeral.coefficient, Scaled.value, zero, number, Text.digitValue]

variable (pos : 0 < d.coefficient) (length : (digits d.coefficient).length + d.exponent = whole)
include pos length

theorem write_eq : d.write numberStyle =
    if numberStyle.positional (whole - 1) then
      Decimal.positionalForm true (digits d.coefficient) whole
    else Decimal.scientificForm (digits d.coefficient) (whole - 1) := by
  unfold Scaled.write
  rw [if_neg (by simpa using pos.ne')]
  dsimp only
  rw [length]
  rfl

theorem writes_below_one (positional : numberStyle.positional (whole - 1) = true)
    (small : whole ≤ 0) :
    Writes d ⟨false, ['0'],
      some (List.replicate (-whole).toNat '0' ++ digits d.coefficient), none⟩ := by
  refine .of_exact ⟨fun c hc => ?_, .inl rfl, ?_, ?_⟩ rfl rfl ?_ ?_ ?_
  · obtain rfl := List.mem_singleton.mp hc
    decide
  · rintro ds ⟨⟩
    exact ⟨by simp [Text.digits_ne_nil], isDigit_of_mem_append (fun _ => isDigit_of_mem_zeros)
      (fun _ => Text.isDigit_of_mem_digits)⟩
  · rintro p ⟨⟩
  · rw [write_eq pos length, if_pos positional]
    unfold Decimal.positionalForm
    rw [if_pos small]
    simp [Numeral.text, Decimal.signed, fractionText, powerText]
  · change number (List.replicate ((-whole).toNat + 1) '0' ++ digits d.coefficient) = _
    rw [Text.number_zeros_append, Text.number_digits]
  · simp only [Numeral.exponent, Numeral.powerOfTen, Option.getD_some, List.length_append,
      List.length_replicate]
    omega

theorem writes_inside (positional : numberStyle.positional (whole - 1) = true) (large : 0 < whole)
    (inside : whole.toNat < (digits d.coefficient).length) :
    Writes d ⟨false, (digits d.coefficient).take whole.toNat,
      some ((digits d.coefficient).drop whole.toNat), none⟩ := by
  refine .of_exact
    ⟨fun c hc => Text.isDigit_of_mem_digits (List.mem_of_mem_take hc), .inr ?_, ?_, ?_⟩
    rfl rfl ?_ ?_ ?_
  · obtain ⟨c, cs, front, nonzero⟩ := Text.digits_head pos
    refine ⟨c, cs.take (whole.toNat - 1), ?_, nonzero⟩
    have : whole.toNat = whole.toNat - 1 + 1 := by omega
    dsimp only
    rw [front, this, List.take_succ_cons, Nat.add_sub_cancel]
  · rintro ds ⟨⟩
    refine ⟨?_, fun c hc => Text.isDigit_of_mem_digits (List.mem_of_mem_drop hc)⟩
    rw [Ne, List.drop_eq_nil_iff]
    omega
  · rintro p ⟨⟩
  · rw [write_eq pos length, if_pos positional]
    unfold Decimal.positionalForm
    rw [if_neg (by omega), if_pos inside]
    simp [Numeral.text, Decimal.signed, fractionText, powerText]
  · simp only [Numeral.coefficient, Option.getD_some, List.take_append_drop, Text.number_digits]
  · simp only [Numeral.exponent, Numeral.powerOfTen, Option.getD_some, List.length_drop]
    omega

theorem writes_whole (positional : numberStyle.positional (whole - 1) = true) (large : 0 < whole)
    (outside : ¬ whole.toNat < (digits d.coefficient).length) :
    Writes d ⟨false, digits d.coefficient ++
      List.replicate (whole.toNat - (digits d.coefficient).length) '0', some ['0'], none⟩ := by
  refine ⟨⟨isDigit_of_mem_append (fun _ => Text.isDigit_of_mem_digits)
    (fun _ => isDigit_of_mem_zeros), .inr ?_, ?_, ?_⟩, rfl, rfl, ?_, ?_⟩
  · obtain ⟨c, cs, front, nonzero⟩ := Text.digits_head pos
    exact ⟨c, cs ++ List.replicate (whole.toNat - (c :: cs).length) '0', by simp [front], nonzero⟩
  · rintro ds ⟨⟩
    exact ⟨by simp, fun _ => isDigit_of_mem_zeros (n := 1)⟩
  · rintro p ⟨⟩
  · rw [write_eq pos length, if_pos positional]
    unfold Decimal.positionalForm
    rw [if_neg (by omega), if_neg outside]
    simp [Numeral.text, Decimal.signed, fractionText, powerText]
  · have coefficient : Numeral.coefficient ⟨false, digits d.coefficient ++
        List.replicate (whole.toNat - (digits d.coefficient).length) '0', some ['0'], none⟩ =
        d.coefficient * 10 ^ (d.exponent.toNat + 1) := by
      change number (_ ++ List.replicate 1 '0') = _
      rw [Text.number_append_zeros, Text.number_append_zeros, Text.number_digits, pow_succ,
        mul_assoc]
      congr 3
      omega
    have exponent : (d.exponent.toNat : Int) = d.exponent := by omega
    rw [coefficient]
    change _ * (10 : ℚ) ^ (0 - 1 : Int) = _
    unfold Scaled.value
    push_cast
    rw [pow_succ, ← zpow_natCast, exponent]
    norm_num
    ring

/-- The fraction of a number with a power of ten: the digits behind the first one, if there are
any. -/
def fractionOf : List Char → Option (List Char)
  | [] => none
  | ds => some ds

omit pos length in
theorem scientificForm_eq (c : Char) (cs : List Char) (power : Int) :
    Decimal.scientificForm (c :: cs) power = [c] ++ (fractionText (fractionOf cs) ++
      powerText (some (decide (power < 0), digits power.natAbs))) := by
  unfold Decimal.scientificForm
  cases cs <;> by_cases negative : power < 0 <;>
    simp [fractionOf, fractionText, powerText, negative]

theorem writes_scientific (scientific : ¬ numberStyle.positional (whole - 1) = true) {c : Char}
    {cs : List Char} (front : digits d.coefficient = c :: cs) (nonzero : c ≠ '0') :
    Writes d ⟨false, [c], fractionOf cs,
      some (decide (whole - 1 < 0), digits (whole - 1).natAbs)⟩ := by
  have digit : ∀ x ∈ c :: cs, isDigit x = true := by
    intro x hx
    rw [← front] at hx
    exact Text.isDigit_of_mem_digits hx
  have joined : [c] ++ (fractionOf cs).getD [] = c :: cs := by cases cs <;> rfl
  refine .of_exact ⟨fun x hx => ?_, .inr ⟨c, [], rfl, nonzero⟩, fun ds hds => ?_, ?_⟩
    ?_ rfl ?_ ?_ ?_
  · obtain rfl := List.mem_singleton.mp hx
    exact digit x (by simp)
  · cases cs with
    | nil => cases hds
    | cons y ys =>
      obtain rfl := Option.some.inj hds
      exact ⟨by simp, fun x hx => digit x (by simp [hx])⟩
  · rintro p ⟨⟩
    exact ⟨Text.digits_ne_nil _, fun _ => Text.isDigit_of_mem_digits⟩
  · simp
  · rw [write_eq pos length, if_neg scientific, front, scientificForm_eq]
    rfl
  · unfold Numeral.coefficient
    rw [joined, ← front, Text.number_digits]
  · have rest : ((fractionOf cs).getD []).length + 1 = (digits d.coefficient).length := by
      rw [front, ← joined]
      simp
    simp only [Numeral.exponent, Numeral.powerOfTen, Text.number_digits, decide_eq_true_eq]
    split <;> omega

end Forms

theorem exists_writes (d : Scaled) : ∃ n, Writes d n := by
  by_cases zero : d.coefficient = 0
  · exact ⟨_, writes_zero zero⟩
  have pos : 0 < d.coefficient := by omega
  obtain ⟨whole, length⟩ : ∃ w, ((digits d.coefficient).length : Int) + d.exponent = w := ⟨_, rfl⟩
  by_cases positional : numberStyle.positional (whole - 1) = true
  · by_cases small : whole ≤ 0
    · exact ⟨_, writes_below_one pos length positional small⟩
    by_cases inside : whole.toNat < (digits d.coefficient).length
    · exact ⟨_, writes_inside pos length positional (by omega) inside⟩
    · exact ⟨_, writes_whole pos length positional (by omega) inside⟩
  · obtain ⟨c, cs, front, nonzero⟩ := Text.digits_head pos
    exact ⟨_, writes_scientific pos length positional front nonzero⟩

/-- The numbers of JSON values: whole numbers of 64 bits and finite floating point numbers. -/
def Number.Fits : Number → Prop
  | .int n => -(Word.signedLimit64 : Int) ≤ n ∧ n < Word.limit64
  | .float x => x.isFinite = true

theorem wellFormed_digits (negative : Bool) (k : Nat) :
    (Numeral.mk negative (digits k) none none).WellFormed where
  whole c hc := Text.isDigit_of_mem_digits hc
  leading := by
    by_cases zero : k = 0
    · exact .inl (zero ▸ Text.digits_zero)
    · exact .inr (Text.digits_head (by omega))
  fraction ds h := by cases h
  power p h := by cases h

theorem Number.exists_numeral {n : Number} (fits : n.Fits) :
    ∃ m : Numeral, m.WellFormed ∧ n.write = m.text ∧ m.read = .ok n := by
  cases n with
  | int i =>
    obtain ⟨low, high⟩ := fits
    cases i with
    | ofNat k =>
      refine ⟨⟨false, digits k, none, none⟩, wellFormed_digits _ k, ?_, ?_⟩
      · simp [Number.write, Text.signedDigits, Numeral.text, Decimal.signed, fractionText,
          powerText]
      · exact Numeral.read_natural k (by simpa using high)
    | negSucc k =>
      refine ⟨⟨true, digits (k + 1), none, none⟩, wellFormed_digits _ (k + 1), ?_, ?_⟩
      · simp [Number.write, Text.signedDigits, Numeral.text, Decimal.signed, fractionText,
          powerText]
      · exact Numeral.read_negative k (by omega)
  | float x =>
    obtain ⟨negative, b, shape⟩ := Decimal.isFinite_iff.mp fits
    obtain ⟨m, wellFormed, marked, unsigned, text, value⟩ := exists_writes (b.shortest .even)
    have read := Decimal.shape_ofDecimal_shortest (Decimal.canonical_of_shape shape) .even value
    refine ⟨{ m with negative := negative }, ?_, ?_, ?_⟩
    · exact ⟨wellFormed.whole, wellFormed.leading, wellFormed.fraction, wellFormed.power⟩
    · unfold Numeral.text at text ⊢
      rw [unsigned, Decimal.signed, if_neg (by simp)] at text
      dsimp only
      rw [text, Number.write, Decimal.Style.write, shape]
      rfl
    · refine (Numeral.read_float (n := { m with negative := negative }) marked).trans ?_
      have back : (if negative then -Decimal.ofDecimal m.coefficient m.exponent
          else Decimal.ofDecimal m.coefficient m.exponent) = x := by
        cases negative with
        | true => exact Decimal.neg_eq_of_shape shape read
        | false => exact Decimal.eq_of_shape read shape
      change (if (Decimal.ofDecimal m.coefficient m.exponent).isInf then .error Fault.malformed
        else Except.ok (Number.float (if negative then -Decimal.ofDecimal m.coefficient m.exponent
          else Decimal.ofDecimal m.coefficient m.exponent))) = _
      rw [if_neg (by simp [Decimal.isInf_of_shape read]), back]

theorem numberDoc_write {n : Number} (fits : n.Fits) {rest : List Char} (ends : EndsNumber rest) :
    numberDoc (n.write ++ rest) = (.number (.ok n), some rest) := by
  obtain ⟨m, wellFormed, text, read⟩ := n.exists_numeral fits
  unfold numberDoc
  rw [text, scanNumber_text wellFormed ends]
  dsimp only
  rw [read]

theorem Number.write_head {n : Number} (fits : n.Fits) :
    ∃ c cs, n.write = c :: cs ∧ (c = '-' ∨ isDigit c = true) := by
  obtain ⟨m, wellFormed, text, -⟩ := n.exists_numeral fits
  obtain ⟨c, cs, front⟩ : ∃ c cs, m.whole = c :: cs := by
    rcases wellFormed.leading with zero | ⟨c, cs, front, -⟩
    · exact ⟨_, _, zero⟩
    · exact ⟨c, cs, front⟩
  rw [text, Numeral.text, Decimal.signed]
  split
  · exact ⟨_, _, rfl, .inl rfl⟩
  · rw [front, List.cons_append]
    exact ⟨_, _, rfl, .inr (wellFormed.whole c (by simp [front]))⟩

theorem Numeral.read_fits {n : Numeral} {x : Number} (read : n.read = .ok x) : x.Fits := by
  unfold Numeral.read at read
  dsimp only at read
  split at read
  next i whole =>
    obtain rfl := Except.ok.inj read
    split at whole
    · cases whole
    split at whole
    · split at whole
      next range =>
        obtain rfl := Option.some.inj whole
        simp only [Bool.and_eq_true, decide_eq_true_eq] at range
        exact ⟨by omega, by omega⟩
      · cases whole
    · split at whole
      next range =>
        obtain rfl := Option.some.inj whole
        exact ⟨by omega, by omega⟩
      · cases whole
  · generalize value : Decimal.ofDecimal _ _ = y at read
    have defined : y.isNaN = false := value ▸ Decimal.ofDecimal_isNaN _ _
    split at read
    · cases read
    next bounded =>
      obtain rfl := Except.ok.inj read
      have finite := Decimal.isFinite_of_isInf defined (by simpa using bounded)
      change (if n.negative then -y else y).isFinite = true
      split
      · exact Decimal.isFinite_neg finite
      · exact finite

end BlockStage.Json
