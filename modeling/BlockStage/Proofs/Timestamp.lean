import BlockStage.Proofs.Digits
import BlockStage.Timestamp

/-! # Written points in time

A point in time is read back from what it is written as.
-/
namespace BlockStage

open Text (isDigit number digits padded EndsNumeral)

namespace Text

theorem length_digits_le {n w : Nat} (h : n < 10 ^ (w + 1)) : (digits n).length ≤ w + 1 := by
  induction w generalizing n with
  | zero =>
    unfold digits
    rw [if_pos (by simpa using h)]
    exact Nat.le_refl 1
  | succ w ih =>
    unfold digits
    split
    · simp
    · have shorter := @ih (n / 10) (by rw [pow_succ] at h; omega)
      simpa using shorter

theorem length_padded {n w : Nat} (h : n < 10 ^ (w + 1)) : (padded (w + 1) n).length = w + 1 := by
  have bound := length_digits_le h
  simp only [padded, List.length_append, List.length_replicate]
  omega

theorem isDigit_of_mem_padded {w n : Nat} {c : Char} (h : c ∈ padded w n) : isDigit c = true := by
  rcases List.mem_append.mp h with h | h
  · rw [List.eq_of_mem_replicate h]
    decide
  · exact isDigit_of_mem_digits h

theorem number_padded (w n : Nat) : number (padded w n) = n := by
  rw [padded, number_zeros_append, number_digits]

theorem padded_ne_nil (w n : Nat) : padded w n ≠ [] := by
  simp [padded, digits_ne_nil]

theorem isBlank_of_isDigit {c : Char} (h : isDigit c = true) : isBlank c = false := by
  simp only [isDigit, Bool.and_eq_true, decide_eq_true_eq] at h
  have low : 48 ≤ c.toNat := h.1
  have high : c.toNat ≤ 57 := h.2
  simp only [isBlank, Bool.or_eq_false_iff, Bool.and_eq_false_iff, decide_eq_false_iff_not,
    beq_eq_false_iff_ne]
  omega

end Text

namespace Timestamp

variable {ds rest : List Char}

theorem skipBlanks_cons {c : Char} (h : Text.isBlank c = false) :
    skipBlanks (c :: rest) = c :: rest := by
  rw [skipBlanks, List.dropWhile_cons_of_neg (by simp [h])]

theorem skipBlanks_digits (all : ∀ c ∈ ds, isDigit c = true) (nonempty : ds ≠ []) :
    skipBlanks (ds ++ rest) = ds ++ rest := by
  obtain ⟨c, cs, rfl⟩ := List.exists_cons_of_ne_nil nonempty
  exact skipBlanks_cons (Text.isBlank_of_isDigit (all c List.mem_cons_self))

theorem expect_cons {c : Char} (h : Text.isBlank c = false) : expect c (c :: rest) = some rest := by
  rw [expect, skipBlanks_cons h]
  exact if_pos rfl

/-- A numeral that is not too long is read up to the first character that is no digit, or as far as
it may go. -/
theorem numeral_digits {most : Nat} (all : ∀ c ∈ ds, isDigit c = true) (nonempty : ds ≠ [])
    (ends : EndsNumeral rest ∧ ds.length ≤ most ∨ ds.length = most) :
    numeral most (ds ++ rest) = some (number ds, rest) := by
  have front : ((ds ++ rest).takeWhile isDigit).take most = ds := by
    rcases ends with ⟨ends, short⟩ | rfl
    · rw [Text.takeWhile_digits all ends, List.take_of_length_le short]
    · rw [List.takeWhile_append_of_pos all, List.take_left]
  rw [numeral, front]
  simp [nonempty]

theorem readField_padded {n : Nat} (h : n < 100) :
    readField (padded 2 n ++ rest) = some (n, rest) := by
  rw [readField, skipBlanks_digits (fun _ => Text.isDigit_of_mem_padded) (Text.padded_ne_nil 2 n),
    numeral_digits (fun _ => Text.isDigit_of_mem_padded) (Text.padded_ne_nil 2 n)
      (.inr (Text.length_padded (w := 1) h)), Text.number_padded]

theorem head_ne_of_digits {c : Char} {cs : List Char} (all : ∀ c ∈ ds, isDigit c = true)
    (nonempty : ds ≠ []) (h : isDigit c = false) : ds ++ rest ≠ c :: cs := by
  obtain ⟨d, ds, rfl⟩ := List.exists_cons_of_ne_nil nonempty
  rintro ⟨⟩
  simp [all c List.mem_cons_self] at h

theorem readYear_writeYear (year : Int) (ends : EndsNumeral rest) :
    readYear (writeYear year ++ rest) = some (year, rest) := by
  have all {w n : Nat} : ∀ c ∈ padded w n, isDigit c = true := fun _ => Text.isDigit_of_mem_padded
  have signed (n : Nat) :
      numeral (padded 4 n ++ rest).length (padded 4 n ++ rest) = some (n, rest) := by
    rw [numeral_digits all (Text.padded_ne_nil 4 n) (.inl ⟨ends, by simp⟩), Text.number_padded]
  unfold writeYear
  split
  next plain =>
    obtain ⟨n, rfl⟩ := Int.eq_ofNat_of_zero_le plain.1
    have nonempty := Text.padded_ne_nil 4 n
    have width : (padded 4 n).length = 4 := Text.length_padded (w := 3) (by omega)
    rw [Int.toNat_natCast, readYear, skipBlanks_digits all nonempty]
    split
    next h => exact absurd h (head_ne_of_digits all nonempty (by decide))
    next h => exact absurd h (head_ne_of_digits all nonempty (by decide))
    next => rw [numeral_digits all nonempty (.inr width), Text.number_padded]; rfl
  next large =>
    split
    next negative =>
      have back : -(year.natAbs : Int) = year := by omega
      rw [List.cons_append, readYear, skipBlanks_cons (by decide)]
      simp only [signed, Option.map_some, back]
    next =>
      have back : (year.natAbs : Int) = year := by omega
      rw [List.cons_append, readYear, skipBlanks_cons (by decide)]
      simp only [signed, Option.map_some, back]

theorem endsNumeral_cons {c : Char} (h : isDigit c = false) : EndsNumeral (c :: rest) := by
  rintro d ⟨⟩
  exact h

theorem readFraction_padded {w n : Nat} (narrow : w < 9) (h : n < 10 ^ (w + 1))
    (ends : EndsNumeral rest) :
    readFraction ('.' :: padded (w + 1) n ++ rest) = some (n * 10 ^ (9 - (w + 1)), rest) := by
  have width := Text.length_padded h
  have nonempty := Text.padded_ne_nil (w + 1) n
  rw [List.cons_append, readFraction,
    Text.takeWhile_digits (fun _ => Text.isDigit_of_mem_padded) ends,
    List.take_of_length_le (by omega), Text.number_padded, List.drop_left, width]
  simp [nonempty]

theorem readFraction_writeFraction {nano : Nat} (h : nano < 1000000000) :
    readFraction (writeFraction nano ++ 'Z' :: rest) = some (nano, 'Z' :: rest) := by
  have ends : EndsNumeral ('Z' :: rest) := endsNumeral_cons (by decide)
  unfold writeFraction
  split
  next zero => subst zero; rfl
  split
  next =>
    rw [readFraction_padded (w := 2) (by decide) (by omega) ends]
    congr 2
    omega
  split
  next =>
    rw [readFraction_padded (w := 5) (by decide) (by omega) ends]
    congr 2
    omega
  next =>
    rw [readFraction_padded (w := 8) (by decide) (by omega) ends]
    simp

theorem back_zero {t : Timestamp} (valid : t.isValid = true) : t.back 0 = t := by
  simp only [isValid, Bool.and_eq_true, decide_eq_true_eq] at valid
  obtain ⟨⟨⟨⟨-, hour⟩, minute⟩, -⟩, -⟩ := valid
  have minutes : (t.hour : Int) * 60 + t.minute - 0 = (t.hour * 60 + t.minute : Nat) := by omega
  have hours : (t.hour * 60 + t.minute) / 60 = t.hour := by omega
  have rest : (t.hour * 60 + t.minute) % 60 = t.minute := by omega
  simp only [back, minutes]
  rw [if_neg (by omega), if_neg (by omega), Int.toNat_natCast, hours, rest]

theorem daysInMonth_le (year : Int) (month : Nat) : daysInMonth year month ≤ 31 := by
  unfold daysInMonth
  grind

theorem next_some {α β : Type} {x : Option α} {f : α → Option β} {a : α} {b : β} (h : x = some a)
    (rest : f a = some b) : x >>= f = some b := by
  rw [h]
  exact rest

theorem read?_write {t : Timestamp} (valid : t.isValid = true) : read? t.write = some t := by
  have fields := valid
  simp only [isValid, Bool.and_eq_true, decide_eq_true_eq] at fields
  obtain ⟨⟨⟨⟨⟨⟨⟨⟨year, -⟩, month⟩, -⟩, day⟩, hour⟩, minute⟩, second⟩, nano⟩ := fields
  have short := daysInMonth_le t.year t.month
  have dash : Text.isBlank '-' = false := by decide
  have colon : Text.isBlank ':' = false := by decide
  have ends {rest : List Char} : EndsNumeral ('-' :: rest) := endsNumeral_cons (by decide)
  simp only [write, List.append_assoc, List.cons_append]
  refine next_some (readYear_writeYear t.year ends) ?_
  refine next_some (expect_cons dash) (next_some (readField_padded (n := t.month) (by omega)) ?_)
  refine next_some (expect_cons dash) (next_some (readField_padded (n := t.day) (by omega)) ?_)
  refine next_some rfl (next_some (readField_padded (n := t.hour) (by omega)) ?_)
  refine next_some (expect_cons colon) (next_some (readField_padded (n := t.minute) (by omega)) ?_)
  refine next_some (expect_cons colon) (next_some (readField_padded (n := t.second) (by omega)) ?_)
  refine next_some (readFraction_writeFraction nano) (next_some (a := (0, [])) ?_ ?_)
  · rw [skipBlanks_cons (by decide)]
    rfl
  have whole :
      (t.isValid && (skipBlanks []).isEmpty && decide ((0 : Int).natAbs < 1440)) = true := by
    simp [valid, skipBlanks]
  refine (if_pos whole).trans ?_
  simp only [back_zero valid, year, if_true]

end Timestamp

end BlockStage
