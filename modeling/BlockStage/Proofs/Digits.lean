import BlockStage.Text.Digit
import Mathlib.Data.List.Induction
import Mathlib.Tactic.Ring

/-! # Numerals

What readers rely on in numerals: they are digits, they end where no digit follows, and without
leading zeros only the numeral of zero begins with one.
-/
namespace BlockStage.Text

theorem isDigit_digitChar {d : Nat} (h : d < 10) : isDigit (digitChar d) = true := by
  match d, h with
  | 0, _ | 1, _ | 2, _ | 3, _ | 4, _ | 5, _ | 6, _ | 7, _ | 8, _ | 9, _ => decide

theorem isDigit_of_mem_digits {n : Nat} {c : Char} (h : c ∈ digits n) : isDigit c = true := by
  induction n using Nat.strongRecOn with
  | _ n ih =>
    unfold digits at h
    split at h
    next small =>
      obtain rfl := List.mem_singleton.mp h
      exact isDigit_digitChar small
    next large =>
      rcases List.mem_append.mp h with h | h
      · exact ih (n / 10) (by omega) h
      · obtain rfl := List.mem_singleton.mp h
        exact isDigit_digitChar (Nat.mod_lt n (by decide))

theorem digits_zero : digits 0 = ['0'] := by
  unfold digits
  rfl

theorem digitChar_ne_zero {d : Nat} (pos : 0 < d) (h : d < 10) : digitChar d ≠ '0' := by
  match d, h with
  | 1, _ | 2, _ | 3, _ | 4, _ | 5, _ | 6, _ | 7, _ | 8, _ | 9, _ => decide

theorem digits_head {n : Nat} (pos : 0 < n) : ∃ c cs, digits n = c :: cs ∧ c ≠ '0' := by
  induction n using Nat.strongRecOn with
  | _ n ih =>
    unfold digits
    split
    next small => exact ⟨_, [], rfl, digitChar_ne_zero pos small⟩
    next large =>
      obtain ⟨c, cs, front, differs⟩ := ih (n / 10) (by omega) (by omega)
      exact ⟨c, cs ++ [digitChar (n % 10)], by rw [front, List.cons_append], differs⟩

theorem number_append (cs ds : List Char) :
    number (cs ++ ds) = number cs * 10 ^ ds.length + number ds := by
  induction ds using List.reverseRecOn with
  | nil => simp [number]
  | append_singleton ds d ih =>
    rw [← List.append_assoc, number_append_singleton, ih, number_append_singleton,
      List.length_append]
    simp only [List.length_singleton]
    ring

theorem number_zeros (n : Nat) : number (List.replicate n '0') = 0 := by
  induction n with
  | zero => rfl
  | succ n ih =>
    rw [List.replicate_succ', number_append_singleton, ih]
    rfl

theorem number_zeros_append (n : Nat) (cs : List Char) :
    number (List.replicate n '0' ++ cs) = number cs := by
  rw [number_append, number_zeros, Nat.zero_mul, Nat.zero_add]

theorem number_append_zeros (cs : List Char) (n : Nat) :
    number (cs ++ List.replicate n '0') = number cs * 10 ^ n := by
  rw [number_append, number_zeros, List.length_replicate, Nat.add_zero]

/-- A numeral in front of the text would end there. -/
def EndsNumeral (rest : List Char) : Prop := ∀ c ∈ rest.head?, isDigit c = false

variable {ds rest : List Char}

theorem takeWhile_digits (all : ∀ c ∈ ds, isDigit c = true) (ends : EndsNumeral rest) :
    (ds ++ rest).takeWhile isDigit = ds := by
  rw [List.takeWhile_append_of_pos all]
  cases rest with
  | nil => simp
  | cons c cs => simp [ends c rfl]

theorem dropWhile_digits (all : ∀ c ∈ ds, isDigit c = true) (ends : EndsNumeral rest) :
    (ds ++ rest).dropWhile isDigit = rest := by
  rw [List.dropWhile_append_of_pos all]
  cases rest with
  | nil => rfl
  | cons c cs => simp [ends c rfl]

end BlockStage.Text
