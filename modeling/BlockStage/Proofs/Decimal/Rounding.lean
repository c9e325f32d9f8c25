import BlockStage.Decimal.Reader
import BlockStage.Proofs.Decimal.Shape

/-! # Rounding to the nearest number

A rational in the interval of a magnitude is rounded to that magnitude, on every way that a decimal
takes: as a product or as a quotient, through the small powers of ten or through large whole
numbers.
-/
namespace BlockStage.Decimal

open Float.Model (UnpackedFloat Format totalExponent)
open Float.Model.UnpackedFloat (Sign Accuracy ExtendedMantissa roundWithAccuracy
  shiftToTargetExponent shiftToExponent)

/-- The rationals that are rounded to the magnitude; the ends of the interval count if the
significand is even. -/
structure Binary.Around (b : Binary) (q : ℚ) : Prop where
  lower : (b.lower : ℚ) / 4 * 2 ^ b.exponent ≤ q
  upper : q ≤ (b.upper : ℚ) / 4 * 2 ^ b.exponent
  odd : b.significand % 2 = 1 →
    (b.lower : ℚ) / 4 * 2 ^ b.exponent < q ∧ q < (b.upper : ℚ) / 4 * 2 ^ b.exponent

/-- What a mantissa with its two further bits tells of a number. -/
inductive Represents : ExtendedMantissa → ℚ → Prop where
  | exact (m : Nat) : Represents ⟨m, false, false⟩ m
  | below {m : Nat} {y : ℚ} (low : m < y) (high : y < m + 1 / 2) : Represents ⟨m, false, true⟩ y
  | half (m : Nat) : Represents ⟨m, true, false⟩ (m + 1 / 2)
  | above {m : Nat} {y : ℚ} (low : m + 1 / 2 < y) (high : y < m + 1) : Represents ⟨m, true, true⟩ y

theorem nat_eq_of_near {k m : Nat} (below : (k : ℚ) < m + 1) (above : (m : ℚ) < k + 1) :
    k = m := by
  have below : k < m + 1 := by exact_mod_cast below
  have above : m < k + 1 := by exact_mod_cast above
  omega

namespace Represents

variable {em : ExtendedMantissa} {y : ℚ}

theorem bounds (h : Represents em y) : (em.mantissa : ℚ) ≤ y ∧ y < em.mantissa + 1 := by
  cases h with
  | exact m => constructor <;> dsimp only <;> linarith
  | below low high => constructor <;> dsimp only <;> linarith
  | half m => constructor <;> dsimp only <;> linarith
  | above low high => constructor <;> dsimp only <;> linarith

theorem inexact_iff (h : Represents em y) :
    (em.roundBit || em.stickyBit) = true ↔ (em.mantissa : ℚ) < y := by
  cases h with
  | exact m => simp
  | below low high => simpa using low
  | half m => simp
  | above low high =>
    simp only [Bool.or_self, true_iff]
    linarith

theorem shiftRightOne (h : Represents em y) : Represents em.shiftRightOne (y / 2) := by
  obtain ⟨low, high⟩ := h.bounds
  have further := h.inexact_iff
  unfold ExtendedMantissa.shiftRightOne
  generalize em.mantissa = m at *
  generalize (em.roundBit || em.stickyBit) = inexact at *
  obtain ⟨k, rfl | rfl⟩ := m.even_or_odd'
  · have halved : 2 * k / 2 = k := by omega
    have even : (2 * k % 2 != 0) = false := by simp
    push_cast at low high further
    rw [halved, even]
    cases inexact with
    | true =>
      have beyond := further.mp rfl
      exact .below (by linarith) (by linarith)
    | false =>
      have same : y / 2 = k := by
        have := mt further.mpr (by decide)
        linarith
      rw [same]
      exact .exact k
  · have halved : (2 * k + 1) / 2 = k := by omega
    have odd : ((2 * k + 1) % 2 != 0) = true := by
      rw [bne_iff_ne]
      omega
    push_cast at low high further
    rw [halved, odd]
    cases inexact with
    | true =>
      have beyond := further.mp rfl
      exact .above (by linarith) (by linarith)
    | false =>
      have same : y / 2 = k + 1 / 2 := by
        have := mt further.mpr (by decide)
        linarith
      rw [same]
      exact .half k

theorem shiftRight (h : Represents em y) (n : Nat) : Represents (em >>> n) (y / 2 ^ n) := by
  change Represents (n.repeat ExtendedMantissa.shiftRightOne em) _
  induction n with
  | zero => simpa [Nat.repeat] using h
  | succ n ih =>
    rw [Nat.repeat, pow_succ, ← div_div]
    exact ih.shiftRightOne

theorem roundedMantissa (h : Represents em y) {m : Nat} (low : (m : ℚ) - 1 / 2 ≤ y)
    (high : y ≤ m + 1 / 2) (odd : m % 2 = 1 → (m : ℚ) - 1 / 2 < y ∧ y < m + 1 / 2) :
    em.roundedMantissa = m := by
  cases h with
  | exact k =>
    change k = m
    exact nat_eq_of_near (by linarith) (by linarith)
  | @below k _ below above =>
    change k = m
    exact nat_eq_of_near (by linarith) (by linarith)
  | @above k _ below above =>
    have next : k + 1 = m := by
      apply nat_eq_of_near <;> push_cast <;> linarith
    exact next
  | half k =>
    have least : k < m + 1 := by
      have : (k : ℚ) < m + 1 := by linarith
      exact_mod_cast this
    have most : m < k + 2 := by
      have : (m : ℚ) < k + 2 := by linarith
      exact_mod_cast this
    have even : m % 2 = 0 := by
      by_contra uneven
      obtain ⟨below, above⟩ := odd (by omega)
      have equal : k = m := nat_eq_of_near (by linarith) (by linarith)
      rw [equal] at above
      linarith
    change k + k % 2 = m
    omega

end Represents

theorem targetExponent_eq (m : Nat) (e : Int) :
    Format.binary64.targetExponent (totalExponent m e) = max ((m.log2 : Int) + e - 52) (-1074) := by
  unfold Format.targetExponent totalExponent
  have bits : (Format.binary64.mantissaBits : Int) = 53 := rfl
  have least : Format.binary64.minExponent = -1074 := rfl
  rw [bits, least]
  congr 1
  omega

theorem shift_canonical {m : Nat} {e : Int} (canonical : Binary.Canonical ⟨m, e⟩) :
    shiftToTargetExponent .binary64 m e .exact = (⟨m, false, false⟩, e) := by
  obtain ⟨small, low, high, normal⟩ := canonical
  dsimp only at small low
  have top : m.log2 ≤ 52 := by
    by_cases zero : m = 0
    · simp [zero]
    · have := (Nat.log2_lt zero).mpr small
      omega
  have none : (Format.binary64.targetExponent (totalExponent m e) - e).toNat = 0 := by
    rw [targetExponent_eq]
    omega
  unfold shiftToTargetExponent shiftToExponent
  dsimp only
  rw [none]
  simp [HShiftRight.hShiftRight, Nat.repeat, ExtendedMantissa.ofMantissaAndAccuracy]

/-- A mantissa with a bit too many, as rounding up can give it, loses that bit. -/
theorem shift_carry {e : Int} (low : -1074 ≤ e) :
    shiftToTargetExponent .binary64 (2 ^ 53) e .exact = (⟨2 ^ 52, false, false⟩, e + 1) := by
  have one : (Format.binary64.targetExponent (totalExponent (2 ^ 53) e) - e).toNat = 1 := by
    rw [targetExponent_eq, Nat.log2_two_pow]
    omega
  unfold shiftToTargetExponent shiftToExponent
  dsimp only
  rw [one]
  rfl

theorem mantissa_ofMantissaAndAccuracy (m : Nat) (a : Accuracy) :
    (ExtendedMantissa.ofMantissaAndAccuracy m a).mantissa = m := by
  rcases a with _ | (_ | _ | _) <;> rfl

section Interval

variable {b : Binary} {q : ℚ}

theorem two_zpow_pos (e : Int) : (0 : ℚ) < 2 ^ e := zpow_pos (by norm_num) e

theorem two_zpow_le {d e : Int} (h : d ≤ e) : (2 : ℚ) ^ d ≤ 2 ^ e :=
  zpow_le_zpow_right₀ (by norm_num) h

theorem Binary.lower_ge (b : Binary) : 4 * b.significand ≤ b.lower + 2 := by
  unfold Binary.lower
  split <;> omega

theorem Binary.Around.near (around : b.Around q) :
    (b.significand : ℚ) - 1 / 2 ≤ q / 2 ^ b.exponent ∧
    q / 2 ^ b.exponent ≤ b.significand + 1 / 2 ∧
    (b.significand % 2 = 1 → (b.significand : ℚ) - 1 / 2 < q / 2 ^ b.exponent ∧
      q / 2 ^ b.exponent < b.significand + 1 / 2) := by
  have unit := two_zpow_pos b.exponent
  have lower : (4 : ℚ) * b.significand ≤ b.lower + 2 := by exact_mod_cast b.lower_ge
  have upper : (b.upper : ℚ) = 4 * b.significand + 2 := by simp [Binary.upper]
  rw [le_div_iff₀ unit, div_le_iff₀ unit, lt_div_iff₀ unit, div_lt_iff₀ unit]
  refine ⟨?_, ?_, fun odd => ⟨?_, ?_⟩⟩
  · refine le_trans (mul_le_mul_of_nonneg_right ?_ unit.le) around.lower
    linarith
  · refine le_trans around.upper (mul_le_mul_of_nonneg_right ?_ unit.le)
    linarith
  · refine lt_of_le_of_lt (mul_le_mul_of_nonneg_right ?_ unit.le) (around.odd odd).1
    linarith
  · refine lt_of_lt_of_le (around.odd odd).2 (mul_le_mul_of_nonneg_right ?_ unit.le)
    linarith

theorem Binary.Around.near_normal (around : b.Around q) (normal : 2 ^ 52 ≤ b.significand)
    (above : -1074 < b.exponent) : (2 : ℚ) ^ 52 - 1 / 4 ≤ q / 2 ^ b.exponent := by
  have unit := two_zpow_pos b.exponent
  have least : 4 * 2 ^ 52 ≤ b.lower + 1 := by
    unfold Binary.lower
    split
    · omega
    next other =>
      have : b.significand ≠ 2 ^ 52 := by
        intro same
        simp [same, above] at other
      omega
  have least : (4 : ℚ) * 2 ^ 52 ≤ b.lower + 1 := by exact_mod_cast least
  rw [le_div_iff₀ unit]
  refine le_trans (mul_le_mul_of_nonneg_right ?_ unit.le) around.lower
  linarith

end Interval

theorem Represents.powers {m : Nat} {e : Int} {a : Accuracy} {q : ℚ}
    (h : Represents (.ofMantissaAndAccuracy m a) (q / 2 ^ e)) :
    (m ≠ 0 → (2 : ℚ) ^ ((m.log2 : Int) + e) ≤ q) ∧ q < 2 ^ ((m.log2 : Int) + 1 + e) := by
  have unit := two_zpow_pos e
  obtain ⟨low, high⟩ := h.bounds
  rw [mantissa_ofMantissaAndAccuracy] at low high
  rw [le_div_iff₀ unit] at low
  rw [div_lt_iff₀ unit] at high
  refine ⟨fun nonzero => ?_, ?_⟩
  · rw [zpow_add₀ (by norm_num), zpow_natCast]
    have : (2 : ℚ) ^ m.log2 ≤ m := by exact_mod_cast Nat.log2_self_le nonzero
    exact le_trans (mul_le_mul_of_nonneg_right this unit.le) low
  · rw [zpow_add₀ (by norm_num), ← Nat.cast_succ, zpow_natCast]
    have : (m : ℚ) + 1 ≤ 2 ^ (m.log2 + 1) := by exact_mod_cast Nat.lt_log2_self
    exact lt_of_lt_of_le high (mul_le_mul_of_nonneg_right this unit.le)

/-- Where the rounding of a number in the interval of a magnitude takes place: at the exponent of
the magnitude, or right below a power of two one place further down. -/
theorem target_cases {b : Binary} {m : Nat} {e : Int} {a : Accuracy} {q : ℚ}
    (canonical : b.Canonical) (pos : 0 < b.significand) (around : b.Around q)
    (h : Represents (.ofMantissaAndAccuracy m a) (q / 2 ^ e))
    (fine : e ≤ max ((m.log2 : Int) + e - 52) (-1074)) :
    max ((m.log2 : Int) + e - 52) (-1074) = b.exponent ∨
    max ((m.log2 : Int) + e - 52) (-1074) = b.exponent - 1 ∧ b.significand = 2 ^ 52 ∧
      -1074 < b.exponent ∧ q / 2 ^ b.exponent < 2 ^ 52 := by
  have unit := two_zpow_pos b.exponent
  obtain ⟨least, most⟩ := h.powers
  obtain ⟨near, near', -⟩ := around.near
  obtain ⟨small, low, high, normal⟩ := canonical
  generalize target : max ((m.log2 : Int) + e - 52) (-1074) = t at fine ⊢
  rcases lt_trichotomy t b.exponent with less | same | greater
  · have above : -1074 < b.exponent := by omega
    have implicit : 2 ^ 52 ≤ b.significand := normal.resolve_left above.ne'
    have floor := around.near_normal implicit above
    have ceiling : ∀ n : Nat, t + 53 ≤ n + b.exponent → q / 2 ^ b.exponent < 2 ^ n := by
      intro n hn
      rw [div_lt_iff₀ unit, ← zpow_natCast, ← zpow_add₀ (by norm_num)]
      exact lt_of_lt_of_le most (two_zpow_le (by omega))
    have next : t = b.exponent - 1 := by
      by_contra further
      have := ceiling 51 (by push_cast; omega)
      norm_num at this floor
      linarith
    have under := ceiling 52 (by push_cast; omega)
    refine .inr ⟨next, ?_, above, under⟩
    have : (b.significand : ℚ) < 2 ^ 52 + 1 := by linarith
    have : b.significand < 2 ^ 52 + 1 := by exact_mod_cast this
    omega
  · exact .inl same
  · have nonzero : m ≠ 0 := by
      rintro rfl
      rw [Nat.log2_zero] at target
      omega
    have floor : (2 : ℚ) ^ (53 + b.exponent) ≤ q :=
      le_trans (two_zpow_le (by omega)) (least nonzero)
    have significand : (b.significand : ℚ) + 1 ≤ 2 ^ 53 := by exact_mod_cast small
    rw [zpow_add₀ (by norm_num), ← le_div_iff₀ unit] at floor
    norm_num at floor significand
    linarith

/-- What lies in the interval of a magnitude is rounded to it. The mantissa has to reach down to the
place where it is cut off. -/
theorem roundWithAccuracy_eq {b : Binary} {s : Sign} {m : Nat} {e : Int} {a : Accuracy} {q : ℚ}
    (canonical : b.Canonical) (pos : 0 < b.significand) (around : b.Around q)
    (h : Represents (.ofMantissaAndAccuracy m a) (q / 2 ^ e))
    (fine : e ≤ max ((m.log2 : Int) + e - 52) (-1074)) :
    roundWithAccuracy .binary64 s m e a = .finite s b.significand b.exponent pos := by
  have target := target_cases canonical pos around h fine
  generalize reached : max ((m.log2 : Int) + e - 52) (-1074) = t at target fine
  have shifted := h.shiftRight (t - e).toNat
  have scaled : q / 2 ^ e / 2 ^ (t - e).toNat = q / 2 ^ t := by
    rw [div_div, ← zpow_natCast, ← zpow_add₀ (by norm_num)]
    congr 2
    omega
  have place : e + ((t - e).toNat : Int) = t := by omega
  have first : shiftToTargetExponent .binary64 m e a =
      (ExtendedMantissa.ofMantissaAndAccuracy m a >>> (t - e).toNat, t) := by
    unfold shiftToTargetExponent shiftToExponent
    rw [targetExponent_eq, reached]
    dsimp only
    rw [place]
  rw [scaled] at shifted
  unfold roundWithAccuracy
  rw [first]
  dsimp only
  obtain ⟨near, near', odd⟩ := around.near
  rcases target with rfl | ⟨rfl, carry, above, under⟩
  · rw [shifted.roundedMantissa near near' odd, shift_canonical canonical]
    exact dif_neg pos.ne'
  · have floor := around.near_normal carry.ge above
    have doubled : q / 2 ^ (b.exponent - 1) = 2 * (q / 2 ^ b.exponent) := by
      rw [zpow_sub_one₀ (by norm_num)]
      field_simp
    rw [doubled] at shifted
    have rounded := shifted.roundedMantissa (m := 2 ^ 53) (by push_cast; linarith)
      (by push_cast; linarith) (fun odd => absurd odd (by decide))
    rw [rounded, shift_carry (by omega)]
    dsimp only
    rw [dif_neg (by decide)]
    congr 1
    · exact carry.symm
    · omega

section Operations

variable {b : Binary} {q : ℚ} {m₁ m₂ : Nat} {e₁ e₂ : Int}

theorem le_log2_of_le {m : Nat} (large : 2 ^ 52 ≤ m) : 52 ≤ m.log2 :=
  (Nat.le_log2 (by omega)).mpr large

theorem mul_eq (canonical : b.Canonical) (pos : 0 < b.significand) (around : b.Around q)
    (pos₁ : 0 < m₁) (pos₂ : 0 < m₂) (exact : q = m₁ * 2 ^ e₁ * (m₂ * 2 ^ e₂))
    (large : 2 ^ 52 ≤ m₁) :
    UnpackedFloat.mul .binary64 (.finite .positive m₁ e₁ pos₁) (.finite .positive m₂ e₂ pos₂) =
      .finite .positive b.significand b.exponent pos := by
  have units : q / 2 ^ (e₁ + e₂) = ((m₁ * m₂ : Nat) : ℚ) := by
    have := (two_zpow_pos e₁).ne'
    have := (two_zpow_pos e₂).ne'
    rw [exact, zpow_add₀ (by norm_num)]
    push_cast
    field_simp
  have bits : 52 ≤ (m₁ * m₂).log2 := le_log2_of_le (le_trans large (Nat.le_mul_of_pos_right _ pos₂))
  refine roundWithAccuracy_eq canonical pos around ?_ (by omega)
  rw [units]
  exact .exact _

theorem represents_quotient (n d : Nat) (pos : 0 < d) :
    Represents (.ofMantissaAndAccuracy (n / d) (UnpackedFloat.accuracyOfFraction (n % d) d))
      ((n : ℚ) / d) := by
  have less : n % d < d := Nat.mod_lt n pos
  have less' : ((n % d : Nat) : ℚ) < d := by exact_mod_cast less
  have pos' : (0 : ℚ) < d := by exact_mod_cast pos
  have split : (n : ℚ) / d = (n / d : Nat) + (n % d : Nat) / d := by
    have whole := congrArg (Nat.cast : Nat → ℚ) (Nat.div_add_mod n d)
    push_cast at whole
    field_simp
    linarith
  have fraction : ((n % d : Nat) : ℚ) / d < 1 := (div_lt_one pos').mpr less'
  rw [split]
  unfold UnpackedFloat.accuracyOfFraction
  split
  next none =>
    rw [none, Nat.cast_zero, zero_div, add_zero]
    exact .exact _
  next some =>
    have some' : (0 : ℚ) < ((n % d : Nat) : ℚ) / d := by
      apply div_pos _ pos'
      exact_mod_cast Nat.pos_of_ne_zero some
    cases side : compare (2 * (n % d)) d with
    | lt =>
      have under : ((n % d : Nat) : ℚ) / d < 1 / 2 := by
        have : 2 * (n % d) < d := Nat.compare_eq_lt.mp side
        have : (2 : ℚ) * (n % d : Nat) < d := by exact_mod_cast this
        rw [div_lt_iff₀ pos']
        linarith
      exact .below (by linarith) (by linarith)
    | eq =>
      have equal : ((n % d : Nat) : ℚ) / d = 1 / 2 := by
        have : 2 * (n % d) = d := Nat.compare_eq_eq.mp side
        have : (2 : ℚ) * (n % d : Nat) = d := by exact_mod_cast this
        rw [div_eq_iff pos'.ne']
        linarith
      rw [equal]
      exact .half _
    | gt =>
      have more : 1 / 2 < ((n % d : Nat) : ℚ) / d := by
        have : d < 2 * (n % d) := Nat.compare_eq_gt.mp side
        have : (d : ℚ) < 2 * (n % d : Nat) := by exact_mod_cast this
        rw [lt_div_iff₀ pos']
        linarith
      exact .above (by linarith) (by linarith)

theorem div_eq (canonical : b.Canonical) (pos : 0 < b.significand) (around : b.Around q)
    (pos₁ : 0 < m₁) (pos₂ : 0 < m₂) (exact : q = m₁ * 2 ^ e₁ / (m₂ * 2 ^ e₂)) :
    UnpackedFloat.div .binary64 (.finite .positive m₁ e₁ pos₁) (.finite .positive m₂ e₂ pos₂) =
      .finite .positive b.significand b.exponent pos := by
  have target : Format.binary64.targetExponent (totalExponent m₁ e₁ - totalExponent m₂ e₂) =
      max ((m₁.log2 : Int) + e₁ - (m₂.log2 + e₂) - 53) (-1074) := by
    unfold Format.targetExponent totalExponent
    have bits : (Format.binary64.mantissaBits : Int) = 53 := rfl
    have least : Format.binary64.minExponent = -1074 := rfl
    rw [bits, least]
    congr 1
    omega
  unfold UnpackedFloat.div UnpackedFloat.divCore
  dsimp only
  rw [target]
  generalize chosen : min (e₁ - e₂) (max ((m₁.log2 : Int) + e₁ - (m₂.log2 + e₂) - 53) (-1074)) = t
  have units : q / 2 ^ t = ((m₁ <<< (e₁ - e₂ - t).toNat : Nat) : ℚ) / m₂ := by
    have shift : ((e₁ - e₂ - t).toNat : Int) = e₁ - e₂ - t := by omega
    have := (two_zpow_pos e₂).ne'
    have := (two_zpow_pos t).ne'
    rw [exact, Nat.shiftLeft_eq]
    push_cast
    rw [← zpow_natCast, shift, zpow_sub₀ (by norm_num), zpow_sub₀ (by norm_num)]
    field_simp
  refine roundWithAccuracy_eq canonical pos around ?_ ?_
  · rw [units]
    exact represents_quotient _ _ pos₂
  · by_cases least : t ≤ -1074
    · omega
    have shift : m₂.log2 + 53 ≤ m₁.log2 + (e₁ - e₂ - t).toNat := by omega
    have enough : 2 ^ 52 * m₂ ≤ m₁ <<< (e₁ - e₂ - t).toNat := by
      calc 2 ^ 52 * m₂ ≤ 2 ^ 52 * 2 ^ (m₂.log2 + 1) := Nat.mul_le_mul_left _ Nat.lt_log2_self.le
        _ = 2 ^ (m₂.log2 + 53) := by ring
        _ ≤ 2 ^ (m₁.log2 + (e₁ - e₂ - t).toNat) := Nat.pow_le_pow_right (by decide) shift
        _ = 2 ^ m₁.log2 * 2 ^ (e₁ - e₂ - t).toNat := pow_add ..
        _ ≤ m₁ * 2 ^ (e₁ - e₂ - t).toNat :=
          Nat.mul_le_mul_right _ (Nat.log2_self_le pos₁.ne')
        _ = m₁ <<< (e₁ - e₂ - t).toNat := (Nat.shiftLeft_eq ..).symm
    have bits := le_log2_of_le ((Nat.le_div_iff_mul_le pos₂).mpr enough)
    omega

theorem Binary.around_self (b : Binary) (pos : 0 < b.significand) :
    b.Around (b.significand * 2 ^ b.exponent) := by
  have unit := two_zpow_pos b.exponent
  have pos' : (1 : ℚ) ≤ b.significand := by exact_mod_cast pos
  have lower : (b.lower : ℚ) / 4 < b.significand := by
    have : b.lower < 4 * b.significand := by
      unfold Binary.lower
      split <;> omega
    have : (b.lower : ℚ) < 4 * b.significand := by exact_mod_cast this
    linarith
  have upper : (b.significand : ℚ) < b.upper / 4 := by
    unfold Binary.upper
    push_cast
    linarith
  have low := mul_lt_mul_of_pos_right lower unit
  have high := mul_lt_mul_of_pos_right upper unit
  exact ⟨low.le, high.le, fun _ => ⟨low, high⟩⟩

theorem ofNat_eq {n : Nat} (pos : 0 < n) (small : n < 2 ^ 53) :
    ∃ m e, ∃ pos' : 0 < m, UnpackedFloat.ofNat .binary64 n = .finite .positive m e pos' ∧
      Binary.Canonical ⟨m, e⟩ ∧ (n : ℚ) = m * 2 ^ e ∧ 2 ^ 52 ≤ m := by
  have bits : n.log2 < 53 := (Nat.log2_lt pos.ne').mpr small
  let b : Binary := ⟨n <<< (52 - n.log2), -((52 - n.log2 : Nat) : Int)⟩
  have least : 2 ^ 52 ≤ b.significand := by
    calc 2 ^ 52 = 2 ^ n.log2 * 2 ^ (52 - n.log2) := by rw [← pow_add]; congr 1; omega
      _ ≤ n * 2 ^ (52 - n.log2) := Nat.mul_le_mul_right _ (Nat.log2_self_le pos.ne')
      _ = b.significand := (Nat.shiftLeft_eq ..).symm
  have most : b.significand < 2 ^ 53 := by
    calc b.significand = n * 2 ^ (52 - n.log2) := Nat.shiftLeft_eq ..
      _ < 2 ^ (n.log2 + 1) * 2 ^ (52 - n.log2) :=
        Nat.mul_lt_mul_of_pos_right Nat.lt_log2_self (by positivity)
      _ = 2 ^ 53 := by rw [← pow_add]; congr 1; omega
  have canonical : b.Canonical :=
    ⟨most, by dsimp only [b]; omega, by dsimp only [b]; omega, .inr least⟩
  have exact : (n : ℚ) = b.significand * 2 ^ b.exponent := by
    dsimp only [b]
    rw [Nat.shiftLeft_eq, zpow_neg, zpow_natCast]
    push_cast
    field_simp
  have pos' : 0 < b.significand := by omega
  refine ⟨b.significand, b.exponent, pos', ?_, canonical, exact, least⟩
  have sign : compare (n : Int) 0 = .gt := by
    rw [Int.compare_eq_gt]
    exact_mod_cast pos
  unfold UnpackedFloat.ofNat UnpackedFloat.ofInt UnpackedFloat.normalize
  rw [sign]
  unfold UnpackedFloat.round UnpackedFloat.decreaseExponent
  dsimp only
  rw [Int.toNat_natCast, targetExponent_eq]
  have shift : (0 - max ((n.log2 : Int) + 0 - 52) (-1074)).toNat = 52 - n.log2 := by omega
  rw [shift]
  refine roundWithAccuracy_eq canonical pos' (b.around_self pos') ?_ ?_
  · have units : (b.significand : ℚ) * 2 ^ b.exponent / 2 ^ (0 - ((52 - n.log2 : Nat) : Int)) =
        (n <<< (52 - n.log2) : Nat) := by
      rw [zero_sub]
      exact mul_div_cancel_right₀ _ (two_zpow_pos _).ne'
    rw [units]
    exact .exact _
  · have := le_log2_of_le least
    dsimp only [b] at this
    omega

theorem toFloat_unpack {n : Nat} (pos : 0 < n) (small : n < 2 ^ 53) :
    ∃ m e, ∃ pos' : 0 < m, n.toUInt64.toFloat.toModel.unpack = .finite .positive m e pos' ∧
      (n : ℚ) = m * 2 ^ e ∧ 2 ^ 52 ≤ m := by
  obtain ⟨m, e, pos', rounded, canonical, exact, large⟩ := ofNat_eq pos small
  refine ⟨m, e, pos', ?_, exact, large⟩
  have kept : n.toUInt64.toNat = n := by
    rw [Nat.toUInt64, UInt64.toNat_ofNat']
    omega
  have packed : n.toUInt64.toFloat = .ofModel (.pack (.finite .positive m e pos')) := by
    calc n.toUInt64.toFloat = .ofModel (.pack (.ofNat .binary64 n.toUInt64.toNat)) := rfl
      _ = .ofModel (.pack (.finite .positive m e pos')) := by rw [kept, rounded]
  rw [packed]
  exact unpack_of_shape pos' (shape_pack pos' canonical)

def isPowerOfTen (i : Nat) : Shape → Bool
  | .finite false b =>
    decide (2 ^ 52 ≤ b.significand) && decide (-52 ≤ b.exponent) &&
      b.significand * 2 ^ (b.exponent + 52).toNat == 10 ^ i * 2 ^ 52
  | _ => false

theorem isPowerOfTen_unpack {i : Nat} {x : Float} (h : isPowerOfTen i (shape x) = true) :
    ∃ m e, ∃ pos : 0 < m, x.toModel.unpack = .finite .positive m e pos ∧
      (10 : ℚ) ^ i = m * 2 ^ e ∧ 2 ^ 52 ≤ m := by
  cases shaped : shape x with
  | infinite n => cases (shaped ▸ h : isPowerOfTen i (.infinite n) = true)
  | notANumber => cases (shaped ▸ h : isPowerOfTen i .notANumber = true)
  | finite n b =>
    obtain ⟨m, e⟩ := b
    rw [shaped] at h
    cases n with
    | true => cases h
    | false =>
      simp only [isPowerOfTen, Bool.and_eq_true, decide_eq_true_eq, beq_iff_eq] at h
      obtain ⟨⟨large, low⟩, exact⟩ := h
      have pos : 0 < m := by omega
      refine ⟨m, e, pos, unpack_of_shape pos shaped, ?_, large⟩
      have exact : (m : ℚ) * 2 ^ (e + 52).toNat = 10 ^ i * 2 ^ 52 := by exact_mod_cast exact
      have shift : ((e + 52).toNat : Int) = e + 52 := by omega
      rw [← zpow_natCast, shift, zpow_add₀ (by norm_num), ← mul_assoc] at exact
      exact (mul_right_cancel₀ (by norm_num) exact).symm

theorem powerOfTen_unpack {i : Nat} (h : i < Float.exactlyRepresentablePowersOfTen.size) :
    ∃ m e, ∃ pos : 0 < m,
      (Float.exactlyRepresentablePowersOfTen[i]).toModel.unpack = .finite .positive m e pos ∧
      (10 : ℚ) ^ i = m * 2 ^ e ∧ 2 ^ 52 ≤ m := by
  have table : ∀ i : Fin 23,
      isPowerOfTen i (shape Float.exactlyRepresentablePowersOfTen[i]) = true := by
    decide +kernel
  exact isPowerOfTen_unpack (table ⟨i, h⟩)

end Operations

section Reading

variable {b : Binary} {c : Nat} {k : Int}

def Binary.float (b : Binary) (pos : 0 < b.significand) : Float :=
  .ofModel (.pack (.finite .positive b.significand b.exponent pos))

theorem ten_zpow_natAbs (k : Int) :
    (10 : ℚ) ^ k = if k < 0 then ((10 : ℚ) ^ k.natAbs)⁻¹ else 10 ^ k.natAbs := by
  split
  next negative =>
    rw [← zpow_natCast, ← zpow_neg]
    congr 1
    omega
  next =>
    rw [← zpow_natCast]
    congr 1
    omega

theorem le_ten_zpow {k : Int} (h : 0 ≤ k) : (2 : ℚ) ^ (3 * k) ≤ 10 ^ k := by
  obtain ⟨n, rfl⟩ := Int.eq_ofNat_of_zero_le h
  rw [zpow_mul, zpow_natCast, zpow_natCast]
  norm_num
  gcongr
  norm_num

theorem ten_zpow_le {k : Int} (h : k ≤ 0) : (10 : ℚ) ^ k ≤ 2 ^ (3 * k) := by
  obtain ⟨n, rfl⟩ : ∃ n : Nat, k = -(n : Int) := ⟨k.natAbs, by omega⟩
  rw [zpow_mul, zpow_neg, zpow_neg, zpow_natCast, zpow_natCast]
  norm_num
  gcongr
  norm_num

/-- A decimal in the interval of a magnitude is not far outside the range of the format. -/
theorem Binary.Around.range (canonical : b.Canonical) (pos : 0 < b.significand)
    (around : b.Around (c * 10 ^ k)) : 0 < c ∧ k ≤ 400 ∧ -1200 ≤ (c.log2 : Int) + k * 3 := by
  obtain ⟨near, near', -⟩ := around.near
  obtain ⟨small, low, high, -⟩ := canonical
  have unit := two_zpow_pos b.exponent
  have significand : (1 : ℚ) ≤ b.significand := by exact_mod_cast pos
  have significand' : (b.significand : ℚ) + 1 ≤ 2 ^ 53 := by exact_mod_cast small
  have floor : (2 : ℚ) ^ (-1 + -1074 : Int) ≤ c * 10 ^ k := by
    rw [le_div_iff₀ unit] at near
    calc (2 : ℚ) ^ (-1 + -1074 : Int) = 1 / 2 * 2 ^ (-1074 : Int) := by
          rw [zpow_add₀ (by norm_num)]
          norm_num only
      _ ≤ 1 / 2 * 2 ^ b.exponent := by
        exact mul_le_mul_of_nonneg_left (two_zpow_le low) (by norm_num)
      _ ≤ (b.significand - 1 / 2) * 2 ^ b.exponent := by
        exact mul_le_mul_of_nonneg_right (by linarith) unit.le
      _ ≤ c * 10 ^ k := near
  have ceiling : (c : ℚ) * 10 ^ k < 2 ^ (53 + 971 : Int) := by
    rw [div_le_iff₀ unit] at near'
    calc (c : ℚ) * 10 ^ k ≤ (b.significand + 1 / 2) * 2 ^ b.exponent := near'
      _ < 2 ^ 53 * 2 ^ b.exponent := by exact mul_lt_mul_of_pos_right (by linarith) unit
      _ ≤ 2 ^ 53 * 2 ^ (971 : Int) := by
        exact mul_le_mul_of_nonneg_left (two_zpow_le high) (by norm_num)
      _ = 2 ^ (53 + 971 : Int) := by
        rw [zpow_add₀ (by norm_num)]
        norm_num only
  have nonzero : 0 < c := by
    rw [Nat.pos_iff_ne_zero]
    rintro rfl
    have := two_zpow_pos (-1 + -1074)
    simp only [Nat.cast_zero, zero_mul] at floor
    linarith
  have nonzero' : (1 : ℚ) ≤ c := by exact_mod_cast nonzero
  have ten := zpow_pos (show (0 : ℚ) < 10 by norm_num) k
  refine ⟨nonzero, ?_, ?_⟩
  · by_contra large
    have : (2 : ℚ) ^ (53 + 971 : Int) ≤ c * 10 ^ k := by
      calc (2 : ℚ) ^ (53 + 971 : Int) ≤ 2 ^ (3 * k) := two_zpow_le (by omega)
        _ ≤ 10 ^ k := le_ten_zpow (by omega)
        _ ≤ c * 10 ^ k := le_mul_of_one_le_left ten.le nonzero'
    linarith
  · by_contra tiny
    have bits : (c : ℚ) < 2 ^ ((c.log2 : Int) + 1) := by
      exact_mod_cast Nat.lt_log2_self
    have : (c : ℚ) * 10 ^ k < 2 ^ (-1 + -1074 : Int) := by
      calc (c : ℚ) * 10 ^ k < 2 ^ ((c.log2 : Int) + 1) * 10 ^ k :=
            mul_lt_mul_of_pos_right bits ten
        _ ≤ 2 ^ ((c.log2 : Int) + 1) * 2 ^ (3 * k) :=
            mul_le_mul_of_nonneg_left (ten_zpow_le (by omega)) (two_zpow_pos _).le
        _ = 2 ^ ((c.log2 : Int) + 1 + 3 * k) := (zpow_add₀ (by norm_num) _ _).symm
        _ ≤ 2 ^ (-1 + -1074 : Int) := two_zpow_le (by omega)
    linarith

theorem unpacked_ofScientific_eq (canonical : b.Canonical) (pos : 0 < b.significand)
    (around : b.Around (c * 10 ^ k)) :
    UnpackedFloat.ofScientific .binary64 c k = .finite .positive b.significand b.exponent pos := by
  obtain ⟨nonzero, most, least⟩ := around.range canonical pos
  have upper : ¬ k > 2 ^ Format.binary64.exponentBits := by
    change ¬ k > 2 ^ 11
    omega
  have lower : ¬ k < -((2 ^ Format.binary64.exponentBits : Int) + c.log2) := by
    change ¬ k < -((2 ^ 11 : Int) + c.log2)
    omega
  have power := ten_zpow_natAbs k
  unfold UnpackedFloat.ofScientific
  rw [dif_neg nonzero.ne', if_neg upper, if_neg lower]
  split
  next nonneg =>
    have large : 2 ^ 52 ≤ c <<< Format.binary64.mantissaBits := by
      change 2 ^ 52 ≤ c <<< 53
      rw [Nat.shiftLeft_eq]
      omega
    refine mul_eq canonical pos around _ _ ?_ large
    rw [power, if_neg (by omega)]
    change (c : ℚ) * 10 ^ k.natAbs =
      ((c <<< 53 : Nat) : ℚ) * 2 ^ (-53 : Int) * (((10 ^ k.toNat : Nat) : ℚ) * 2 ^ (0 : Int))
    rw [Nat.shiftLeft_eq, show k.toNat = k.natAbs by omega]
    push_cast
    rw [zpow_neg, show (2 : ℚ) ^ (53 : Int) = 9007199254740992 by norm_num]
    ring
  next negative =>
    refine div_eq canonical pos around _ _ ?_
    rw [power, if_pos (by omega), show (-k).toNat = k.natAbs by omega]
    push_cast
    norm_num
    rfl

theorem ofScientific_eq (canonical : b.Canonical) (pos : 0 < b.significand)
    (around : b.Around (c * 10 ^ k)) :
    Float.ofScientific c (decide (k < 0)) k.natAbs = b.float pos := by
  obtain ⟨nonzero, most, least⟩ := around.range canonical pos
  have power := ten_zpow_natAbs k
  unfold Float.ofScientific
  split
  next small =>
    obtain ⟨m₁, e₁, pos₁, unpacked₁, exact₁, large₁⟩ := toFloat_unpack nonzero small.1
    have tabled : k.natAbs < Float.exactlyRepresentablePowersOfTen.size := by
      change k.natAbs < 23
      omega
    obtain ⟨m₂, e₂, pos₂, unpacked₂, exact₂, large₂⟩ := powerOfTen_unpack tabled
    dsimp only
    generalize Float.exactlyRepresentablePowersOfTen[k.natAbs] = y at *
    by_cases negative : k < 0
    · rw [if_pos (by simpa using negative)]
      rw [if_pos negative] at power
      have quotient : c.toUInt64.toFloat / y = .ofModel (.pack (.div .binary64
        c.toUInt64.toFloat.toModel.unpack y.toModel.unpack)) := rfl
      rw [quotient, unpacked₁, unpacked₂, div_eq canonical pos around pos₁ pos₂]
      · rfl
      · rw [power, exact₁, exact₂]
        rfl
    · rw [if_neg (by simpa using negative)]
      rw [if_neg negative] at power
      have product : c.toUInt64.toFloat * y = .ofModel (.pack (.mul .binary64
        c.toUInt64.toFloat.toModel.unpack y.toModel.unpack)) := rfl
      rw [product, unpacked₁, unpacked₂, mul_eq canonical pos around pos₁ pos₂ _ large₁]
      · rfl
      · rw [power, exact₁, exact₂]
  next =>
    have exponent : (if decide (k < 0) = true then Int.negOfNat k.natAbs else Int.ofNat k.natAbs) =
        k := by
      simp only [decide_eq_true_eq, Int.negOfNat_eq, Int.ofNat_eq_natCast]
      split <;> omega
    dsimp only
    rw [exponent]
    have packed : Float.ofModel (Float.Model.ofScientific c k) =
      .ofModel (.pack (.ofScientific .binary64 c k)) := rfl
    rw [packed, unpacked_ofScientific_eq canonical pos around]
    rfl

theorem ofDecimal_eq (canonical : b.Canonical) (pos : 0 < b.significand)
    (around : b.Around (c * 10 ^ k)) : ofDecimal c k = b.float pos := by
  obtain ⟨nonzero, most, least⟩ := around.range canonical pos
  unfold ofDecimal
  rw [if_neg (by simpa using nonzero.ne'), if_neg (by omega), if_neg (by omega)]
  exact ofScientific_eq canonical pos around

theorem ofScientific_isNaN (nonzero : 0 < c) (s : Bool) (n : Nat) :
    (Float.ofScientific c s n).isNaN = false := by
  unfold Float.ofScientific
  split
  next small =>
    have tabled : n < Float.exactlyRepresentablePowersOfTen.size := by
      change n < 23
      omega
    obtain ⟨m₁, e₁, pos₁, unpacked₁, -⟩ := toFloat_unpack nonzero small.1
    obtain ⟨m₂, e₂, pos₂, unpacked₂, -⟩ := powerOfTen_unpack tabled
    dsimp only
    generalize Float.exactlyRepresentablePowersOfTen[n] = y at *
    cases s with
    | true =>
      change (Float.ofModel (.pack (.div .binary64 c.toUInt64.toFloat.toModel.unpack
        y.toModel.unpack))).isNaN = false
      rw [unpacked₁, unpacked₂]
      exact isNaN_pack roundWithAccuracy_ne_notANumber
    | false =>
      change (Float.ofModel (.pack (.mul .binary64 c.toUInt64.toFloat.toModel.unpack
        y.toModel.unpack))).isNaN = false
      rw [unpacked₁, unpacked₂]
      exact isNaN_pack roundWithAccuracy_ne_notANumber
  next =>
    apply isNaN_pack
    generalize (if s = true then Int.negOfNat n else Int.ofNat n) = e
    unfold UnpackedFloat.ofScientific
    split
    · simp
    split
    · simp
    split
    · simp
    split
    · exact roundWithAccuracy_ne_notANumber
    · exact roundWithAccuracy_ne_notANumber

theorem ofDecimal_isNaN (c : Nat) (k : Int) : (ofDecimal c k).isNaN = false := by
  unfold ofDecimal
  split
  · decide
  next nonzero =>
    have nonzero : 0 < c := Nat.pos_of_ne_zero (by simpa using nonzero)
    dsimp only
    split
    · decide
    split
    · decide
    · exact ofScientific_isNaN nonzero _ _

end Reading

end BlockStage.Decimal
