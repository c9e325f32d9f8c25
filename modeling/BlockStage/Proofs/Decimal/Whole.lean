import BlockStage.Proofs.Decimal.Rounding

/-! # Whole numbers

Every whole number of 64 bits is in the interval of a magnitude, and so it is rounded to a finite
number.
-/
namespace BlockStage.Decimal

theorem Binary.Around.of_nat {m k n : Nat} (lower : (Binary.lower ⟨m, k⟩) * 2 ^ k ≤ 4 * n)
    (upper : 4 * n ≤ (Binary.upper ⟨m, k⟩) * 2 ^ k)
    (odd : m % 2 = 1 → (Binary.lower ⟨m, k⟩) * 2 ^ k < 4 * n ∧
      4 * n < (Binary.upper ⟨m, k⟩) * 2 ^ k) : Binary.Around ⟨m, k⟩ n := by
  have scale (a : Nat) : (a : ℚ) / 4 * 2 ^ (k : Int) = ((a * 2 ^ k : Nat) : ℚ) / 4 := by
    push_cast
    rw [zpow_natCast]
    ring
  have quarter : (n : ℚ) = ((4 * n : Nat) : ℚ) / 4 := by push_cast; ring
  refine ⟨?_, ?_, fun h => ?_⟩
  · rw [scale, quarter]
    gcongr
  · rw [scale, quarter]
    gcongr
  · obtain ⟨low, high⟩ := odd h
    rw [scale, scale, quarter]
    constructor <;> gcongr

theorem Binary.lower_of_ne {m : Nat} {e : Int} (h : m ≠ 2 ^ 52) :
    Binary.lower ⟨m, e⟩ = 4 * m - 2 := by
  have test : (m == Nat.pow 2 52) = false := beq_eq_false_iff_ne.mpr h
  simp only [Binary.lower, test, Bool.false_and, Bool.false_eq_true, if_false]

theorem Binary.lower_power {e : Int} (h : -1074 < e) :
    Binary.lower ⟨2 ^ 52, e⟩ = 2 ^ 54 - 1 := by
  simp only [Binary.lower, gt_iff_lt, h, decide_true, Bool.and_true, Nat.pow_eq, beq_self_eq_true,
    if_true]
  norm_num

section Rounded

variable {q r k : Nat}

theorem Binary.Around.down (positive : 0 < q) (rest : 2 * r < 2 ^ k ∨ 2 * r = 2 ^ k ∧ q % 2 = 0) :
    Binary.Around ⟨q, k⟩ ((q * 2 ^ k + r : Nat) : ℚ) := by
  have unit : 0 < 2 ^ k := Nat.two_pow_pos k
  have lower : Binary.lower ⟨q, k⟩ * 2 ^ k < 4 * q * 2 ^ k := by
    refine Nat.mul_lt_mul_of_pos_right ?_ unit
    unfold Binary.lower
    split <;> dsimp only <;> omega
  have upper : Binary.upper ⟨q, k⟩ * 2 ^ k = 4 * q * 2 ^ k + 2 * 2 ^ k := Nat.add_mul ..
  rw [Nat.mul_assoc] at lower upper
  refine .of_nat ?_ ?_ fun odd => ?_ <;> omega

theorem Binary.Around.up (normal : 2 ^ 52 ≤ q) (rest : r < 2 ^ k)
    (half : ¬ (2 * r < 2 ^ k ∨ 2 * r = 2 ^ k ∧ q % 2 = 0)) :
    Binary.Around ⟨q + 1, k⟩ ((q * 2 ^ k + r : Nat) : ℚ) := by
  have lower : Binary.lower ⟨q + 1, k⟩ * 2 ^ k = 4 * (q * 2 ^ k) + 2 * 2 ^ k := by
    rw [Binary.lower_of_ne (by omega), show 4 * (q + 1) - 2 = 4 * q + 2 by omega]
    ring
  have upper : Binary.upper ⟨q + 1, k⟩ * 2 ^ k = 4 * (q * 2 ^ k) + 6 * 2 ^ k := by
    unfold Binary.upper
    ring
  refine .of_nat ?_ ?_ fun odd => ?_ <;> omega

/-- Behind the last magnitude below a power of two comes that power, with a unit twice as large. -/
theorem Binary.Around.carry (rest : r < 2 ^ k) (half : 2 ^ k ≤ 2 * r) :
    Binary.Around ⟨2 ^ 52, (k + 1 : Nat)⟩ (((2 ^ 53 - 1) * 2 ^ k + r : Nat) : ℚ) := by
  have unit : 2 ^ (k + 1) = 2 ^ k * 2 := pow_succ 2 k
  have lower : Binary.lower ⟨2 ^ 52, (k + 1 : Nat)⟩ = 2 ^ 54 - 1 := Binary.lower_power (by omega)
  have upper : Binary.upper ⟨2 ^ 52, (k + 1 : Nat)⟩ = 2 ^ 54 + 2 := by norm_num [Binary.upper]
  refine .of_nat ?_ ?_ fun odd => absurd odd (by norm_num) <;> rw [unit]
  · rw [lower]
    omega
  · rw [upper]
    omega

end Rounded

theorem canonical_whole {m k : Nat} (normal : 2 ^ 52 ≤ m) (small : m < 2 ^ 53) (h : k ≤ 12) :
    Binary.Canonical ⟨m, k⟩ where
  significand_lt := small
  exponent_ge := by dsimp only; omega
  exponent_le := by dsimp only; omega
  normal := .inr normal

theorem exists_around {n : Nat} (pos : 0 < n) (small : n < 2 ^ 64) :
    ∃ b : Binary, b.Canonical ∧ 0 < b.significand ∧ b.Around n := by
  by_cases exact : n < 2 ^ 53
  · obtain ⟨m, e, pos', -, canonical, same, -⟩ := ofNat_eq pos exact
    exact ⟨⟨m, e⟩, canonical, pos', same ▸ Binary.around_self ⟨m, e⟩ pos'⟩
  -- Otherwise `n` has `q` whole units of its last place and a rest.
  have log_le : n.log2 < 64 := (Nat.log2_lt pos.ne').mpr small
  have le_log : 53 ≤ n.log2 := (Nat.le_log2 pos.ne').mpr (Nat.le_of_not_lt exact)
  obtain ⟨k, bits⟩ : ∃ k, n.log2 = 52 + k := ⟨n.log2 - 52, by omega⟩
  have least : 2 ^ 52 * 2 ^ k ≤ n := by
    rw [← pow_add, ← bits]
    exact Nat.log2_self_le pos.ne'
  have most : n < 2 ^ 53 * 2 ^ k := by
    rw [← pow_add, show 53 + k = n.log2 + 1 by omega]
    exact Nat.lt_log2_self
  have unit : 0 < 2 ^ k := Nat.two_pow_pos k
  have split : n = n / 2 ^ k * 2 ^ k + n % 2 ^ k := by rw [Nat.div_add_mod']
  have rest : n % 2 ^ k < 2 ^ k := Nat.mod_lt n unit
  have normal : 2 ^ 52 ≤ n / 2 ^ k := (Nat.le_div_iff_mul_le unit).mpr least
  have below : n / 2 ^ k < 2 ^ 53 := (Nat.div_lt_iff_lt_mul unit).mpr most
  generalize n / 2 ^ k = q at *
  generalize n % 2 ^ k = r at *
  rw [split]
  by_cases half : 2 * r < 2 ^ k ∨ 2 * r = 2 ^ k ∧ q % 2 = 0
  · exact ⟨⟨q, k⟩, canonical_whole normal below (by omega), Nat.lt_of_lt_of_le (by decide) normal,
      .down (by omega) half⟩
  by_cases last : q = 2 ^ 53 - 1
  · subst last
    exact ⟨⟨2 ^ 52, (k + 1 : Nat)⟩, canonical_whole le_rfl (by norm_num) (by omega), by norm_num,
      .carry rest (by omega)⟩
  · exact ⟨⟨q + 1, k⟩, canonical_whole (by omega) (by omega) (by omega), Nat.succ_pos q,
      .up normal rest half⟩

theorem ofDecimal_isFinite {n : Nat} (small : n < 2 ^ 64) : (ofDecimal n 0).isFinite = true := by
  by_cases zero : n = 0
  · subst zero
    decide
  · obtain ⟨b, canonical, pos, around⟩ := exists_around (Nat.pos_of_ne_zero zero) small
    rw [ofDecimal_eq canonical pos (by simpa using around)]
    exact isFinite_iff.mpr ⟨_, _, shape_pack pos canonical⟩

end BlockStage.Decimal
