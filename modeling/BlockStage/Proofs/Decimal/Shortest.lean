import BlockStage.Proofs.Decimal.Rounding

/-! # Shortest decimals round back

The comparisons of the search are those of rational numbers, so a decimal that it accepts lies in
the interval of the number. Among the decimals of seventeen digits there is always one.
-/
namespace BlockStage.Decimal

theorem ten_zpow_pos (e : Int) : (0 : ℚ) < 10 ^ e := zpow_pos (by norm_num) e

theorem power_pos {base : Nat} (pos : 0 < base) (e : Int) : 0 < (power base e).2 :=
  Nat.pow_pos pos

theorem power_eq {base : Nat} (pos : 0 < base) (e : Int) :
    ((power base e).1 : ℚ) = (base : ℚ) ^ e * (power base e).2 := by
  have nonzero : (base : ℚ) ≠ 0 := by exact_mod_cast pos.ne'
  have same (n : Nat) : ((Nat.pow base n : Nat) : ℚ) = (base : ℚ) ^ (n : Int) := by
    rw [zpow_natCast]
    exact Nat.cast_pow ..
  simp only [power, same]
  rw [← zpow_add₀ nonzero]
  congr 1
  omega

theorem power_two_eq (e : Int) : ((power 2 e).1 : ℚ) = 2 ^ e * (power 2 e).2 := by
  exact_mod_cast power_eq (by decide) e

theorem power_ten_eq (e : Int) : ((power 10 e).1 : ℚ) = 10 ^ e * (power 10 e).2 := by
  exact_mod_cast power_eq (by decide) e

namespace Binary

variable {b : Binary} {c n : Nat} {k : Int}

theorem scaled_lt_iff {p q a a' t t' : Nat} {x y : ℚ} (ha : (a : ℚ) = x * a')
    (ht : (t : ℚ) = y * t') (pos : 0 < a') (pos' : 0 < t') :
    (p * t * a' < q * a * t' ↔ (p : ℚ) * y < q * x) ∧
    (q * a * t' < p * t * a' ↔ (q : ℚ) * x < p * y) := by
  have pos : (0 : ℚ) < a' * t' := by exact_mod_cast Nat.mul_pos pos pos'
  have left : ((p * t * a' : Nat) : ℚ) = p * y * (a' * t') := by
    push_cast
    rw [ht]
    ring
  have right : ((q * a * t' : Nat) : ℚ) = q * x * (a' * t') := by
    push_cast
    rw [ha]
    ring
  constructor
  · rw [← @Nat.cast_lt ℚ, left, right, mul_lt_mul_iff_left₀ pos]
  · rw [← @Nat.cast_lt ℚ, left, right, mul_lt_mul_iff_left₀ pos]

theorem compareTo_iff :
    (b.compareTo c k n = .lt ↔ (c : ℚ) * 10 ^ k < n / 4 * 2 ^ b.exponent) ∧
    (b.compareTo c k n = .gt ↔ (n : ℚ) / 4 * 2 ^ b.exponent < c * 10 ^ k) := by
  have quarter : (n : ℚ) / 4 * 2 ^ b.exponent = n * 2 ^ (b.exponent - 2) := by
    rw [zpow_sub₀ (by norm_num)]
    norm_num
    ring
  have scaled := @scaled_lt_iff c n _ _ _ _ _ _ (power_two_eq (b.exponent - 2)) (power_ten_eq k)
    (power_pos (by decide) _) (power_pos (by decide) _)
  rw [quarter]
  unfold compareTo
  dsimp only
  rw [Nat.compare_eq_lt, Nat.compare_eq_gt]
  exact scaled

theorem contains_iff : b.contains c k = true ↔ b.Around (c * 10 ^ k) := by
  obtain ⟨low, low'⟩ := @compareTo_iff b c b.lower k
  obtain ⟨high, high'⟩ := @compareTo_iff b c b.upper k
  unfold contains
  dsimp only
  split
  next even =>
    have even : b.significand % 2 = 0 := by simpa using even
    rw [Bool.and_eq_true, bne_iff_ne, bne_iff_ne, Ne, Ne, low, high', not_lt, not_lt]
    exact ⟨fun h => ⟨h.1, h.2, fun odd => by omega⟩, fun h => ⟨h.lower, h.upper⟩⟩
  next odd =>
    have odd : b.significand % 2 = 1 := by
      rw [beq_iff_eq] at odd
      omega
    rw [Bool.and_eq_true, beq_iff_eq, beq_iff_eq, low', high]
    exact ⟨fun h => ⟨h.1.le, h.2.le, fun _ => h⟩, fun h => h.odd odd⟩

theorem neighbour?_around {tie : Tie} (found : b.neighbour? tie k = some c) :
    b.Around (c * 10 ^ k) := by
  rw [← contains_iff]
  unfold neighbour? at found
  dsimp only at found
  split at found
  next inside _ =>
    obtain rfl := Option.some.inj found
    exact inside
  next _ inside =>
    obtain rfl := Option.some.inj found
    exact inside
  · cases found
  next inside inside' =>
    split at found
    · obtain rfl := Option.some.inj found
      exact inside'
    · obtain rfl := Option.some.inj found
      exact inside
    · split at found
      · obtain rfl := Option.some.inj found
        exact inside'
      · split at found
        · obtain rfl := Option.some.inj found
          exact inside
        · obtain rfl := Option.some.inj found
          exact inside'

theorem neighbour?_isSome {tie : Tie}
    (h : b.contains (b.floorAt k) k = true ∨ b.contains (b.floorAt k + 1) k = true) :
    ∃ c, b.neighbour? tie k = some c := by
  unfold neighbour?
  dsimp only
  split
  · exact ⟨_, rfl⟩
  · exact ⟨_, rfl⟩
  next outside outside' => simp [outside, outside'] at h
  · split
    · exact ⟨_, rfl⟩
    · exact ⟨_, rfl⟩
    · split
      · exact ⟨_, rfl⟩
      · split <;> exact ⟨_, rfl⟩

theorem floorAt_bounds (b : Binary) (k : Int) :
    (b.floorAt k : ℚ) * 10 ^ k ≤ b.significand * 2 ^ b.exponent ∧
    (b.significand : ℚ) * 2 ^ b.exponent < (b.floorAt k + 1) * 10 ^ k := by
  have scaled (p : Nat) := @scaled_lt_iff p b.significand _ _ _ _ _ _ (power_two_eq b.exponent)
    (power_ten_eq k) (power_pos (by decide) _) (power_pos (by decide) _)
  have pos : 0 < (power 2 b.exponent).2 * (power 10 k).1 :=
    Nat.mul_pos (Nat.pow_pos (by decide)) (Nat.pow_pos (by decide))
  have floor : b.floorAt k =
      b.significand * (power 2 b.exponent).1 * (power 10 k).2 /
        ((power 2 b.exponent).2 * (power 10 k).1) := rfl
  generalize b.floorAt k = q at *
  constructor
  · rw [← not_lt, ← (scaled q).2, not_lt]
    have := Nat.div_mul_le_self (b.significand * (power 2 b.exponent).1 * (power 10 k).2)
      ((power 2 b.exponent).2 * (power 10 k).1)
    rw [← floor] at this
    linarith
  · have next := (scaled (q + 1)).2
    push_cast at next
    rw [← next]
    have := Nat.lt_mul_div_succ (b.significand * (power 2 b.exponent).1 * (power 10 k).2) pos
    rw [← floor] at this
    linarith

theorem around_of_lt {q : ℚ} (low : (b.lower : ℚ) / 4 * 2 ^ b.exponent < q)
    (high : q < b.upper / 4 * 2 ^ b.exponent) : b.Around q :=
  ⟨low.le, high.le, fun _ => ⟨low, high⟩⟩

/-- A grid of seventeen digits is finer than the interval, on the side of smaller numbers by what
reaches beyond half a unit. -/
theorem grid_lt (canonical : b.Canonical) (pos : 0 < b.significand) {step : ℚ}
    (fine : 10 ^ 16 * step ≤ b.significand * 2 ^ b.exponent) :
    (b.lower : ℚ) < 4 * b.significand ∧
      step < (1 / 2 + (b.significand - b.lower / 4)) * 2 ^ b.exponent := by
  have unit := two_zpow_pos b.exponent
  have small : (b.significand : ℚ) < 2 ^ 53 := by exact_mod_cast canonical.significand_lt
  unfold lower
  split
  next power =>
    rw [Bool.and_eq_true, beq_iff_eq] at power
    have exact : (b.significand : ℚ) = 2 ^ 52 := by exact_mod_cast power.1
    have less : ((4 * b.significand - 1 : Nat) : ℚ) = 4 * b.significand - 1 := by
      rw [Nat.cast_sub (by omega)]
      push_cast
      ring
    rw [less]
    rw [exact] at fine ⊢
    norm_num at fine ⊢
    linarith
  next =>
    have less : ((4 * b.significand - 2 : Nat) : ℚ) = 4 * b.significand - 2 := by
      rw [Nat.cast_sub (by omega)]
      push_cast
      ring
    have bound := mul_lt_mul_of_pos_right small unit
    rw [less]
    refine ⟨by linarith, ?_⟩
    norm_num at fine bound
    ring_nf
    linarith

theorem contains_neighbour (canonical : b.Canonical) (pos : 0 < b.significand)
    (fine : 10 ^ 16 * (10 : ℚ) ^ k ≤ b.significand * 2 ^ b.exponent) :
    b.contains (b.floorAt k) k = true ∨ b.contains (b.floorAt k + 1) k = true := by
  have unit := two_zpow_pos b.exponent
  obtain ⟨floor, ceiling⟩ := b.floorAt_bounds k
  obtain ⟨below, step⟩ := grid_lt canonical pos fine
  have lower := mul_lt_mul_of_pos_right below unit
  have upper : (b.upper : ℚ) = 4 * b.significand + 2 := by simp [Binary.upper]
  rw [contains_iff, contains_iff]
  by_cases near : (b.lower : ℚ) / 4 * 2 ^ b.exponent < b.floorAt k * 10 ^ k
  · refine .inl (around_of_lt near ?_)
    rw [upper]
    linarith
  · refine .inr (around_of_lt ?_ ?_)
    · push_cast
      linarith
    · rw [upper]
      push_cast
      linarith

/-- The fraction that the guess takes for the logarithm is good enough in the range of the format:
`10 ^ 31 ≤ 2 ^ 103` bounds it from above and `2 ^ 93 ≤ 10 ^ 28` from below. -/
theorem ten_zpow_le_two_zpow {g l : Int} (guess : 100000 * g ≤ 30103 * l) (low : -1100 ≤ l)
    (high : l ≤ 1100) : (10 : ℚ) ^ (g - 1) ≤ 2 ^ l := by
  rcases le_or_gt 1 g with large | small
  · obtain ⟨n, hn⟩ := Int.eq_ofNat_of_zero_le (show 0 ≤ g - 1 by omega)
    rw [hn, zpow_natCast]
    refine (pow_le_pow_iff_left₀ (by positivity) (two_zpow_pos l).le (n := 31) (by decide)).mp ?_
    rw [← pow_mul, mul_comm, pow_mul]
    calc ((10 : ℚ) ^ 31) ^ n ≤ (2 ^ 103) ^ n := by gcongr; norm_num
      _ = 2 ^ ((103 * n : Nat) : Int) := by rw [← pow_mul, zpow_natCast]
      _ ≤ 2 ^ (l * 31) := two_zpow_le (by push_cast; omega)
      _ = (2 ^ l) ^ 31 := by rw [zpow_mul]; norm_cast
  · obtain ⟨n, hn⟩ := Int.eq_ofNat_of_zero_le (show 0 ≤ 1 - g by omega)
    rw [show g - 1 = -(n : Int) by omega, zpow_neg, zpow_natCast, ← inv_inv ((2 : ℚ) ^ l),
      ← zpow_neg]
    apply inv_anti₀ (two_zpow_pos _)
    refine (pow_le_pow_iff_left₀ (two_zpow_pos _).le (by positivity) (n := 28) (by decide)).mp ?_
    rw [← pow_mul 10, mul_comm n, pow_mul]
    calc ((2 : ℚ) ^ (-l)) ^ 28 = 2 ^ (-l * 28) := by rw [zpow_mul]; norm_cast
      _ ≤ 2 ^ ((93 * n : Nat) : Int) := two_zpow_le (by push_cast; omega)
      _ = (2 ^ 93) ^ n := by rw [← pow_mul, zpow_natCast]
      _ ≤ (10 ^ 28) ^ n := by gcongr; norm_num

/-- The leading power of ten is at most the number. The guess is too large by at most one. -/
theorem leadingExponent_le (canonical : b.Canonical) (pos : 0 < b.significand) :
    (10 : ℚ) ^ b.leadingExponent ≤ b.significand * 2 ^ b.exponent := by
  have fits (e : Int) : (b.compareTo 1 e (4 * b.significand) != .gt) = true →
      (10 : ℚ) ^ e ≤ b.significand * 2 ^ b.exponent := by
    intro h
    have greater := (@compareTo_iff b 1 (4 * b.significand) e).2
    rw [bne_iff_ne, Ne, greater, not_lt] at h
    push_cast at h
    linarith
  unfold leadingExponent
  dsimp only
  split
  next h => exact fits _ h
  · split
    next h => exact fits _ h
    · have bits : b.significand.log2 < 53 :=
        (Nat.log2_lt pos.ne').mpr canonical.significand_lt
      have low := canonical.exponent_ge
      have high := canonical.exponent_le
      have power : (2 : ℚ) ^ ((b.significand.log2 : Int) + b.exponent) ≤
          b.significand * 2 ^ b.exponent := by
        rw [zpow_add₀ (by norm_num), zpow_natCast]
        have : (2 : ℚ) ^ b.significand.log2 ≤ b.significand := by
          exact_mod_cast Nat.log2_self_le pos.ne'
        exact mul_le_mul_of_nonneg_right this (two_zpow_pos _).le
      exact le_trans (ten_zpow_le_two_zpow (by omega) (by omega) (by omega)) power

end Binary

namespace Scaled

def value (d : Scaled) : ℚ := d.coefficient * 10 ^ d.exponent

theorem normalize_value (fuel : Nat) (d : Scaled) : (d.normalize fuel).value = d.value := by
  induction fuel generalizing d with
  | zero => rfl
  | succ fuel ih =>
    unfold normalize
    split
    next h =>
      rw [Bool.and_eq_true, beq_iff_eq] at h
      rw [ih]
      have tens : (d.coefficient : ℚ) = 10 * (d.coefficient / 10 : Nat) := by
        exact_mod_cast (Nat.mul_div_cancel' (Nat.dvd_of_mod_eq_zero h.2)).symm
      unfold value
      dsimp only
      rw [zpow_add₀ (by norm_num), zpow_one, tens]
      ring
    · rfl

end Scaled

theorem Binary.shortest_around {b : Binary} (canonical : b.Canonical) (pos : 0 < b.significand)
    (tie : Tie) : b.Around (b.shortest tie).value := by
  have leading := leadingExponent_le canonical pos
  have last : ∃ c, b.neighbour? tie (b.leadingExponent - Int.ofNat 16) = some c := by
    apply neighbour?_isSome
    apply contains_neighbour canonical pos
    refine le_trans (le_of_eq ?_) leading
    rw [zpow_sub₀ (by norm_num)]
    norm_num
    ring
  unfold shortest
  rw [if_neg (by simpa using pos.ne')]
  dsimp only
  split
  next d found =>
    obtain ⟨k, listed, found⟩ := List.exists_of_findSome?_eq_some found
    obtain ⟨c, neighbour, rfl⟩ := Option.map_eq_some_iff.mp found
    rw [Scaled.normalize_value]
    exact neighbour?_around neighbour
  next none =>
    obtain ⟨c, found⟩ := last
    have grid : b.leadingExponent - Int.ofNat 16 ∈
        (List.range 17).map fun n => b.leadingExponent - Int.ofNat n :=
      List.mem_map.mpr ⟨16, by decide, rfl⟩
    have missed := List.findSome?_eq_none_iff.mp none _ grid
    rw [found] at missed
    cases missed

theorem Binary.Canonical.eq_of_zero {e : Int} (canonical : Binary.Canonical ⟨0, e⟩) :
    e = -1074 := by
  have normal := canonical.normal
  dsimp only at normal
  omega

theorem shape_zero : shape 0 = .finite false ⟨0, -1074⟩ := by decide

theorem neg_eq_of_shape {x y : Float} {b : Binary} (hx : shape x = .finite true b)
    (hy : shape y = .finite false b) : -y = x := by
  obtain ⟨m, e⟩ := b
  by_cases zero : m = 0
  · obtain rfl := zero
    obtain rfl := (canonical_of_shape hx).eq_of_zero
    have negative : shape (-0) = .finite true ⟨0, -1074⟩ := by decide
    rw [eq_of_shape hy shape_zero, eq_of_shape hx negative]
  · have pos : 0 < m := by omega
    have unpacked := @unpack_of_shape y .positive m e pos hy
    have negated : -y = .ofModel (.pack y.toModel.unpack.neg) := rfl
    rw [negated, unpacked]
    exact eq_of_shape (@shape_pack .negative m e pos (canonical_of_shape hx)) hx

theorem isInf_of_shape {x : Float} {n : Bool} {b : Binary} (h : shape x = .finite n b) :
    x.isInf = false := by
  have same : x.isInf = x.toModel.unpack.isInf := rfl
  rw [shape_eq] at h
  rw [same]
  cases unpacked : x.toModel.unpack <;>
    simp_all [Shape.ofUnpacked, Float.Model.UnpackedFloat.isInf]

/-- Any way to write the shortest decimal of a number is rounded back to its magnitude. -/
theorem shape_ofDecimal_shortest {b : Binary} (canonical : b.Canonical) (tie : Tie) {c : Nat}
    {k : Int} (same : (c : ℚ) * 10 ^ k = (b.shortest tie).value) :
    shape (ofDecimal c k) = .finite false b := by
  obtain ⟨m, e⟩ := b
  by_cases zero : m = 0
  · obtain rfl := zero
    obtain rfl := canonical.eq_of_zero
    have none : c = 0 := by
      have nothing : (Binary.shortest tie ⟨0, -1074⟩).value = 0 := by
        simp [Binary.shortest, Scaled.value]
      rw [nothing, mul_eq_zero] at same
      exact_mod_cast same.resolve_right (ten_zpow_pos k).ne'
    rw [none]
    exact shape_zero
  · have pos : 0 < m := by omega
    have around : Binary.Around ⟨m, e⟩ (c * 10 ^ k) :=
      same ▸ Binary.shortest_around canonical pos tie
    rw [ofDecimal_eq canonical pos around]
    exact @shape_pack .positive m e pos canonical

end BlockStage.Decimal
