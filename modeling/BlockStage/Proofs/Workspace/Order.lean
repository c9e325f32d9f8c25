import BlockStage.Proofs.Decimal.Shape
import BlockStage.Workspace.Graph

/-! # The order of numbers

All floating point numbers are in one order: that of their values, with minus zero right before zero
and what is no number at the end. Loading compares keys made from the bits of the numbers. A key
counts the steps from zero to its number, so the keys are in the same order.
-/
namespace BlockStage.Workspace

open Float.Model (UnpackedFloat)
open Float.Model.UnpackedFloat (Sign)
open Decimal (negative)

/-- A smaller number comes before a greater one, minus zero before zero, and every number before
what is none. -/
def Before (x y : Float) : Prop :=
  x < y ∨ (x = -0 ∧ y = 0) ∨ (x.isNaN = false ∧ y.isNaN = true)

instance (x y : Float) : Decidable (Before x y) := inferInstanceAs (Decidable (_ ∨ _ ∨ _))

/-! ## Steps from zero -/

def steps (m : Nat) (e : Int) : Nat := (e + 1074).toNat * 2 ^ 52 + m

section Steps

variable {m m' : Nat} {e e' : Int}

theorem steps_pos (pos : 0 < m) : 0 < steps m e := Nat.lt_of_lt_of_le pos (Nat.le_add_left _ _)

theorem steps_lt (h : Decimal.Binary.Canonical ⟨m, e⟩) : steps m e < 2047 * 2 ^ 52 := by
  obtain ⟨small, low, high, normal⟩ := h
  dsimp only at *
  unfold steps
  omega

/-- The exponent decides first: a significand has all of its 53 bits unless the exponent is the
least one. -/
theorem compare_steps (h : Decimal.Binary.Canonical ⟨m, e⟩)
    (h' : Decimal.Binary.Canonical ⟨m', e'⟩) :
    (compare e e').then (compare m m') = compare (steps m e) (steps m' e') := by
  obtain ⟨small, low, -, normal⟩ := h
  obtain ⟨small', low', -, normal'⟩ := h'
  unfold steps
  dsimp only at *
  rcases Int.lt_trichotomy e e' with less | rfl | greater
  · rw [Int.compare_eq_lt.mpr less, eq_comm]
    apply Nat.compare_eq_lt.mpr
    omega
  · rw [Int.compare_eq_eq.mpr rfl, Ordering.then]
    simp [Nat.compare_eq_ite_lt]
  · rw [Int.compare_eq_gt.mpr greater, eq_comm]
    apply Nat.compare_eq_gt.mpr
    omega

end Steps

/-- So many steps lead from zero to the number, on the side of its sign. -/
inductive Away : UnpackedFloat → Sign → Nat → Prop where
  | zero {s} : Away (.zero s) s 0
  | finite {s m e pos} (canonical : Decimal.Binary.Canonical ⟨m, e⟩) :
    Away (.finite s m e pos) s (steps m e)
  | infinity {s} : Away (.infinity s) s (2047 * 2 ^ 52)

/-- The rank among all numbers, counted from zero; minus zero is one below. -/
def signedRank : Sign → Nat → Int
  | .positive, n => n
  | .negative, n => -n - 1

namespace Away

variable {u w : UnpackedFloat} {s t : Sign} {n k : Nat}

theorem le (h : Away u s n) : n ≤ 2047 * 2 ^ 52 := by
  cases h with
  | zero => exact Nat.zero_le _
  | finite canonical => exact Nat.le_of_lt (steps_lt canonical)
  | infinity => exact Nat.le_refl _

theorem compare_positive (hu : Away u .positive n) (hw : Away w .positive k) :
    u.compare w = some (compare n k) := by
  cases hu with
  | zero =>
    cases hw with
    | finite => exact congrArg some (Nat.compare_eq_lt.mpr (steps_pos ‹_›)).symm
    | zero | infinity => rfl
  | finite canonical =>
    cases hw with
    | zero => exact congrArg some (Nat.compare_eq_gt.mpr (steps_pos ‹_›)).symm
    | finite canonical' => exact congrArg some (compare_steps canonical canonical')
    | infinity => exact congrArg some (Nat.compare_eq_lt.mpr (steps_lt canonical)).symm
  | infinity =>
    cases hw with
    | finite canonical => exact congrArg some (Nat.compare_eq_gt.mpr (steps_lt canonical)).symm
    | zero | infinity => rfl

theorem neg (h : Away u .negative n) : Away u.neg .positive n := by
  cases h with
  | zero => exact .zero
  | finite canonical => exact .finite canonical
  | infinity => exact .infinity

theorem compare_neg (hu : Away u .negative n) (hw : Away w .negative k) :
    u.compare w = w.neg.compare u.neg := by
  cases hu with
  | zero => cases hw <;> rfl
  | infinity => cases hw <;> rfl
  | finite =>
    cases hw with
    | finite =>
      refine congrArg some ?_
      rw [Ordering.swap_then, Int.compare_swap, Nat.compare_swap]
    | zero | infinity => rfl

theorem compare_across (hu : Away u .negative n) (hw : Away w .positive k) :
    u.compare w = some .lt ↔ n ≠ 0 ∨ k ≠ 0 := by
  cases hu with
  | zero =>
    cases hw with
    | zero => decide
    | finite => exact iff_of_true rfl (.inr (steps_pos ‹_›).ne')
    | infinity => decide
  | finite =>
    refine iff_of_true ?_ (.inl (steps_pos ‹_›).ne')
    cases hw <;> rfl
  | infinity =>
    refine iff_of_true ?_ (.inl (by decide))
    cases hw <;> rfl

theorem compare_back (hu : Away u .positive n) (hw : Away w .negative k) :
    u.compare w ≠ some .lt := by
  cases hu <;> cases hw <;> exact nofun

theorem lt_iff (hu : Away u s n) (hw : Away w t k) :
    u.lt w = true ↔ signedRank s n < signedRank t k ∧ (n ≠ 0 ∨ k ≠ 0) := by
  rw [UnpackedFloat.lt, beq_iff_eq]
  cases s with
  | positive =>
    cases t with
    | positive =>
      rw [hu.compare_positive hw, Option.some_inj, Nat.compare_eq_lt, signedRank, signedRank]
      omega
    | negative =>
      refine iff_of_false (hu.compare_back hw) ?_
      rw [signedRank, signedRank]
      omega
  | negative =>
    cases t with
    | positive =>
      rw [hu.compare_across hw, signedRank, signedRank]
      omega
    | negative =>
      rw [hu.compare_neg hw, hw.neg.compare_positive hu.neg, Option.some_inj, Nat.compare_eq_lt,
        signedRank, signedRank]
      omega

end Away

/-! ## Keys -/

section Keys

variable {x y : Float}

theorem orderKey_of_toBits {s : Sign} {n : Nat} (small : n < 2 ^ 63)
    (bits : x.toBits.toNat = (negative s).toNat * 2 ^ 63 + n) : orderKey x = signedRank s n := by
  have limit : Word.signedLimit64 = 2 ^ 63 := rfl
  unfold orderKey
  dsimp only
  rw [bits, limit]
  cases s with
  | negative =>
    have sign : (negative .negative).toNat = 1 := rfl
    rw [sign, if_neg (by omega), signedRank]
    omega
  | positive =>
    have sign : (negative .positive).toNat = 0 := rfl
    rw [sign, if_pos (by omega), signedRank]
    omega

theorem exists_away (defined : x.isNaN = false) :
    ∃ s n, Away x.toModel.unpack s n ∧ orderKey x = signedRank s n := by
  have shaped := Decimal.shape_eq x
  change x.toModel.unpack.isNaN = false at defined
  cases unpacked : x.toModel.unpack with
  | infinity s =>
    rw [unpacked] at shaped
    exact ⟨s, _, .infinity, orderKey_of_toBits (by decide) (Decimal.toBits_of_infinite shaped)⟩
  | notANumber =>
    rw [unpacked] at defined
    cases defined
  | zero s =>
    rw [unpacked] at shaped
    have bits := Decimal.toBits_of_shape shaped
    exact ⟨s, _, .zero, orderKey_of_toBits (by decide) (by simpa using bits)⟩
  | finite s m e pos =>
    rw [unpacked] at shaped
    have canonical := Decimal.canonical_of_shape shaped
    have below := steps_lt canonical
    have bits := (Decimal.toBits_of_shape shaped).trans (Nat.add_assoc _ _ _)
    exact ⟨s, _, .finite canonical, orderKey_of_toBits (by omega) bits⟩

theorem orderKey_of_isNaN (undefined : x.isNaN = true) : orderKey x = 4095 * 2 ^ 51 := by
  have bits : x.toBits.toNat = (negative .positive).toNat * 2 ^ 63 + 4095 * 2 ^ 51 :=
    (Decimal.toBits_of_isNaN undefined).trans (Nat.zero_add _).symm
  exact orderKey_of_toBits (by norm_num) bits

theorem orderKey_le (x : Float) : orderKey x ≤ 4095 * 2 ^ 51 := by
  cases hx : x.isNaN with
  | true => exact Int.le_of_eq (orderKey_of_isNaN hx)
  | false =>
    obtain ⟨s, n, away, key⟩ := exists_away hx
    have := away.le
    rw [key]
    cases s <;> rw [signedRank] <;> omega

theorem orderKey_inj : orderKey x = orderKey y ↔ x = y := by
  constructor
  · intro same
    have small := x.toBits.toNat_lt
    have small' := y.toBits.toNat_lt
    unfold orderKey at same
    dsimp only at same
    apply Float.toBits_inj.mp
    apply UInt64.toNat_inj.mp
    split at same <;> split at same <;> omega
  · exact congrArg orderKey

theorem not_lt_of_isNaN (undefined : x.isNaN = true) : ¬ x < y := by
  change x.toModel.unpack.isNaN = true at undefined
  intro less
  have less : x.toModel.unpack.lt y.toModel.unpack = true := of_decide_eq_true less
  cases unpacked : x.toModel.unpack with
  | notANumber =>
    rw [unpacked] at less
    cases less
  | infinity | zero | finite =>
    rw [unpacked] at undefined
    cases undefined

/-- The keys are in the order of the numbers. -/
theorem before_iff : Before x y ↔ orderKey x < orderKey y := by
  have minus : orderKey (-0) = -1 := by decide
  have plus : orderKey 0 = 0 := by decide
  cases hx : x.isNaN with
  | true =>
    refine iff_of_false ?_ (Int.not_lt.mpr ((orderKey_of_isNaN hx).symm ▸ orderKey_le y))
    rintro (less | ⟨rfl, -⟩ | ⟨defined, -⟩)
    · exact not_lt_of_isNaN hx less
    · cases hx
    · rw [hx] at defined
      cases defined
  | false =>
    obtain ⟨s, n, hu, key⟩ := exists_away hx
    cases hy : y.isNaN with
    | true =>
      have := hu.le
      refine iff_of_true (.inr (.inr ⟨hx, hy⟩)) ?_
      rw [key, orderKey_of_isNaN hy]
      cases s <;> rw [signedRank] <;> omega
    | false =>
      obtain ⟨t, k, hw, key'⟩ := exists_away hy
      have less : x < y ↔ x.toModel.unpack.lt y.toModel.unpack = true := decide_eq_true_iff
      rw [Before, ← @orderKey_inj x, ← @orderKey_inj y, minus, plus, less, hu.lt_iff hw, key, key',
        hy]
      -- what is left is the rank of minus zero, one below that of zero
      cases s <;> cases t <;>
        simp only [signedRank, reduceCtorEq, false_and, and_false, or_false] <;> omega

end Keys

end BlockStage.Workspace
