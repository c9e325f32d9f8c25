import Mathlib
import BlockStage.Decimal.Shortest

/-! # Shapes and bit patterns

The shape of a number is read off its bits by division. It is what the number unpacks to, and a
finite number is determined by it.
-/
namespace BlockStage.Decimal

open Float.Model (UnpackedFloat)
open Float.Model.UnpackedFloat (Sign packComponents unpackExponent unpackMantissa unpackSign)

/-- What the formats of numbers allow for a finite magnitude: 53 bits, and fewer of them only at the
least exponent. -/
structure Binary.Canonical (b : Binary) : Prop where
  significand_lt : b.significand < 2 ^ 53
  exponent_ge : -1074 ≤ b.exponent
  exponent_le : b.exponent ≤ 971
  normal : b.exponent = -1074 ∨ 2 ^ 52 ≤ b.significand

def negative : Sign → Bool
  | .negative => true
  | .positive => false

def Shape.ofUnpacked : UnpackedFloat → Shape
  | .infinity s => .infinite (negative s)
  | .notANumber => .notANumber
  | .zero s => .finite (negative s) ⟨0, -1074⟩
  | .finite s m e _ => .finite (negative s) ⟨m, e⟩

section Fields

variable (b : BitVec 64)

theorem unpackExponent_toNat :
    (@unpackExponent .binary64 b).toNat = b.toNat / 2 ^ 52 % 2 ^ 11 := by
  simp [unpackExponent, BitVec.extractLsb_toNat, Nat.shiftRight_eq_div_pow]

theorem unpackMantissa_toNat : (@unpackMantissa .binary64 b).toNat = b.toNat % 2 ^ 52 := by
  simp [unpackMantissa, BitVec.extractLsb_toNat]

theorem unpackSign_toNat : (@unpackSign .binary64 b).toNat = b.toNat / 2 ^ 63 := by
  have small : b.toNat < 2 ^ 64 := b.isLt
  simp only [unpackSign, BitVec.toNat_cast, BitVec.extractLsb_toNat, Nat.shiftRight_eq_div_pow]
  simp
  omega

theorem negative_ofBitVec (s : BitVec 1) : negative (.ofBitVec s) = (s.toNat == 1) := by
  revert s
  decide

theorem toNat_one_append (m : BitVec 52) : (1#1 ++ m).toNat = 2 ^ 52 + m.toNat := by
  rw [BitVec.toNat_append, Nat.shiftLeft_eq, Nat.mul_comm, ← Nat.two_pow_add_eq_or_of_lt m.isLt]
  rfl

end Fields

theorem shapeOfBits_eq (b : UInt64) :
    shapeOfBits b = Shape.ofUnpacked (UnpackedFloat.unpack .binary64 b.toBitVec) := by
  have bits : b.toNat = b.toBitVec.toNat := rfl
  have field := unpackExponent_toNat b.toBitVec
  have fraction := unpackMantissa_toNat b.toBitVec
  have sign := unpackSign_toNat b.toBitVec
  have ones : @unpackExponent .binary64 b.toBitVec = -1#11 ↔
      b.toBitVec.toNat / 2 ^ 52 % 2 ^ 11 = 2047 := by
    rw [← BitVec.toNat_inj, field]
    rfl
  have zeros : @unpackExponent .binary64 b.toBitVec = 0#11 ↔
      b.toBitVec.toNat / 2 ^ 52 % 2 ^ 11 = 0 := by
    rw [← BitVec.toNat_inj, field]
    rfl
  have empty : @unpackMantissa .binary64 b.toBitVec = 0#52 ↔ b.toBitVec.toNat % 2 ^ 52 = 0 := by
    rw [← BitVec.toNat_inj, fraction]
    rfl
  unfold shapeOfBits UnpackedFloat.unpack
  dsimp only [Nat.pow_eq]
  rw [bits]
  by_cases top : b.toBitVec.toNat / 2 ^ 52 % 2 ^ 11 = 2047
  · by_cases none : b.toBitVec.toNat % 2 ^ 52 = 0
    · rw [if_pos (by simpa using top), if_pos (by simpa using none), if_pos (ones.mpr top),
        if_pos (empty.mpr none), Shape.ofUnpacked, negative_ofBitVec, sign]
    · rw [if_pos (by simpa using top), if_neg (by simpa using none), if_pos (ones.mpr top),
        if_neg (none ∘ empty.mp), Shape.ofUnpacked]
  by_cases bottom : b.toBitVec.toNat / 2 ^ 52 % 2 ^ 11 = 0
  · rw [if_neg (by simpa using top), if_pos (by simpa using bottom), if_neg (top ∘ ones.mp),
      if_pos (zeros.mpr bottom)]
    by_cases none : b.toBitVec.toNat % 2 ^ 52 = 0
    · rw [dif_pos (empty.mpr none), Shape.ofUnpacked, negative_ofBitVec, sign, none]
    · rw [dif_neg (none ∘ empty.mp), Shape.ofUnpacked, negative_ofBitVec, sign, fraction, field,
        bottom]
      rfl
  · rw [if_neg (by simpa using top), if_neg (by simpa using bottom), if_neg (top ∘ ones.mp),
      if_neg (bottom ∘ zeros.mp), Shape.ofUnpacked, negative_ofBitVec, sign, toNat_one_append,
      fraction, field]
    rfl

theorem shape_eq (x : Float) : shape x = Shape.ofUnpacked x.toModel.unpack :=
  shapeOfBits_eq x.toBits

theorem isFinite_iff {x : Float} : x.isFinite = true ↔ ∃ n b, shape x = .finite n b := by
  have same : x.isFinite = x.toModel.unpack.isFinite := rfl
  rw [shape_eq, same]
  cases x.toModel.unpack <;> simp [UnpackedFloat.isFinite, Shape.ofUnpacked]

theorem isNaN_iff {x : Float} : x.isNaN = true ↔ shape x = .notANumber := by
  have same : x.isNaN = x.toModel.unpack.isNaN := rfl
  rw [shape_eq, same]
  cases x.toModel.unpack <;> simp [UnpackedFloat.isNaN, Shape.ofUnpacked]

theorem canonical_of_shape {x : Float} {n : Bool} {b : Binary} (h : shape x = .finite n b) :
    b.Canonical := by
  simp only [shape, shapeOfBits, Nat.pow_eq, beq_iff_eq] at h
  have fraction : x.toBits.toNat % 2 ^ 52 < 2 ^ 52 := Nat.mod_lt _ (by decide)
  have field : x.toBits.toNat / 2 ^ 52 % 2 ^ 11 < 2 ^ 11 := Nat.mod_lt _ (by decide)
  generalize x.toBits.toNat % 2 ^ 52 = f at h fraction
  generalize x.toBits.toNat / 2 ^ 52 % 2 ^ 11 = e at h field
  split at h
  · split at h <;> cases h
  split at h <;> cases h
  · exact ⟨by dsimp only; omega, Int.le_refl _, by dsimp only; omega, .inl rfl⟩
  · constructor <;> simp only [Int.ofNat_eq_natCast] <;> omega

theorem toNat_sign {bits : Nat} (small : bits < 2 ^ 64) :
    (bits / 2 ^ 63 == 1).toNat = bits / 2 ^ 63 := by
  have : bits / 2 ^ 63 = 0 ∨ bits / 2 ^ 63 = 1 := by omega
  rcases this with this | this <;> rw [this] <;> rfl

theorem toBits_of_shape {x : Float} {n : Bool} {b : Binary} (h : shape x = .finite n b) :
    x.toBits.toNat = n.toNat * 2 ^ 63 + (b.exponent + 1074).toNat * 2 ^ 52 + b.significand := by
  have sign := toNat_sign x.toBits.toNat_lt
  simp only [shape, shapeOfBits, Nat.pow_eq, beq_iff_eq] at h
  generalize x.toBits.toNat = bits at h sign ⊢
  split at h
  · split at h <;> cases h
  · split at h <;> cases h <;> rw [sign] <;> simp only [Int.ofNat_eq_natCast] <;> omega

theorem toBits_of_infinite {x : Float} {n : Bool} (h : shape x = .infinite n) :
    x.toBits.toNat = n.toNat * 2 ^ 63 + 2047 * 2 ^ 52 := by
  have sign := toNat_sign x.toBits.toNat_lt
  simp only [shape, shapeOfBits, Nat.pow_eq, beq_iff_eq] at h
  generalize x.toBits.toNat = bits at h sign ⊢
  split at h
  · split at h <;> cases h
    rw [sign]
    omega
  · split at h <;> cases h

/-- All undefined numbers have the same bits. -/
theorem toBits_of_isNaN {x : Float} (undefined : x.isNaN = true) :
    x.toBits.toNat = 4095 * 2 ^ 51 := by
  have unpacked : UnpackedFloat.unpack .binary64 x.toBits.toBitVec = .notANumber := by
    change x.toModel.unpack.isNaN = true at undefined
    change x.toModel.unpack = _
    cases h : x.toModel.unpack with
    | notANumber => rfl
    | infinity | zero | finite =>
      rw [h] at undefined
      cases undefined
  unfold UnpackedFloat.unpack at unpacked
  dsimp only at unpacked
  split at unpacked
  next top =>
    split at unpacked
    · cases unpacked
    next filled =>
      have bits : x.toBits.toBitVec = _ := x.toModel.valid.eq_packedNaN top filled
      change x.toBits.toBitVec.toNat = _
      rw [bits]
      decide
  · split at unpacked
    · split at unpacked <;> cases unpacked
    · cases unpacked

theorem eq_of_shape {x y : Float} {n : Bool} {b : Binary} (hx : shape x = .finite n b)
    (hy : shape y = .finite n b) : x = y := by
  apply Float.toBits_inj.mp
  apply UInt64.toNat_inj.mp
  rw [toBits_of_shape hx, toBits_of_shape hy]

theorem packComponents_toNat (s : Sign) (e : BitVec 11) (m : BitVec 52) :
    (packComponents .binary64 s e m).toNat =
      (negative s).toNat * 2 ^ 63 + e.toNat * 2 ^ 52 + m.toNat := by
  have sign : s.toBitVec.toNat = (negative s).toNat := by cases s <;> rfl
  have joined : (s.toBitVec ++ e).toNat = (negative s).toNat * 2 ^ 11 + e.toNat := by
    rw [BitVec.toNat_append, Nat.shiftLeft_eq, sign, Nat.mul_comm,
      ← Nat.two_pow_add_eq_or_of_lt e.isLt]
  unfold packComponents
  rw [BitVec.toNat_append, joined, Nat.shiftLeft_eq, Nat.mul_comm,
    ← Nat.two_pow_add_eq_or_of_lt m.isLt]
  ring

theorem pack_toNat {s : Sign} {m : Nat} {e : Int} (pos : 0 < m)
    (canonical : Binary.Canonical ⟨m, e⟩) :
    (UnpackedFloat.pack .binary64 (.finite s m e pos)).toNat =
      (negative s).toNat * 2 ^ 63 + (e + 1074).toNat * 2 ^ 52 + m := by
  have biased : (e + (Float.Model.Format.binary64.exponentBias : Int) + (52 : Nat)).toNat =
      (e + 1075).toNat := by
    have : (Float.Model.Format.binary64.exponentBias : Int) = 1023 := rfl
    omega
  have bits : Float.Model.Format.binary64.mantissaBits = 53 := rfl
  obtain ⟨small, low, high, normal⟩ := canonical
  dsimp only at small low high normal
  have inside : ¬ 2 ^ 11 ≤ (e + 1075).toNat + 1 := by omega
  rw [UnpackedFloat.pack]
  dsimp only
  rw [biased, if_neg inside, bits]
  by_cases implicit : 2 ^ 52 ≤ m
  · have top : m.log2 = 52 := (Nat.log2_eq_iff (by omega)).mpr ⟨implicit, small⟩
    rw [if_pos (by rw [top]), packComponents_toNat, BitVec.toNat_ofNat, BitVec.toNat_ofNat]
    change _ + (e + 1075).toNat % 2 ^ 11 * 2 ^ 52 + m % 2 ^ 52 = _
    omega
  · have top : m.log2 < 52 := (Nat.log2_lt (by omega)).mpr (by omega)
    rw [if_neg (by omega), packComponents_toNat, BitVec.toNat_ofNat, BitVec.toNat_ofNat]
    change _ + 0 % 2 ^ 11 * 2 ^ 52 + m % 2 ^ 52 = _
    omega

theorem shapeOfBits_of_toNat {bits : UInt64} {n : Bool} {b : Binary} (canonical : b.Canonical)
    (h : bits.toNat = n.toNat * 2 ^ 63 + (b.exponent + 1074).toNat * 2 ^ 52 + b.significand) :
    shapeOfBits bits = .finite n b := by
  obtain ⟨m, e⟩ := b
  obtain ⟨small, low, high, normal⟩ := canonical
  dsimp only at small low high normal h
  have sign : bits.toNat / 2 ^ 63 = n.toNat := by
    have := n.toNat_lt
    omega
  have isNegative : (n.toNat == 1) = n := by cases n <;> rfl
  unfold shapeOfBits
  dsimp only [Nat.pow_eq]
  rw [sign, isNegative]
  by_cases implicit : 2 ^ 52 ≤ m
  · have field : bits.toNat / 2 ^ 52 % 2 ^ 11 = (e + 1075).toNat := by omega
    have fraction : bits.toNat % 2 ^ 52 = m - 2 ^ 52 := by omega
    rw [field, fraction, if_neg (by simp only [beq_iff_eq]; omega),
      if_neg (by simp only [beq_iff_eq]; omega)]
    have significand : 2 ^ 52 + (m - 2 ^ 52) = m := by omega
    have exponent : Int.ofNat (e + 1075).toNat - 1075 = e := by
      simp only [Int.ofNat_eq_natCast]
      omega
    rw [significand, exponent]
  · have field : bits.toNat / 2 ^ 52 % 2 ^ 11 = 0 := by omega
    have fraction : bits.toNat % 2 ^ 52 = m := by omega
    obtain rfl : e = -1074 := by omega
    rw [field, fraction, if_neg (by decide), if_pos (by decide)]

theorem shape_pack {s : Sign} {m : Nat} {e : Int} (pos : 0 < m)
    (canonical : Binary.Canonical ⟨m, e⟩) :
    shape (.ofModel (.pack (.finite s m e pos))) = .finite (negative s) ⟨m, e⟩ :=
  shapeOfBits_of_toNat canonical (pack_toNat pos canonical)

theorem unpack_of_shape {x : Float} {s : Sign} {m : Nat} {e : Int} (pos : 0 < m)
    (h : shape x = .finite (negative s) ⟨m, e⟩) : x.toModel.unpack = .finite s m e pos := by
  rw [shape_eq] at h
  cases unpacked : x.toModel.unpack with
  | infinity s => simp [unpacked, Shape.ofUnpacked] at h
  | notANumber => simp [unpacked, Shape.ofUnpacked] at h
  | zero s =>
    simp only [unpacked, Shape.ofUnpacked, Shape.finite.injEq, Binary.mk.injEq] at h
    omega
  | finite s' m' e' pos' =>
    simp only [unpacked, Shape.ofUnpacked, Shape.finite.injEq, Binary.mk.injEq] at h
    obtain ⟨signs, rfl, rfl⟩ := h
    have : s' = s := by cases s <;> cases s' <;> first | rfl | cases signs
    rw [this]

/-! ## Finite and undefined numbers -/

theorem isFinite_neg {x : Float} (finite : x.isFinite = true) : (-x).isFinite = true := by
  have negated : -x = .ofModel (.pack x.toModel.unpack.neg) := rfl
  change x.toModel.unpack.isFinite = true at finite
  rw [negated]
  cases unpacked : x.toModel.unpack with
  | infinity s => simp [unpacked, UnpackedFloat.isFinite] at finite
  | notANumber => simp [unpacked, UnpackedFloat.isFinite] at finite
  | zero s => cases s <;> decide
  | finite s m e pos =>
    have shape : shape x = .finite (negative s) ⟨m, e⟩ := by rw [shape_eq, unpacked]; rfl
    exact isFinite_iff.mpr ⟨_, _, shape_pack pos (canonical_of_shape shape)⟩

theorem isFinite_of_isInf {x : Float} (defined : x.isNaN = false) (bounded : x.isInf = false) :
    x.isFinite = true := by
  change x.toModel.unpack.isNaN = false at defined
  change x.toModel.unpack.isInf = false at bounded
  change x.toModel.unpack.isFinite = true
  cases unpacked : x.toModel.unpack <;>
    simp_all [UnpackedFloat.isFinite, UnpackedFloat.isNaN, UnpackedFloat.isInf]

theorem isNaN_of_isFinite {x : Float} (finite : x.isFinite = true) : x.isNaN = false := by
  obtain ⟨n, b, shape⟩ := isFinite_iff.mp finite
  rw [← Bool.not_eq_true, isNaN_iff, shape]
  simp

theorem unpack_packComponents_ne_notANumber {s : Sign} {e : BitVec 11} {m : BitVec 52}
    (h : e = -1#11 → m = 0#52) :
    UnpackedFloat.unpack .binary64 (packComponents .binary64 s e m) ≠ .notANumber := by
  unfold UnpackedFloat.unpack
  simp only [UnpackedFloat.unpackExponent_packComponents,
    UnpackedFloat.unpackMantissa_packComponents]
  split
  next top => simp [h top]
  · split
    · split <;> simp
    · simp

theorem isNaN_pack {u : UnpackedFloat} (defined : u ≠ .notANumber) :
    (Float.ofModel (.pack u)).isNaN = false := by
  have unpacked : UnpackedFloat.unpack .binary64 (UnpackedFloat.pack .binary64 u) ≠
      .notANumber := by
    cases u with
    | notANumber => exact absurd rfl defined
    | infinity s => exact unpack_packComponents_ne_notANumber (fun _ => rfl)
    | zero s => exact unpack_packComponents_ne_notANumber (fun _ => rfl)
    | finite s m e pos =>
      unfold UnpackedFloat.pack
      dsimp only
      split
      · exact unpack_packComponents_ne_notANumber (fun _ => rfl)
      next inside =>
        split
        · apply unpack_packComponents_ne_notANumber
          intro top
          have field := congrArg BitVec.toNat top
          rw [BitVec.toNat_ofNat, Nat.mod_eq_of_lt (by omega)] at field
          change _ = 2047 at field
          omega
        · exact unpack_packComponents_ne_notANumber (fun top => absurd top (by decide))
  have same : (Float.ofModel (.pack u)).isNaN =
    (UnpackedFloat.unpack .binary64 (UnpackedFloat.pack .binary64 u)).isNaN := rfl
  rw [same]
  cases shape : UnpackedFloat.unpack .binary64 (UnpackedFloat.pack .binary64 u) <;>
    first | rfl | exact absurd shape unpacked

theorem roundWithAccuracy_ne_notANumber {s : Sign} {m : Nat} {e : Int}
    {a : UnpackedFloat.Accuracy} :
    UnpackedFloat.roundWithAccuracy .binary64 s m e a ≠ .notANumber := by
  unfold UnpackedFloat.roundWithAccuracy
  dsimp only
  split <;> simp

end BlockStage.Decimal
