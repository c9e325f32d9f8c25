import BlockStage.Proofs.Decimal.Rounding
import BlockStage.Time

/-! # Numbers without a sign

Sums of numbers without a sign have none, and neither have their quotients by positive numbers,
however they are rounded. So times can be added up and divided by a duration without ever becoming
undefined.
-/
namespace BlockStage

open Float.Model (UnpackedFloat)
open Float.Model.UnpackedFloat (Accuracy Sign packComponents unpackSign)

namespace Decimal

theorem sign_packComponents (s : Sign) (e : BitVec 11) (m : BitVec 52) :
    Sign.ofBitVec (@unpackSign .binary64 (packComponents .binary64 s e m)) = s := by
  have bit : (@unpackSign .binary64 (packComponents .binary64 s e m)).toNat =
      (negative s).toNat := by
    have := e.isLt
    have := m.isLt
    rw [unpackSign_toNat, packComponents_toNat]
    omega
  have same : @unpackSign .binary64 (packComponents .binary64 s e m) = s.toBitVec := by
    apply BitVec.eq_of_toNat_eq
    rw [bit]
    cases s <;> rfl
  rw [same]
  cases s <;> rfl

/-- The positive sign; the number can be zero or infinite. -/
inductive Plus : UnpackedFloat → Prop where
  | infinity : Plus (.infinity .positive)
  | zero : Plus (.zero .positive)
  | finite {m e pos} : Plus (.finite .positive m e pos)

namespace Plus

variable {u w : UnpackedFloat}

theorem isNaN (h : Plus u) : u.isNaN = false := by
  cases h <;> rfl

theorem unpack {e : BitVec 11} {m : BitVec 52} (h : e = -1#11 → m = 0#52) :
    Plus (UnpackedFloat.unpack .binary64 (packComponents .binary64 .positive e m)) := by
  unfold UnpackedFloat.unpack
  simp only [sign_packComponents, UnpackedFloat.unpackExponent_packComponents,
    UnpackedFloat.unpackMantissa_packComponents]
  split
  next top =>
    rw [if_pos (h top)]
    exact .infinity
  · split
    · split
      · exact .zero
      · exact .finite
    · exact .finite

theorem pack (h : Plus u) :
    Plus (UnpackedFloat.unpack .binary64 (UnpackedFloat.pack .binary64 u)) := by
  cases h with
  | infinity => exact unpack fun _ => rfl
  | zero => exact unpack fun top => absurd top (by decide)
  | finite =>
    unfold UnpackedFloat.pack
    dsimp only
    split
    · exact unpack fun _ => rfl
    next inside =>
      split
      · apply unpack
        intro top
        have field := congrArg BitVec.toNat top
        rw [BitVec.toNat_ofNat, Nat.mod_eq_of_lt (by omega)] at field
        change _ = 2047 at field
        omega
      · exact unpack fun top => absurd top (by decide)

theorem roundWithAccuracy {m : Nat} {e : Int} {a : Accuracy} :
    Plus (UnpackedFloat.roundWithAccuracy .binary64 .positive m e a) := by
  unfold UnpackedFloat.roundWithAccuracy
  dsimp only
  split
  · exact .zero
  · exact .finite

theorem normalize {m : Nat} {e : Int} :
    Plus (UnpackedFloat.normalize .binary64 m e .positive) := by
  unfold UnpackedFloat.normalize
  split
  next less =>
    rw [Int.compare_eq_lt] at less
    omega
  · exact .zero
  · exact .roundWithAccuracy

theorem add (hu : Plus u) (hw : Plus w) : Plus (UnpackedFloat.add .binary64 u w) := by
  cases hu with
  | infinity => cases hw <;> exact .infinity
  | zero =>
    cases hw with
    | infinity => exact .infinity
    | zero => exact .zero
    | finite => exact .finite
  | finite =>
    cases hw with
    | infinity => exact .infinity
    | zero => exact .finite
    | finite => exact normalize

theorem div (hu : Plus u) {m : Nat} {e : Int} {pos : 0 < m} :
    Plus (UnpackedFloat.div .binary64 u (.finite .positive m e pos)) := by
  cases hu with
  | infinity => exact .infinity
  | zero => exact .zero
  | finite => exact .roundWithAccuracy

theorem ofScientific (c : Nat) (k : Int) : Plus (UnpackedFloat.ofScientific .binary64 c k) := by
  unfold UnpackedFloat.ofScientific
  split
  · exact .zero
  split
  · exact .infinity
  split
  · exact .zero
  split
  · exact .roundWithAccuracy
  · exact .roundWithAccuracy

end Plus

/-- A number without a sign, which can be infinite. -/
def Unsigned (x : Float) : Prop := Plus x.toModel.unpack

namespace Unsigned

variable {x y d : Float}

theorem zero : Unsigned 0 := Plus.zero

theorem isNaN (h : Unsigned x) : x.isNaN = false := Plus.isNaN h

theorem add (hx : Unsigned x) (hy : Unsigned y) : Unsigned (x + y) := (Plus.add hx hy).pack

theorem abs (defined : x.isNaN = false) : Unsigned x.abs := by
  change x.toModel.unpack.isNaN = false at defined
  have magnitude : Plus x.toModel.unpack.abs := by
    cases unpacked : x.toModel.unpack with
    | infinity => exact .infinity
    | notANumber =>
      rw [unpacked] at defined
      cases defined
    | zero => exact .zero
    | finite => exact .finite
  exact magnitude.pack

theorem lt_of_infinite (hx : Unsigned x) (infinite : ¬ x.isFinite = true)
    (finite : d.isFinite = true) : d < x := by
  have plus : Plus x.toModel.unpack := hx
  change ¬ x.toModel.unpack.isFinite = true at infinite
  change d.toModel.unpack.isFinite = true at finite
  change decide (UnpackedFloat.lt d.toModel.unpack x.toModel.unpack = true) = true
  generalize x.toModel.unpack = u at plus infinite
  generalize d.toModel.unpack = w at finite
  cases plus with
  | infinity =>
    cases w with
    | infinity | notANumber => cases finite
    | zero => rfl
    | finite s => cases s <;> rfl
  | zero => exact absurd rfl infinite
  | finite => exact absurd rfl infinite

theorem ofScientific {c : Nat} (nonzero : 0 < c) (s : Bool) (n : Nat) :
    Unsigned (Float.ofScientific c s n) := by
  unfold Float.ofScientific
  split
  next small =>
    have tabled : n < Float.exactlyRepresentablePowersOfTen.size := by
      change n < 23
      omega
    obtain ⟨m₁, e₁, pos₁, unpacked₁, -⟩ := toFloat_unpack nonzero small.1
    obtain ⟨m₂, e₂, pos₂, unpacked₂, -⟩ := powerOfTen_unpack tabled
    dsimp only
    generalize Float.exactlyRepresentablePowersOfTen[n] = y at *
    cases s with
    | true =>
      have quotient : Plus (.div .binary64 c.toUInt64.toFloat.toModel.unpack y.toModel.unpack) := by
        rw [unpacked₁, unpacked₂]
        exact .roundWithAccuracy
      exact quotient.pack
    | false =>
      have product : Plus (.mul .binary64 c.toUInt64.toFloat.toModel.unpack y.toModel.unpack) := by
        rw [unpacked₁, unpacked₂]
        exact .roundWithAccuracy
      exact product.pack
  · exact (Plus.ofScientific _ _).pack

theorem ofDecimal (c : Nat) (k : Int) : Unsigned (ofDecimal c k) := by
  unfold Decimal.ofDecimal
  split
  · exact zero
  next nonzero =>
    have nonzero : 0 < c := Nat.pos_of_ne_zero (by simpa using nonzero)
    dsimp only
    split
    · exact Plus.infinity
    split
    · exact zero
    · exact ofScientific nonzero _ _

end Unsigned

/-! ## Positive numbers -/

variable {x d : Float}

theorem unpack_of_pos (pos : 0 < d) (finite : d.isFinite = true) :
    ∃ m e, ∃ pos : 0 < m, d.toModel.unpack = .finite .positive m e pos := by
  have less : UnpackedFloat.lt (.zero .positive) d.toModel.unpack = true := of_decide_eq_true pos
  change d.toModel.unpack.isFinite = true at finite
  cases unpacked : d.toModel.unpack with
  | infinity | notANumber =>
    rw [unpacked] at finite
    cases finite
  | zero =>
    rw [unpacked] at less
    cases less
  | finite s m e pos =>
    rw [unpacked] at less
    cases s with
    | negative => cases less
    | positive => exact ⟨m, e, pos, rfl⟩

theorem not_le_zero (pos : 0 < d) (finite : d.isFinite = true) : ¬ d ≤ 0 := by
  obtain ⟨m, e, pos, unpacked⟩ := unpack_of_pos pos finite
  intro le
  have le : UnpackedFloat.le d.toModel.unpack (.zero .positive) = true := of_decide_eq_true le
  rw [unpacked] at le
  cases le

theorem Unsigned.div (hx : Unsigned x) (pos : 0 < d) (finite : d.isFinite = true) :
    Unsigned (x / d) := by
  obtain ⟨m, e, pos, unpacked⟩ := unpack_of_pos pos finite
  have quotient : Plus (.div .binary64 x.toModel.unpack d.toModel.unpack) := by
    rw [unpacked]
    exact Plus.div hx
  exact quotient.pack

theorem zero_div (pos : 0 < d) (finite : d.isFinite = true) : 0 / d = 0 := by
  obtain ⟨m, e, pos, unpacked⟩ := unpack_of_pos pos finite
  change Float.ofModel (.pack (.div .binary64 (.zero .positive) d.toModel.unpack)) = 0
  rw [unpacked]
  rfl

end Decimal

theorem Time.seconds_unsigned (nanos : Nat) : Decimal.Unsigned (Time.seconds nanos) := by
  have second : (0 : Float) < 1000000000 := by decide
  exact (Decimal.Unsigned.ofDecimal _ _).add
    ((Decimal.Unsigned.ofDecimal _ _).div second (by decide))

end BlockStage
