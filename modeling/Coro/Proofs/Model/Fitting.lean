import Coro.Model

/-!
Values that fit an integer type.

A value fits if storing it loses nothing. What was stored once fits from then on, and a narrower
store sees no difference between a value and what a wider one keeps of it.
-/

namespace Coro.IntType

/-- A value that is read back as it was stored. -/
def Fits (type : IntType) (value : Int64) : Prop :=
  type.wrap value = value

instance (type : IntType) (value : Int64) : Decidable (type.Fits value) :=
  inferInstanceAs (Decidable (type.wrap value = value))

theorem bits_lt (type : IntType) : type.bits < 64 := by
  cases type <;> decide

/-- A stored value keeps its low bits, at least those of a narrower type. -/
theorem setWidth_wrap {narrow wide : IntType} (fewer : narrow.bits ≤ wide.bits) (value : Int64) :
    (wide.wrap value).toBitVec.setWidth narrow.bits = value.toBitVec.setWidth narrow.bits := by
  have short := wide.bits_lt
  ext i inside
  -- Bits below the width come from the value, whether the type is signed or not.
  have low : i < wide.bits := Nat.lt_of_lt_of_le inside fewer
  have small : i < 64 := Nat.lt_trans low short
  simp only [wrap]
  split <;> simp [BitVec.getElem_signExtend, low, small]

theorem wrap_congr {type : IntType} {one other : Int64}
    (same : one.toBitVec.setWidth type.bits = other.toBitVec.setWidth type.bits) :
    type.wrap one = type.wrap other := by
  simp only [wrap, same]

theorem wrap_wrap_of_le {narrow wide : IntType} (fewer : narrow.bits ≤ wide.bits)
    (value : Int64) : narrow.wrap (wide.wrap value) = narrow.wrap value :=
  wrap_congr (setWidth_wrap fewer value)

theorem fits_wrap (type : IntType) (value : Int64) : type.Fits (type.wrap value) :=
  wrap_wrap_of_le (Nat.le_refl _) value

theorem fits_zero (type : IntType) : type.Fits 0 := by
  cases type <;> decide

/-- The least value that fits a type. -/
def least : IntType → Int
  | u8 | u16 | u24 | u32 => 0
  | i8 => -128
  | i16 => -32768
  | i24 => -8388608
  | i32 => -2147483648

/-- The greatest value that fits a type. -/
def greatest : IntType → Int
  | u8 => 255
  | u16 => 65535
  | u24 => 16777215
  | u32 => 4294967295
  | i8 => 127
  | i16 => 32767
  | i24 => 8388607
  | i32 => 2147483647

/-- The values that fit are those between two ends. -/
theorem fits_iff (type : IntType) (value : Int64) :
    type.Fits value ↔ type.least ≤ value.toInt ∧ value.toInt ≤ type.greatest := by
  have bounds := value.toBitVec.isLt
  rw [Fits, ← Int64.toBitVec_inj, ← Int64.toInt_toBitVec]
  cases type
  case u8 | u16 | u24 | u32 =>
    -- An unsigned value is its remainder, so it is below the first one that is cut off.
    simp [wrap, signed, bits, bytes, least, greatest, ← BitVec.toNat_inj,
      BitVec.toInt_eq_toNat_cond]
    omega
  all_goals
    -- A signed value is its remainder between the two ends.
    simp only [wrap, signed, ↓reduceIte, Int64.toBitVec_ofBitVec, ← BitVec.toInt_inj, least,
      greatest]
    rw [BitVec.toInt_signExtend_of_le (by decide), BitVec.toInt_setWidth, Int.bmod,
      BitVec.toInt_eq_toNat_cond]
    simp only [bits, bytes, Nat.reduceMul, Nat.reducePow] at *
    omega

/-- All values that fit one type fit another. -/
def holds (wide narrow : IntType) : Bool :=
  decide (wide.least ≤ narrow.least ∧ narrow.greatest ≤ wide.greatest)

theorem Fits.widen {wide narrow : IntType} {value : Int64} (fits : narrow.Fits value)
    (wider : wide.holds narrow = true) : wide.Fits value := by
  obtain ⟨low, high⟩ := of_decide_eq_true wider
  obtain ⟨above, below⟩ := (narrow.fits_iff value).mp fits
  exact (wide.fits_iff value).mpr ⟨Int.le_trans low above, Int.le_trans below high⟩

theorem fits_truth (type : IntType) (said : Bool) : type.Fits (truth said) := by
  cases said <;> cases type <;> decide

end Coro.IntType

namespace Coro

/-- The type of an external variable. -/
def ExternalKind.type? : ExternalKind → Option IntType
  | .data type _ => some type
  | .function => none

end Coro
