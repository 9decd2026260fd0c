import Mathlib.Data.Int.Basic
import Mathlib.Tactic.Ring

/-!
# Integral conversions

The conversions between the C++ integer types on a 64-bit little-endian target:
`int` is `Int32`, `uint32_t` is `UInt32`, `int64_t` and `long long` are `Int64`.
A `size_t` is a natural number below `2 ^ 64`, and every sum of `size_t` values
is reduced by the code that forms it.

`toSizeT` is the conversion of a signed value to `size_t`.  The other lemmas
read the narrowing conversions back as arithmetic on `Int`, in a form `omega`
understands.
-/

namespace Cpp

/-- The conversion of a signed integer to `size_t`, modulo `2 ^ 64`. -/
def toSizeT (z : Int) : Nat := (z % 2 ^ 64).toNat

/-- The largest size of a `std::vector<uint8_t>` (`PTRDIFF_MAX`). -/
def maxSize : Nat := 2 ^ 63 - 1

/-- A negative `int` or `int64_t` lands in the upper half of `size_t`. -/
theorem toSizeT_of_neg {z : Int} (h0 : z < 0) (h : -2 ^ 63 ≤ z) :
    (toSizeT z : Int) = z + 2 ^ 64 := by
  simp only [toSizeT]
  omega

@[simp] theorem toSizeT_natCast {n : Nat} (h : n < 2 ^ 64) : toSizeT n = n := by
  simp only [toSizeT]
  omega

/-! ## `int` -/

/-- An increment that does not overflow. -/
theorem toInt_add_one {i : Int32} (h : i.toInt < 2 ^ 31 - 1) : (i + 1).toInt = i.toInt + 1 := by
  have hlo : -2 ^ 31 ≤ i.toInt := i.le_toInt
  have h1 : (1 : Int32).toInt = 1 := by decide
  rw [Int32.toInt_add, h1, Int.bmod_eq_of_le] <;> omega

/-- An `int` with a natural number for its value is no -1. -/
theorem ne_neg_one {i : Int32} {n : Nat} (h : i.toInt = n) : i ≠ -1 := by
  rintro rfl
  have h1 : (-1 : Int32).toInt = -1 := by decide
  omega

/-! ## Narrowing -/

/-- Narrowing to `int` keeps the residue modulo `2 ^ 32`. -/
theorem toInt_ofInt32 (z : Int) : (Int32.ofInt z).toInt = (z + 2 ^ 31) % 2 ^ 32 - 2 ^ 31 := by
  rw [Int32.toInt_ofInt]
  have h := Int.bmod_def z Int32.size
  have hs : (Int32.size : Int) = 4294967296 := rfl
  rw [hs] at h
  split at h <;> omega

/-- Narrowing to `long long` keeps the residue modulo `2 ^ 64`. -/
theorem toInt_ofInt64 (z : Int) : (Int64.ofInt z).toInt = (z + 2 ^ 63) % 2 ^ 64 - 2 ^ 63 := by
  rw [Int64.toInt_ofInt]
  have h := Int.bmod_def z Int64.size
  have hs : (Int64.size : Int) = 18446744073709551616 := rfl
  rw [hs] at h
  split at h <;> omega

/-- The conversion of `uint32_t` to `int`. -/
theorem toInt_toInt32 (x : UInt32) :
    x.toInt32.toInt = if x.toNat < 2 ^ 31 then (x.toNat : Int) else x.toNat - 2 ^ 32 := by
  have h : x.toInt32.toInt = x.toBitVec.toInt := rfl
  rw [h, BitVec.toInt]
  have hx : x.toBitVec.toNat = x.toNat := rfl
  rw [hx]
  split <;> split <;> omega

/-- A wire value below `2 ^ 31` keeps its value as an `int`. -/
theorem toInt_toInt32_of_lt {x : UInt32} (h : x.toNat < 2 ^ 31) :
    x.toInt32.toInt = x.toNat := by
  rw [toInt_toInt32, if_pos h]

/-- A wire value from `2 ^ 31` on is a negative `int`. -/
theorem toInt_toInt32_of_ge {x : UInt32} (h : 2 ^ 31 ≤ x.toNat) :
    x.toInt32.toInt = x.toNat - 2 ^ 32 := by
  rw [toInt_toInt32, if_neg (by omega)]

end Cpp
