import Mathlib.Tactic

/-!
# C integer conversions

`int` is `Int32` and a 64-bit integer is `Int64`: signed arithmetic wraps around, and a
narrowing assignment keeps the low bits. Each operation has its exact value where nothing
wraps, and the wrapped value where the models depend on it.
-/

namespace SqliteComposite.Base

/-- An in-range integer is its own balanced remainder. -/
theorem bmod_of_range {n m : Nat} {x : Int} (hm : m = 2 * n) (hl : -(n : Int) ≤ x)
    (hu : x < n) : x.bmod m = x := by
  apply Int.bmod_eq_of_le <;> omega

/-- Widening an `int` preserves order against 64-bit values. -/
theorem toInt64_lt_iff (a : Int32) (b : Int64) : a.toInt64 < b ↔ a.toInt < b.toInt := by
  rw [Int64.lt_iff_toInt_lt, Int32.toInt_toInt64]

/-- 64-bit addition is exact when the sum is a 64-bit value. -/
theorem toInt_add64 (a b : Int64) (hl : -2 ^ 63 ≤ a.toInt + b.toInt)
    (hu : a.toInt + b.toInt < 2 ^ 63) : (a + b).toInt = a.toInt + b.toInt := by
  rw [Int64.toInt_add]
  exact bmod_of_range (n := 2 ^ 63) (by norm_num) (by simpa using hl) (by simpa using hu)

/-- 64-bit subtraction is exact when the difference is a 64-bit value. -/
theorem toInt_sub64 (a b : Int64) (hl : -2 ^ 63 ≤ a.toInt - b.toInt)
    (hu : a.toInt - b.toInt < 2 ^ 63) : (a - b).toInt = a.toInt - b.toInt := by
  rw [Int64.toInt_sub]
  exact bmod_of_range (n := 2 ^ 63) (by norm_num) (by simpa using hl) (by simpa using hu)

/-- Narrowing to `int` is exact on values an `int` can hold. -/
theorem toInt_narrow (a : Int64) (hl : -2 ^ 31 ≤ a.toInt) (hu : a.toInt < 2 ^ 31) :
    a.toInt32.toInt = a.toInt := by
  rw [Int64.toInt_toInt32]
  exact bmod_of_range (n := 2 ^ 31) (by norm_num) (by simpa using hl) (by simpa using hu)

/-- `int` addition is exact when the sum is an `int`. -/
theorem toInt_add32 (a b : Int32) (hl : -2 ^ 31 ≤ a.toInt + b.toInt)
    (hu : a.toInt + b.toInt < 2 ^ 31) : (a + b).toInt = a.toInt + b.toInt := by
  rw [Int32.toInt_add]
  exact bmod_of_range (n := 2 ^ 31) (by norm_num) (by simpa using hl) (by simpa using hu)

/-- `int` subtraction is exact when the difference is an `int`. -/
theorem toInt_sub32 (a b : Int32) (hl : -2 ^ 31 ≤ a.toInt - b.toInt)
    (hu : a.toInt - b.toInt < 2 ^ 31) : (a - b).toInt = a.toInt - b.toInt := by
  rw [Int32.toInt_sub]
  exact bmod_of_range (n := 2 ^ 31) (by norm_num) (by simpa using hl) (by simpa using hu)

/-- A size below the largest `int` survives the conversion. -/
theorem toInt_ofNat32 (n : Nat) (h : n < 2 ^ 31) : (Int32.ofNat n).toInt = n :=
  Int32.toInt_ofNat_of_lt h

/-- A 64-bit integer as a `size_t`. -/
theorem toNat_toUInt64 (a : Int64) :
    ((a.toUInt64.toNat : Nat) : Int) = if 0 ≤ a.toInt then a.toInt else a.toInt + 2 ^ 64 := by
  have hb := a.toBitVec.isLt
  have he : a.toInt = a.toBitVec.toInt := rfl
  rw [BitVec.toInt_eq_toNat_cond] at he
  change ((a.toBitVec.toNat : Nat) : Int) = _
  split at he <;> split <;> omega

end SqliteComposite.Base
