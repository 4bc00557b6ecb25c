import Mathlib.Tactic

/-!
# Integers that Wrap

`toInt32` is the value that an `int` of 32 bits holds, `toLong w` that of a `long` of `w` bits.
-/

namespace LibSources

open Int

variable (x : ℤ)

def toInt32 : ℤ := bmod x (2 ^ 32)

theorem toInt32_of_mem {x : ℤ} (hlo : -2 ^ 31 ≤ x) (hhi : x < 2 ^ 31) : toInt32 x = x := by
  rw [toInt32, bmod_def]
  split <;> omega

theorem toInt32_mem : -2 ^ 31 ≤ toInt32 x ∧ toInt32 x < 2 ^ 31 := by
  rw [toInt32, bmod_def]
  split <;> omega

@[simp] theorem toInt32_add_toInt32 (x y : ℤ) : toInt32 (x + toInt32 y) = toInt32 (x + y) :=
  add_bmod_bmod

@[simp] theorem toInt32_toInt32_add (x y : ℤ) : toInt32 (toInt32 x + y) = toInt32 (x + y) :=
  bmod_add_bmod

theorem toInt32_toInt32_mul (x y : ℤ) : toInt32 (toInt32 x * y) = toInt32 (x * y) := bmod_mul_bmod

@[simp] theorem toInt32_neg_toInt32 : toInt32 (-toInt32 x) = toInt32 (-x) := by
  rw [toInt32, toInt32, toInt32, bmod_def, bmod_def, bmod_def]
  split <;> split <;> split <;> omega

theorem toInt32_eq_zero_iff : toInt32 x = 0 ↔ 2 ^ 32 ∣ x := by
  rw [toInt32, bmod_def]
  split <;> omega

end LibSources
