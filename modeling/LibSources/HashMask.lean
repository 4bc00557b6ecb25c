import LibSources.Hash

/-!
# Positions in a Growing Table

`my_hash_mask` sends a hash number to a slot below the number of records. When the table grows by
one record, the records of one chain whose hash number ends in the new slot index move there, all
others stay.
-/

namespace LibSources

open Nat

/-- The table length is a power of two with `blength / 2 ≤ records < blength`. -/
def LengthOk (n b : ℕ) : Prop := (∃ k, b = 2 ^ k) ∧ b / 2 ≤ n ∧ n < b

/-- The length after the number of records grew from `n` to `n + 1`. -/
def growLength (n b : ℕ) : ℕ := if n + 1 = b then b + b else b

theorem lengthOk_zero : LengthOk 0 1 := ⟨⟨0, rfl⟩, by decide⟩

variable {b n h : ℕ}

theorem LengthOk.eq_one (h : LengthOk 0 b) : b = 1 := by
  obtain ⟨-, h1, h2⟩ := h
  omega

theorem LengthOk.exists_half (h : LengthOk n b) (hn : 0 < n) :
    ∃ k, b = 2 ^ (k + 1) ∧ 2 ^ k ≤ n ∧ n < 2 ^ (k + 1) := by
  obtain ⟨⟨k, rfl⟩, h1, h2⟩ := h
  cases k with
  | zero => omega
  | succ k =>
    rw [pow_succ, Nat.mul_div_cancel _ two_pos] at h1
    exact ⟨k, rfl, h1, h2⟩

theorem LengthOk.grow (h : LengthOk n b) : LengthOk (n + 1) (growLength n b) := by
  obtain ⟨⟨k, rfl⟩, h1, h2⟩ := h
  unfold growLength
  split
  · rename_i heq
    refine ⟨⟨k + 1, by rw [pow_succ]; ring⟩, by omega, by omega⟩
  · exact ⟨⟨k, rfl⟩, by omega, by omega⟩

theorem LengthOk.shrink (h : LengthOk (n + 1) b) :
    LengthOk n (if n < b >>> 1 then b >>> 1 else b) ∧
      growLength n (if n < b >>> 1 then b >>> 1 else b) = b := by
  obtain ⟨k, rfl, h1, h2⟩ := h.exists_half (succ_pos n)
  have hhalf : 2 ^ (k + 1) >>> 1 = 2 ^ k := by
    rw [Nat.shiftRight_one, pow_succ, Nat.mul_div_cancel _ two_pos]
  rw [hhalf]
  unfold growLength
  by_cases hlt : n < 2 ^ k
  · rw [if_pos hlt, if_pos (by omega)]
    exact ⟨⟨⟨k, rfl⟩, by omega, hlt⟩, by omega⟩
  · rw [if_neg hlt, if_neg (by omega)]
    exact ⟨⟨⟨k + 1, rfl⟩, by omega, by omega⟩, rfl⟩

/-! ### The mask as a remainder -/

theorem myHashMask_two_pow (h k n : ℕ) :
    myHashMask h (2 ^ (k + 1)) n = if h % 2 ^ (k + 1) < n then h % 2 ^ (k + 1) else h % 2 ^ k := by
  have hhalf : 2 ^ (k + 1) >>> 1 = 2 ^ k := by
    rw [Nat.shiftRight_one, pow_succ, Nat.mul_div_cancel _ two_pos]
  unfold myHashMask
  rw [hhalf, and_two_pow_sub_one_eq_mod, and_two_pow_sub_one_eq_mod,
    if_neg (show ¬ 2 ^ k = 0 by positivity)]

theorem myHashMask_one (h : ℕ) (hn : 0 < n) : myHashMask h 1 n = 0 := by
  simp [myHashMask, hn]

theorem myHashMask_lt (hb : LengthOk n b) (hn : 0 < n) (h : ℕ) : myHashMask h b n < n := by
  obtain ⟨k, rfl, h1, -⟩ := hb.exists_half hn
  rw [myHashMask_two_pow]
  split
  · assumption
  · exact lt_of_lt_of_le (mod_lt _ (by positivity)) h1

/-- A hash number modulo twice a power of two is its remainder modulo that power, with
or without the next bit. -/
private theorem mod_two_pow_cases (h k : ℕ) : (h &&& 2 ^ k = 0 ∧ h % 2 ^ (k + 1) = h % 2 ^ k) ∨
      (h &&& 2 ^ k ≠ 0 ∧ h % 2 ^ (k + 1) = h % 2 ^ k + 2 ^ k) := by
  rw [mod_pow_succ, and_two_pow, testBit_eq_decide_div_mod_eq]
  rcases mod_two_eq_zero_or_one (h / 2 ^ k) with hbit | hbit
  · left
    simp [hbit]
  · right
    simp [hbit]

variable (hb : LengthOk n b)
include hb

/-- The positions after one more record, with the length not yet adjusted. -/
theorem myHashMask_succ (h : ℕ) :
    myHashMask h b (n + 1) = if h % b = n then n else myHashMask h b n := by
  rcases Nat.eq_zero_or_pos n with rfl | hn
  · rw [hb.eq_one, myHashMask_one h Nat.one_pos, if_pos (Nat.mod_one h)]
  obtain ⟨k, rfl, h1, h2⟩ := hb.exists_half hn
  rw [myHashMask_two_pow, myHashMask_two_pow]
  split_ifs <;> omega

theorem myHashMask_growLength (h : ℕ) :
    myHashMask h (growLength n b) (n + 1) = myHashMask h b (n + 1) := by
  unfold growLength
  split
  · rename_i heq
    obtain ⟨⟨k, rfl⟩, -, -⟩ := hb
    rw [heq, show 2 ^ k + 2 ^ k = 2 ^ (k + 1) by rw [pow_succ]; ring, myHashMask_two_pow]
    have hmod : myHashMask h (2 ^ k) (2 ^ k) = h % 2 ^ k := by
      unfold myHashMask
      rw [and_two_pow_sub_one_eq_mod, if_pos (mod_lt _ (by positivity))]
    rw [hmod]
    rcases mod_two_pow_cases h k with ⟨-, hm⟩ | ⟨-, hm⟩ <;> split_ifs <;> omega
  · rfl

/-- The positions after one more record, with the length adjusted. -/
theorem myHashMask_grow (h : ℕ) :
    myHashMask h (growLength n b) (n + 1) = if h % b = n then n else myHashMask h b n := by
  rw [myHashMask_growLength hb, myHashMask_succ hb]

theorem myHashMask_of_split (hn : 0 < n) (hs : h % b = n) : myHashMask h b n = n - b / 2 := by
  obtain ⟨k, rfl, h1, h2⟩ := hb.exists_half hn
  rw [myHashMask_two_pow]
  have hhalf : 2 ^ (k + 1) / 2 = 2 ^ k := by rw [pow_succ, Nat.mul_div_cancel _ two_pos]
  have hlt : h % 2 ^ k < 2 ^ k := mod_lt _ (by positivity)
  rw [if_neg (by omega), hhalf]
  rcases mod_two_pow_cases h k with ⟨-, hm⟩ | ⟨-, hm⟩ <;> omega

/-- On the chain that is split, the tested bit says which records stay. -/
theorem and_halfbuff_eq_zero_iff (hn : 0 < n)
    (hm : myHashMask h b n = n - b / 2) : h &&& (b >>> 1) = 0 ↔ h % b ≠ n := by
  obtain ⟨k, rfl, h1, h2⟩ := hb.exists_half hn
  have hhalf : 2 ^ (k + 1) / 2 = 2 ^ k := by rw [pow_succ, Nat.mul_div_cancel _ two_pos]
  have hlt : h % 2 ^ k < 2 ^ k := mod_lt _ (by positivity)
  rw [myHashMask_two_pow, hhalf] at hm
  rw [shiftRight_one, hhalf]
  rcases mod_two_pow_cases h k with ⟨hz, hk⟩ | ⟨hz, hk⟩
  · omega
  · split_ifs at hm <;> omega

end LibSources
