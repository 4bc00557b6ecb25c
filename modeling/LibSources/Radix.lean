import Mathlib.Tactic

/-!
# Words in Memory as Numbers

A memory is a function from positions to words. `radix base m lo n` is the number whose digits
in base `base` are the `n` words from `lo` on, the highest digit first.
-/

namespace LibSources

open Nat Int Function

def radix (base : ℤ) (m : ℕ → ℤ) (lo : ℕ) : ℕ → ℤ
  | 0 => 0
  | n + 1 => radix base m lo n * base + m (lo + n)

def InRange (base : ℤ) (m : ℕ → ℤ) (lo n : ℕ) : Prop :=
  ∀ i, lo ≤ i → i < lo + n → 0 ≤ m i ∧ m i < base

section

variable (base : ℤ) (m : ℕ → ℤ)

@[simp] theorem radix_zero (lo : ℕ) : radix base m lo 0 = 0 := rfl

theorem radix_succ (lo n : ℕ) :
    radix base m lo (n + 1) = radix base m lo n * base + m (lo + n) := rfl

@[simp] theorem radix_one (lo : ℕ) : radix base m lo 1 = m lo := by
  rw [radix, radix, zero_mul, zero_add, add_zero]

theorem radix_add (lo n k : ℕ) :
    radix base m lo (n + k) = radix base m lo n * base ^ k + radix base m (lo + n) k := by
  induction k with
  | zero => rw [add_zero, pow_zero, mul_one, radix_zero, add_zero]
  | succ k ih =>
    rw [← add_assoc, radix_succ, ih, radix_succ, add_assoc lo n k]
    ring

theorem radix_succ_left (lo n : ℕ) :
    radix base m lo (n + 1) = m lo * base ^ n + radix base m (lo + 1) n := by
  rw [add_comm n 1, radix_add, radix_one]

end

variable {base : ℤ} {m m' : ℕ → ℤ} {lo lo' n : ℕ}

theorem radix_shift_congr (h : ∀ i < n, m (lo + i) = m' (lo' + i)) :
    radix base m lo n = radix base m' lo' n := by
  induction n with
  | zero => rfl
  | succ n ih =>
    rw [radix_succ, radix_succ, ih fun i hi => h i (hi.trans (lt_succ_self n)),
      h n (lt_succ_self n)]

theorem radix_congr (h : ∀ i, lo ≤ i → i < lo + n → m i = m' i) :
    radix base m lo n = radix base m' lo n :=
  radix_shift_congr fun i hi => h (lo + i) (Nat.le_add_right lo i) (Nat.add_lt_add_left hi lo)

theorem radix_update {i : ℕ} (h : i < lo ∨ lo + n ≤ i) (w : ℤ) :
    radix base (update m i w) lo n = radix base m lo n :=
  radix_congr fun j hj hj' => update_of_ne (by omega) _ _

theorem radix_eq_zero (h : ∀ i, lo ≤ i → i < lo + n → m i = 0) : radix base m lo n = 0 := by
  induction n with
  | zero => rfl
  | succ n ih =>
    rw [radix_succ, ih fun i hi hi' => h i hi (by omega), h (lo + n) (by omega) (by omega),
      zero_mul, add_zero]

theorem radix_skip_zeros {j : ℕ} (h : ∀ i, lo ≤ i → i < lo + j → m i = 0) (n : ℕ) :
    radix base m lo (j + n) = radix base m (lo + j) n := by
  rw [radix_add, radix_eq_zero h, zero_mul, zero_add]

/-! ### Digits in range -/

section

variable (h : InRange base m lo n)
include h

theorem InRange.mono (hlo : lo ≤ lo') {k : ℕ} (hk : lo' + k ≤ lo + n) : InRange base m lo' k :=
  fun i hi hi' => h i (hlo.trans hi) (hi'.trans_le hk)

theorem InRange.congr (heq : ∀ i, lo ≤ i → i < lo + n → m' i = m i) :
    InRange base m' lo n := fun i hi hi' => by
  rw [heq i hi hi']
  exact h i hi hi'

theorem InRange.update {i : ℕ} {w : ℤ} (hw : 0 ≤ w ∧ w < base) :
    InRange base (update m i w) lo n := fun j hj hj' => by
  by_cases heq : j = i
  · rw [heq, update_self]
    exact hw
  · rw [update_of_ne heq]
    exact h j hj hj'

theorem InRange.succ (hlast : 0 ≤ m (lo + n) ∧ m (lo + n) < base) :
    InRange base m lo (n + 1) := fun i hi hi' => by
  by_cases heq : i = lo + n
  · rw [heq]
    exact hlast
  · exact h i hi (by omega)

theorem InRange.base_pos (hn : 0 < n) : 0 < base :=
  (h lo le_rfl (by omega)).1.trans_lt (h lo le_rfl (by omega)).2

theorem InRange.radix_nonneg : 0 ≤ radix base m lo n := by
  induction n with
  | zero => exact le_rfl
  | succ n ih =>
    have hbase := h.base_pos (succ_pos n)
    have hlast := (h (lo + n) (by omega) (by omega)).1
    have hinit := ih (h.mono le_rfl (by omega))
    rw [radix_succ]
    positivity

theorem InRange.radix_lt : radix base m lo n < base ^ n := by
  induction n with
  | zero =>
    rw [radix_zero, pow_zero]
    exact one_pos
  | succ n ih =>
    have hbase := h.base_pos (succ_pos n)
    have hlast := (h (lo + n) (by omega) (by omega)).2
    have hinit := ih (h.mono le_rfl (by omega))
    rw [radix_succ, pow_succ]
    nlinarith

end

theorem InRange.radix_lt_first (h : InRange base m lo (n + 1)) :
    radix base m lo (n + 1) < (m lo + 1) * base ^ n := by
  have hrest := (h.mono (le_succ lo) (by omega) : InRange base m (lo + 1) n).radix_lt
  rw [radix_succ_left]
  linarith

theorem InRange.radix_ediv {k : ℕ} (h : InRange base m lo (n + k)) (hbase : 0 < base) :
    radix base m lo (n + k) / base ^ k = radix base m lo n := by
  have hlow := (h.mono (le_add_right lo n) (by omega) : InRange base m (lo + n) k)
  rw [radix_add, add_comm, add_mul_ediv_right _ _ (pow_pos hbase k).ne',
    ediv_eq_zero_of_lt hlow.radix_nonneg hlow.radix_lt, zero_add]

theorem InRange.radix_inj (h : InRange base m lo n) (h' : InRange base m' lo' n)
    (heq : radix base m lo n = radix base m' lo' n) : ∀ i < n, m (lo + i) = m' (lo' + i) := by
  induction n with
  | zero => exact fun i hi => absurd hi (not_lt_zero i)
  | succ n ih =>
    have hbase := h.base_pos (succ_pos n)
    have hlast := h (lo + n) (by omega) (by omega)
    have hlast' := h' (lo' + n) (by omega) (by omega)
    rw [radix_succ, radix_succ] at heq
    have hmod : m (lo + n) = m' (lo' + n) := by
      have hmod := congrArg (· % base) heq
      simpa only [mul_add_emod_self_right, emod_eq_of_lt hlast.1 hlast.2,
        emod_eq_of_lt hlast'.1 hlast'.2] using hmod
    rw [hmod] at heq
    have hinit := ih (h.mono le_rfl (by omega)) (h'.mono le_rfl (by omega))
      (Int.eq_of_mul_eq_mul_right hbase.ne' (add_right_cancel heq))
    intro i hi
    rcases Nat.lt_succ_iff_lt_or_eq.mp hi with hi | rfl
    · exact hinit i hi
    · exact hmod

theorem InRange.eq_zero_of_radix (h : InRange base m lo n) (hzero : radix base m lo n = 0) (i : ℕ)
    (hi : lo ≤ i) (hi' : i < lo + n) : m i = 0 := by
  have hbase : 0 < base := h.base_pos (by omega)
  have hzeros : InRange base (fun _ => 0) 0 n := fun _ _ _ => ⟨le_rfl, hbase⟩
  have hradix : radix base (fun _ => 0) 0 n = 0 := radix_eq_zero fun _ _ _ => rfl
  have heq := h.radix_inj hzeros (hzero.trans hradix.symm) (i - lo) (by omega)
  rwa [Nat.add_sub_cancel' hi] at heq

theorem InRange.radix_pos (h : InRange base m lo (n + 1))
    (hne : m (lo + n) ≠ 0) : 0 < radix base m lo (n + 1) := by
  have hbase := h.base_pos (succ_pos n)
  have hinit := (h.mono le_rfl (by omega) : InRange base m lo n).radix_nonneg
  have hlast := (h (lo + n) (by omega) (by omega)).1
  rw [radix_succ]
  have : 0 ≤ radix base m lo n * base := mul_nonneg hinit hbase.le
  omega

theorem InRange.radix_eq_max_iff (h : InRange base m lo n) (hbase : 0 < base) :
    radix base m lo n = base ^ n - 1 ↔ ∀ i < n, m (lo + i) = base - 1 := by
  have hmax : ∀ k, radix base (fun _ => base - 1) lo k = base ^ k - 1 := by
    intro k
    induction k with
    | zero => rw [radix_zero, pow_zero, sub_self]
    | succ k ih =>
      rw [radix_succ, ih, pow_succ]
      ring
  constructor
  · intro heq
    exact h.radix_inj (fun _ _ _ => ⟨by omega, by omega⟩) (heq.trans (hmax n).symm)
  intro hall
  rw [← hmax n]
  exact radix_shift_congr hall

end LibSources
