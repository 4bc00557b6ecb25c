import LibSources.Radix

/-!
# Decimals of `strings/decimal.c`

A `decimal_t` keeps its digits in words of nine digits: `ROUND_UP(intg)` words before the
point and `ROUND_UP(frac)` words behind it. Here are the structure, its value, what makes it well
formed, and the macros that all routines use.

* `buf` is a function from positions to words. That the words a routine uses lie below `len` is
  not part of the type.
* Words and the two-word numbers `dec2` are integers. The arithmetic of the source stays within
  their 32 and 64 bits. A division always has operands that are not negative.
-/

namespace LibSources

open Function

variable {d : Decimal}

def digBase : ℤ := 1000000000

def roundUp (x : ℕ) : ℕ := (x + 9 - 1) / 9

def powers10 (i : ℕ) : ℤ := 10 ^ i

inductive DecimalError where
  | ok
  | truncated
  | overflow
  | divZero
  | badNum
  | oom
  deriving DecidableEq

structure Decimal where
  intg : ℕ
  frac : ℕ
  len : ℕ
  sign : Bool
  buf : ℕ → ℤ

namespace Decimal

def words (d : Decimal) : ℕ := roundUp d.intg + roundUp d.frac

def magnitude (d : Decimal) : ℚ :=
  (radix digBase d.buf 0 d.words : ℚ) / (digBase : ℚ) ^ roundUp d.frac

def value (d : Decimal) : ℚ := if d.sign then -d.magnitude else d.magnitude

/-- The words are in range, and the digits of the first word of the integer part before
`intg` and of the last word behind `frac` are zero. -/
structure WellFormed (d : Decimal) : Prop where
  range : InRange digBase d.buf 0 d.words
  first : d.intg % 9 ≠ 0 → d.buf 0 < powers10 (d.intg % 9)
  last : d.frac % 9 ≠ 0 → powers10 (9 - d.frac % 9) ∣ d.buf (d.words - 1)

def makeZero (d : Decimal) : Decimal :=
  { d with buf := update d.buf 0 0, intg := 1, frac := 0, sign := false }

end Decimal

/-! ### Macros -/

/-- `FIX_INTG_FRAC_ERROR`: the words of the integer part and of the fraction that fit. -/
def fixIntgFracError (len intg1 frac1 : ℕ) : ℕ × ℕ × DecimalError :=
  if len < intg1 + frac1 then
    if len < intg1 then (len, 0, .overflow)
    else (intg1, len - intg1, .truncated)
  else (intg1, frac1, .ok)

section

variable (from1 from2 carry : ℤ)

def addWord : ℤ × ℤ :=
  let a := from1 + from2 + carry
  if digBase ≤ a then (a - digBase, 1) else (a, 0)

def addWord2 : ℤ × ℤ :=
  let a := from1 + from2 + carry
  let (a, carry) := if digBase ≤ a then (a - digBase, 1) else (a, 0)
  if digBase ≤ a then (a - digBase, carry + 1) else (a, carry)

def subWord : ℤ × ℤ :=
  let a := from1 - from2 - carry
  if a < 0 then (a + digBase, 1) else (a, 0)

def subWord2 : ℤ × ℤ :=
  let a := from1 - from2 - carry
  let (a, carry) := if a < 0 then (a + digBase, 1) else (a, 0)
  if a < 0 then (a + digBase, carry + 1) else (a, carry)

end

/-! ### Facts about the macros -/

theorem digBase_pos : 0 < digBase := by decide

theorem digBase_cast_pos : (0 : ℚ) < digBase := by exact_mod_cast digBase_pos

section

variable {a b carry : ℤ} (ha : 0 ≤ a ∧ a < digBase) (hb : 0 ≤ b ∧ b < digBase)
include ha hb

theorem addWord_spec (hc : 0 ≤ carry ∧ carry ≤ 1) :
    a + b + carry = (addWord a b carry).1 + (addWord a b carry).2 * digBase ∧
      (0 ≤ (addWord a b carry).1 ∧ (addWord a b carry).1 < digBase) ∧
      0 ≤ (addWord a b carry).2 ∧ (addWord a b carry).2 ≤ 1 := by
  have hbase : digBase = 1000000000 := rfl
  rw [addWord]
  split <;> dsimp only <;> omega

theorem addWord2_spec (hc : 0 ≤ carry ∧ carry ≤ digBase) :
    a + b + carry = (addWord2 a b carry).1 + (addWord2 a b carry).2 * digBase ∧
      (0 ≤ (addWord2 a b carry).1 ∧ (addWord2 a b carry).1 < digBase) ∧
      0 ≤ (addWord2 a b carry).2 ∧ (addWord2 a b carry).2 ≤ 2 := by
  have hbase : digBase = 1000000000 := rfl
  rw [addWord2]
  by_cases h1 : digBase ≤ a + b + carry
  · by_cases h2 : digBase ≤ a + b + carry - digBase
    · simp only [if_pos h1, if_pos h2]
      omega
    · simp only [if_pos h1, if_neg h2]
      omega
  · simp only [if_neg h1]
    omega

theorem subWord_spec (hc : 0 ≤ carry ∧ carry ≤ 1) :
    a - b - carry = (subWord a b carry).1 - (subWord a b carry).2 * digBase ∧
      (0 ≤ (subWord a b carry).1 ∧ (subWord a b carry).1 < digBase) ∧
      0 ≤ (subWord a b carry).2 ∧ (subWord a b carry).2 ≤ 1 := by
  have hbase : digBase = 1000000000 := rfl
  rw [subWord]
  split <;> dsimp only <;> omega

theorem subWord2_spec (hc : 0 ≤ carry ∧ carry ≤ digBase) :
    a - b - carry = (subWord2 a b carry).1 - (subWord2 a b carry).2 * digBase ∧
      (0 ≤ (subWord2 a b carry).1 ∧ (subWord2 a b carry).1 < digBase) ∧
      0 ≤ (subWord2 a b carry).2 ∧ (subWord2 a b carry).2 ≤ 2 := by
  have hbase : digBase = 1000000000 := rfl
  rw [subWord2]
  by_cases h1 : a - b - carry < 0
  · by_cases h2 : a - b - carry + digBase < 0
    · simp only [if_pos h1, if_pos h2]
      omega
    · simp only [if_pos h1, if_neg h2]
      omega
  · simp only [if_neg h1]
    omega

end

theorem fixIntgFracError_cases (len intg1 frac1 : ℕ) :
    (intg1 + frac1 ≤ len ∧ fixIntgFracError len intg1 frac1 = (intg1, frac1, .ok)) ∨
      (intg1 ≤ len ∧ len < intg1 + frac1 ∧
        fixIntgFracError len intg1 frac1 = (intg1, len - intg1, .truncated)) ∨
      (len < intg1 ∧ fixIntgFracError len intg1 frac1 = (len, 0, .overflow)) := by
  by_cases hlt : len < intg1 + frac1
  · by_cases hlt' : len < intg1
    · exact .inr (.inr ⟨hlt', by rw [fixIntgFracError, if_pos hlt, if_pos hlt']⟩)
    · exact .inr (.inl ⟨not_lt.mp hlt', hlt, by
        rw [fixIntgFracError, if_pos hlt, if_neg hlt']⟩)
  · exact .inl ⟨not_lt.mp hlt, by rw [fixIntgFracError, if_neg hlt]⟩

/-! ### Values -/

theorem floor_div_eq (a : ℤ) {b : ℤ} (hb : 0 < b) : ⌊(a : ℚ) / b⌋ = a / b := by
  have hb' : (0 : ℚ) < b := by exact_mod_cast hb
  rw [Int.floor_eq_iff, le_div_iff₀ hb', div_lt_iff₀ hb']
  exact ⟨by exact_mod_cast Int.ediv_mul_le a hb.ne', by
    exact_mod_cast Int.lt_ediv_add_one_mul_self a hb⟩

namespace Decimal

theorem WellFormed.magnitude_nonneg (h : d.WellFormed) : 0 ≤ d.magnitude := by
  have hradix : (0 : ℚ) ≤ radix digBase d.buf 0 d.words := by exact_mod_cast h.range.radix_nonneg
  have hbase := digBase_cast_pos
  rw [magnitude]
  positivity

theorem abs_value (d : Decimal) : |d.value| = |d.magnitude| := by
  rw [value]
  split
  · exact abs_neg _
  · rfl

theorem WellFormed.abs_value_eq (h : d.WellFormed) : |d.value| = d.magnitude := by
  rw [abs_value, abs_of_nonneg h.magnitude_nonneg]

theorem value_eq_zero_iff : d.value = 0 ↔ radix digBase d.buf 0 d.words = 0 := by
  have hbase : (digBase : ℚ) ^ roundUp d.frac ≠ 0 :=
    pow_ne_zero _ (by exact_mod_cast digBase_pos.ne')
  rw [value]
  split
  · rw [neg_eq_zero, magnitude, div_eq_zero_iff, or_iff_left hbase, Int.cast_eq_zero]
  · rw [magnitude, div_eq_zero_iff, or_iff_left hbase, Int.cast_eq_zero]

@[simp] theorem magnitude_makeZero (d : Decimal) : d.makeZero.magnitude = 0 := by
  have hwords : d.makeZero.words = 1 := by
    change roundUp 1 + roundUp 0 = 1
    decide
  have hbuf : d.makeZero.buf 0 = 0 := update_self 0 0 d.buf
  rw [magnitude, hwords, radix_one, hbuf, Int.cast_zero, zero_div]

theorem makeZero_wellFormed (d : Decimal) : d.makeZero.WellFormed := by
  refine ⟨fun i _ hi => ?_, fun _ => ?_, fun h => absurd (show 0 % 9 = 0 from rfl) h⟩
  · obtain rfl : i = 0 := by
      have hwords : d.makeZero.words = 1 := by
        change roundUp 1 + roundUp 0 = 1
        decide
      omega
    change 0 ≤ update d.buf 0 0 0 ∧ update d.buf 0 0 0 < digBase
    rw [update_self]
    exact ⟨le_rfl, digBase_pos⟩
  · change update d.buf 0 0 0 < powers10 (1 % 9)
    rw [update_self]
    decide

end Decimal

theorem roundUp_zero : roundUp 0 = 0 := rfl

variable (x k : ℕ)

theorem roundUp_mul : roundUp (k * 9) = k := by
  rw [roundUp]
  omega

theorem digBase_pow : (digBase : ℚ) ^ k = 10 ^ (k * 9) := by
  rw [mul_comm, pow_mul]
  norm_num [digBase]

theorem digBase_pow_int : digBase ^ k = (10 : ℤ) ^ (k * 9) := by
  rw [mul_comm, pow_mul]
  rfl

theorem digBase_pow_split {m n : ℕ} (h : m ≤ n * 9) : digBase ^ n = 10 ^ m * 10 ^ (n * 9 - m) := by
  rw [← pow_add, Nat.add_sub_cancel' h, digBase_pow_int]

/-! ### A given number of fraction words -/

theorem le_roundUp_mul : x ≤ roundUp x * 9 := by
  rw [roundUp]
  omega

theorem roundUp_le_iff {x k : ℕ} : roundUp x ≤ k ↔ x ≤ k * 9 := by
  rw [roundUp]
  omega

theorem roundUp_max (x y : ℕ) : roundUp (max x y) = max (roundUp x) (roundUp y) := by
  rw [roundUp, roundUp, roundUp]
  omega

namespace Decimal

/-- The words as one number when the fraction has `k` words: words behind these are cut off,
and missing ones are zero. -/
def shifted (d : Decimal) (k : ℕ) : ℤ :=
  radix digBase d.buf 0 d.words * digBase ^ k / digBase ^ roundUp d.frac

variable {k : ℕ}

theorem shifted_of_le (h : roundUp d.frac ≤ k) :
    d.shifted k = radix digBase d.buf 0 d.words * digBase ^ (k - roundUp d.frac) := by
  have hpow : digBase ^ k = digBase ^ (k - roundUp d.frac) * digBase ^ roundUp d.frac := by
    rw [← pow_add, Nat.sub_add_cancel h]
  rw [shifted, hpow, ← mul_assoc, Int.mul_ediv_cancel _ (pow_pos digBase_pos _).ne']

theorem WellFormed.shifted_of_ge (h : d.WellFormed) {k : ℕ} (hk : k ≤ roundUp d.frac) :
    d.shifted k = radix digBase d.buf 0 (roundUp d.intg + k) := by
  have hwords : d.words = roundUp d.intg + k + (roundUp d.frac - k) := by
    rw [words]
    omega
  have hpow : digBase ^ roundUp d.frac = digBase ^ (roundUp d.frac - k) * digBase ^ k := by
    rw [← pow_add, Nat.sub_add_cancel hk]
  have hrange := h.range
  rw [hwords] at hrange
  rw [shifted, hpow, Int.mul_ediv_mul_of_pos_left _ _ (pow_pos digBase_pos _), hwords,
    hrange.radix_ediv digBase_pos]

theorem shifted_eq_floor (d : Decimal) (k : ℕ) : d.shifted k = ⌊d.magnitude * digBase ^ k⌋ := by
  have hcast : d.magnitude * (digBase : ℚ) ^ k =
      ((radix digBase d.buf 0 d.words * digBase ^ k : ℤ) : ℚ) /
        ((digBase ^ roundUp d.frac : ℤ) : ℚ) := by
    rw [magnitude]
    push_cast
    ring
  rw [hcast, floor_div_eq _ (pow_pos digBase_pos _), shifted]

theorem WellFormed.shifted_nonneg (h : d.WellFormed) (k : ℕ) : 0 ≤ d.shifted k := by
  have hbase := digBase_pos
  have := h.range.radix_nonneg
  exact Int.ediv_nonneg (by positivity) (by positivity)

theorem magnitude_eq_shifted (h : roundUp d.frac ≤ k) :
    d.magnitude = d.shifted k / (digBase : ℚ) ^ k := by
  have hbase := digBase_cast_pos.ne'
  have hpow : (digBase : ℚ) ^ k = digBase ^ (k - roundUp d.frac) * digBase ^ roundUp d.frac := by
    rw [← pow_add, Nat.sub_add_cancel h]
  rw [shifted_of_le h, magnitude, hpow]
  push_cast
  field_simp

theorem WellFormed.dvd_radix (h : d.WellFormed) :
    (10 : ℤ) ^ (roundUp d.frac * 9 - d.frac) ∣ radix digBase d.buf 0 d.words := by
  by_cases hlast : d.frac % 9 = 0
  · have hzero : roundUp d.frac * 9 - d.frac = 0 := by
      rw [roundUp]
      omega
    rw [hzero, pow_zero]
    exact one_dvd _
  have hdvd := h.last hlast
  have hexp : roundUp d.frac * 9 - d.frac = 9 - d.frac % 9 := by
    rw [roundUp]
    omega
  have hwords : d.words = d.words - 1 + 1 := by
    rw [words, roundUp, roundUp]
    omega
  rw [hexp, hwords, radix_succ, zero_add]
  refine dvd_add (Dvd.dvd.mul_left ?_ _) hdvd
  exact pow_dvd_pow 10 (by omega : 9 - d.frac % 9 ≤ 9)

theorem last_of_dvd_radix
    (h : (10 : ℤ) ^ (roundUp d.frac * 9 - d.frac) ∣ radix digBase d.buf 0 d.words)
    (hlast : d.frac % 9 ≠ 0) : powers10 (9 - d.frac % 9) ∣ d.buf (d.words - 1) := by
  have hexp : roundUp d.frac * 9 - d.frac = 9 - d.frac % 9 := by
    rw [roundUp]
    omega
  have hwords : d.words = d.words - 1 + 1 := by
    rw [words, roundUp, roundUp]
    omega
  rw [hexp, hwords, radix_succ, zero_add] at h
  refine (dvd_add_right (Dvd.dvd.mul_left ?_ _)).mp h
  exact pow_dvd_pow 10 (by omega : 9 - d.frac % 9 ≤ 9)

theorem pow_intg_eq {intg k : ℕ} (hk : roundUp intg = k + 1) (hfirst : intg % 9 ≠ 0) (n : ℕ) :
    (10 : ℤ) ^ intg * digBase ^ n = powers10 (intg % 9) * digBase ^ (k + n) := by
  have hexp : intg = intg % 9 + 9 * k := by
    rw [roundUp] at hk
    omega
  nth_rewrite 1 [hexp]
  rw [pow_add, pow_mul, pow_add, powers10, ← mul_assoc]
  rfl

theorem WellFormed.radix_lt_pow (h : d.WellFormed) :
    radix digBase d.buf 0 d.words < 10 ^ d.intg * digBase ^ roundUp d.frac := by
  by_cases hfirst : d.intg % 9 = 0
  · have hexp : d.intg = roundUp d.intg * 9 := by
      rw [roundUp]
      omega
    have hpow : (10 : ℤ) ^ d.intg = digBase ^ roundUp d.intg := by rw [digBase_pow_int, ← hexp]
    rw [hpow, ← pow_add]
    exact h.range.radix_lt
  obtain ⟨k, hk⟩ : ∃ k, roundUp d.intg = k + 1 := ⟨roundUp d.intg - 1, by rw [roundUp]; omega⟩
  have hwords : d.words = k + roundUp d.frac + 1 := by
    rw [words]
    omega
  have hrange := h.range
  rw [hwords] at hrange ⊢
  rw [pow_intg_eq hk hfirst]
  exact hrange.radix_lt_first.trans_le
    (mul_le_mul_of_nonneg_right (h.first hfirst) (pow_pos digBase_pos _).le)

theorem WellFormed.magnitude_lt_pow (h : d.WellFormed) : d.magnitude < (10 : ℚ) ^ d.intg := by
  have hbase := digBase_cast_pos
  rw [magnitude, div_lt_iff₀ (pow_pos hbase _)]
  exact_mod_cast h.radix_lt_pow

theorem wellFormed_of_lt (hrange : InRange digBase d.buf 0 d.words)
    (hlt : radix digBase d.buf 0 d.words < 10 ^ d.intg * digBase ^ roundUp d.frac)
    (hdvd : (10 : ℤ) ^ (roundUp d.frac * 9 - d.frac) ∣ radix digBase d.buf 0 d.words) :
    d.WellFormed := by
  refine ⟨hrange, fun hfirst => ?_, last_of_dvd_radix hdvd⟩
  obtain ⟨k, hk⟩ : ∃ k, roundUp d.intg = k + 1 := ⟨roundUp d.intg - 1, by rw [roundUp]; omega⟩
  have hwords : d.words = k + roundUp d.frac + 1 := by
    rw [words]
    omega
  rw [hwords] at hrange hlt
  have hrest := (hrange.mono (Nat.zero_le (0 + 1)) (by omega) :
    InRange digBase d.buf (0 + 1) (k + roundUp d.frac)).radix_nonneg
  rw [pow_intg_eq hk hfirst, radix_succ_left] at hlt
  exact lt_of_mul_lt_mul_right (lt_of_le_of_lt (le_add_of_nonneg_right hrest) hlt)
    (pow_pos digBase_pos (k + roundUp d.frac)).le

theorem zero_of_words (h : ∀ i < d.words, d.buf i = 0) : d.WellFormed ∧ d.value = 0 := by
  have hradix : radix digBase d.buf 0 d.words = 0 := radix_eq_zero fun i _ hi => h i (by omega)
  refine ⟨wellFormed_of_lt (fun i _ hi => ?_) ?_ ?_, value_eq_zero_iff.mpr hradix⟩
  · rw [h i (by omega)]
    exact ⟨le_rfl, digBase_pos⟩
  · rw [hradix]
    have := digBase_pos
    positivity
  · rw [hradix]
    exact dvd_zero _

theorem WellFormed.dvd_shifted (h : d.WellFormed) {k frac : ℕ} (hk : roundUp d.frac ≤ k)
    (hfrac : d.frac ≤ frac) : (10 : ℤ) ^ (k * 9 - frac) ∣ d.shifted k := by
  have hle : k * 9 - frac ≤ roundUp d.frac * 9 - d.frac + (k - roundUp d.frac) * 9 := by
    have := le_roundUp_mul d.frac
    omega
  rw [shifted_of_le hk, digBase_pow_int]
  refine (pow_dvd_pow 10 hle).trans ?_
  rw [pow_add]
  exact mul_dvd_mul_right h.dvd_radix _

/-! ### A given number of fraction digits -/

/-- The digits as one number when the fraction has `s` digits: digits behind these are cut
off, and missing ones are zero. -/
def scaled (d : Decimal) (s : ℕ) : ℤ := ⌊d.magnitude * 10 ^ s⌋

theorem WellFormed.scaled_nonneg (h : d.WellFormed) (s : ℕ) : 0 ≤ d.scaled s :=
  Int.floor_nonneg.mpr (mul_nonneg h.magnitude_nonneg (by positivity))

theorem WellFormed.shifted_succ (h : d.WellFormed) {k : ℕ} (hk : k < roundUp d.frac) :
    d.shifted (k + 1) = d.shifted k * digBase + d.buf (roundUp d.intg + k) := by
  rw [h.shifted_of_ge (show k + 1 ≤ roundUp d.frac from hk), h.shifted_of_ge hk.le, ← add_assoc,
    radix_succ, zero_add]

theorem scaled_eq_ediv (d : Decimal) {k r : ℕ} (hr : r ≤ 9) :
    d.scaled (k * 9 + r) = d.shifted (k + 1) / 10 ^ (9 - r) := by
  have hsplit : d.magnitude * 10 ^ (k * 9 + r) =
      d.magnitude * (digBase : ℚ) ^ (k + 1) / ((10 ^ (9 - r) : ℕ) : ℚ) := by
    have hexp : (k + 1) * 9 = k * 9 + r + (9 - r) := by omega
    rw [digBase_pow, hexp, pow_add _ _ (9 - r)]
    push_cast
    field_simp
  rw [scaled, hsplit, Int.floor_div_natCast, ← shifted_eq_floor]
  rfl

theorem WellFormed.scaled_eq (h : d.WellFormed) {k r : ℕ} (hk : k < roundUp d.frac) (hr : r ≤ 9) :
    d.scaled (k * 9 + r) = d.shifted k * 10 ^ r + d.buf (roundUp d.intg + k) / 10 ^ (9 - r) := by
  have hpow : digBase = 10 ^ r * 10 ^ (9 - r) := by
    rw [← pow_add, Nat.add_sub_cancel' hr]
    rfl
  rw [d.scaled_eq_ediv hr, h.shifted_succ hk, hpow, ← mul_assoc, add_comm,
    Int.add_mul_ediv_right _ _ (pow_pos (by norm_num) _).ne', add_comm]

theorem scaled_of_ge (hk : roundUp d.frac ≤ k) (r : ℕ) :
    d.scaled (k * 9 + r) = d.shifted k * 10 ^ r := by
  have hbase := digBase_cast_pos.ne'
  have hcast : d.magnitude * 10 ^ (k * 9 + r) = ((d.shifted k * 10 ^ r : ℤ) : ℚ) := by
    rw [magnitude_eq_shifted hk, pow_add, ← digBase_pow, ← mul_assoc,
      div_mul_cancel₀ _ (pow_ne_zero k hbase)]
    push_cast
    rfl
  rw [scaled, hcast, Int.floor_intCast]

theorem scaled_mul (d : Decimal) (k : ℕ) : d.scaled (k * 9) = d.shifted k := by
  rw [scaled, shifted_eq_floor, digBase_pow]

theorem WellFormed.magnitude_eq_scaled (h : d.WellFormed) {s : ℕ} (hs : d.frac ≤ s) :
    d.magnitude = d.scaled s / (10 : ℚ) ^ s := by
  obtain ⟨t, ht⟩ := h.dvd_radix
  have hle := le_roundUp_mul d.frac
  have hcast : d.magnitude * 10 ^ s = ((t * 10 ^ (s - d.frac) : ℤ) : ℚ) := by
    have hexp : s = d.frac + (s - d.frac) := by omega
    have hfrac : roundUp d.frac * 9 = roundUp d.frac * 9 - d.frac + d.frac := by omega
    rw [magnitude, ht, digBase_pow, hfrac, pow_add _ _ d.frac, Nat.add_sub_cancel]
    nth_rewrite 1 [hexp]
    rw [pow_add]
    push_cast
    field_simp
  rw [scaled, hcast, Int.floor_intCast, ← hcast, mul_div_cancel_right₀ _ (by positivity)]

theorem scaled_lt {n s : ℕ} (h : d.magnitude < 10 ^ n) : d.scaled s < 10 ^ (n + s) := by
  rw [scaled, Int.floor_lt, pow_add]
  push_cast
  exact mul_lt_mul_of_pos_right h (by positivity)

def NegativeZero (d : Decimal) : Prop := d.sign = true ∧ d.magnitude = 0

end Decimal

def Decimal.ofWord (w : ℤ) : Decimal := ⟨9, 0, 3, false, fun i => if i = 0 then w else 0⟩

theorem Decimal.ofWord_wellFormed {w : ℤ} (hw : 0 ≤ w ∧ w < digBase) :
    (Decimal.ofWord w).WellFormed := by
  refine ⟨fun i _ _ => ?_, fun h => absurd (show 9 % 9 = 0 from rfl) h,
    fun h => absurd (show 0 % 9 = 0 from rfl) h⟩
  change 0 ≤ (if i = 0 then w else 0) ∧ (if i = 0 then w else 0) < digBase
  split
  · exact hw
  · exact ⟨le_rfl, digBase_pos⟩

end LibSources
