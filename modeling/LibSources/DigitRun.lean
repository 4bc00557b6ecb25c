import LibSources.Radix

/-!
# Runs of Decimal Digits in Memory

The scans of a number parser, over a memory of bytes: skip the bytes of a class, and read digits
into an accumulator. Both take at most a given number of bytes.
-/

namespace LibSources

def IsDigit (c : UInt8) : Prop := 48 ≤ c ∧ c ≤ 57

instance : DecidablePred IsDigit := fun c => inferInstanceAs (Decidable (48 ≤ c ∧ c ≤ 57))

/-- `my_isspace` for `my_charset_latin1`. -/
def isSpaceLatin1 (c : UInt8) : Bool := (9 ≤ c ∧ c ≤ 13) ∨ c = 32 ∨ c = 160

section

variable (str : ℕ → UInt8)

def digitAt (p : ℕ) : ℤ := (str p).toNat - 48

def digitsValue (lo n : ℕ) : ℤ := radix 10 (digitAt str) lo n

def DigitChars (lo n : ℕ) : Prop := ∀ p, lo ≤ p → p < lo + n → IsDigit (str p)

end

/-- Skip bytes of a class, at most `n`. -/
def scanWhile (p : UInt8 → Bool) (str : ℕ → UInt8) : ℕ → ℕ → ℕ
  | 0, s => s
  | n + 1, s => if p (str s) then scanWhile p str n (s + 1) else s

def scanDigits (str : ℕ → UInt8) : ℕ → ℕ → ℤ → ℕ × ℤ
  | 0, s, v => (s, v)
  | n + 1, s, v =>
    if 9 < str s - 48 then (s, v) else scanDigits str n (s + 1) (v * 10 + (str s - 48).toNat)

/-! ### Digits -/

theorem nine_lt_sub_iff (c : UInt8) : 9 < c - 48 ↔ ¬ IsDigit c := by
  rw [IsDigit, UInt8.lt_iff_toNat_lt, UInt8.le_iff_toNat_le, UInt8.le_iff_toNat_le, UInt8.toNat_sub]
  have hc := c.toNat_lt
  simp only [UInt8.reduceToNat]
  omega

section

variable {str : ℕ → UInt8} {p : ℕ}

theorem IsDigit.sub_toNat (h : IsDigit (str p)) : ((str p - 48).toNat : ℤ) = digitAt str p := by
  have hle : (48 : UInt8) ≤ str p := h.1
  rw [UInt8.toNat_sub_of_le _ _ hle, digitAt]
  rw [UInt8.le_iff_toNat_le] at hle
  simp only [UInt8.reduceToNat] at hle ⊢
  omega

theorem IsDigit.digitAt_range (h : IsDigit (str p)) : 0 ≤ digitAt str p ∧ digitAt str p < 10 := by
  obtain ⟨hle, hge⟩ := h
  rw [UInt8.le_iff_toNat_le] at hle hge
  simp only [UInt8.reduceToNat] at hle hge
  rw [digitAt]
  omega

end

section

variable {str : ℕ → UInt8} {lo n : ℕ}

theorem DigitChars.mono (h : DigitChars str lo n) {lo' n' : ℕ} (hlo : lo ≤ lo')
    (hn : lo' + n' ≤ lo + n) : DigitChars str lo' n' :=
  fun p hp hp' => h p (hlo.trans hp) (hp'.trans_le hn)

theorem DigitChars.inRange (h : DigitChars str lo n) : InRange 10 (digitAt str) lo n :=
  fun p hp hp' => (h p hp hp').digitAt_range

theorem DigitChars.value_nonneg (h : DigitChars str lo n) : 0 ≤ digitsValue str lo n :=
  h.inRange.radix_nonneg

theorem DigitChars.value_lt (h : DigitChars str lo n) : digitsValue str lo n < 10 ^ n :=
  h.inRange.radix_lt

section

variable (str : ℕ → UInt8)

@[simp] theorem digitsValue_zero (lo : ℕ) : digitsValue str lo 0 = 0 := rfl

theorem digitsValue_add (lo n k : ℕ) :
    digitsValue str lo (n + k) = digitsValue str lo n * 10 ^ k + digitsValue str (lo + n) k :=
  radix_add ..

theorem digitsValue_one (lo : ℕ) : digitsValue str lo 1 = digitAt str lo := radix_one ..

end

theorem digitsValue_skip_zeros {k : ℕ} (h : ∀ i < k, str (lo + i) = 48) (n : ℕ) :
    digitsValue str lo (k + n) = digitsValue str (lo + k) n := by
  have hzero : digitsValue str lo k = 0 :=
    radix_eq_zero fun p hp hp' => by
      obtain ⟨i, rfl⟩ := Nat.exists_eq_add_of_le hp
      rw [digitAt, h i (by omega)]
      rfl
  rw [digitsValue_add, hzero, zero_mul, zero_add]

theorem pow_le_digitsValue (h : DigitChars str lo (n + 1)) (hfirst : str lo ≠ 48) :
    10 ^ n ≤ digitsValue str lo (n + 1) := by
  have hlow : 0 ≤ digitsValue str (lo + 1) n := (h.mono (by omega) (by omega)).value_nonneg
  have hdigit : 1 ≤ digitAt str lo := by
    have hrange := (h lo le_rfl (by omega)).digitAt_range
    have hne : digitAt str lo ≠ 0 := by
      intro hzero
      rw [digitAt] at hzero
      exact hfirst (UInt8.toNat_inj.mp (by simp only [UInt8.reduceToNat]; omega))
    omega
  rw [add_comm n 1, digitsValue_add, digitsValue_one]
  have hpow : (0 : ℤ) < 10 ^ n := by positivity
  nlinarith

end

theorem scanWhile_eq {p : UInt8 → Bool} {str : ℕ → UInt8} {n s k : ℕ} (hk : k ≤ n)
    (h : ∀ i < k, p (str (s + i)) = true) (hstop : k < n → p (str (s + k)) = false) :
    scanWhile p str n s = s + k := by
  induction k generalizing n s with
  | zero =>
    cases n with
    | zero => rfl
    | succ n => rw [scanWhile, if_neg (by simpa using hstop (Nat.succ_pos n)), add_zero]
  | succ k ih =>
    obtain ⟨n, rfl⟩ : ∃ n', n = n' + 1 := ⟨n - 1, by omega⟩
    rw [scanWhile, if_pos (by simpa using h 0 (Nat.succ_pos k)), ih (by omega)]
    · omega
    · intro i hi
      rw [add_assoc, add_comm 1 i]
      exact h (i + 1) (by omega)
    · intro hlt
      rw [add_assoc, add_comm 1 k]
      exact hstop (by omega)

theorem scanDigits_eq {str : ℕ → UInt8} {n s k : ℕ} (hk : k ≤ n) (h : DigitChars str s k)
    (hstop : k < n → ¬ IsDigit (str (s + k))) (v : ℤ) :
    scanDigits str n s v = (s + k, v * 10 ^ k + digitsValue str s k) := by
  induction k generalizing n s v with
  | zero =>
    rw [digitsValue_zero, pow_zero, mul_one, add_zero, add_zero]
    cases n with
    | zero => rfl
    | succ n =>
      have hnot : ¬ IsDigit (str s) := hstop (Nat.succ_pos n)
      rw [scanDigits, if_pos ((nine_lt_sub_iff _).mpr hnot)]
  | succ k ih =>
    obtain ⟨n, rfl⟩ : ∃ n', n = n' + 1 := ⟨n - 1, by omega⟩
    have hdigit := h s le_rfl (by omega)
    have hnext : k < n → ¬ IsDigit (str (s + 1 + k)) := by
      intro hlt
      rw [add_assoc, add_comm 1 k]
      exact hstop (by omega)
    rw [scanDigits, if_neg fun hlt => (nine_lt_sub_iff _).mp hlt hdigit, hdigit.sub_toNat,
      ih (by omega) (h.mono (by omega) (by omega)) hnext, add_comm k 1, digitsValue_add,
      digitsValue_one, ← add_assoc, pow_add, pow_one]
    congr 1
    ring

end LibSources
