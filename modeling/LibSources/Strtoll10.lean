import LibSources.DigitRun

/-!
# Integers from Text: `strings/my_strtoll10.c`

`my_strtoll10` reads the digits in parts of nine, nine and two digits, `i`, `j` and `k`, with an
exit wherever the digits end. A text is a memory of bytes with a length; positions are counted
from `nptr`. Without an `endptr` the text ends at its zero byte, and no more than 65535 characters
behind the blanks are read.

## Main results

* `myStrtoll10_exact_iff`: the texts that are read exactly.
-/

namespace LibSources

open Nat

inductive StrtollError where
  | negative
  | ok
  | erange
  | edom
  deriving DecidableEq

structure Conversion where
  value : BitVec 64
  stop : ℕ
  error : StrtollError
  deriving DecidableEq

structure StrtollResult where
  value : BitVec 64
  endptr : Option ℕ
  error : StrtollError
  deriving DecidableEq

/-! ### The exits -/

section

variable (negative : Bool)

/-- `ULONGLONG_MAX`, or `MAX_NEGATIVE_NUMBER` behind a minus sign. -/
def maxNumber : ℤ := if negative then 2 ^ 63 else 2 ^ 64 - 1

def lfactor2 : ℤ := 100000000000

def lfactor (n : ℕ) : ℤ := 10 ^ n

def signError : StrtollError := if negative then .negative else .ok

def signValue (li : ℤ) : BitVec 64 := BitVec.ofInt 64 (if negative then -li else li)

/-- `LONGLONG_MIN` or `ULONGLONG_MAX`. -/
def limitValue : BitVec 64 := BitVec.ofInt 64 (if negative then -2 ^ 63 else 2 ^ 64 - 1)

variable (s : ℕ)

def endOk (li : ℤ) : Conversion := ⟨signValue negative li, s, signError negative⟩

def overflowExit : Conversion := ⟨limitValue negative, s, .erange⟩

def end4 (i j k : ℤ) : Conversion :=
  let li := i * 10000000000 + j * 10 + k
  if negative then
    if maxNumber true < li then overflowExit negative s else endOk negative s li
  else endOk negative s li

end

def noConv : Conversion := ⟨0, 0, .edom⟩

/-! ### The three parts -/

section

variable (str : ℕ → UInt8) (fin : ℕ) (negative : Bool)

/-- The digits behind the first nineteen. -/
def thirdPart (s : ℕ) (i j k : ℤ) : Conversion :=
  let cutoff := maxNumber negative / lfactor2
  let cutoff2 := maxNumber negative % lfactor2 / 100
  let cutoff3 := maxNumber negative % 100
  if s = fin ∨ 9 < str s - 48 then end4 negative s i j k
  else
    let k := k * 10 + (str s - 48).toNat
    let s := s + 1
    if s ≠ fin ∧ str s - 48 ≤ 9 then overflowExit negative s
    else if cutoff < i ∨ i = cutoff ∧ ((cutoff2 < j ∨ j = cutoff2) ∧ cutoff3 < k) then
      overflowExit negative s
    -- the sign is not looked at here
    else ⟨BitVec.ofInt 64 (i * lfactor2 + j * 100 + k), s, signError negative⟩

def secondPart (start : ℕ) (i : ℤ) : Conversion :=
  let trueEnd := start + 9
  let nEnd := min trueEnd fin
  let (s, j) := scanDigits str (nEnd - start) start 0
  if s ≠ nEnd then endOk negative s (i * lfactor (s - start) + j)
  else if s = fin then
    if s ≠ trueEnd then endOk negative s (i * lfactor (s - start) + j)
    else endOk negative s (i * 1000000000 + j)
  else if 9 < str s - 48 then endOk negative s (i * 1000000000 + j)
  else thirdPart str fin negative (s + 1) i j (str s - 48).toNat

def firstPart (s : ℕ) (i : ℤ) (nEnd : ℕ) : Conversion :=
  let nEnd := min nEnd fin
  let (s, i) := scanDigits str (nEnd - s) s i
  if s ≠ nEnd then endOk negative s i
  else if s = fin then endOk negative s i
  else secondPart str fin negative s i

def convertDigits (s : ℕ) : Conversion :=
  if str s = 48 then
    let s := scanWhile (· == 48) str (fin - (s + 1)) (s + 1)
    if s = fin then endOk negative s 0 else firstPart str fin negative s 0 (s + 9)
  else if 9 < str s - 48 then noConv
  else firstPart str fin negative (s + 1) (str s - 48).toNat (s + 1 + 9 - 1)

end

def convertSigned (str : ℕ → UInt8) (fin s : ℕ) : Conversion :=
  if str s = 45 then
    if s + 1 = fin then noConv else convertDigits str fin true (s + 1)
  else if str s = 43 then
    if s + 1 = fin then noConv else convertDigits str fin false (s + 1)
  else convertDigits str fin false s

def isBlank (c : UInt8) : Bool := c == 32 || c == 9

def myStrtoll10 (str : ℕ → UInt8) (len : ℕ) (endptr : Option ℕ) : StrtollResult :=
  let conversion := match endptr with
    | some fin =>
      let s := scanWhile isBlank str fin 0
      if s = fin then noConv else convertSigned str fin s
    | none =>
      let s := scanWhile isBlank str len 0
      if str s = 0 then noConv else convertSigned str (s + 65535) s
  ⟨conversion.value, endptr.map fun _ => conversion.stop, conversion.error⟩

/-! ### What is expected -/

def Conversion.Exact (r : Conversion) (negative : Bool) (n : ℤ) (stop : ℕ) : Prop :=
  if n ≤ maxNumber negative then r = ⟨signValue negative n, stop, signError negative⟩
  else r.value = limitValue negative ∧ r.error = .erange

/-- The numbers whose overflow is missed: the leading nine digits are those of `ULONGLONG_MAX`,
the next nine are greater than its digits, and the last two are not. -/
def MissedOverflow (negative : Bool) (n : ℤ) : Prop :=
  negative = false ∧ n / 10 ^ 11 = 184467440 ∧ 737095516 < n / 100 % 10 ^ 9 ∧ n % 100 ≤ 15

theorem Conversion.exact_endOk_iff {negative : Bool} {n : ℤ} {stop : ℕ} (hn : n < 10 ^ 18) :
    (endOk negative stop n).Exact negative n stop ↔ ¬ MissedOverflow negative n := by
  have hle : n ≤ maxNumber negative := by cases negative <;> rw [maxNumber] <;> norm_num <;> omega
  rw [Conversion.Exact, if_pos hle]
  refine ⟨fun _ hmissed => ?_, fun _ => rfl⟩
  have hfirst := hmissed.2.1
  omega

/-- A run of digits that ends at a byte that is no digit, or at the end of the text. -/
structure DigitRun (str : ℕ → UInt8) (lo n fin : ℕ) : Prop where
  digits : DigitChars str lo n
  le_fin : lo + n ≤ fin
  stop : lo + n < fin → ¬ IsDigit (str (lo + n))

section

variable {str : ℕ → UInt8} {q m fin : ℕ} (negative : Bool)

theorem digitsValue_nineteen (str : ℕ → UInt8) (q : ℕ) :
    digitsValue str q 19 =
      digitsValue str q 9 * 10 ^ 10 + digitsValue str (q + 9) 9 * 10 + digitAt str (q + 18) := by
  rw [show 19 = 9 + (9 + 1) from rfl, digitsValue_add, digitsValue_add, digitsValue_one]
  ring

theorem end4_exact_iff {i j k : ℤ} {stop : ℕ} (hn : i * 10 ^ 10 + j * 10 + k < 10 ^ 19) :
    (end4 negative stop i j k).Exact negative (i * 10 ^ 10 + j * 10 + k) stop ↔
      ¬ MissedOverflow negative (i * 10 ^ 10 + j * 10 + k) := by
  have hmissed : ¬ MissedOverflow negative (i * 10 ^ 10 + j * 10 + k) := by
    rintro ⟨-, hfirst, -⟩
    omega
  refine iff_of_true ?_ hmissed
  rw [Conversion.Exact, end4]
  cases negative with
  | true =>
    by_cases hle : i * 10 ^ 10 + j * 10 + k ≤ maxNumber true
    · rw [if_pos hle, if_pos rfl, if_neg (by omega)]
      norm_num [endOk]
    · rw [if_neg hle, if_pos rfl, if_pos (by omega)]
      exact ⟨rfl, rfl⟩
  | false =>
    have hle : i * 10 ^ 10 + j * 10 + k ≤ maxNumber false := by
      rw [maxNumber, if_neg Bool.false_ne_true]
      omega
    rw [if_pos hle, if_neg Bool.false_ne_true]
    norm_num [endOk]

theorem lastDigits_exact_iff {i j k : ℤ} {stop : ℕ} (hi : 10 ^ 8 ≤ i ∧ i < 10 ^ 9)
    (hj : 0 ≤ j ∧ j < 10 ^ 9) (hk : 0 ≤ k ∧ k < 100) :
    (if maxNumber negative / lfactor2 < i ∨ i = maxNumber negative / lfactor2 ∧
          ((maxNumber negative % lfactor2 / 100 < j ∨ j = maxNumber negative % lfactor2 / 100) ∧
            maxNumber negative % 100 < k) then
        overflowExit negative stop
      else ⟨BitVec.ofInt 64 (i * lfactor2 + j * 100 + k), stop, signError negative⟩ :
        Conversion).Exact negative (i * 10 ^ 11 + j * 100 + k) stop ↔
      ¬ MissedOverflow negative (i * 10 ^ 11 + j * 100 + k) := by
  rw [Conversion.Exact, MissedOverflow]
  cases negative with
  | true =>
    have hcutoff : maxNumber true / lfactor2 = 92233720 := by decide
    have hgt : ¬ i * 10 ^ 11 + j * 100 + k ≤ maxNumber true := by
      rw [maxNumber, if_pos rfl]
      omega
    rw [if_neg hgt, hcutoff, if_pos (.inl (by omega))]
    exact iff_of_true ⟨rfl, rfl⟩ fun hmissed => Bool.noConfusion hmissed.1
  | false =>
    have hcutoff : maxNumber false / lfactor2 = 184467440 := by decide
    have hcutoff2 : maxNumber false % lfactor2 / 100 = 737095516 := by decide
    have hcutoff3 : maxNumber false % 100 = 15 := by decide
    have hmax : maxNumber false = 18446744073709551615 := by decide
    rw [hcutoff, hcutoff2, hcutoff3, hmax]
    by_cases hover : 184467440 < i ∨ i = 184467440 ∧ ((737095516 < j ∨ j = 737095516) ∧ 15 < k)
    · rw [if_pos hover, if_neg (by omega)]
      exact iff_of_true ⟨rfl, rfl⟩ fun hmissed => by omega
    rw [if_neg hover]
    by_cases hle : i * 10 ^ 11 + j * 100 + k ≤ 18446744073709551615
    · rw [if_pos hle]
      exact iff_of_true rfl fun hmissed => by omega
    rw [if_neg hle]
    refine iff_of_false (fun herror => ?_) (not_not.mpr ⟨rfl, by omega⟩)
    exact StrtollError.noConfusion herror.2

theorem thirdPart_exact_iff (hrun : DigitRun str q m fin) (hfirst : str q ≠ 48) (hm : 19 ≤ m) :
    (thirdPart str fin negative (q + 19) (digitsValue str q 9) (digitsValue str (q + 9) 9)
      (digitAt str (q + 18))).Exact negative (digitsValue str q m) (q + m) ↔
      ¬ MissedOverflow negative (digitsValue str q m) := by
  have hfin := hrun.le_fin
  have hlead : 10 ^ 8 ≤ digitsValue str q 9 :=
    pow_le_digitsValue (hrun.digits.mono le_rfl (by omega)) hfirst
  have hi := (hrun.digits.mono le_rfl (by omega) : DigitChars str q 9).value_lt
  have hj := (hrun.digits.mono (by omega) (by omega) : DigitChars str (q + 9) 9).value_lt
  have hj0 := (hrun.digits.mono (by omega) (by omega) : DigitChars str (q + 9) 9).value_nonneg
  have hk := (hrun.digits (q + 18) (by omega) (by omega)).digitAt_range
  obtain rfl | hm := hm.eq_or_lt
  · -- The digits end here.
    have hcond : q + 19 = fin ∨ 9 < str (q + 19) - 48 := by
      by_cases heq : q + 19 = fin
      · exact .inl heq
      · exact .inr ((nine_lt_sub_iff _).mpr (hrun.stop (by omega)))
    rw [thirdPart, if_pos hcond, digitsValue_nineteen]
    exact end4_exact_iff negative (by omega)
  have hdigit := hrun.digits (q + 19) (by omega) (by omega)
  have hd := hdigit.digitAt_range
  have hcond : ¬ (q + 19 = fin ∨ 9 < str (q + 19) - 48) := by
    rw [nine_lt_sub_iff, not_or, not_not]
    exact ⟨by omega, hdigit⟩
  have hvalue : digitsValue str q 20 = digitsValue str q 9 * 10 ^ 11 +
      digitsValue str (q + 9) 9 * 100 + (digitAt str (q + 18) * 10 + digitAt str (q + 19)) := by
    rw [show 20 = 19 + 1 from rfl, digitsValue_add, digitsValue_nineteen, digitsValue_one]
    ring
  rw [thirdPart, if_neg hcond, hdigit.sub_toNat]
  obtain rfl | hm := (Nat.succ_le_of_lt hm).eq_or_lt
  · have hlast : ¬ (q + 19 + 1 ≠ fin ∧ str (q + 19 + 1) - 48 ≤ 9) := by
      rw [← UInt8.not_lt, nine_lt_sub_iff, not_not]
      exact fun hmore => hrun.stop (by omega) hmore.2
    rw [if_neg hlast, hvalue]
    exact lastDigits_exact_iff negative ⟨hlead, hi⟩ ⟨hj0, hj⟩ (by omega)
  -- There are more digits than any number in range has.
  have hmore : q + 19 + 1 ≠ fin ∧ str (q + 19 + 1) - 48 ≤ 9 := by
    rw [← UInt8.not_lt, nine_lt_sub_iff, not_not]
    exact ⟨by omega, hrun.digits (q + 20) (by omega) (by omega)⟩
  have hlarge : 10 ^ 20 ≤ digitsValue str q m := by
    obtain ⟨n, rfl⟩ : ∃ n, m = n + 1 := ⟨m - 1, by omega⟩
    exact (pow_le_pow_right₀ (by norm_num) (by omega)).trans (pow_le_digitsValue hrun.digits hfirst)
  have hmissed : ¬ MissedOverflow negative (digitsValue str q m) := by
    rintro ⟨-, hfirst, -⟩
    omega
  have hgt : ¬ digitsValue str q m ≤ maxNumber negative := by
    cases negative <;> rw [maxNumber] <;> norm_num <;> omega
  rw [if_pos hmore, Conversion.Exact, if_neg hgt]
  exact iff_of_true ⟨rfl, rfl⟩ hmissed

theorem secondPart_exact_iff (hrun : DigitRun str q m fin) (hfirst : str q ≠ 48) (hm : 9 ≤ m)
    (hlt : q + 9 < fin) :
    (secondPart str fin negative (q + 9) (digitsValue str q 9)).Exact negative
      (digitsValue str q m) (q + m) ↔ ¬ MissedOverflow negative (digitsValue str q m) := by
  have hfin := hrun.le_fin
  obtain ⟨n, rfl⟩ := Nat.exists_eq_add_of_le hm
  rw [secondPart]
  by_cases hn : n < 9
  · have hmore : DigitChars str (q + 9) n := hrun.digits.mono (by omega) (by omega)
    have hscan := scanDigits_eq (n := min (q + 9 + 9) fin - (q + 9)) (by omega) hmore
      (fun hlt => ?_) 0
    · have hvalue : digitsValue str q 9 * lfactor n + digitsValue str (q + 9) n =
          digitsValue str q (9 + n) := (digitsValue_add ..).symm
      have hsmall : digitsValue str q (9 + n) < 10 ^ 18 :=
        hrun.digits.value_lt.trans_le (pow_le_pow_right₀ (by norm_num) (by omega))
      rw [zero_mul, zero_add] at hscan
      rw [hscan]
      dsimp only
      rw [add_tsub_cancel_left, hvalue, ← add_assoc]
      split
      · exact Conversion.exact_endOk_iff hsmall
      · rw [if_pos (by omega), if_pos (by omega)]
        exact Conversion.exact_endOk_iff hsmall
    · rw [add_assoc]
      exact hrun.stop (by omega)
  have hnine : DigitChars str (q + 9) 9 := hrun.digits.mono (by omega) (by omega)
  have hscan := scanDigits_eq (n := min (q + 9 + 9) fin - (q + 9)) (by omega) hnine
    (fun hlt => absurd hlt (by omega)) 0
  have hvalue : digitsValue str q 9 * 1000000000 + digitsValue str (q + 9) 9 =
      digitsValue str q 18 := by
    rw [show 18 = 9 + 9 from rfl, digitsValue_add]
    norm_num
  rw [zero_mul, zero_add] at hscan
  rw [hscan]
  dsimp only
  rw [if_neg (by omega), hvalue]
  have hdone : n = 9 → ((endOk negative (q + 9 + 9) (digitsValue str q 18)).Exact negative
      (digitsValue str q (9 + n)) (q + (9 + n)) ↔
        ¬ MissedOverflow negative (digitsValue str q (9 + n))) := by
    rintro rfl
    exact Conversion.exact_endOk_iff hrun.digits.value_lt
  by_cases heq : q + 9 + 9 = fin
  · rw [if_pos heq, if_neg (by omega)]
    exact hdone (by omega)
  rw [if_neg heq]
  by_cases hn' : n = 9
  · have hstop := hrun.stop (by omega)
    rw [hn', ← add_assoc] at hstop
    rw [if_pos ((nine_lt_sub_iff _).mpr hstop)]
    exact hdone hn'
  · have hdigit := hrun.digits (q + 9 + 9) (by omega) (by omega)
    rw [if_neg (fun hlt => (nine_lt_sub_iff _).mp hlt hdigit), hdigit.sub_toNat]
    exact thirdPart_exact_iff negative hrun hfirst (by omega)

/-- The digits behind the leading zeros, of which the first may be read already. -/
theorem firstPart_exact_iff (hrun : DigitRun str q m fin) (hfirst : 0 < m → str q ≠ 48) {a : ℕ}
    (ha : a ≤ 1) (ham : a ≤ m) :
    (firstPart str fin negative (q + a) (digitsValue str q a) (q + 9)).Exact negative
      (digitsValue str q m) (q + m) ↔ ¬ MissedOverflow negative (digitsValue str q m) := by
  have hfin := hrun.le_fin
  rw [firstPart]
  by_cases hm : m < 9
  · obtain ⟨n, rfl⟩ := Nat.exists_eq_add_of_le ham
    have hmore : DigitChars str (q + a) n := hrun.digits.mono (by omega) (by omega)
    have hscan := scanDigits_eq (n := min (q + 9) fin - (q + a)) (by omega) hmore
      (fun hlt => ?_) (digitsValue str q a)
    · have hsmall : digitsValue str q (a + n) < 10 ^ 18 :=
        hrun.digits.value_lt.trans_le (pow_le_pow_right₀ (by norm_num) (by omega))
      rw [← digitsValue_add, add_assoc] at hscan
      rw [hscan]
      dsimp only
      split
      · exact Conversion.exact_endOk_iff hsmall
      · rw [if_pos (by omega)]
        exact Conversion.exact_endOk_iff hsmall
    · rw [add_assoc]
      exact hrun.stop (by omega)
  have hmore : DigitChars str (q + a) (9 - a) := hrun.digits.mono (by omega) (by omega)
  have hscan := scanDigits_eq (n := min (q + 9) fin - (q + a)) (by omega) hmore
    (fun hlt => absurd hlt (by omega)) (digitsValue str q a)
  rw [← digitsValue_add, Nat.add_sub_cancel' (by omega), add_assoc,
    Nat.add_sub_cancel' (by omega)] at hscan
  rw [hscan]
  dsimp only
  rw [if_neg (by omega)]
  by_cases heq : q + 9 = fin
  · obtain rfl : m = 9 := by omega
    have hsmall : digitsValue str q 9 < 10 ^ 18 :=
      hrun.digits.value_lt.trans_le (pow_le_pow_right₀ (by norm_num) (by omega))
    rw [if_pos heq]
    exact Conversion.exact_endOk_iff hsmall
  · rw [if_neg heq]
    exact secondPart_exact_iff negative hrun (hfirst (by omega)) (by omega) (by omega)

end

theorem DigitRun.exists_zeros {str : ℕ → UInt8} {lo n fin : ℕ} (h : DigitRun str lo n fin) :
    ∃ z ≤ n, (∀ i < z, str (lo + i) = 48) ∧ (z < n → str (lo + z) ≠ 48) := by
  induction n generalizing lo with
  | zero =>
    exact ⟨0, le_rfl, fun i hi => absurd hi (Nat.not_lt_zero i),
      fun hlt => absurd hlt (lt_irrefl 0)⟩
  | succ n ih =>
    by_cases hzero : str lo = 48
    · have htail : DigitRun str (lo + 1) n fin := by
        have heq : lo + 1 + n = lo + (n + 1) := by omega
        exact ⟨h.digits.mono (by omega) (by omega), heq ▸ h.le_fin, heq ▸ h.stop⟩
      obtain ⟨z, hz, hzeros, hstop⟩ := ih htail
      refine ⟨z + 1, by omega, fun i hi => ?_, fun hlt => ?_⟩
      · cases i with
        | zero => exact hzero
        | succ i =>
          rw [show lo + (i + 1) = lo + 1 + i by omega]
          exact hzeros i (by omega)
      · rw [show lo + (z + 1) = lo + 1 + z by omega]
        exact hstop (by omega)
    · exact ⟨0, zero_le, fun i hi => absurd hi (Nat.not_lt_zero i), fun _ => hzero⟩

theorem convertDigits_exact_iff {str : ℕ → UInt8} {st n fin : ℕ} (negative : Bool)
    (hrun : DigitRun str st n fin) (hn : 0 < n) :
    (convertDigits str fin negative st).Exact negative (digitsValue str st n) (st + n) ↔
      ¬ MissedOverflow negative (digitsValue str st n) := by
  have hfin := hrun.le_fin
  obtain ⟨z, hz, hzeros, hne⟩ := hrun.exists_zeros
  obtain ⟨m, rfl⟩ := Nat.exists_eq_add_of_le hz
  have htail : DigitRun str (st + z) m fin :=
    ⟨hrun.digits.mono (by omega) (by omega), by omega, by rw [add_assoc]; exact hrun.stop⟩
  rw [convertDigits, digitsValue_skip_zeros hzeros, ← add_assoc]
  cases z with
  | zero =>
    have hdigit := hrun.digits st le_rfl (by omega)
    have hfirst : str st ≠ 48 := hne (by omega)
    rw [if_neg hfirst, if_neg (fun hlt => (nine_lt_sub_iff _).mp hlt hdigit), hdigit.sub_toNat,
      ← digitsValue_one]
    exact firstPart_exact_iff negative htail (fun _ => hfirst) le_rfl (by omega)
  | succ z =>
    have hscan : scanWhile (· == 48) str (fin - (st + 1)) (st + 1) = st + (z + 1) := by
      rw [scanWhile_eq (k := z) (by omega)]
      · omega
      · intro i hi
        rw [beq_iff_eq, show st + 1 + i = st + (i + 1) by omega]
        exact hzeros (i + 1) (by omega)
      intro hlt
      rw [beq_eq_false_iff_ne, show st + 1 + z = st + (z + 1) by omega]
      intro hzero
      by_cases hm : m = 0
      · have hstop := htail.stop (by omega)
        rw [hm, add_zero, hzero] at hstop
        exact hstop (by decide)
      · exact hne (by omega) hzero
    have hfirst : str st = 48 := hzeros 0 (by omega)
    rw [if_pos hfirst, hscan]
    by_cases heq : st + (z + 1) = fin
    · obtain rfl : m = 0 := by omega
      rw [if_pos heq, digitsValue_zero]
      exact Conversion.exact_endOk_iff (by norm_num)
    rw [if_neg heq]
    exact firstPart_exact_iff negative htail (fun hm => hne (by omega)) zero_le
      zero_le

/-! ### Texts -/

inductive NumberSign where
  | none
  | plus
  | minus
  deriving DecidableEq

namespace NumberSign

def length : NumberSign → ℕ
  | none => 0
  | _ => 1

def negative : NumberSign → Bool
  | minus => true
  | _ => false

def At (str : ℕ → UInt8) (p : ℕ) : NumberSign → Prop
  | none => True
  | plus => str p = 43
  | minus => str p = 45

end NumberSign

/-- A text of length `len` that has, behind blanks and an optional sign, a run of `digits`
digits, which is followed by anything else. -/
structure IntegerText (str : ℕ → UInt8) (len blanks : ℕ) (sign : NumberSign) (digits : ℕ) :
    Prop where
  nonzero : ∀ i < len, str i ≠ 0
  terminated : str len = 0
  blank : ∀ i < blanks, str i = 32 ∨ str i = 9
  sign_at : sign.At str blanks
  digits_pos : 0 < digits
  run : DigitRun str (blanks + sign.length) digits len

def StrtollResult.Exact (r : StrtollResult) (negative : Bool) (n : ℤ) (endptr : Option ℕ) : Prop :=
  if n ≤ maxNumber negative then r = ⟨signValue negative n, endptr, signError negative⟩
  else r.value = limitValue negative ∧ r.error = .erange

section

variable {str : ℕ → UInt8} {len blanks digits : ℕ} {sign : NumberSign}

theorem IntegerText.scan_blanks (h : IntegerText str len blanks sign digits) :
    scanWhile isBlank str len 0 = blanks := by
  have hlen := h.run.le_fin
  have hpos := h.digits_pos
  rw [scanWhile_eq (k := blanks) (by omega), zero_add]
  · intro i hi
    rw [zero_add, isBlank, Bool.or_eq_true, beq_iff_eq, beq_iff_eq]
    exact h.blank i hi
  intro _
  rw [zero_add]
  have hsign := h.sign_at
  have hdigit := h.run.digits (blanks + sign.length) le_rfl (by omega)
  cases sign with
  | none =>
    have hne : ∀ c : UInt8, IsDigit c → isBlank c = false := by
      intro c hc
      rw [isBlank, Bool.or_eq_false_iff, beq_eq_false_iff_ne, beq_eq_false_iff_ne]
      constructor <;> rintro rfl <;> exact absurd hc (by decide)
    exact hne _ hdigit
  | plus => rw [show str blanks = 43 from hsign]; decide
  | minus => rw [show str blanks = 45 from hsign]; decide

theorem IntegerText.convertSigned_eq (h : IntegerText str len blanks sign digits) {fin : ℕ}
    (hfin : blanks + sign.length < fin) :
    convertSigned str fin blanks = convertDigits str fin sign.negative (blanks + sign.length) := by
  have hsign := h.sign_at
  have hpos := h.digits_pos
  have hdigit := h.run.digits (blanks + sign.length) le_rfl (by omega)
  rw [convertSigned]
  cases sign with
  | none =>
    have hne : ∀ c : UInt8, IsDigit c → c ≠ 45 ∧ c ≠ 43 := by
      intro c hc
      constructor <;> rintro rfl <;> exact absurd hc (by decide)
    have hfirst : str blanks ≠ 45 ∧ str blanks ≠ 43 := hne _ hdigit
    rw [if_neg hfirst.1, if_neg hfirst.2]
    rfl
  | plus =>
    have hplus : str blanks = 43 := hsign
    rw [if_neg (by rw [hplus]; decide), if_pos hplus]
    exact if_neg hfin.ne
  | minus =>
    have hminus : str blanks = 45 := hsign
    rw [if_pos hminus]
    exact if_neg hfin.ne

theorem IntegerText.myStrtoll10_eq (h : IntegerText str len blanks sign digits) (hasEnd : Bool) :
    myStrtoll10 str len (if hasEnd then some len else none) =
      let conversion := convertDigits str (if hasEnd then len else blanks + 65535) sign.negative
        (blanks + sign.length)
      ⟨conversion.value, if hasEnd then some conversion.stop else none, conversion.error⟩ := by
  have hlen := h.run.le_fin
  have hpos := h.digits_pos
  have hsign : sign.length ≤ 1 := by cases sign <;> decide
  cases hasEnd with
  | true =>
    simp only [myStrtoll10, if_true, h.scan_blanks, if_neg (show blanks ≠ len by omega),
      h.convertSigned_eq (show blanks + sign.length < len by omega), Option.map_some]
  | false =>
    simp only [myStrtoll10, if_false, Bool.false_eq_true, h.scan_blanks,
      if_neg (h.nonzero blanks (by omega)),
      h.convertSigned_eq (show blanks + sign.length < blanks + 65535 by omega), Option.map_none]

end

theorem signValue_inj {negative : Bool} {n n' : ℤ} (hn : 0 ≤ n ∧ n ≤ maxNumber negative)
    (hn' : 0 ≤ n' ∧ n' ≤ maxNumber negative) (heq : signValue negative n = signValue negative n') :
    n = n' := by
  have hbits := congrArg BitVec.toNat heq
  rw [signValue, signValue, BitVec.toNat_ofInt, BitVec.toNat_ofInt] at hbits
  cases negative with
  | true =>
    rw [maxNumber, if_pos rfl] at hn hn'
    omega
  | false =>
    rw [maxNumber, if_neg Bool.false_ne_true] at hn hn'
    simp only [if_false, Bool.false_eq_true, cast_pow, cast_ofNat] at hbits
    omega

theorem MissedOverflow.maxNumber_lt {negative : Bool} {n : ℤ} (h : MissedOverflow negative n) :
    maxNumber negative < n := by
  obtain ⟨rfl, h⟩ := h
  rw [maxNumber, if_neg Bool.false_ne_true]
  omega

theorem maxNumber_nonneg (negative : Bool) : 0 ≤ maxNumber negative := by
  cases negative <;> decide

section

variable {c : Conversion} {negative : Bool} {n n' : ℤ} {stop : ℕ}

theorem Conversion.exact_whole_iff (hc : c.Exact negative n stop ↔ ¬ MissedOverflow negative n)
    (hasEnd : Bool) :
    (⟨c.value, if hasEnd then some c.stop else none, c.error⟩ : StrtollResult).Exact negative n
      (if hasEnd then some stop else none) ↔ ¬ MissedOverflow negative n := by
  rw [Conversion.Exact] at hc
  rw [StrtollResult.Exact]
  by_cases hle : n ≤ maxNumber negative
  · have hmissed : ¬ MissedOverflow negative n := fun hm => absurd hm.maxNumber_lt (not_lt.mpr hle)
    rw [if_pos hle] at hc ⊢
    rw [hc.mpr hmissed]
    exact iff_of_true rfl hmissed
  · rw [if_neg hle] at hc ⊢
    exact hc

theorem Conversion.exact_part_iff (hc : c.Exact negative n' stop ↔ ¬ MissedOverflow negative n')
    (hn' : 0 ≤ n') (hn : 10 * n' ≤ n) :
    (⟨c.value, none, c.error⟩ : StrtollResult).Exact negative n none ↔
      ¬ MissedOverflow negative n' ∧ (n = 0 ∨ maxNumber negative < n') := by
  have hmax := maxNumber_nonneg negative
  rw [Conversion.Exact] at hc
  rw [StrtollResult.Exact]
  by_cases hle' : n' ≤ maxNumber negative
  · have hmissed : ¬ MissedOverflow negative n' :=
      fun hm => absurd hm.maxNumber_lt (not_lt.mpr hle')
    rw [if_pos hle'] at hc
    rw [hc.mpr hmissed]
    by_cases hle : n ≤ maxNumber negative
    · rw [if_pos hle]
      constructor
      · intro heq
        have hvalue := signValue_inj ⟨hn', hle'⟩ ⟨by omega, hle⟩ (StrtollResult.mk.inj heq).1
        exact ⟨hmissed, .inl (by omega)⟩
      rintro ⟨-, hzero | hlt⟩
      · rw [hzero, show n' = 0 by omega]
      · omega
    · rw [if_neg hle]
      refine iff_of_false (fun herror => ?_) (by omega)
      have hsign : signError negative ≠ .erange := by cases negative <;> decide
      exact hsign herror.2
  · rw [if_neg hle'] at hc
    rw [if_neg (by omega), hc]
    exact (and_iff_left (.inr (not_le.mp hle'))).symm

end

/-- The digits that are looked at: without an `endptr`, those in the first 65535 characters. -/
def digitsRead (hasEnd : Bool) (sign : NumberSign) (digits : ℕ) : ℕ :=
  if hasEnd then digits else min digits (65535 - sign.length)

section

variable {str : ℕ → UInt8} {len blanks digits : ℕ} {sign : NumberSign}

theorem IntegerText.run_digitsRead (h : IntegerText str len blanks sign digits) (hasEnd : Bool) :
    DigitRun str (blanks + sign.length) (digitsRead hasEnd sign digits)
      (if hasEnd then len else blanks + 65535) := by
  have hle : digitsRead hasEnd sign digits ≤ digits := by
    rw [digitsRead]
    split <;> omega
  have hsign : sign.length ≤ 1 := by cases sign <;> decide
  have hlen := h.run.le_fin
  refine ⟨h.run.digits.mono le_rfl (by omega), ?_, ?_⟩
  · rw [digitsRead]
    split <;> omega
  cases hasEnd with
  | true => exact h.run.stop
  | false =>
    rw [digitsRead, if_neg Bool.false_ne_true, if_neg Bool.false_ne_true]
    intro hlt
    rw [min_eq_left (by omega)]
    by_cases heq : blanks + sign.length + digits = len
    · rw [heq, h.terminated]
      decide
    · exact h.run.stop (by omega)

/-- The result is exact unless an overflow is missed, or the digits go on behind those that are
looked at and are not all zero, and those looked at are in range. -/
theorem myStrtoll10_exact_iff (h : IntegerText str len blanks sign digits) (hasEnd : Bool) :
    (myStrtoll10 str len (if hasEnd then some len else none)).Exact sign.negative
        (digitsValue str (blanks + sign.length) digits)
        (if hasEnd then some (blanks + sign.length + digits) else none) ↔
      let read := digitsRead hasEnd sign digits
      ¬ MissedOverflow sign.negative (digitsValue str (blanks + sign.length) read) ∧
        (read = digits ∨ digitsValue str (blanks + sign.length) digits = 0 ∨
          maxNumber sign.negative < digitsValue str (blanks + sign.length) read) := by
  have hrun := h.run_digitsRead hasEnd
  have hpos : 0 < digitsRead hasEnd sign digits := by
    have hsign : sign.length ≤ 1 := by cases sign <;> decide
    have hdigits := h.digits_pos
    rw [digitsRead]
    split <;> omega
  have hconv := convertDigits_exact_iff sign.negative hrun hpos
  rw [h.myStrtoll10_eq hasEnd]
  dsimp only
  by_cases hread : digitsRead hasEnd sign digits = digits
  · rw [hread] at hconv ⊢
    rw [Conversion.exact_whole_iff hconv]
    exact (and_iff_left (.inl rfl)).symm
  cases hasEnd with
  | true => exact absurd rfl hread
  | false =>
    have hlt : digitsRead false sign digits < digits := by
      rw [digitsRead, if_neg Bool.false_ne_true] at hread ⊢
      omega
    obtain ⟨k, hk⟩ := Nat.exists_eq_add_of_lt hlt
    have hlow := (h.run.digits.mono (le_add_right _ _) (by omega) :
      DigitChars str (blanks + sign.length + digitsRead false sign digits) (k + 1)).value_nonneg
    have hpow : (10 : ℤ) ≤ 10 ^ (k + 1) := le_self_pow₀ (by norm_num) (succ_ne_zero k)
    have hvalue := digitsValue_add str (blanks + sign.length) (digitsRead false sign digits) (k + 1)
    rw [← add_assoc, ← hk] at hvalue
    have hten : 10 * digitsValue str (blanks + sign.length) (digitsRead false sign digits) ≤
        digitsValue str (blanks + sign.length) digits := by
      have hnonneg := hrun.digits.value_nonneg
      rw [hvalue]
      nlinarith
    rw [or_iff_right hread]
    exact Conversion.exact_part_iff hconv hrun.digits.value_nonneg hten

end

def textMemory (text : List UInt8) : ℕ → UInt8 := fun i => text.getD i 0

def missedText : List UInt8 :=
  [49, 56, 52, 52, 54, 55, 52, 52, 48, 55, 51, 55, 48, 57, 53, 53, 49, 55, 48, 48]

theorem missedText_integerText : IntegerText (textMemory missedText) 20 0 .none 20 where
  nonzero := by decide +kernel
  terminated := rfl
  blank := by decide
  sign_at := trivial
  digits_pos := by decide
  run := ⟨by rw [DigitChars]; decide +kernel, le_rfl, by decide⟩

/-- `18446744073709551700` is read as `84`, without an error. -/
theorem myStrtoll10_missedText :
    IntegerText (textMemory missedText) 20 0 .none 20 ∧
      digitsValue (textMemory missedText) 0 20 = 18446744073709551700 ∧
      myStrtoll10 (textMemory missedText) 20 (some 20) = ⟨84, some 20, .ok⟩ ∧
      ¬ (myStrtoll10 (textMemory missedText) 20 (some 20)).Exact false
        (digitsValue (textMemory missedText) 0 20) (some 20) := by
  have hvalue : digitsValue (textMemory missedText) 0 20 = 18446744073709551700 := by decide +kernel
  have hresult : myStrtoll10 (textMemory missedText) 20 (some 20) = ⟨84, some 20, .ok⟩ := by
    decide +kernel
  refine ⟨missedText_integerText, hvalue, hresult, ?_⟩
  rw [hvalue, hresult, StrtollResult.Exact, if_neg (by decide)]
  exact fun herror => StrtollError.noConfusion herror.2

theorem myStrtoll10_exact_iff_two :
    IntegerText (textMemory [45, 50, 32]) 3 0 .minus 1 ∧
      (myStrtoll10 (textMemory [45, 50, 32]) 3 (some 3)).Exact true 2 (some 2) := by
  have htext : IntegerText (textMemory [45, 50, 32]) 3 0 .minus 1 :=
    ⟨by decide, rfl, by decide, rfl, by decide, ⟨by rw [DigitChars]; decide, by decide, by decide⟩⟩
  refine ⟨htext, (myStrtoll10_exact_iff htext true).mpr ⟨fun hmissed => ?_, .inl rfl⟩⟩
  exact Bool.noConfusion hmissed.1

end LibSources
