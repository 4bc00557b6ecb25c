import LibSources.NumericText
import LibSources.Rounding

/-!
# When `my_strntoull10rnd_8bit` is Exact

The result for a text that starts with a numeric literal, compared with the number it writes,
rounded half away from zero and limited to the range of the type.

## Main results

* `NumericText.At.myStrntoull10rnd8bit_exact_iff`: the literals that are read exactly.
-/

namespace LibSources

open Conversion

/-- The rounded number `n`, with its sign, when it is in the range of the type, and the limit of
the type on its side otherwise. -/
def roundedResult (unsignedFlag negative : Bool) (n : ℤ) (stop : ℕ) : Conversion :=
  let v := if negative then -n else n
  let lo := if unsignedFlag then 0 else -2 ^ 63
  let hi := if unsignedFlag then 2 ^ 64 - 1 else 2 ^ 63 - 1
  if v < lo then ⟨BitVec.ofInt 64 lo, stop, .erange⟩
  else if hi < v then ⟨BitVec.ofInt 64 hi, stop, .erange⟩
  else ⟨BitVec.ofInt 64 v, stop, .ok⟩

/-- The doubled remainder does not fit in 64 bits: it is that of a number below one. -/
def RemainderOverflow (ull shift : ℤ) : Prop := shift = -19 ∧ 2 ^ 63 ≤ ull ∧ ull < 10 ^ 19

instance (ull shift : ℤ) : Decidable (RemainderOverflow ull shift) :=
  inferInstanceAs (Decidable (_ ∧ _))

section

variable (unsignedFlag negative : Bool)

def shiftedResult (ull shift n : ℤ) (stop : ℕ) : Conversion :=
  if RemainderOverflow ull shift then roundedResult unsignedFlag negative 0 stop
  else if unsignedFlag ∧ negative ∧ ulonglongMax < n then
    ⟨BitVec.ofInt 64 ulonglongMax, stop, .erange⟩
  else roundedResult unsignedFlag negative n stop

/-! ### The exits -/

theorem retSign_eq {n : ℤ} (hn : 0 ≤ n) (hn' : n ≤ ulonglongMax) (stop : ℕ) :
    retSign unsignedFlag negative n stop = roundedResult unsignedFlag negative n stop := by
  have hmax : ulonglongMax = 2 ^ 64 - 1 := rfl
  rw [retSign, roundedResult]
  cases unsignedFlag <;> cases negative <;> simp only [Bool.not_false, Bool.not_true, if_true,
    if_false, Bool.false_eq_true, true_and, false_and]
  · rw [if_neg (show ¬ n < -2 ^ 63 by omega)]
  · by_cases hlt : 2 ^ 63 < n
    · rw [if_pos hlt, if_pos (by omega)]
    · rw [if_neg hlt, if_neg (by omega), if_neg (by omega)]
  · rw [if_neg (by omega), if_neg (by omega)]
  by_cases hne : n = 0
  · rw [hne]
    rfl
  · rw [if_pos hne, if_pos (by omega)]
    rfl

variable {ull shift n : ℤ}

theorem retTooBig_eq (hn : ulonglongMax < n) (hshift : 0 ≤ shift) (stop : ℕ) :
    retTooBig unsignedFlag negative stop =
      shiftedResult unsignedFlag negative ull shift n stop := by
  have hmax : ulonglongMax = 2 ^ 64 - 1 := rfl
  have hremainder : ¬ RemainderOverflow ull shift := fun h => by
    have hneg := h.1
    omega
  rw [retTooBig, shiftedResult, if_neg hremainder, roundedResult]
  cases unsignedFlag <;> cases negative <;> simp only [if_true, if_false, Bool.false_eq_true,
    false_and, true_and]
  · rw [if_neg (by omega), if_pos (by omega)]
  · rw [if_pos (by omega)]
  · rw [if_neg (by omega), if_pos (by omega)]
    rfl
  · rw [if_pos hn]

theorem retSign_eq_shifted (hn : 0 ≤ n)
    (hn' : n ≤ ulonglongMax) (hremainder : ¬ RemainderOverflow ull shift) (stop : ℕ) :
    retSign unsignedFlag negative n stop =
      shiftedResult unsignedFlag negative ull shift n stop := by
  rw [shiftedResult, if_neg hremainder, if_neg fun h => absurd h.2.2 (not_lt.mpr hn'),
    retSign_eq unsignedFlag negative hn hn']

end

theorem shiftLeft_eq (n : ℕ) {ull : ℤ} (hull : 0 ≤ ull) (hmax : ull ≤ ulonglongMax) :
    shiftLeft n ull = if ull * 10 ^ n ≤ ulonglongMax then some (ull * 10 ^ n) else none := by
  have heq := ulonglongMax_eq
  have hcutoff := cutoff_eq
  induction n generalizing ull with
  | zero => rw [shiftLeft, pow_zero, mul_one, if_pos hmax]
  | succ n ih =>
    rw [shiftLeft]
    by_cases hlt : cutoff < ull
    · have hpow : (1 : ℤ) ≤ 10 ^ n := one_le_pow₀ (by norm_num)
      have hlarge : ulonglongMax < ull * 10 ^ (n + 1) := by
        rw [pow_succ]
        nlinarith
      rw [if_pos hlt, if_neg (not_le.mpr hlarge)]
    · rw [if_neg hlt, ih (by omega) (by omega), pow_succ', ← mul_assoc]

/-! ### Shift and rounding -/

/-- `ull` is a number `m` without its last digits, which count `place`. Digits are only missing
when one digit more does not fit; the greatest `ull` may be too small by less than five. -/
structure Leads (ull m place : ℤ) : Prop where
  place_pos : 0 < place
  nonneg : 0 ≤ ull
  le_max : ull ≤ ulonglongMax
  le : ull * place ≤ m
  lt : m < (ull + 1) * place ∨ ull = ulonglongMax ∧ m < (ull + 5) * place
  cutoff_lt : ull * place < m → cutoff < ull

def shifted (m place shift : ℤ) : ℚ := (m : ℚ) / place * 10 ^ shift

section

variable {ull m place : ℤ}

section

variable (h : Leads ull m place)
include h

theorem Leads.le_div : (ull : ℚ) ≤ (m : ℚ) / place := by
  have hplace : (0 : ℚ) < place := by exact_mod_cast h.place_pos
  rw [le_div_iff₀ hplace]
  exact_mod_cast h.le

theorem Leads.div_lt : (m : ℚ) / place < ull + 5 := by
  have hplace : (0 : ℚ) < place := by exact_mod_cast h.place_pos
  have hlt : m < (ull + 5) * place := by
    have hpos := h.place_pos
    rcases h.lt with hlt | ⟨-, hlt⟩
    · nlinarith
    · exact hlt
  rw [div_lt_iff₀ hplace]
  exact_mod_cast hlt

theorem Leads.div_lt_one (hlt : m < (ull + 1) * place) : (m : ℚ) / place < ull + 1 := by
  have hplace : (0 : ℚ) < place := by exact_mod_cast h.place_pos
  rw [div_lt_iff₀ hplace]
  exact_mod_cast hlt

theorem Leads.lt_round {n : ℕ} (hlt : ulonglongMax < ull * 10 ^ n) :
    ulonglongMax < round (shifted m place n) := by
  have hpow : (0 : ℚ) < 10 ^ n := by positivity
  have hle : ((ulonglongMax + 1 : ℤ) : ℚ) ≤ ull * 10 ^ n := by exact_mod_cast hlt
  have hround : ulonglongMax + 1 ≤ round (shifted m place n) := by
    refine le_round_of_le (hle.trans ?_)
    rw [shifted, zpow_natCast]
    exact mul_le_mul_of_nonneg_right h.le_div hpow.le
  omega

theorem Leads.round_eq (hle : ull ≤ cutoff) (n : ℕ) : round (shifted m place n) = ull * 10 ^ n := by
  have hplace : (place : ℚ) ≠ 0 := by exact_mod_cast h.place_pos.ne'
  have hm : m = ull * place :=
    le_antisymm (not_lt.mp fun hlt => absurd (h.cutoff_lt hlt) (not_lt.mpr hle)) h.le
  rw [shifted, zpow_natCast, hm, Int.cast_mul, mul_div_cancel_right₀ _ hplace]
  exact_mod_cast round_intCast (ull * 10 ^ n : ℤ)

theorem Leads.round_zero :
    ulonglongMax < round (shifted m place 0) ∧ ull = ulonglongMax ∧ place ≤ 2 * (m - ull * place) ∨
      round (shifted m place 0) = if place ≤ 2 * (m - ull * place) then ull + 1 else ull := by
  have hpos := h.place_pos
  have hplace : (0 : ℚ) < place := by exact_mod_cast hpos
  have hle := h.le_div
  rw [shifted, zpow_zero, mul_one]
  by_cases hlt : m < (ull + 1) * place
  · right
    have hlt' := h.div_lt_one hlt
    split
    case isTrue hup =>
        have hhalf : (ull : ℚ) + 1 / 2 ≤ m / place := by
          rw [le_div_iff₀ hplace]
          have hcast : (place : ℚ) ≤ 2 * (m - ull * place) := by exact_mod_cast hup
          linarith
        apply round_eq_of_bounds <;> push_cast <;> linarith
    case isFalse hdown =>
        have hhalf : (m : ℚ) / place < ull + 1 / 2 := by
          rw [div_lt_iff₀ hplace]
          have hcast : (2 * (m - ull * place) : ℚ) < place := by exact_mod_cast not_le.mp hdown
          linarith
        apply round_eq_of_bounds <;> linarith
  · left
    have hmax : ull = ulonglongMax := (h.lt.resolve_left hlt).1
    have hge : ((ull + 1 : ℤ) : ℚ) ≤ m / place := by
      rw [le_div_iff₀ hplace]
      exact_mod_cast not_lt.mp hlt
    have hround := le_round_of_le hge
    exact ⟨by omega, hmax, by nlinarith⟩

end

theorem round_ulonglongMax {x : ℚ} (hlo : ulonglongMax + 1 ≤ x) (hhi : x < ulonglongMax + 5)
    {n : ℕ} (hn : 0 < n) (hn' : n < 20) :
    round (x / 10 ^ n) = if 10 ^ n ≤ ulonglongMax % 10 ^ n * 2 then ulonglongMax / 10 ^ n + 1
      else ulonglongMax / 10 ^ n := by
  have hmax := ulonglongMax_eq
  rw [hmax] at hlo hhi ⊢
  push_cast at hlo hhi
  interval_cases n <;> norm_num <;> apply round_eq_of_bounds <;> push_cast <;> linarith

theorem Leads.round_neg (h : Leads ull m place) {n : ℕ} (hn : 0 < n) (hn' : n < 20) :
    round (shifted m place (-n)) =
      if 10 ^ n ≤ ull % 10 ^ n * 2 then ull / 10 ^ n + 1 else ull / 10 ^ n := by
  have hplace : (0 : ℚ) < place := by exact_mod_cast h.place_pos
  rw [shifted, zpow_neg, zpow_natCast, ← div_eq_mul_inv]
  by_cases hlt : m < (ull + 1) * place
  · have hround := round_div_of_even (u := ull) (d := 10 ^ n) (θ := m / place - ull)
      (by positivity) (dvd_pow (by norm_num) hn.ne') (sub_nonneg.mpr h.le_div)
      (by linarith [h.div_lt_one hlt])
    rw [add_sub_cancel] at hround
    exact_mod_cast hround
  have hmax : ull = ulonglongMax := (h.lt.resolve_left hlt).1
  have hge : ((ull + 1 : ℤ) : ℚ) ≤ m / place := by
    rw [le_div_iff₀ hplace]
    exact_mod_cast not_lt.mp hlt
  have hdiv := h.div_lt
  rw [hmax] at hge hdiv ⊢
  push_cast at hge
  exact round_ulonglongMax hge hdiv hn hn'

theorem Leads.round_far (h : Leads ull m place) {n : ℕ} (hn : 20 ≤ n) :
    round (shifted m place (-n)) = 0 := by
  have hle := h.le_div
  have hlt := h.div_lt
  have hnonneg : (0 : ℚ) ≤ ull := by exact_mod_cast h.nonneg
  have hmax : (ull : ℚ) ≤ 18446744073709551615 := by exact_mod_cast h.le_max
  have hpow : (10 : ℚ) ^ 20 ≤ 10 ^ n := pow_le_pow_right₀ (by norm_num) hn
  have hpos : (0 : ℚ) < 10 ^ n := by positivity
  rw [shifted, zpow_neg, zpow_natCast, ← div_eq_mul_inv]
  apply round_eq_of_bounds
  · rw [le_div_iff₀ hpos]
    linarith
  · rw [div_lt_iff₀ hpos]
    linarith

variable (unsignedFlag negative : Bool)

theorem Leads.finish_neg (h : Leads ull m place) {n : ℕ} (hn : 0 < n) (hn' : n < 20) (stop : ℕ) :
    retSign unsignedFlag negative
        (if (10 : ℤ) ^ n ≤ ull % 10 ^ n * 2 % 2 ^ 64 then ull / 10 ^ n + 1 else ull / 10 ^ n) stop =
      shiftedResult unsignedFlag negative ull (-n) (round (shifted m place (-n))) stop := by
  have hnonneg := h.nonneg
  have hle := h.le_max
  have hmax := ulonglongMax_eq
  have hpow : (0 : ℤ) < 10 ^ n := by positivity
  have hmod := Int.emod_lt_of_pos ull hpow
  have hmod' := Int.emod_nonneg ull hpow.ne'
  by_cases hremainder : RemainderOverflow ull (-n)
  · rw [shiftedResult, if_pos hremainder]
    obtain ⟨hshift, hge, hlt⟩ := hremainder
    obtain rfl : n = 19 := by omega
    rw [Int.emod_eq_of_lt hnonneg hlt, Int.ediv_eq_zero_of_lt hnonneg hlt, if_neg (by omega)]
    exact retSign_eq unsignedFlag negative le_rfl (by decide) stop
  have hsmall : ull % 10 ^ n * 2 < 2 ^ 64 := by
    by_cases hn19 : n = 19
    · subst hn19
      by_cases hlt : ull < 10 ^ 19
      · have hhalf : ull < 2 ^ 63 := not_le.mp fun hge => hremainder ⟨rfl, hge, hlt⟩
        omega
      · omega
    · have hpow' : (10 : ℤ) ^ n ≤ 10 ^ 18 := pow_le_pow_right₀ (by norm_num) (by omega)
      omega
  have hdiv : 0 ≤ ull / 10 ^ n := Int.ediv_nonneg hnonneg hpow.le
  have hdiv' : ull / 10 ^ n * 10 ≤ ull := by
    have hmul := Int.ediv_mul_le ull hpow.ne'
    have hten : (10 : ℤ) ≤ 10 ^ n := le_self_pow₀ (by norm_num) hn.ne'
    nlinarith
  rw [Int.emod_eq_of_lt (by omega) hsmall, h.round_neg hn hn']
  apply retSign_eq_shifted _ _ _ _ hremainder
  · split <;> omega
  · split <;> omega

theorem finish_eq (h : Leads ull m place) {shift : ℤ}
    (hlo : -2 ^ 31 < shift) (hhi : shift < 2 ^ 31) (stop : ℕ) :
    finish unsignedFlag negative ull (decide (place ≤ 2 * (m - ull * place))) shift stop =
      some (shiftedResult unsignedFlag negative ull shift (round (shifted m place shift))
        stop) := by
  have hnonneg := h.nonneg
  have hle := h.le_max
  have hmax := ulonglongMax_eq
  have hcutoff := cutoff_eq
  have htwenty : digitsInUlonglong = 20 := rfl
  rw [finish]
  rcases lt_trichotomy shift 0 with hneg | rfl | hpos
  · obtain ⟨n, rfl⟩ : ∃ n : ℕ, shift = -n := ⟨shift.natAbs, by omega⟩
    rw [if_neg hneg.ne, if_pos hneg, neg_neg, toInt32_of_mem (by omega) (by omega), htwenty]
    by_cases hfar : (20 : ℤ) ≤ n
    · have hremainder : ¬ RemainderOverflow ull (-n) := fun hr => by
        have hshift := hr.1
        omega
      rw [if_pos hfar, h.round_far (by omega),
        ← retSign_eq_shifted unsignedFlag negative le_rfl (by decide) hremainder]
      cases unsignedFlag <;> cases negative <;> rfl
    · have hd10 : d10 n = some (10 ^ n) := by
        rw [d10, if_pos ⟨by omega, by omega⟩, Int.toNat_natCast]
      rw [if_neg hfar, hd10]
      exact congrArg some (h.finish_neg unsignedFlag negative (by omega) (by omega) stop)
  · have hremainder : ¬ RemainderOverflow ull 0 := fun hr => absurd hr.1 (by decide)
    rw [if_pos rfl]
    rcases h.round_zero with ⟨hlt, heq, hup⟩ | hround
    · rw [if_pos (decide_eq_true hup), if_pos heq, retTooBig_eq unsignedFlag negative hlt le_rfl]
    rw [hround]
    by_cases hup : place ≤ 2 * (m - ull * place)
    · rw [if_pos (decide_eq_true hup), if_pos hup]
      by_cases heq : ull = ulonglongMax
      · rw [if_pos heq,
          ← retTooBig_eq unsignedFlag negative (show ulonglongMax < ull + 1 by omega) le_rfl]
      · rw [if_neg heq, retSign_eq_shifted unsignedFlag negative (by omega) (by omega) hremainder]
    · rw [if_neg (by rwa [decide_eq_true_eq]), if_neg hup,
        retSign_eq_shifted unsignedFlag negative hnonneg hle hremainder]
  · obtain ⟨n, rfl⟩ : ∃ n : ℕ, shift = n := ⟨shift.toNat, by omega⟩
    have hremainder : ¬ RemainderOverflow ull n := fun hr => by
      have hshift := hr.1
      omega
    rw [if_neg hpos.ne', if_neg (by omega), htwenty]
    by_cases hhuge : (20 : ℤ) < n
    · rw [if_pos hhuge]
      by_cases hzero : ull = 0
      · rw [hzero] at hremainder
        rw [if_pos hzero, h.round_eq (by omega), hzero, zero_mul,
          retSign_eq_shifted unsignedFlag negative le_rfl (by decide) hremainder]
      have hpow : (10 : ℤ) ^ 21 ≤ 10 ^ n := pow_le_pow_right₀ (by norm_num) (by omega)
      have hlarge : ulonglongMax < ull * 10 ^ n := by nlinarith [show 1 ≤ ull by omega]
      rw [if_neg hzero, retTooBig_eq unsignedFlag negative (h.lt_round hlarge) hpos.le]
    rw [if_neg hhuge, Int.toNat_natCast, shiftLeft_eq n hnonneg hle]
    by_cases hfits : ull * 10 ^ n ≤ ulonglongMax
    · have hpow : (10 : ℤ) ≤ 10 ^ n := le_self_pow₀ (by norm_num) (by omega)
      have hsmall : ull ≤ cutoff := by
        have hten : ull * 10 ≤ ull * 10 ^ n := mul_le_mul_of_nonneg_left hpow hnonneg
        omega
      rw [if_pos hfits, h.round_eq hsmall,
        ← retSign_eq_shifted unsignedFlag negative (by positivity) hfits hremainder]
    · rw [if_neg hfits, ← retTooBig_eq unsignedFlag negative (h.lt_round (not_le.mp hfits)) hpos.le]

end

/-! ### Literals -/

namespace NumericText

variable (t : NumericText) (str : ℕ → UInt8)

/-- The power of ten that is missing behind the accumulated number. -/
def shift : ℤ := t.intDigits - t.covered str + t.exponentValue str

def usedShift (length : ℕ) : ℤ := if t.SecondPoint str length then 0 else toInt32 (t.shift str)

def IncompleteExponent (length : ℕ) : Prop :=
  t.exponent = none ∧ t.mantissaEnd < length ∧ IsMark (str t.mantissaEnd)

variable {t str} {length : ℕ} (h : t.At str length)

include h

theorem At.leads : Leads (t.accumulated str) (t.leading str t.digits)
    (10 ^ (t.digits - t.covered str)) := by
  have hmax := ulonglongMax_eq
  have hcutoff := cutoff_eq
  have hpos : (0 : ℤ) < 10 ^ (t.digits - t.covered str) := by positivity
  by_cases hfits : t.leading str t.digits ≤ ulonglongMax
  · obtain ⟨-, hcovered, haccumulated⟩ := h.accepted_eq_digits hfits
    rw [hcovered, haccumulated, tsub_self, pow_zero]
    have hnonneg := h.leading_nonneg le_rfl
    exact ⟨one_pos, hnonneg, hfits, by omega, .inl (by omega), fun hlt => by omega⟩
  have hspec : t.leading str (t.accepted str) ≤ ulonglongMax :=
    Nat.findGreatest_spec (P := fun k => t.leading str k ≤ ulonglongMax) (Nat.zero_le t.digits)
      (by decide : (0 : ℤ) ≤ ulonglongMax)
  have haccepted : t.accepted str < t.digits := by
    refine lt_of_le_of_ne (Nat.findGreatest_le _) fun heq => hfits ?_
    rwa [heq] at hspec
  have hnext : ulonglongMax < t.leading str (t.accepted str + 1) :=
    not_le.mp (Nat.findGreatest_is_greatest (lt_add_one _) haccepted)
  have hnonneg := h.leading_nonneg haccepted.le
  by_cases heq : t.leading str (t.accepted str) = cutoff
  · obtain ⟨-, hcovered, haccumulated⟩ := h.accepted_eq_cutoff haccepted heq hnext
    have hdigit := (h.digit _ haccepted).digitAt_range
    obtain ⟨tail, hsplit, htail, htail'⟩ := h.leading_split (Nat.succ_le_of_lt haccepted)
    rw [leading_succ] at hnext
    rw [hcovered] at hpos ⊢
    rw [haccumulated, hsplit, Nat.succ_eq_add_one, leading_succ]
    refine ⟨hpos, by omega, le_rfl, ?_, .inr ⟨rfl, ?_⟩, fun _ => by omega⟩
    · nlinarith
    · nlinarith
  · obtain ⟨-, hcovered, haccumulated⟩ := h.accepted_eq_of_ne haccepted hspec heq hnext
    obtain ⟨tail, hsplit, htail, htail'⟩ := h.leading_split haccepted.le
    have hdigit := (h.digit _ haccepted).digitAt_range
    rw [leading_succ] at hnext
    rw [hcovered] at hpos ⊢
    rw [haccumulated, hsplit]
    exact ⟨hpos, hnonneg, hspec, by omega, .inl (by linarith), fun _ => by omega⟩

omit h in
theorem shifted_eq (shift : ℤ) :
    shifted (t.leading str t.digits) (10 ^ (t.digits - t.covered str)) shift =
      t.magnitude str * 10 ^ (shift - t.shift str) := by
  have hcovered : t.covered str ≤ t.digits := Nat.findGreatest_le _
  have hdigits := t.digits_eq
  have hten : (10 : ℚ) ≠ 0 := by norm_num
  rw [shifted, magnitude, NumericText.shift, mul_assoc, ← zpow_add₀ hten, div_eq_mul_inv, mul_assoc]
  push_cast
  rw [← zpow_natCast, ← zpow_neg, ← zpow_add₀ hten]
  congr 2
  omega

omit h in
theorem retSign_stop (unsignedFlag negative : Bool) (n : ℤ) (stop : ℕ) :
    (retSign unsignedFlag negative n stop).stop = stop := by
  rw [retSign]
  split <;> split
  any_goals split
  all_goals rfl

omit h in
theorem finish_stop {unsignedFlag negative : Bool} {ull shift : ℤ} {addon : Bool} {stop : ℕ}
    {c : Conversion} (hc : finish unsignedFlag negative ull addon shift stop = some c) :
    c.stop = stop := by
  have hsign := fun n => retSign_stop unsignedFlag negative n stop
  rw [finish] at hc
  split at hc
  · split at hc
    · split at hc <;> cases hc
      · rfl
      · exact hsign _
    · cases hc
      exact hsign _
  split at hc
  · split at hc
    · cases hc
      rfl
    · split at hc <;> cases hc
      exact hsign _
  split at hc
  · split at hc <;> cases hc
    · exact hsign _
    · rfl
  split at hc <;> cases hc
  · rfl
  · exact hsign _

theorem At.scan_first :
    scanDigits str (min (t.start + 9) length - t.start) t.start 0 =
      (t.start + min 9 t.intDigits, t.leading str (min 9 t.intDigits)) := by
  have hle := h.mantissaEnd_le
  have hdigits := t.digits_eq
  rw [mantissaEnd] at hle
  have hrun : DigitChars str t.start (min 9 t.intDigits) := by
    intro p hp hp'
    obtain ⟨i, rfl⟩ := Nat.exists_eq_add_of_le hp
    have hdigit := h.digit i (by omega)
    rwa [digitPos_of_lt (by omega)] at hdigit
  have hvalue : digitsValue str t.start (min 9 t.intDigits) =
      t.leading str (min 9 t.intDigits) := by
    refine radix_shift_congr fun i hi => ?_
    rw [zero_add, digitPos_of_lt (by omega)]
  rw [scanDigits_eq (k := min 9 t.intDigits) (by omega) hrun, zero_mul, zero_add, hvalue]
  intro hlt
  rw [show min 9 t.intDigits = t.intDigits by omega]
  exact h.int_stop (by omega)

theorem At.leading_first_lt : t.leading str (min 9 t.intDigits) < 10 ^ 9 := by
  have hdigits := t.digits_eq
  have hrange : InRange 10 (fun k => digitAt str (t.digitPos k)) 0 (min 9 t.intDigits) :=
    h.inRange.mono le_rfl (by omega)
  exact hrange.radix_lt.trans_le (pow_le_pow_right₀ (by norm_num) (by omega))

theorem At.readExponent_eq (hcomplete : ¬ t.IncompleteExponent str length) :
    readExponent str length (t.mantissa str length) = (t.stop, some (t.usedShift str length)) := by
  cases hexp : t.exponent with
  | none =>
    have hstop : t.stop = t.mantissaEnd := by rw [stop, hexp, add_zero]
    have hshift : t.shift str = t.intDigits - t.covered str := by
      rw [shift, exponentValue, hexp]
      exact add_zero _
    rw [readExponent_of_not_mark rfl fun hmark => hcomplete ⟨hexp, hmark⟩, hstop, usedShift,
      hshift, mantissa]
  | some e =>
    obtain ⟨sign, n⟩ := e
    have hat := h.exponent_at
    rw [hexp] at hat
    have hsecond : ¬ t.SecondPoint str length := by
      rintro ⟨-, -, -, hpoint⟩
      rcases hat.1 with hmark | hmark <;> rw [hpoint] at hmark <;> exact absurd hmark (by decide)
    rw [h.readExponent_of_some hexp rfl, usedShift, if_neg hsecond, mantissa]
    rw [if_neg hsecond, toInt32_toInt32_add, shift]

omit h in
theorem finish_least (unsignedFlag negative : Bool) (ull : ℤ) (addon : Bool) (stop : ℕ) :
    finish unsignedFlag negative ull addon (-2 ^ 31) stop = none := rfl

omit h in
theorem usedShift_mem (t : NumericText) (str : ℕ → UInt8) (length : ℕ) :
    -2 ^ 31 ≤ t.usedShift str length ∧ t.usedShift str length < 2 ^ 31 := by
  rw [usedShift]
  split
  · decide
  · exact toInt32_mem _

theorem At.retSmall_eq (unsignedFlag negative : Bool)
    (hsmall : length ≤ t.start + min 9 t.intDigits) :
    ¬ 2 ^ 32 ∣ (t.accepted str : ℤ) ∧ t.usedShift str length = 0 ∧
      retSmall unsignedFlag negative (t.leading str (min 9 t.intDigits))
          (t.start + min 9 t.intDigits) =
        shiftedResult unsignedFlag negative (t.accumulated str) 0
          (round (t.magnitude str * 10 ^ (0 - t.shift str))) t.stop := by
  have hdigits := t.digits_eq
  have hpos := h.digits_pos
  have hle := h.stop_le
  have hend : t.mantissaEnd ≤ t.stop := Nat.le_add_right _ _
  have hmax := ulonglongMax_eq
  have hint : t.start + t.intDigits ≤ t.mantissaEnd := by
    rw [mantissaEnd]
    omega
  have hmin : min 9 t.intDigits = t.intDigits := by omega
  have hfrac : t.digits = t.intDigits := by
    rw [mantissaEnd] at hend
    omega
  have hfirst := h.leading_first_lt
  have hnonneg := h.leading_nonneg hfrac.ge
  rw [hmin] at hfirst hsmall ⊢
  obtain ⟨haccepted, hcovered, haccumulated⟩ := h.accepted_eq_digits (by rw [hfrac]; omega)
  have hexp : t.exponent = none := by
    cases hexp : t.exponent with
    | none => rfl
    | some e =>
      rw [stop, hexp] at hle
      dsimp only at hle
      omega
  have hshift : t.shift str = 0 := by
    rw [shift, hcovered, hfrac, exponentValue, hexp, sub_self]
    rfl
  have hsecond : ¬ t.SecondPoint str length := fun hsecond => by
    have hlt := hsecond.2.2.1
    omega
  have hround : round (t.magnitude str * 10 ^ (0 - t.shift str)) = t.leading str t.intDigits := by
    rw [← shifted_eq, hcovered, tsub_self, pow_zero, hfrac, shifted, Int.cast_one, div_one,
      zpow_zero, mul_one, round_intCast]
  have hremainder : ¬ RemainderOverflow (t.accumulated str) 0 := fun hr => absurd hr.1 (by decide)
  refine ⟨by omega, ?_, ?_⟩
  · rw [usedShift, if_neg hsecond, hshift]
    rfl
  rw [hround, ← retSign_eq_shifted unsignedFlag negative hnonneg (by omega) hremainder,
    show t.stop = t.start + t.intDigits by omega]
  rw [retSmall, retSign]
  cases unsignedFlag <;> cases negative <;> simp only [Bool.not_false, Bool.not_true, if_true,
    if_false, Bool.false_eq_true, true_and, false_and]
  · rw [if_neg (by omega)]
  · rw [if_neg (by omega)]
  by_cases hzero : t.leading str t.intDigits = 0
  · rw [if_neg (not_not.mpr hzero), if_neg (not_not.mpr hzero), hzero]
    rfl
  · rw [if_pos hzero, if_pos hzero]

/-- The result behind the sign, when no letter of an exponent stands behind the literal. -/
theorem At.convertRounded_eq (unsignedFlag negative : Bool)
    (hcomplete : ¬ t.IncompleteExponent str length) :
    convertRounded str length unsignedFlag negative t.start =
      if 2 ^ 32 ∣ (t.accepted str : ℤ) then some (retEdom t.start)
      else if t.usedShift str length = -2 ^ 31 then none
      else some (shiftedResult unsignedFlag negative (t.accumulated str) (t.usedShift str length)
        (round (t.magnitude str * 10 ^ (t.usedShift str length - t.shift str))) t.stop) := by
  rw [convertRounded, h.scan_first]
  dsimp only
  by_cases hsmall : length ≤ t.start + min 9 t.intDigits
  · obtain ⟨hdvd, hused, hresult⟩ := h.retSmall_eq unsignedFlag negative hsmall
    rw [if_pos hsmall, if_neg hdvd, hused, if_neg (by decide), hresult]
  have hfits : t.leading str (min 9 t.intDigits) ≤ ulonglongMax :=
    h.leading_first_lt.le.trans (by decide)
  have hcount : ((t.start + min 9 t.intDigits : ℕ) : ℤ) - t.start = (min 9 t.intDigits : ℕ) := by
    push_cast
    ring
  rw [if_neg hsmall, hcount, h.accumulate_eq (min_le_right _ _) hfits, h.readExponent_eq hcomplete]
  dsimp only
  have hzero := toInt32_eq_zero_iff (t.accepted str)
  have hcounted : (t.mantissa str length).digits = toInt32 (t.accepted str) := by rw [mantissa]
  rw [hcounted]
  by_cases hdvd : 2 ^ 32 ∣ (t.accepted str : ℤ)
  · rw [if_pos (hzero.mpr hdvd), if_pos hdvd]
  rw [if_neg fun hz => hdvd (hzero.mp hz), if_neg hdvd]
  by_cases hleast : t.usedShift str length = -2 ^ 31
  · rw [if_pos hleast, hleast, finish_least]
  have hmem := usedShift_mem t str length
  rw [if_neg hleast, ← shifted_eq]
  exact finish_eq unsignedFlag negative h.leads (by omega) hmem.2 t.stop

/-! ### The whole text -/

omit h in
theorem roundedResult_stop (unsignedFlag negative : Bool) (n : ℤ) (stop : ℕ) :
    (roundedResult unsignedFlag negative n stop).stop = stop ∧
      (roundedResult unsignedFlag negative n stop).error ≠ .edom := by
  rw [roundedResult]
  split_ifs <;> exact ⟨rfl, fun herror => StrtollError.noConfusion herror⟩

theorem At.convertRounded_ne (unsignedFlag negative : Bool)
    (hincomplete : t.IncompleteExponent str length) (n : ℤ) :
    convertRounded str length unsignedFlag negative t.start ≠
      some (roundedResult unsignedFlag negative n t.stop) := by
  obtain ⟨hexp, hlt, hmark⟩ := hincomplete
  obtain ⟨hstop, herror⟩ := roundedResult_stop unsignedFlag negative n t.stop
  have hend : t.stop = t.mantissaEnd := by rw [stop, hexp, add_zero]
  have hint : t.start + min 9 t.intDigits ≤ t.mantissaEnd := by
    rw [mantissaEnd, digits]
    omega
  have hfits : t.leading str (min 9 t.intDigits) ≤ ulonglongMax :=
    h.leading_first_lt.le.trans (by decide)
  have hcount : ((t.start + min 9 t.intDigits : ℕ) : ℤ) - t.start = (min 9 t.intDigits : ℕ) := by
    push_cast
    ring
  have hbehind := mantissaEnd_lt_readExponent (t := t) (m := t.mantissa str length) rfl ⟨hlt, hmark⟩
  rw [convertRounded, h.scan_first]
  dsimp only
  rw [if_neg (by omega), hcount, h.accumulate_eq (min_le_right _ _) hfits]
  split
  · intro heq
    rw [← Option.some.inj heq] at herror
    exact herror rfl
  split
  · rename_i s hread
    intro heq
    rw [hread] at hbehind
    rw [← Option.some.inj heq, retSign_stop] at hstop
    exact absurd hstop (by omega)
  rename_i s shift hread
  intro heq
  rw [hread] at hbehind
  rw [finish_stop heq] at hstop
  exact absurd hstop (by omega)

theorem At.first_char : t.start < length ∧ (IsDigit (str t.start) ∨ str t.start = 46) := by
  have hdigits := t.digits_eq
  have hpos := h.digits_pos
  have hle := h.mantissaEnd_le
  by_cases hint : 0 < t.intDigits
  · have hdigit := h.digit 0 hpos
    rw [digitPos_of_lt hint] at hdigit
    rw [mantissaEnd] at hle
    exact ⟨by omega, .inl hdigit⟩
  have hpoint : t.point = true := by
    by_contra hpoint
    have hall := (h.mantissaEnd_eq (Bool.not_eq_true _ ▸ hpoint)).2
    omega
  obtain ⟨hchar, hlt⟩ := h.point_char hpoint
  rw [show t.intDigits = 0 by omega, add_zero] at hchar hlt
  exact ⟨hlt, .inr hchar⟩

theorem At.myStrntoull10rnd8bit_eq (unsignedFlag : Bool) :
    myStrntoull10rnd8bit str length unsignedFlag =
      convertRounded str length unsignedFlag t.sign.negative t.start := by
  obtain ⟨hlt, hfirst⟩ := h.first_char
  have hstart : t.start = t.blanks + t.sign.length := rfl
  have hsign := h.sign_at
  have hplain : ∀ c : UInt8, IsDigit c ∨ c = 46 → isBlank c = false ∧ ¬ (c = 45 ∨ c = 43) := by
    intro c hc
    rw [isBlank, Bool.or_eq_false_iff, beq_eq_false_iff_ne, beq_eq_false_iff_ne]
    refine ⟨⟨?_, ?_⟩, ?_⟩
    · rintro rfl
      exact absurd hc (by decide)
    · rintro rfl
      exact absurd hc (by decide)
    · rintro (rfl | rfl) <;> exact absurd hc (by decide)
  have hscan : isBlank (str t.blanks) = false → scanWhile isBlank str length 0 = t.blanks := by
    intro hnot
    rw [scanWhile_eq (k := t.blanks) (by omega), zero_add]
    · intro i hi
      rw [zero_add, isBlank, Bool.or_eq_true, beq_iff_eq, beq_iff_eq]
      exact h.blank i hi
    · intro _
      rwa [zero_add]
  rw [myStrntoull10rnd8bit]
  cases hs : t.sign with
  | none =>
    rw [hs] at hstart
    change t.start = t.blanks at hstart
    rw [hstart] at hfirst hlt
    rw [hstart, hscan (hplain _ hfirst).1]
    rw [if_neg (not_le.mpr hlt), if_neg (hplain _ hfirst).2]
    rfl
  | plus =>
    rw [hs] at hstart hsign
    have hplus : str t.blanks = 43 := hsign
    rw [hstart] at hlt ⊢
    change t.blanks + 1 < length at hlt
    rw [hscan (by rw [hplus]; decide)]
    rw [if_neg (by omega), if_pos (.inr hplus), if_neg (by omega), hplus]
    rfl
  | minus =>
    rw [hs] at hstart hsign
    have hminus : str t.blanks = 45 := hsign
    rw [hstart] at hlt ⊢
    change t.blanks + 1 < length at hlt
    rw [hscan (by rw [hminus]; decide)]
    rw [if_neg (by omega), if_pos (.inl hminus), if_neg (by omega), hminus]
    rfl

omit h in
theorem shiftedResult_eq_iff (unsignedFlag negative : Bool) {ull shift n : ℤ} (stop : ℕ)
    (hone : RemainderOverflow ull shift → n = 1) :
    shiftedResult unsignedFlag negative ull shift n stop =
        roundedResult unsignedFlag negative n stop ↔
      ¬ RemainderOverflow ull shift ∧ ¬ (unsignedFlag ∧ negative ∧ ulonglongMax < n) := by
  rw [shiftedResult]
  by_cases hremainder : RemainderOverflow ull shift
  · rw [if_pos hremainder, hone hremainder]
    refine iff_of_false (fun heq => ?_) fun hnot => hnot.1 hremainder
    cases unsignedFlag <;> cases negative
    · have hvalue : BitVec.ofInt 64 0 = BitVec.ofInt 64 1 := congrArg Conversion.value heq
      exact absurd hvalue (by decide)
    · have hvalue : BitVec.ofInt 64 0 = BitVec.ofInt 64 (-1) := congrArg Conversion.value heq
      exact absurd hvalue (by decide)
    · have hvalue : BitVec.ofInt 64 0 = BitVec.ofInt 64 1 := congrArg Conversion.value heq
      exact absurd hvalue (by decide)
    · exact StrtollError.noConfusion (congrArg error heq)
  rw [if_neg hremainder]
  by_cases hbig : unsignedFlag ∧ negative ∧ ulonglongMax < n
  · rw [if_pos hbig]
    refine iff_of_false (fun heq => ?_) fun hnot => hnot.2 hbig
    obtain ⟨rfl, rfl, hlt⟩ := hbig
    have hmax := ulonglongMax_eq
    have hvalue := congrArg value heq
    rw [roundedResult] at hvalue
    simp only [if_true] at hvalue
    rw [if_pos (by omega)] at hvalue
    change BitVec.ofInt 64 ulonglongMax = BitVec.ofInt 64 0 at hvalue
    exact absurd hvalue (by decide)
  · rw [if_neg hbig]
    exact iff_of_true rfl ⟨hremainder, hbig⟩

theorem At.round_eq_one (hremainder : RemainderOverflow (t.accumulated str) (t.shift str)) :
    round (t.magnitude str) = 1 := by
  obtain ⟨hshift, hge, hlt⟩ := hremainder
  have hround := h.leads.round_neg (n := 19) (by norm_num) (by norm_num)
  rw [Int.emod_eq_of_lt h.leads.nonneg hlt, if_pos (by omega),
    Int.ediv_eq_zero_of_lt h.leads.nonneg hlt, shifted_eq, hshift] at hround
  simpa using hround

/-- The result is the rounded number, or the limit of the type, iff

* the letter of an exponent behind the literal is followed by an exponent;
* the number of digits that are counted is not zero as an `int`;
* the shift is not the least `int`;
* the shift that is used is the right one, the doubled remainder fits in 64 bits and the number
  is not a negative one beyond all 64 bits for an unsigned type; or the shift that is used is
  another one, and it happens to give the same result. -/
theorem At.myStrntoull10rnd8bit_exact_iff (unsignedFlag : Bool) :
    myStrntoull10rnd8bit str length unsignedFlag =
        some (roundedResult unsignedFlag t.sign.negative (round (t.magnitude str)) t.stop) ↔
      ¬ t.IncompleteExponent str length ∧ ¬ 2 ^ 32 ∣ (t.accepted str : ℤ) ∧
        t.usedShift str length ≠ -2 ^ 31 ∧
        if t.usedShift str length = t.shift str then
          ¬ RemainderOverflow (t.accumulated str) (t.shift str) ∧
            ¬ (unsignedFlag ∧ t.sign.negative ∧ ulonglongMax < round (t.magnitude str))
        else
          shiftedResult unsignedFlag t.sign.negative (t.accumulated str) (t.usedShift str length)
              (round (t.magnitude str * 10 ^ (t.usedShift str length - t.shift str))) t.stop =
            roundedResult unsignedFlag t.sign.negative (round (t.magnitude str)) t.stop := by
  rw [h.myStrntoull10rnd8bit_eq]
  by_cases hincomplete : t.IncompleteExponent str length
  · exact iff_of_false (h.convertRounded_ne _ _ hincomplete _) fun hcond => hcond.1 hincomplete
  rw [h.convertRounded_eq _ _ hincomplete]
  by_cases hdvd : 2 ^ 32 ∣ (t.accepted str : ℤ)
  · rw [if_pos hdvd]
    refine iff_of_false (fun heq => ?_) fun hcond => hcond.2.1 hdvd
    have herror := (roundedResult_stop unsignedFlag t.sign.negative (round (t.magnitude str))
      t.stop).2
    rw [← Option.some.inj heq] at herror
    exact herror rfl
  rw [if_neg hdvd]
  by_cases hleast : t.usedShift str length = -2 ^ 31
  · rw [if_pos hleast]
    exact iff_of_false (Option.some_ne_none _).symm fun hcond => hcond.2.2.1 hleast
  rw [if_neg hleast, Option.some.injEq]
  by_cases hshift : t.usedShift str length = t.shift str
  · rw [if_pos hshift, hshift, sub_self, zpow_zero, mul_one,
      shiftedResult_eq_iff _ _ _ h.round_eq_one]
    exact ⟨fun hcond => ⟨hincomplete, hdvd, by rwa [hshift] at hleast, hcond⟩,
      fun hcond => hcond.2.2.2⟩
  · rw [if_neg hshift]
    exact ⟨fun hcond => ⟨hincomplete, hdvd, hleast, hcond⟩, fun hcond => hcond.2.2.2⟩

end NumericText

def nearlyOneText : List UInt8 :=
  [48, 46, 57, 53, 48, 48, 48, 48, 48, 48, 48, 48, 48, 48, 48, 48, 48, 48, 48, 48, 48]

/-- A digit, a point and nineteen digits. -/
def nearlyOne : NumericText := ⟨0, .none, 1, true, 19, none⟩

theorem nearlyOne_at : nearlyOne.At (textMemory nearlyOneText) 21 where
  blank := by decide
  sign_at := trivial
  digits_pos := by decide
  digit := by decide +kernel
  point_at := by decide
  stop_le := by decide
  mantissa_stop := by decide
  exponent_at := by
    rintro ⟨sign, hmark, -⟩
    exact absurd hmark (by decide)

/-- `0.95`, written with nineteen digits behind the point, is rounded to zero. -/
theorem myStrntoull10rnd8bit_nearlyOne :
    nearlyOne.At (textMemory nearlyOneText) 21 ∧
      nearlyOne.magnitude (textMemory nearlyOneText) = 95 / 100 ∧
      myStrntoull10rnd8bit (textMemory nearlyOneText) 21 true = some ⟨0, 21, .ok⟩ ∧
      myStrntoull10rnd8bit (textMemory nearlyOneText) 21 true ≠
        some (roundedResult true false (round (nearlyOne.magnitude (textMemory nearlyOneText)))
          21) := by
  have hvalue : nearlyOne.magnitude (textMemory nearlyOneText) = 95 / 100 := by
    have hleading : nearlyOne.leading (textMemory nearlyOneText) 20 = 9500000000000000000 := by
      decide +kernel
    rw [NumericText.magnitude, show nearlyOne.digits = 20 from rfl, hleading]
    norm_num [nearlyOne, NumericText.exponentValue]
  have hresult : myStrntoull10rnd8bit (textMemory nearlyOneText) 21 true = some ⟨0, 21, .ok⟩ := by
    decide +kernel
  have hround : round (95 / 100 : ℚ) = 1 := round_eq_of_bounds (by norm_num) (by norm_num)
  refine ⟨nearlyOne_at, hvalue, hresult, ?_⟩
  rw [hresult, hvalue, hround]
  decide

theorem myStrntoull10rnd8bit_exact_iff_tenth :
    (⟨1, .minus, 1, true, 1, some (.none, 1)⟩ : NumericText).At
        (textMemory [32, 45, 49, 46, 53, 101, 48, 120]) 8 ∧
      myStrntoull10rnd8bit (textMemory [32, 45, 49, 46, 53, 101, 48, 120]) 8 false =
        some (roundedResult false true (round ((⟨1, .minus, 1, true, 1, some (.none, 1)⟩ :
          NumericText).magnitude (textMemory [32, 45, 49, 46, 53, 101, 48, 120]))) 7) := by
  have hat : (⟨1, .minus, 1, true, 1, some (.none, 1)⟩ : NumericText).At
      (textMemory [32, 45, 49, 46, 53, 101, 48, 120]) 8 :=
    ⟨by decide, rfl, by decide, by decide, by decide, by decide, by decide,
      ⟨by decide, trivial, by decide, ⟨by rw [DigitChars]; decide, by decide, by decide⟩⟩⟩
  refine ⟨hat, (hat.myStrntoull10rnd8bit_exact_iff false).mpr ⟨?_, ?_, ?_, ?_⟩⟩
  · exact fun hincomplete => absurd hincomplete.1 (by decide)
  · decide +kernel
  · decide +kernel
  · rw [if_pos (by decide +kernel)]
    exact ⟨by decide +kernel, fun hbig => absurd hbig.1 (by decide)⟩

end LibSources
