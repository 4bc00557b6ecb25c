import LibSources.Strntoull10rnd

/-!
# Numeric Literals

The layout of a numeric literal in a text, the number that it writes, and what the scans of
`my_strntoull10rnd_8bit` make of it.
-/

namespace LibSources

open Nat Bool

/-! ### Literals -/

structure NumericText where
  blanks : ℕ
  sign : NumberSign
  intDigits : ℕ
  point : Bool
  fracDigits : ℕ
  exponent : Option (NumberSign × ℕ)

namespace NumericText

variable (t : NumericText) (str : ℕ → UInt8)

def start : ℕ := t.blanks + t.sign.length

/-- The number of digits, before and behind the point. -/
def digits : ℕ := t.intDigits + t.fracDigits

theorem digits_eq : t.digits = t.intDigits + t.fracDigits := rfl

def mantissaEnd : ℕ := t.start + t.digits + if t.point then 1 else 0

def stop : ℕ :=
  t.mantissaEnd + match t.exponent with
    | none => 0
    | some (sign, n) => 1 + sign.length + n

def digitPos (k : ℕ) : ℕ := t.start + k + if t.point ∧ t.intDigits ≤ k then 1 else 0

def leading (k : ℕ) : ℤ := radix 10 (fun k => digitAt str (t.digitPos k)) 0 k

def exponentValue : ℤ :=
  match t.exponent with
  | none => 0
  | some (sign, n) =>
    let e := digitsValue str (t.mantissaEnd + 1 + sign.length) n
    if sign.negative then -e else e

/-- The number that the literal writes, without its sign. -/
def magnitude : ℚ := t.leading str t.digits * 10 ^ (t.exponentValue str - t.fracDigits)

def IsMark (c : UInt8) : Prop := c = 101 ∨ c = 69

instance : DecidablePred IsMark := fun c => inferInstanceAs (Decidable (c = 101 ∨ c = 69))

/-- A text of the given length starts with the literal, and the literal is as long as it can be:
it is not followed by what would belong to it. -/
structure At (length : ℕ) : Prop where
  blank : ∀ i < t.blanks, str i = 32 ∨ str i = 9
  sign_at : t.sign.At str t.blanks
  digits_pos : 0 < t.digits
  digit : ∀ k < t.digits, IsDigit (str (t.digitPos k))
  point_at : if t.point then str (t.start + t.intDigits) = 46 else t.fracDigits = 0
  stop_le : t.stop ≤ length
  mantissa_stop : t.mantissaEnd < length →
    ¬ IsDigit (str t.mantissaEnd) ∧ (t.point = false → str t.mantissaEnd ≠ 46)
  exponent_at : match t.exponent with
    | some (sign, n) =>
      IsMark (str t.mantissaEnd) ∧ sign.At str (t.mantissaEnd + 1) ∧ 0 < n ∧
        DigitRun str (t.mantissaEnd + 1 + sign.length) n length
    | none =>
      ¬ ∃ sign : NumberSign, IsMark (str t.mantissaEnd) ∧ sign.At str (t.mantissaEnd + 1) ∧
        t.mantissaEnd + 1 + sign.length < length ∧
        IsDigit (str (t.mantissaEnd + 1 + sign.length))

/-! ### What the scans give -/

/-- The number of digits that are counted: the longest prefix that fits in 64 bits. -/
def accepted : ℕ := findGreatest (fun k => t.leading str k ≤ ulonglongMax) t.digits

/-- The number of digits that the accumulated number stands for. One digit more may count when
the number is too great for 64 bits by less than five. -/
def covered : ℕ := findGreatest (fun k => t.leading str k ≤ ulonglongMax + 4) t.digits

def accumulated : ℤ := min (t.leading str (t.covered str)) ulonglongMax

/-- A second point follows a literal whose digits all fit. -/
def SecondPoint (length : ℕ) : Prop :=
  t.accepted str = t.digits ∧ t.point ∧ t.mantissaEnd < length ∧ str t.mantissaEnd = 46

instance (length : ℕ) : Decidable (t.SecondPoint str length) := by
  unfold SecondPoint
  infer_instance

def roundsUp : Bool :=
  let place := 10 ^ (t.digits - t.covered str)
  decide (place ≤ 2 * (t.leading str t.digits - t.accumulated str * place))

def mantissa (length : ℕ) : Mantissa where
  str := t.mantissaEnd
  ull := t.accumulated str
  digits := toInt32 (t.accepted str)
  shift := if t.SecondPoint str length then 0 else toInt32 (t.intDigits - t.covered str)
  addon := t.roundsUp str

/-! ### Leading digits -/

section

variable {t str} {length : ℕ}

theorem leading_succ (t : NumericText) (str : ℕ → UInt8) (k : ℕ) :
    t.leading str (k + 1) = t.leading str k * 10 + digitAt str (t.digitPos k) := by
  rw [leading, radix_succ, zero_add, leading]

variable (h : t.At str length)

include h

theorem At.inRange : InRange 10 (fun k => digitAt str (t.digitPos k)) 0 t.digits :=
  fun k _ hk => (h.digit k (by omega)).digitAt_range

section

variable {k : ℕ}

theorem At.leading_nonneg (hk : k ≤ t.digits) : 0 ≤ t.leading str k :=
  (h.inRange.mono le_rfl (by omega) : InRange 10 _ 0 k).radix_nonneg

theorem At.leading_mono {k k' : ℕ} (hk : k ≤ k') (hk' : k' ≤ t.digits) :
    t.leading str k ≤ t.leading str k' := by
  induction k', hk using le_induction with
  | base => exact le_rfl
  | succ k' hk ih =>
    have hnonneg := h.leading_nonneg (show k' ≤ t.digits by omega)
    have hdigit := (h.digit k' (by omega)).digitAt_range
    rw [leading_succ]
    linarith [ih (by omega)]

theorem At.findGreatest_eq {bound : ℤ} {k : ℕ} (hk : k ≤ t.digits)
    (hle : t.leading str k ≤ bound) (hnext : k < t.digits → bound < t.leading str (k + 1)) :
    findGreatest (fun k => t.leading str k ≤ bound) t.digits = k := by
  rw [findGreatest_eq_iff]
  refine ⟨hk, fun _ => hle, fun n hlt hn => not_le.mpr ?_⟩
  exact (hnext (by omega)).trans_le (h.leading_mono hlt hn)

theorem At.accepted_eq_digits (hle : t.leading str t.digits ≤ ulonglongMax) :
    t.accepted str = t.digits ∧ t.covered str = t.digits ∧
      t.accumulated str = t.leading str t.digits := by
  have hcovered : t.covered str = t.digits :=
    h.findGreatest_eq le_rfl (by linarith) fun hlt => absurd hlt (lt_irrefl _)
  refine ⟨h.findGreatest_eq le_rfl hle fun hlt => absurd hlt (lt_irrefl _), hcovered, ?_⟩
  rw [accumulated, hcovered, min_eq_left hle]

theorem At.accepted_eq_cutoff (hk : k < t.digits) (heq : t.leading str k = cutoff)
    (hnext : ulonglongMax < t.leading str (k + 1)) :
    t.accepted str = k ∧ t.covered str = k + 1 ∧ t.accumulated str = ulonglongMax := by
  have hmax := ulonglongMax_eq
  have hcutoff := cutoff_eq
  have hdigit := (h.digit k hk).digitAt_range
  have hcovered : t.covered str = k + 1 := by
    refine h.findGreatest_eq hk ?_ fun hlt => ?_
    · rw [leading_succ]
      omega
    have hdigit' := (h.digit (k + 1) hlt).digitAt_range
    rw [leading_succ]
    omega
  refine ⟨h.findGreatest_eq hk.le (by omega) fun _ => hnext, hcovered, ?_⟩
  rw [accumulated, hcovered, min_eq_right hnext.le]

theorem At.accepted_eq_of_ne (hk : k < t.digits) (hle : t.leading str k ≤ ulonglongMax)
    (hne : t.leading str k ≠ cutoff) (hnext : ulonglongMax < t.leading str (k + 1)) :
    t.accepted str = k ∧ t.covered str = k ∧ t.accumulated str = t.leading str k := by
  have hmax := ulonglongMax_eq
  have hcutoff := cutoff_eq
  have hdigit := (h.digit k hk).digitAt_range
  have hcovered : t.covered str = k := by
    refine h.findGreatest_eq hk.le (by omega) fun _ => ?_
    rw [leading_succ] at hnext ⊢
    omega
  refine ⟨h.findGreatest_eq hk.le hle fun _ => hnext, hcovered, ?_⟩
  rw [accumulated, hcovered, min_eq_left hle]

theorem At.leading_split (hk : k ≤ t.digits) :
    ∃ tail, t.leading str t.digits = t.leading str k * 10 ^ (t.digits - k) + tail ∧
      0 ≤ tail ∧ tail < 10 ^ (t.digits - k) := by
  have hsplit := radix_add 10 (fun k => digitAt str (t.digitPos k)) 0 k (t.digits - k)
  have htail : InRange 10 (fun k => digitAt str (t.digitPos k)) (0 + k) (t.digits - k) :=
    h.inRange.mono (by omega) (by omega)
  rw [Nat.add_sub_cancel' hk] at hsplit
  exact ⟨_, hsplit, htail.radix_nonneg, htail.radix_lt⟩

theorem At.roundsUp_of_fits (hle : t.leading str t.digits ≤ ulonglongMax) :
    t.roundsUp str = false := by
  obtain ⟨-, hcovered, haccumulated⟩ := h.accepted_eq_digits hle
  rw [roundsUp, hcovered, haccumulated, tsub_self, pow_zero, mul_one, sub_self]
  decide

theorem At.roundsUp_of_eq_cutoff (hk : k < t.digits) (heq : t.leading str k = cutoff)
    (hnext : ulonglongMax < t.leading str (k + 1)) : t.roundsUp str = true := by
  obtain ⟨-, hcovered, haccumulated⟩ := h.accepted_eq_cutoff hk heq hnext
  obtain ⟨tail, hsplit, htail, -⟩ := h.leading_split (succ_le_of_lt hk)
  have hplace : (0 : ℤ) < 10 ^ (t.digits - (k + 1)) := by positivity
  rw [roundsUp, hcovered, haccumulated, decide_eq_true_eq, hsplit]
  nlinarith

theorem At.roundsUp_of_ne (hk : k < t.digits) (hle : t.leading str k ≤ ulonglongMax)
    (hne : t.leading str k ≠ cutoff) (hnext : ulonglongMax < t.leading str (k + 1)) :
    t.roundsUp str = decide (5 ≤ digitAt str (t.digitPos k)) := by
  obtain ⟨-, hcovered, haccumulated⟩ := h.accepted_eq_of_ne hk hle hne hnext
  obtain ⟨tail, hsplit, htail, htail'⟩ := h.leading_split (succ_le_of_lt hk)
  obtain ⟨n, hn⟩ : ∃ n, t.digits = k + 1 + n := Nat.exists_eq_add_of_le hk
  rw [show t.digits - k.succ = n by omega] at htail' hsplit
  rw [roundsUp, hcovered, haccumulated, hsplit, leading_succ,
    show t.digits - k = n + 1 by omega, pow_succ, decide_eq_decide]
  constructor
  · intro hup
    by_contra hlt
    nlinarith
  · intro hdigit
    nlinarith

end

/-! ### The scan of the digits -/

omit h in
theorem isDigitChar_iff (c : UInt8) : isDigitChar c = true ↔ IsDigit c := by
  have hnine := nine_lt_sub_iff c
  rw [isDigitChar, decide_eq_true_eq, ← not_not (a := IsDigit c), ← hnine, UInt8.not_lt,
    UInt8.lt_iff_toNat_lt, UInt8.le_iff_toNat_le]
  simp only [UInt8.reduceToNat]
  omega

omit h in
theorem digitPos_of_lt {k : ℕ} (hk : k < t.intDigits) : t.digitPos k = t.start + k := by
  rw [digitPos, if_neg fun hpoint => absurd hpoint.2 (not_le.mpr hk), add_zero]

omit h in
theorem digitPos_of_le (hpoint : t.point = true) {k : ℕ} (hk : t.intDigits ≤ k) :
    t.digitPos k = t.start + k + 1 := by
  rw [digitPos, if_pos ⟨hpoint, hk⟩]

theorem At.mantissaEnd_le : t.mantissaEnd ≤ length := (le_add_right _ _).trans h.stop_le

theorem At.point_char (hpoint : t.point = true) :
    str (t.start + t.intDigits) = 46 ∧ t.start + t.intDigits < length := by
  have hchar := h.point_at
  have hle := h.mantissaEnd_le
  rw [if_pos hpoint] at hchar
  rw [mantissaEnd, if_pos hpoint, digits] at hle
  exact ⟨hchar, by omega⟩

theorem At.mantissaEnd_eq (hpoint : t.point = false) :
    t.mantissaEnd = t.start + t.intDigits ∧ t.digits = t.intDigits := by
  have hfrac := h.point_at
  rw [hpoint, if_neg Bool.false_ne_true] at hfrac
  rw [mantissaEnd, hpoint, if_neg Bool.false_ne_true, digits, hfrac]
  exact ⟨rfl, rfl⟩

theorem At.int_stop (hlt : t.start + t.intDigits < length) :
    ¬ IsDigit (str (t.start + t.intDigits)) := by
  cases hpoint : t.point with
  | true =>
    rw [(h.point_char hpoint).1]
    decide
  | false =>
    rw [← (h.mantissaEnd_eq hpoint).1] at hlt ⊢
    exact (h.mantissa_stop hlt).1

theorem At.scan_int {k : ℕ} (hk : k ≤ t.intDigits) :
    scanWhile isDigitChar str (length - (t.start + k)) (t.start + k) = t.start + t.intDigits := by
  have hle := h.mantissaEnd_le
  have hdigits := t.digits_eq
  rw [mantissaEnd] at hle
  rw [scanWhile_eq (k := t.intDigits - k) (by omega)]
  · omega
  · intro i hi
    have hdigit := h.digit (k + i) (by omega)
    rw [digitPos_of_lt (by omega), ← add_assoc] at hdigit
    exact (isDigitChar_iff _).mpr hdigit
  · intro hlt
    rw [show t.start + k + (t.intDigits - k) = t.start + t.intDigits by omega,
      ← not_eq_true, isDigitChar_iff]
    exact h.int_stop (by omega)

theorem At.scan_frac (hpoint : t.point = true) {k : ℕ} (hk : t.intDigits ≤ k) (hk' : k ≤ t.digits) :
    scanWhile isDigitChar str (length - (t.start + k + 1)) (t.start + k + 1) = t.mantissaEnd := by
  have hle := h.mantissaEnd_le
  have hend : t.mantissaEnd = t.start + t.digits + 1 := by rw [mantissaEnd, if_pos hpoint]
  rw [scanWhile_eq (k := t.digits - k) (by omega)]
  · omega
  · intro i hi
    have hdigit := h.digit (k + i) (by omega)
    rw [digitPos_of_le hpoint (by omega)] at hdigit
    rw [show t.start + k + 1 + i = t.start + (k + i) + 1 by omega]
    exact (isDigitChar_iff _).mpr hdigit
  · intro hlt
    rw [show t.start + k + 1 + (t.digits - k) = t.mantissaEnd by omega, ← not_eq_true,
      isDigitChar_iff]
    exact (h.mantissa_stop (by omega)).1

theorem At.drop_eq {k : ℕ} (hk : k < t.digits) (hle : t.leading str k ≤ ulonglongMax)
    (hnext : ulonglongMax < t.leading str (k + 1)) :
    (if t.leading str k = cutoff then (ulonglongMax, true, t.digitPos k + 1)
      else (t.leading str k, decide (53 ≤ str (t.digitPos k)), t.digitPos k)) =
        (t.accumulated str, t.roundsUp str, t.digitPos k + (t.covered str - k)) ∧
      t.accepted str = k ∧ k ≤ t.covered str ∧ t.covered str ≤ k + 1 := by
  by_cases heq : t.leading str k = cutoff
  · obtain ⟨haccepted, hcovered, haccumulated⟩ := h.accepted_eq_cutoff hk heq hnext
    rw [if_pos heq, haccepted, hcovered, haccumulated, h.roundsUp_of_eq_cutoff hk heq hnext,
      add_tsub_cancel_left]
    exact ⟨rfl, rfl, by omega, le_rfl⟩
  obtain ⟨haccepted, hcovered, haccumulated⟩ := h.accepted_eq_of_ne hk hle heq hnext
  have hfive : 53 ≤ str (t.digitPos k) ↔ 5 ≤ digitAt str (t.digitPos k) := by
    rw [UInt8.le_iff_toNat_le, digitAt]
    simp only [UInt8.reduceToNat]
    omega
  rw [if_neg heq, haccepted, hcovered, haccumulated, h.roundsUp_of_ne hk hle heq hnext,
    tsub_self, add_zero, decide_eq_decide.mpr hfive]
  exact ⟨rfl, rfl, le_rfl, by omega⟩

theorem At.dropDigits_int {k : ℕ} (hk : k < t.intDigits) (hle : t.leading str k ≤ ulonglongMax)
    (hnext : ulonglongMax < t.leading str (k + 1)) :
    dropDigits str length (t.start + k) (t.leading str k) (toInt32 k) none =
      t.mantissa str length := by
  have hdigits := t.digits_eq
  obtain ⟨hdrop, haccepted, hge, hle'⟩ := h.drop_eq (by omega) hle hnext
  rw [digitPos_of_lt hk] at hdrop
  have hsecond : ¬ t.SecondPoint str length := fun hsecond => by
    have hall := hsecond.1
    omega
  have hpos : t.start + k + (t.covered str - k) = t.start + t.covered str := by omega
  rw [dropDigits, hdrop, hpos]
  dsimp only
  rw [h.scan_int (by omega), mantissa, if_neg hsecond, haccepted]
  have hshift : ((t.start + t.intDigits : ℕ) : ℤ) - (t.start + t.covered str : ℕ) =
      t.intDigits - t.covered str := by
    push_cast
    ring
  rw [hshift]
  cases hpoint : t.point with
  | true =>
    obtain ⟨hchar, hlt⟩ := h.point_char hpoint
    rw [if_pos ⟨hlt, hchar⟩, h.scan_frac hpoint le_rfl (by omega)]
  | false =>
    have hend := (h.mantissaEnd_eq hpoint).1
    rw [if_neg, hend]
    rintro ⟨hlt, hchar⟩
    rw [← hend] at hlt hchar
    exact (h.mantissa_stop hlt).2 hpoint hchar

theorem At.dropDigits_frac (hpoint : t.point = true) {k : ℕ} (hk : t.intDigits ≤ k)
    (hk' : k < t.digits) (hle : t.leading str k ≤ ulonglongMax)
    (hnext : ulonglongMax < t.leading str (k + 1)) :
    dropDigits str length (t.start + k + 1) (t.leading str k) (toInt32 k)
      (some (t.start + t.intDigits + 1)) = t.mantissa str length := by
  obtain ⟨hdrop, haccepted, hge, hle'⟩ := h.drop_eq hk' hle hnext
  rw [digitPos_of_le hpoint hk] at hdrop
  have hsecond : ¬ t.SecondPoint str length := fun hsecond => by
    have hall := hsecond.1
    omega
  have hpos : t.start + k + 1 + (t.covered str - k) = t.start + t.covered str + 1 := by omega
  rw [dropDigits, hdrop, hpos]
  dsimp only
  rw [h.scan_frac hpoint (by omega) (by omega), mantissa, if_neg hsecond, haccepted]
  have hshift : ((t.start + t.intDigits + 1 : ℕ) : ℤ) - (t.start + t.covered str + 1 : ℕ) =
      t.intDigits - t.covered str := by
    push_cast
    ring
  rw [hshift]

theorem At.mantissa_of_fits (hle : t.leading str t.digits ≤ ulonglongMax) :
    t.mantissa str length = ⟨t.mantissaEnd, t.leading str t.digits, toInt32 t.digits,
      if t.SecondPoint str length then 0 else toInt32 (t.intDigits - t.digits), false⟩ := by
  obtain ⟨haccepted, hcovered, haccumulated⟩ := h.accepted_eq_digits hle
  rw [mantissa, haccepted, hcovered, haccumulated, h.roundsUp_of_fits hle]

theorem At.digitPos_lt {k : ℕ} (hk : k < t.digits) : t.digitPos k < length := by
  have hle := h.mantissaEnd_le
  rw [mantissaEnd] at hle
  rw [digitPos]
  by_cases hpoint : t.point = true
  · rw [if_pos hpoint] at hle
    split <;> omega
  · rw [if_neg fun hp => hpoint hp.1]
    omega

omit h in
theorem sub_lt_ten_iff (c : UInt8) : c - 48 < 10 ↔ IsDigit c := by
  rw [← isDigitChar_iff, isDigitChar, decide_eq_true_eq]

theorem At.accumulate_digit {k : ℕ} (hk : k < t.digits) (dot : Option ℕ) :
    accumulate str length (length - t.digitPos k) (t.digitPos k) (t.leading str k) (toInt32 k) dot =
      if t.leading str (k + 1) ≤ ulonglongMax then
        accumulate str length (length - (t.digitPos k + 1)) (t.digitPos k + 1)
          (t.leading str (k + 1)) (toInt32 (k + 1 : ℕ)) dot
      else dropDigits str length (t.digitPos k) (t.leading str k) (toInt32 k) dot := by
  have hmax := ulonglongMax_eq
  have hcutoff := cutoff_eq
  have hcutlim : cutlim = 5 := by decide
  have hdigit := h.digit k hk
  have hrange := hdigit.digitAt_range
  have hlt := h.digitPos_lt hk
  obtain ⟨n, hn⟩ : ∃ n, length - t.digitPos k = n + 1 := ⟨_, (succ_pred (by omega)).symm⟩
  have hfits : (t.leading str k < cutoff ∨
      t.leading str k = cutoff ∧ digitAt str (t.digitPos k) ≤ cutlim) ↔
        t.leading str (k + 1) ≤ ulonglongMax := by
    rw [leading_succ]
    omega
  rw [hn, accumulate.eq_def]
  dsimp only
  rw [if_pos ((sub_lt_ten_iff _).mpr hdigit), hdigit.sub_toNat,
    show length - (t.digitPos k + 1) = n by omega, toInt32_toInt32_add, ← leading_succ,
    cast_succ]
  exact if_congr hfits rfl rfl

theorem At.accumulate_frac (hpoint : t.point = true) {k : ℕ} (hk : t.intDigits ≤ k)
    (hk' : k ≤ t.digits) (hle : t.leading str k ≤ ulonglongMax) :
    accumulate str length (length - (t.start + k + 1)) (t.start + k + 1) (t.leading str k)
      (toInt32 k) (some (t.start + t.intDigits + 1)) = t.mantissa str length := by
  induction hn : t.digits - k generalizing k with
  | zero =>
    obtain rfl : k = t.digits := by omega
    have hend : t.mantissaEnd = t.start + t.digits + 1 := by rw [mantissaEnd, if_pos hpoint]
    have hshift : dotShift (some (t.start + t.intDigits + 1)) (t.start + t.digits + 1) =
        toInt32 (t.intDigits - t.digits) := by
      rw [dotShift]
      push_cast
      exact congrArg toInt32 (by ring)
    rw [h.mantissa_of_fits hle, ← hend]
    rw [← hend] at hshift
    by_cases hlt : t.mantissaEnd < length
    · obtain ⟨m, hm⟩ : ∃ m, length - t.mantissaEnd = m + 1 := ⟨_, (succ_pred (by omega)).symm⟩
      rw [hm, accumulate, if_neg fun hd => (h.mantissa_stop hlt).1 ((sub_lt_ten_iff _).mp hd),
        hshift]
      by_cases hchar : str t.mantissaEnd = 46
      · rw [if_pos hchar, if_pos ⟨(h.accepted_eq_digits hle).1, hpoint, hlt, hchar⟩]
      · rw [if_neg hchar, if_neg fun hsecond => hchar hsecond.2.2.2]
    · rw [show length - t.mantissaEnd = 0 by omega, accumulate, hshift,
        if_neg fun hsecond => hlt hsecond.2.2.1]
  | succ n ih =>
    have hstep := h.accumulate_digit (k := k) (by omega) (some (t.start + t.intDigits + 1))
    rw [digitPos_of_le hpoint hk] at hstep
    rw [hstep]
    by_cases hfits : t.leading str (k + 1) ≤ ulonglongMax
    · rw [if_pos hfits]
      exact ih (by omega) (by omega) hfits (by omega)
    · rw [if_neg hfits]
      exact h.dropDigits_frac hpoint hk (by omega) hle (not_le.mp hfits)

/-- The loop from the digit number `k` on, before the point. -/
theorem At.accumulate_eq {k : ℕ} (hk : k ≤ t.intDigits) (hle : t.leading str k ≤ ulonglongMax) :
    accumulate str length (length - (t.start + k)) (t.start + k) (t.leading str k)
      (toInt32 k) none = t.mantissa str length := by
  have hdigits := t.digits_eq
  induction hn : t.intDigits - k generalizing k with
  | zero =>
    obtain rfl : k = t.intDigits := by omega
    cases hpoint : t.point with
    | true =>
      obtain ⟨hchar, hlt⟩ := h.point_char hpoint
      obtain ⟨m, hm⟩ : ∃ m, length - (t.start + t.intDigits) = m + 1 :=
        ⟨_, (succ_pred (by omega)).symm⟩
      rw [hm, accumulate, if_neg (by rw [hchar]; decide), if_pos hchar]
      have hfrac := h.accumulate_frac hpoint le_rfl (by omega) hle
      rw [show length - (t.start + t.intDigits + 1) = m by omega] at hfrac
      exact hfrac
    | false =>
      obtain ⟨hend, hall⟩ := h.mantissaEnd_eq hpoint
      have hsecond : ¬ t.SecondPoint str length := fun hsecond => by
        have hsome := hsecond.2.1
        rw [hpoint] at hsome
        exact false_ne_true hsome
      rw [← hall] at hle ⊢
      rw [h.mantissa_of_fits hle, if_neg hsecond, hall, ← hend, sub_self]
      by_cases hlt : t.mantissaEnd < length
      · obtain ⟨hnot, hchar⟩ := h.mantissa_stop hlt
        obtain ⟨m, hm⟩ : ∃ m, length - t.mantissaEnd = m + 1 := ⟨_, (succ_pred (by omega)).symm⟩
        rw [hm, accumulate, if_neg fun hd => hnot ((sub_lt_ten_iff _).mp hd), if_neg (hchar hpoint)]
        rfl
      · rw [show length - t.mantissaEnd = 0 by omega]
        rfl
  | succ n ih =>
    have hstep := h.accumulate_digit (k := k) (by omega) none
    rw [digitPos_of_lt (by omega)] at hstep
    rw [hstep]
    by_cases hfits : t.leading str (k + 1) ≤ ulonglongMax
    · rw [if_pos hfits]
      exact ih (by omega) hfits (by omega)
    · rw [if_neg hfits]
      exact h.dropDigits_int (by omega) hle (not_le.mp hfits)

/-! ### The exponent -/

omit h in
theorem scanExponent_eq_scanDigits (n s : ℕ) (v : ℤ) :
    scanExponent str n s (toInt32 v) =
      ((scanDigits str n s v).1, toInt32 (scanDigits str n s v).2) := by
  induction n generalizing s v with
  | zero => rfl
  | succ n ih =>
    rw [scanExponent, scanDigits]
    by_cases hdigit : IsDigit (str s)
    · rw [if_pos ((sub_lt_ten_iff _).mpr hdigit),
        if_neg fun hlt => (nine_lt_sub_iff _).mp hlt hdigit, ← ih, ← toInt32_toInt32_add,
        toInt32_toInt32_mul, toInt32_toInt32_add]
    · rw [if_neg fun hd => hdigit ((sub_lt_ten_iff _).mp hd),
        if_pos ((nine_lt_sub_iff _).mpr hdigit)]

omit h in
theorem scanExponent_eq {n s k : ℕ} (hk : k ≤ n) (hdigits : DigitChars str s k)
    (hstop : k < n → ¬ IsDigit (str (s + k))) (v : ℤ) :
    scanExponent str n s (toInt32 v) = (s + k, toInt32 (v * 10 ^ k + digitsValue str s k)) := by
  rw [scanExponent_eq_scanDigits, scanDigits_eq hk hdigits hstop]

theorem At.readExponent_of_some {sign : NumberSign} {n : ℕ} (hexp : t.exponent = some (sign, n))
    {m : Mantissa} (hm : m.str = t.mantissaEnd) :
    readExponent str length m = (t.stop, some (toInt32 (m.shift + t.exponentValue str))) := by
  have hat := h.exponent_at
  rw [hexp] at hat
  obtain ⟨hmark, hsign, hn, hrun⟩ := hat
  have hstop : t.stop = t.mantissaEnd + 1 + sign.length + n := by
    rw [stop, hexp]
    dsimp only
    omega
  have hle := hrun.le_fin
  have hscan := scanExponent_eq (n := length - (t.mantissaEnd + 1 + sign.length)) (by omega)
    hrun.digits (fun hlt => hrun.stop (by omega)) 0
  rw [show toInt32 0 = 0 from rfl, zero_mul, zero_add, ← hstop] at hscan
  have hdigit := hrun.digits _ le_rfl (Nat.lt_add_of_pos_right hn)
  rw [readExponent, hm, if_pos ⟨by omega, hmark⟩, exponentValue, hexp]
  rw [if_pos (by omega)]
  cases sign with
  | none =>
    have hne : ∀ c : UInt8, IsDigit c → ¬ (c = 45 ∨ c = 43) ∧ (c == 45) = false := by
      intro c hc
      refine ⟨?_, beq_eq_false_iff_ne.mpr ?_⟩
      · rintro (rfl | rfl) <;> exact absurd hc (by decide)
      · rintro rfl
        exact absurd hc (by decide)
    have hfirst : ¬ (str (t.mantissaEnd + 1) = 45 ∨ str (t.mantissaEnd + 1) = 43) ∧
        (str (t.mantissaEnd + 1) == 45) = false := hne _ hdigit
    change scanExponent str (length - (t.mantissaEnd + 1)) (t.mantissaEnd + 1) 0 = _ at hscan
    rw [if_neg hfirst.1, hscan, hfirst.2]
    dsimp only
    rw [if_neg Bool.false_ne_true, toInt32_add_toInt32]
    rfl
  | plus =>
    have hplus : str (t.mantissaEnd + 1) = 43 := hsign
    change scanExponent str (length - (t.mantissaEnd + 1 + 1)) (t.mantissaEnd + 1 + 1) 0 = _
      at hscan
    have hlt : ¬ t.mantissaEnd + 1 + 1 = length := by
      change t.mantissaEnd + 1 + 1 + n ≤ length at hle
      omega
    rw [if_pos (.inr hplus), if_neg hlt, hscan, hplus]
    dsimp only
    rw [if_neg (by decide), toInt32_add_toInt32]
    rfl
  | minus =>
    have hminus : str (t.mantissaEnd + 1) = 45 := hsign
    change scanExponent str (length - (t.mantissaEnd + 1 + 1)) (t.mantissaEnd + 1 + 1) 0 = _
      at hscan
    have hlt : ¬ t.mantissaEnd + 1 + 1 = length := by
      change t.mantissaEnd + 1 + 1 + n ≤ length at hle
      omega
    rw [if_pos (.inl hminus), if_neg hlt, hscan, hminus]
    dsimp only
    rw [if_pos (by decide), toInt32_neg_toInt32, toInt32_add_toInt32]
    rfl

omit h in
theorem readExponent_of_not_mark {m : Mantissa} (hm : m.str = t.mantissaEnd)
    (hmark : ¬ (t.mantissaEnd < length ∧ IsMark (str t.mantissaEnd))) :
    readExponent str length m = (t.mantissaEnd, some m.shift) := by
  rw [readExponent, hm]
  exact if_neg hmark

omit h in
theorem mantissaEnd_lt_readExponent {m : Mantissa} (hm : m.str = t.mantissaEnd)
    (hmark : t.mantissaEnd < length ∧ IsMark (str t.mantissaEnd)) :
    t.mantissaEnd < (readExponent str length m).1 := by
  have hscan : ∀ n s v, s ≤ (scanExponent str n s v).1 := by
    intro n
    induction n with
    | zero => exact fun s v => le_rfl
    | succ n ih =>
      intro s v
      rw [scanExponent]
      split
      · exact (le_succ s).trans (ih _ _)
      · exact le_rfl
  rw [IsMark] at hmark
  rw [readExponent, hm, if_pos hmark]
  dsimp only
  split
  · split
    · split
      · exact (lt_add_one _).trans (lt_add_one _)
      · exact (lt_of_succ_lt (lt_add_one _)).trans_le (hscan _ (t.mantissaEnd + 1 + 1) 0)
    · exact (lt_add_one _).trans_le (hscan _ (t.mantissaEnd + 1) 0)
  · exact lt_add_one _

end

end NumericText

end LibSources
