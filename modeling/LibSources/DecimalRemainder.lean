import LibSources.DecimalProduct
import LibSources.DecimalQuotient

/-!
# The Remainder of Two Decimals

The main loop of `do_div_mod` leaves the remainder in the work area, from where `decimal_mod`
copies it. The place of the point is `ROUND_UP(prec1 - frac1)`. For a negative number of digits
the macro rounds towards zero, and then the place is one word too far to the right, unless the
first word of the dividend has one digit.

## Main results

* `decimalMod_contract_iff`: the remainders that are right.
-/

namespace LibSources

open Decimal Function

variable {v : Divisor} {s : DivState} {frac0 : ℕ} {tmp1 : ℕ → ℤ} {q : ℤ} {x : ℚ}
  {r : DecimalError × Decimal}

/-- The loop takes a multiple of the divisor away, and does not touch the words that no window
has reached. -/
theorem divLoop_remainder (hv : v.Valid) (h : s.Reduced v) (divMod : Bool) (k : ℕ) :
    (divLoop v divMod k s).Reduced v ∧ (divLoop v divMod k s).start1 = s.start1 + k ∧
      (∀ i, s.start1 + v.len2 + k ≤ i → (divLoop v divMod k s).tmp1 i = s.tmp1 i) ∧
      ∃ q, s.remainder v * digBase ^ k + radix digBase s.tmp1 (s.start1 + v.len2) k =
        q * v.value + (divLoop v divMod k s).remainder v := by
  induction k generalizing s with
  | zero =>
    refine ⟨h, rfl, fun _ _ => rfl, 0, ?_⟩
    rw [pow_zero, mul_one, radix_zero, add_zero, zero_mul, zero_add]
    rfl
  | succ k ih =>
    obtain ⟨hnext, hdiv, -, hwords⟩ := h.next hv divMod
    obtain ⟨hreduced, hstart, houtside, q, hq⟩ := ih hnext
    have hstart1 : (s.next v divMod).start1 = s.start1 + 1 := rfl
    rw [hstart1] at hstart houtside hq
    rw [divLoop]
    refine ⟨hreduced, by omega, fun i hi => ?_,
      (divStep v s.tmp1 s.start1 s.dcarry).1 * digBase ^ k + q, ?_⟩
    · rw [houtside i (by omega), hwords i (by omega)]
    have hcongr : radix digBase (s.next v divMod).tmp1 (s.start1 + 1 + v.len2) k =
        radix digBase s.tmp1 (s.start1 + v.len2 + 1) k := by
      rw [Nat.add_right_comm]
      exact radix_congr fun i hi _ => hwords i (by omega)
    rw [hcongr] at hq
    rw [radix_succ_left, pow_succ]
    linear_combination hq - digBase ^ k * hdiv

/-- The work area when the last carry is a word of it again, and the position of its first
word. -/
def DivState.putBack (s : DivState) : (ℕ → ℤ) × ℕ :=
  if s.dcarry ≠ 0 then (update s.tmp1 (s.start1 - 1) s.dcarry, s.start1 - 1)
  else (s.tmp1, s.start1)

theorem DivState.Reduced.putBack (hv : v.Valid) (h : s.Reduced v)
    (hstart : s.dcarry ≠ 0 → 1 ≤ s.start1) :
    Digits s.putBack.1 ∧ s.putBack.2 ≤ s.start1 ∧ s.start1 ≤ s.putBack.2 + 1 ∧
      (∀ i, s.start1 ≤ i → s.putBack.1 i = s.tmp1 i) ∧
      ∀ n, s.remainder v * digBase ^ n + radix digBase s.tmp1 (s.start1 + v.len2) n =
        radix digBase s.putBack.1 s.putBack.2 (s.start1 - s.putBack.2 + v.len2 + n) := by
  have htail : ∀ n, s.remainder v * digBase ^ n + radix digBase s.tmp1 (s.start1 + v.len2) n =
      s.dcarry * digBase ^ (v.len2 + n) + radix digBase s.tmp1 s.start1 (v.len2 + n) := fun n => by
    rw [DivState.remainder, radix_add, pow_add]
    ring
  rw [DivState.putBack]
  by_cases hcarry : s.dcarry = 0
  · rw [if_neg (not_not.mpr hcarry)]
    refine ⟨h.digits, le_rfl, Nat.le_succ _, fun _ _ => rfl, fun n => ?_⟩
    rw [htail, hcarry, zero_mul, zero_add, tsub_self, zero_add]
  have hpos := hstart hcarry
  have hlt : s.dcarry < digBase := by
    have hrest := (h.digits.inRange s.start1 v.len2).radix_nonneg
    have hvalue : s.remainder v < digBase ^ (v.len2 + 1) := h.remainder_lt.trans hv.range.radix_lt
    rw [DivState.remainder, pow_succ, mul_comm (digBase ^ v.len2)] at hvalue
    exact lt_of_mul_lt_mul_right (by omega) (pow_pos digBase_pos v.len2).le
  rw [if_pos hcarry]
  refine ⟨h.digits.update ⟨h.dcarry_nonneg, hlt⟩, Nat.sub_le _ _, by dsimp only; omega,
    fun i hi => update_of_ne (by omega) _ _, fun n => ?_⟩
  have hone : s.start1 - (s.start1 - 1) = 1 := by omega
  have hsucc : s.start1 - 1 + 1 = s.start1 := by omega
  dsimp only
  rw [htail, hone, add_assoc, add_comm 1, radix_succ_left, update_self, hsucc,
    radix_update (.inl (by omega))]

namespace DivOperands

variable {ops : DivOperands}

/-! ### The work area after the loop -/

/-- The `len` words of the work area from `start1` on are the remainder, with `frac0` of them
behind the point. -/
structure Leaves (ops : DivOperands) (frac0 : ℕ) (tmp1 : ℕ → ℤ) (start1 len : ℕ) : Prop where
  digits : Digits tmp1
  len_eq : (len : ℤ) = (roundUp ops.prec1 : ℤ) - roundUp ops.from1.frac - start1 + frac0
  zeros : ∀ i, start1 + len ≤ i → tmp1 i = 0
  intg_le : (roundUp ops.prec1 : ℤ) - roundUp ops.from1.frac - start1 ≤ roundUp ops.from2.intg
  lt : radix digBase tmp1 start1 len < ops.from2.shifted frac0
  multiple : ∃ q, ops.from1.shifted frac0 =
    q * ops.from2.shifted frac0 + radix digBase tmp1 start1 len

theorem Valid.start_eq (h : ops.Valid) (buf : ℕ → ℤ) (buf0 : ℕ) :
    (ops.start buf buf0).tmp1 = ops.tmp1 ∧ (ops.start buf buf0).start1 = ops.firstWords ∧
      (ops.start buf buf0).putBack = (ops.tmp1, 0) := by
  have hround := h.leading1.roundUp_prec
  have hpos := h.leading1.lt_words
  have hfirst : ops.tmp1 0 = ops.from1.buf ops.buf1 := if_pos (by omega)
  have hword : ops.divisor.words 0 = ops.from2.buf ops.buf2 := rfl
  have hone := h.leading1.one_le
  rw [start, firstWords, hfirst, hword]
  by_cases hless : ops.from1.buf ops.buf1 < ops.from2.buf ops.buf2
  · rw [if_pos hless, if_neg (not_le.mpr hless), DivState.putBack, if_pos (by dsimp only; omega)]
    refine ⟨rfl, rfl, ?_⟩
    rw [← hfirst]
    exact Prod.ext (update_eq_self 0 ops.tmp1) rfl
  · rw [if_neg hless, if_pos (not_lt.mp hless)]
    exact ⟨rfl, rfl, rfl⟩

theorem Valid.tmp1_shifted (h : ops.Valid) (h1 : roundUp ops.from1.frac ≤ frac0) :
    radix digBase ops.tmp1 0 (roundUp ops.prec1 + (frac0 - roundUp ops.from1.frac)) =
      ops.from1.shifted frac0 := by
  rw [h.tmp1_value, shifted_of_le h1]

/-- A quotient without integer digits: the dividend is the remainder. -/
theorem Valid.shifted_lt (h : ops.Valid) (hintg0 : ops.intg0 = 0)
    (h1 : roundUp ops.from1.frac ≤ frac0) (h2 : roundUp ops.from2.frac ≤ frac0) :
    ops.from1.shifted frac0 < ops.from2.shifted frac0 := by
  have hpos := h.divisor_radix_pos
  have hquotient := h.quotient_words (fun _ => 0) 0
  rw [hintg0, add_zero, radix_zero, add_zero] at hquotient
  have hden : 0 < radix digBase ops.from2.buf 0 ops.from2.words *
      digBase ^ roundUp ops.from1.frac := mul_pos hpos (pow_pos digBase_pos _)
  have hlt := Int.lt_ediv_add_one_mul_self (radix digBase ops.from1.buf 0 ops.from1.words *
    digBase ^ roundUp ops.from2.frac) hden
  rw [← hquotient, zero_add, one_mul] at hlt
  rw [shifted_of_le h1, shifted_of_le h2]
  obtain ⟨x, hx⟩ := Nat.exists_eq_add_of_le h1
  obtain ⟨y, hy⟩ := Nat.exists_eq_add_of_le h2
  refine lt_of_mul_lt_mul_right ?_
    (pow_pos digBase_pos (roundUp ops.from1.frac + roundUp ops.from2.frac)).le
  have hx' : frac0 - roundUp ops.from1.frac = x := by omega
  have hy' : frac0 - roundUp ops.from2.frac = y := by omega
  calc radix digBase ops.from1.buf 0 ops.from1.words * digBase ^ (frac0 - roundUp ops.from1.frac) *
        digBase ^ (roundUp ops.from1.frac + roundUp ops.from2.frac)
      = radix digBase ops.from1.buf 0 ops.from1.words * digBase ^ roundUp ops.from2.frac *
          digBase ^ frac0 := by rw [hx', hx]; ring
    _ < radix digBase ops.from2.buf 0 ops.from2.words * digBase ^ roundUp ops.from1.frac *
          digBase ^ frac0 := mul_lt_mul_of_pos_right hlt (pow_pos digBase_pos _)
    _ = _ := by rw [hy', hy]; ring

theorem Valid.leaves (h : ops.Valid) (buf : ℕ → ℤ) (h1 : roundUp ops.from1.frac ≤ frac0)
    (h2 : roundUp ops.from2.frac ≤ frac0) :
    let s := divLoop ops.divisor false ops.intg0 (ops.start buf 0)
    ∃ len, ops.Leaves frac0 s.putBack.1 s.putBack.2 len := by
  have hvalid := h.divisor_valid
  obtain ⟨hplace, hzero⟩ := h.place
  have hround2 := h.leading2.roundUp_prec
  have hwords2 : ops.from2.words = roundUp ops.from2.intg + roundUp ops.from2.frac := rfl
  have hfirst := ops.firstWords_eq
  have hone : ops.firstWords ≤ 1 := by
    rw [firstWords]
    split <;> omega
  obtain ⟨htmp1, hstart1, hputBack⟩ := h.start_eq buf 0
  obtain ⟨hreduced, htotal, -, -⟩ := h.start_spec buf 0
  dsimp only
  rcases eq_zero_or_pos ops.intg0 with hintg0 | hintg0
  · -- no rounds
    have hlen := h.tmp1_shifted h1
    rw [hintg0, divLoop, hputBack]
    refine ⟨roundUp ops.prec1 + (frac0 - roundUp ops.from1.frac), h.tmp1_digits, ?_,
      fun i hi => if_neg (by omega), ?_, ?_, 0, ?_⟩
    · omega
    · omega
    · rw [hlen]
      exact h.shifted_lt hintg0 h1 h2
    · rw [hlen, zero_mul, zero_add]
  obtain ⟨hreduced', hstart, houtside, q, hq⟩ := divLoop_remainder hvalid hreduced false ops.intg0
  obtain ⟨t, ht, hdivisor⟩ := h.divisor_value
  have hzeroWords : ops.zeroWords = 0 := by omega
  rw [hstart1] at hstart houtside hq
  rw [htmp1] at houtside hq
  generalize divLoop ops.divisor false ops.intg0 (ops.start buf 0) = s
    at hreduced' hstart houtside hq ⊢
  obtain ⟨hdigits, hle, hge, hkeep, hputBack⟩ := hreduced'.putBack hvalid fun _ => by omega
  -- the number of words behind the window
  obtain ⟨n, hn⟩ : ∃ n, n = t + (frac0 - roundUp ops.from2.frac) := ⟨_, rfl⟩
  have hplaces : roundUp ops.prec1 + (frac0 - roundUp ops.from1.frac) =
      ops.firstWords + ops.divisor.len2 + (ops.intg0 + n) := by omega
  have hdivisor' : ops.from2.shifted frac0 = ops.divisor.value * digBase ^ n := by
    rw [shifted_of_le h2, hdivisor, mul_assoc, ← pow_add, hn]
  have hdividend : ops.from1.shifted frac0 =
      q * ops.from2.shifted frac0 + (s.remainder ops.divisor * digBase ^ n +
        radix digBase s.tmp1 (s.start1 + ops.divisor.len2) n) := by
    have htotal' := htotal (ops.intg0 + n)
    rw [hstart1, htmp1, radix_add] at htotal'
    have hcongr : radix digBase s.tmp1 (s.start1 + ops.divisor.len2) n =
        radix digBase ops.tmp1 (ops.firstWords + ops.divisor.len2 + ops.intg0) n := by
      rw [hstart, Nat.add_right_comm]
      exact radix_congr fun i hi _ => houtside i (by omega)
    rw [← h.tmp1_shifted h1, hplaces, ← htotal', hcongr, hdivisor', pow_add]
    linear_combination digBase ^ n * hq
  rw [hputBack n] at hdividend
  refine ⟨s.start1 - s.putBack.2 + ops.divisor.len2 + n, hdigits, ?_, fun i hi => ?_, ?_, ?_,
    q, hdividend⟩
  · omega
  · rw [hkeep i (by omega), houtside i (by omega)]
    exact if_neg (by omega)
  · omega
  have hlow := (hreduced'.digits.inRange (s.start1 + ops.divisor.len2) n).radix_lt
  have hlt := hreduced'.remainder_lt
  have hpow : 0 < digBase ^ n := pow_pos digBase_pos n
  rw [← hputBack n, hdivisor']
  exact mul_add_lt_mul hlt hlow hpow.le

/-! ### The place of the point -/

/-- `ROUND_UP(prec1 - frac1)` is one too large: the first word of the dividend is behind the first
word of the fraction, and has more than one digit. -/
def Misplaced (ops : DivOperands) : Prop :=
  roundUp ops.prec1 < roundUp ops.from1.frac ∧ 10 ≤ ops.from1.buf ops.buf1

instance (ops : DivOperands) : Decidable ops.Misplaced := inferInstanceAs (Decidable (_ ∧ _))

theorem Valid.point_eq (h : ops.Valid) :
    ((ops.prec1 : ℤ) - ops.frac1 + 9 - 1).tdiv 9 =
      (roundUp ops.prec1 : ℤ) - roundUp ops.from1.frac + (if ops.Misplaced then 1 else 0) := by
  obtain ⟨k, hk, hk', hprec, hle, hlt⟩ := h.leading1.digits
  have hround := h.leading1.roundUp_prec
  have hpos := h.leading1.lt_words
  have hfrac1 : ops.frac1 = roundUp ops.from1.frac * 9 := rfl
  -- the number of digits of the first word
  have hdigits : 10 ≤ ops.from1.buf ops.buf1 ↔ 1 < k := by
    refine ⟨fun hten => ?_, fun hone => le_trans ?_ hle⟩
    · by_contra hone
      obtain rfl : k = 1 := by omega
      exact absurd hlt (not_lt.mpr hten)
    · exact le_self_pow₀ (by norm_num) (by omega)
  set e := (roundUp ops.prec1 : ℤ) - roundUp ops.from1.frac with he
  have hnum : (ops.prec1 : ℤ) - ops.frac1 + 9 - 1 = 9 * e + (k - 1) := by
    push_cast [hfrac1]
    omega
  have hmisplaced : ops.Misplaced ↔ roundUp ops.prec1 < roundUp ops.from1.frac ∧ 1 < k := by
    rw [Misplaced, hdigits]
  rw [hnum]
  simp only [hmisplaced]
  by_cases hneg : roundUp ops.prec1 < roundUp ops.from1.frac
  · have htdiv : (9 * e + ((k : ℤ) - 1)).tdiv 9 = -((-(9 * e + ((k : ℤ) - 1))) / 9) := by
      rw [← Int.tdiv_eq_ediv_of_nonneg (by omega), Int.neg_tdiv, neg_neg]
    rw [htdiv]
    split <;> omega
  · rw [Int.tdiv_eq_ediv_of_nonneg (by omega), if_neg fun hmis => hneg hmis.1]
    omega

theorem Valid.magnitude_bounds (h : ops.Valid) :
    ops.from1.magnitude * (digBase : ℚ) ^ roundUp ops.from1.frac =
        radix digBase ops.tmp1 0 (roundUp ops.prec1) ∧
      ops.from1.buf ops.buf1 * digBase ^ (roundUp ops.prec1 - 1) ≤
        radix digBase ops.tmp1 0 (roundUp ops.prec1) ∧
      radix digBase ops.tmp1 0 (roundUp ops.prec1) <
        (ops.from1.buf ops.buf1 + 1) * digBase ^ (roundUp ops.prec1 - 1) := by
  have hround := h.leading1.roundUp_prec
  have hpos := h.leading1.lt_words
  have hfirst : ops.tmp1 0 = ops.from1.buf ops.buf1 := if_pos (by omega)
  have hbase := digBase_cast_pos.ne'
  obtain ⟨n, hn⟩ : ∃ n, roundUp ops.prec1 = n + 1 := ⟨roundUp ops.prec1 - 1, by omega⟩
  refine ⟨?_, ?_, ?_⟩
  · rw [magnitude, div_mul_cancel₀ _ (pow_ne_zero _ hbase),
      h.leading1.radix_eq (m := ops.tmp1) fun i hi => if_pos hi]
  · rw [hn, radix_succ_left, hfirst, Nat.add_sub_cancel]
    exact le_add_of_nonneg_right (h.tmp1_digits.inRange _ n).radix_nonneg
  · rw [hn, ← hfirst, Nat.add_sub_cancel]
    exact (h.tmp1_digits.inRange 0 (n + 1)).radix_lt_first

/-- The point is misplaced for a dividend below `10 ^ -9` that does not start with the last digit
of a word. -/
theorem Valid.misplaced_iff (h : ops.Valid) :
    ops.Misplaced ↔ ¬ (1 / (digBase : ℚ) ≤ ops.from1.magnitude ∨
      ∃ j : ℕ, 1 ≤ ops.from1.magnitude * (digBase : ℚ) ^ j ∧
        ops.from1.magnitude * (digBase : ℚ) ^ j < 10) := by
  have hround := h.leading1.roundUp_prec
  have hpos := h.leading1.lt_words
  have hone := h.leading1.one_le
  obtain ⟨hvalue, hle, hlt⟩ := h.magnitude_bounds
  obtain ⟨n, hn⟩ : ∃ n, roundUp ops.prec1 = n + 1 := ⟨roundUp ops.prec1 - 1, by omega⟩
  have hltPow : radix digBase ops.tmp1 0 (n + 1) < digBase ^ (n + 1) :=
    (h.tmp1_digits.inRange 0 (n + 1)).radix_lt
  rw [hn, Nat.add_sub_cancel] at hle hlt
  rw [hn] at hvalue
  set F := roundUp ops.from1.frac with hF
  set M := radix digBase ops.tmp1 0 (n + 1) with hM
  have hbase := digBase_cast_pos
  have hB : (1 : ℤ) ≤ digBase := by decide
  have hpowF : (0 : ℚ) < (digBase : ℚ) ^ F := pow_pos hbase F
  -- powers of the base times the dividend, as integers
  have hscaled : ∀ (j : ℕ) (c : ℤ),
      ((c : ℚ) ≤ ops.from1.magnitude * (digBase : ℚ) ^ j ↔ c * digBase ^ F ≤ M * digBase ^ j) := by
    intro j c
    rw [← mul_le_mul_iff_left₀ hpowF, mul_right_comm, hvalue]
    exact_mod_cast Iff.rfl
  have hinv : 1 / (digBase : ℚ) ≤ ops.from1.magnitude ↔ digBase ^ F ≤ M * digBase := by
    have := hscaled 1 1
    rw [Int.cast_one, pow_one, one_mul, pow_one] at this
    rw [div_le_iff₀ hbase, this]
  have hcast : ∀ j : ℕ, (1 ≤ ops.from1.magnitude * (digBase : ℚ) ^ j ∧
      ops.from1.magnitude * (digBase : ℚ) ^ j < 10) ↔
      digBase ^ F ≤ M * digBase ^ j ∧ M * digBase ^ j < 10 * digBase ^ F := by
    intro j
    have h1 := hscaled j 1
    have h10 := hscaled j 10
    rw [Int.cast_one, one_mul] at h1
    rw [Int.cast_ofNat] at h10
    rw [h1, ← not_le, h10, not_le]
  rw [hinv, Misplaced, hn]
  simp only [hcast]
  constructor
  · rintro ⟨hbehind, hten⟩ (hlarge | ⟨j, hj, hj'⟩)
    · have : M * digBase < digBase ^ F :=
        calc M * digBase < digBase ^ (n + 1) * digBase := mul_lt_mul_of_pos_right hltPow digBase_pos
          _ = digBase ^ (n + 2) := (pow_succ _ _).symm
          _ ≤ digBase ^ F := pow_le_pow_right₀ hB hbehind
      omega
    rcases Nat.lt_or_ge F (n + 1 + j) with hplace | hplace
    · have : 10 * digBase ^ F ≤ M * digBase ^ j :=
        calc 10 * digBase ^ F ≤ 10 * digBase ^ (n + j) :=
              mul_le_mul_of_nonneg_left (pow_le_pow_right₀ hB (by omega)) (by norm_num)
          _ ≤ ops.from1.buf ops.buf1 * digBase ^ (n + j) :=
              mul_le_mul_of_nonneg_right hten (pow_pos digBase_pos _).le
          _ = ops.from1.buf ops.buf1 * digBase ^ n * digBase ^ j := by rw [pow_add, mul_assoc]
          _ ≤ M * digBase ^ j := mul_le_mul_of_nonneg_right hle (pow_pos digBase_pos _).le
      omega
    · have : M * digBase ^ j < digBase ^ F :=
        calc M * digBase ^ j < digBase ^ (n + 1) * digBase ^ j :=
              mul_lt_mul_of_pos_right hltPow (pow_pos digBase_pos _)
          _ = digBase ^ (n + 1 + j) := (pow_add _ _ _).symm
          _ ≤ digBase ^ F := pow_le_pow_right₀ hB hplace
      omega
  · intro hnot
    have hleM : digBase ^ n ≤ M := le_trans (le_mul_of_one_le_left (pow_pos digBase_pos n).le hone) hle
    have hbehind : n + 1 < F := by
      by_contra hge
      refine hnot (.inl ?_)
      calc digBase ^ F ≤ digBase ^ (n + 1) := pow_le_pow_right₀ hB (by omega)
        _ = digBase ^ n * digBase := pow_succ _ _
        _ ≤ M * digBase := mul_le_mul_of_nonneg_right hleM digBase_pos.le
    refine ⟨hbehind, ?_⟩
    by_contra hten
    have hplace : n + (F - n) = F := by omega
    refine hnot (.inr ⟨F - n, ?_, ?_⟩)
    · calc digBase ^ F = digBase ^ n * digBase ^ (F - n) := by rw [← pow_add, hplace]
        _ ≤ M * digBase ^ (F - n) := mul_le_mul_of_nonneg_right hleM (pow_pos digBase_pos _).le
    calc M * digBase ^ (F - n) < (ops.from1.buf ops.buf1 + 1) * digBase ^ n * digBase ^ (F - n) :=
          mul_lt_mul_of_pos_right hlt (pow_pos digBase_pos _)
      _ = (ops.from1.buf ops.buf1 + 1) * digBase ^ F := by rw [mul_assoc, ← pow_add, hplace]
      _ ≤ 10 * digBase ^ F := mul_le_mul_of_nonneg_right (by omega) (pow_pos digBase_pos _).le

end DivOperands

/-! ### The stored remainder -/

theorem copyWords_eq (tmp1 : ℕ → ℤ) (start1 : ℕ) (buf : ℕ → ℤ) (buf0 k i : ℕ) :
    copyWords tmp1 start1 buf buf0 k i =
      if buf0 ≤ i ∧ i < buf0 + k then tmp1 (start1 + (i - buf0)) else buf i := by
  induction k generalizing start1 buf buf0 with
  | zero => rw [copyWords, if_neg (by omega)]
  | succ k ih =>
    rw [copyWords, ih]
    rcases lt_trichotomy i buf0 with hlt | rfl | hgt
    · rw [if_neg (by omega), if_neg (by omega), update_of_ne (by omega)]
    · rw [if_neg (by omega), if_pos (by omega), update_self, tsub_self, add_zero]
    rw [update_of_ne (by omega)]
    by_cases hle : i < buf0 + (k + 1)
    · rw [if_pos (by omega), if_pos (by omega)]
      congr 1
      omega
    · rw [if_neg (by omega), if_neg (by omega)]

theorem copyWords_spec (ht : Digits tmp1) (start1 : ℕ) (buf : ℕ → ℤ) (zeros : ℕ) {k n : ℕ}
    (hn : n ≤ k) :
    InRange digBase (copyWords tmp1 start1 (storeZeros buf 0 zeros) zeros k) 0 (zeros + n) ∧
      radix digBase (copyWords tmp1 start1 (storeZeros buf 0 zeros) zeros k) 0 (zeros + n) =
        radix digBase tmp1 start1 n := by
  have hzeros : ∀ i < zeros,
      copyWords tmp1 start1 (storeZeros buf 0 zeros) zeros k i = 0 := fun i hi => by
    rw [copyWords_eq, if_neg (by omega), storeZeros_eq _ _ _ ⟨Nat.zero_le i, by omega⟩]
  have hwords : ∀ i < n, copyWords tmp1 start1 (storeZeros buf 0 zeros) zeros k (zeros + i) =
      tmp1 (start1 + i) := fun i hi => by
    rw [copyWords_eq, if_pos (by omega), add_tsub_cancel_left]
  constructor
  · intro i _ hi
    rcases Nat.lt_or_ge i zeros with hlt | hge
    · rw [hzeros i hlt]
      exact ⟨le_rfl, digBase_pos⟩
    have := hwords (i - zeros) (by omega)
    rw [Nat.add_sub_cancel' hge] at this
    rw [this]
    exact ht _
  · rw [radix_skip_zeros fun i _ hi => hzeros i (by omega)]
    exact radix_shift_congr fun i hi => by rw [zero_add, hwords i hi]

namespace DivOperands

variable {ops : DivOperands}

theorem remainder_cases (ops : DivOperands) (dst : Decimal) {start1 : ℕ} {intg0 : ℤ}
    (hfrac0 : frac0 = roundUp (max ops.from1.frac ops.from2.frac))
    (htmp1 : (divLoop ops.divisor false ops.intg0 (ops.start dst.buf 0)).putBack = (tmp1, start1))
    (hintg0 : intg0 = ((ops.prec1 : ℤ) - ops.frac1 + 9 - 1).tdiv 9 - start1)
    (hroom : intg0 + frac0 < dst.len ∧ -intg0 < dst.len) :
    let dst' := { dst with sign := ops.from1.sign, frac := max ops.from1.frac ops.from2.frac }
    (frac0 = 0 ∧ intg0 = 0 ∧ ops.remainder dst = (.ok, dst'.makeZero)) ∨
      (intg0 ≤ 0 ∧ ops.remainder dst = (.ok, { dst' with
        intg := 0,
        buf := copyWords tmp1 start1 (storeZeros dst.buf 0 (-intg0).toNat) (-intg0).toNat
          frac0 })) ∨
      (0 < intg0 ∧ ops.remainder dst = (.ok, { dst' with
        intg := min (intg0.toNat * 9) ops.from2.intg,
        buf := copyWords tmp1 start1 dst.buf 0 (intg0 + frac0).toNat })) := by
  simp only [remainder, ← DivState.putBack.eq_def, ← hfrac0, htmp1, ← hintg0, Nat.cast_eq_zero,
    Int.toNat_natCast]
  by_cases hnone : frac0 = 0 ∧ intg0 = 0
  · rw [if_pos hnone]
    exact .inl ⟨hnone.1, hnone.2, rfl⟩
  rw [if_neg hnone]
  by_cases hle : intg0 ≤ 0
  · rw [if_pos hle, if_neg (by omega), if_neg (by omega)]
    exact .inr (.inl ⟨hle, rfl⟩)
  · rw [if_neg hle, if_neg (by omega), if_neg (by omega)]
    exact .inr (.inr ⟨by omega, rfl⟩)

theorem Valid.dvd_rest (h : ops.Valid) {rest : ℤ} {frac : ℕ}
    (hfrac : frac = max ops.from1.frac ops.from2.frac) (hfrac0 : frac0 = roundUp frac)
    (hq : ops.from1.shifted frac0 = q * ops.from2.shifted frac0 + rest) :
    (10 : ℤ) ^ (frac0 * 9 - frac) ∣ rest := by
  have hmax : frac0 = max (roundUp ops.from1.frac) (roundUp ops.from2.frac) := by
    rw [hfrac0, hfrac, roundUp_max]
  have hdvd1 : (10 : ℤ) ^ (frac0 * 9 - frac) ∣ ops.from1.shifted frac0 :=
    h.wellFormed1.dvd_shifted (by omega) (by omega)
  have hdvd2 : (10 : ℤ) ^ (frac0 * 9 - frac) ∣ ops.from2.shifted frac0 :=
    h.wellFormed2.dvd_shifted (by omega) (by omega)
  rw [hq] at hdvd1
  exact (dvd_add_right (hdvd2.mul_left q)).mp hdvd1

theorem Valid.shifted_lt_pow (h : ops.Valid) (h2 : roundUp ops.from2.frac ≤ frac0) :
    ops.from2.shifted frac0 < 10 ^ ops.from2.intg * digBase ^ frac0 := by
  have hlt := mul_lt_mul_of_pos_right h.wellFormed2.radix_lt_pow
    (pow_pos digBase_pos (frac0 - roundUp ops.from2.frac))
  rwa [mul_assoc, ← pow_add, Nat.add_sub_cancel' h2, ← shifted_of_le h2] at hlt

theorem Valid.remainder_spec (h : ops.Valid) (dst : Decimal)
    (hfrac0 : frac0 = roundUp (max ops.from1.frac ops.from2.frac))
    (hlen : roundUp ops.from2.intg + 2 * frac0 + 1 ≤ dst.len) :
    ∃ q rest : ℤ, 0 ≤ rest ∧ rest < ops.from2.shifted frac0 ∧
      ops.from1.shifted frac0 = q * ops.from2.shifted frac0 + rest ∧
      (ops.remainder dst).1 = .ok ∧ (ops.remainder dst).2.WellFormed ∧
      (ops.remainder dst).2.value = signed ops.from1.sign
        ((if ops.Misplaced then rest * digBase else rest : ℤ) / (digBase : ℚ) ^ frac0) := by
  have hmax : frac0 = max (roundUp ops.from1.frac) (roundUp ops.from2.frac) := by
    rw [hfrac0, roundUp_max]
  have h1 : roundUp ops.from1.frac ≤ frac0 := by omega
  have h2 : roundUp ops.from2.frac ≤ frac0 := by omega
  have hround := h.leading1.roundUp_prec
  obtain ⟨len, hleaves⟩ := h.leaves dst.buf h1 h2
  generalize htmp1 :
    (divLoop ops.divisor false ops.intg0 (ops.start dst.buf 0)).putBack = work at hleaves
  obtain ⟨tmp1, start1⟩ := work
  dsimp only at hleaves
  obtain ⟨q, hq⟩ := hleaves.multiple
  have hlen_eq := hleaves.len_eq
  have hintg_le := hleaves.intg_le
  have hdvd := h.dvd_rest rfl hfrac0 hq
  refine ⟨q, _, (hleaves.digits.inRange _ _).radix_nonneg, hleaves.lt, hq, ?_⟩
  obtain ⟨intg0, hintg0⟩ : ∃ intg0 : ℤ,
    intg0 = ((ops.prec1 : ℤ) - ops.frac1 + 9 - 1).tdiv 9 - start1 := ⟨_, rfl⟩
  have hpoint := h.point_eq
  have hshift : ops.Misplaced → intg0 + frac0 = len + 1 ∧ intg0 ≤ 0 := fun hmis => by
    rw [if_pos hmis] at hpoint
    have := hmis.1
    omega
  have hplace : ¬ ops.Misplaced → intg0 + frac0 = len := fun hmis => by
    rw [if_neg hmis] at hpoint
    omega
  have hroom : intg0 + frac0 < dst.len ∧ -intg0 < dst.len := by
    by_cases hmis : ops.Misplaced
    · have := hshift hmis
      omega
    · have := hplace hmis
      omega
  rcases remainder_cases ops dst hfrac0 htmp1 hintg0 hroom with
    ⟨hzero, hnone, heq⟩ | ⟨hle, heq⟩ | ⟨hgt, heq⟩
  · -- neither integer nor fraction words
    have hmis : ¬ ops.Misplaced := fun hmis => by
      have := hmis.1
      omega
    have hnil : len = 0 := by
      have := hplace hmis
      omega
    rw [heq, hnil, radix_zero, if_neg hmis]
    refine ⟨rfl, makeZero_wellFormed _, ?_⟩
    rw [value_eq_signed, magnitude_makeZero, Int.cast_zero, zero_div]
    cases ops.from1.sign <;> simp [signed]
  · -- fraction words only
    obtain ⟨n, hn⟩ : ∃ n, frac0 = (-intg0).toNat + n := by
      refine ⟨frac0 - (-intg0).toNat, ?_⟩
      by_cases hmis : ops.Misplaced
      · have := hshift hmis
        omega
      · have := hplace hmis
        omega
    obtain ⟨hrange, hradix⟩ := copyWords_spec hleaves.digits start1 dst.buf (-intg0).toNat
      (show n ≤ frac0 by omega)
    rw [← hn] at hrange hradix
    rw [heq]
    generalize copyWords tmp1 start1 (storeZeros dst.buf 0 (-intg0).toNat) (-intg0).toNat
      frac0 = buf at hrange hradix ⊢
    have hwords : roundUp 0 + roundUp (max ops.from1.frac ops.from2.frac) = frac0 := by
      rw [← hfrac0, show roundUp 0 = 0 from rfl, zero_add]
    have hrest : radix digBase tmp1 start1 n = if ops.Misplaced then
        radix digBase tmp1 start1 len * digBase else radix digBase tmp1 start1 len := by
      split_ifs with hmis
      · obtain rfl : n = len + 1 := by
          have := hshift hmis
          omega
        rw [radix_succ, hleaves.zeros _ le_rfl, add_zero]
      obtain rfl : n = len := by
        have := hplace hmis
        omega
      rfl
    refine ⟨rfl, wellFormed_of_lt ?_ ?_ ?_, ?_⟩
    · rw [words]
      rw [hwords]
      exact hrange
    · rw [words]
      rw [hwords, ← hfrac0, pow_zero, one_mul]
      exact hrange.radix_lt
    · rw [words]
      rw [hwords, ← hfrac0, hradix, hrest]
      split_ifs
      · exact hdvd.mul_right digBase
      · exact hdvd
    · rw [value_eq_signed, magnitude, words]
      rw [hwords, ← hfrac0, hradix, hrest]
  · have hmis : ¬ ops.Misplaced := fun hmis => by
      have := hshift hmis
      omega
    have hlen' := hplace hmis
    obtain ⟨hrange, hradix⟩ := copyWords_spec hleaves.digits start1 dst.buf 0
      (show len ≤ (intg0 + frac0).toNat by omega)
    rw [storeZeros, zero_add] at hrange hradix
    rw [heq]
    generalize copyWords tmp1 start1 dst.buf 0 (intg0 + frac0).toNat = buf at hrange hradix ⊢
    have hwords : roundUp (min (intg0.toNat * 9) ops.from2.intg) +
        roundUp (max ops.from1.frac ops.from2.frac) = len := by
      have hintg : roundUp ops.from2.intg = (ops.from2.intg + 9 - 1) / 9 := rfl
      rw [← hfrac0, roundUp]
      omega
    rw [if_neg hmis]
    refine ⟨rfl, wellFormed_of_lt ?_ ?_ ?_, ?_⟩
    · rw [words]
      dsimp only
      rw [hwords]
      exact hrange
    · rw [words]
      dsimp only
      rw [hwords, ← hfrac0]
      rcases Nat.le_total (intg0.toNat * 9) ops.from2.intg with hmin | hmin
      · rw [min_eq_left hmin, mul_comm _ 9, pow_mul]
        have hpow := hrange.radix_lt
        rw [show len = intg0.toNat + frac0 by omega, pow_add] at hpow
        rwa [show len = intg0.toNat + frac0 by omega]
      · rw [min_eq_right hmin, hradix]
        exact hleaves.lt.trans (h.shifted_lt_pow h2)
    · rw [words]
      dsimp only
      rw [hwords, ← hfrac0, hradix]
      exact hdvd
    · rw [value_eq_signed, magnitude, words]
      dsimp only
      rw [hwords, ← hfrac0, hradix]

end DivOperands

/-! ### `decimal_mod` -/

structure RemainderContract (x y : ℚ) (r : DecimalError × Decimal) : Prop where
  ok : r.1 = .ok
  wellFormed : r.2.WellFormed
  multiple : ∃ k : ℤ, x = k * y + r.2.value
  lt : |r.2.value| < |y|
  sign : r.2.value = 0 ∨ SignType.sign r.2.value = SignType.sign x

theorem multiple_signed_iff (s t : Bool) {y z : ℚ} :
    (∃ k : ℤ, signed s x = k * signed t y + signed s z) ↔ ∃ k : ℤ, x = k * y + z := by
  have hflip : ∀ {u : ℚ}, (∃ k : ℤ, x = k * -u + z) ↔ ∃ k : ℤ, x = k * u + z := fun {u} => by
    constructor <;> rintro ⟨k, hk⟩ <;> exact ⟨-k, by push_cast; linear_combination hk⟩
  have hneg : ∀ {u : ℚ}, (∃ k : ℤ, -x = k * u + -z) ↔ ∃ k : ℤ, x = k * u + z := fun {u} => by
    constructor <;> rintro ⟨k, hk⟩ <;> exact ⟨-k, by push_cast; linear_combination -hk⟩
  cases s <;> cases t <;> simp only [signed, if_true, Bool.false_eq_true, if_false, hflip, hneg]

theorem remainder_unique {y rest z : ℚ} {k : ℤ} (hx : x = q * y + rest)
    (hrest : 0 ≤ rest ∧ rest < y) (hx' : x = k * y + z) (hz : 0 ≤ z ∧ z < y) : rest = z := by
  have hy : 0 < y := hrest.1.trans_lt hrest.2
  have hdiff : rest - z = ((k - q : ℤ) : ℚ) * y := by
    push_cast
    linear_combination hx' - hx
  have hlt : ((k - q : ℤ) : ℚ) < 1 := by
    refine lt_of_mul_lt_mul_right ?_ hy.le
    linarith
  have hgt : (-1 : ℚ) < ((k - q : ℤ) : ℚ) := by
    refine lt_of_mul_lt_mul_right ?_ hy.le
    linarith
  have hzero : k - q = 0 := by
    have hlt' : k - q < 1 := by exact_mod_cast hlt
    have hgt' : -1 < k - q := by exact_mod_cast hgt
    omega
  rw [hzero, Int.cast_zero, zero_mul] at hdiff
  linarith

theorem signed_eq_zero_iff (s : Bool) : signed s x = 0 ↔ x = 0 := by
  cases s
  · exact Iff.rfl
  · exact neg_eq_zero

theorem RemainderContract.of_value {s t : Bool} {y rest : ℚ} (hx0 : 0 ≤ x) (hx : x = q * y + rest)
    (hrest : 0 ≤ rest ∧ rest < y) (hok : r.1 = .ok) (hd : r.2.WellFormed)
    (hvalue : r.2.value = signed s rest) : RemainderContract (signed s x) (signed t y) r := by
  have hy : 0 < y := hrest.1.trans_lt hrest.2
  refine ⟨hok, hd, ?_, ?_, ?_⟩
  · rw [hvalue, multiple_signed_iff]
    exact ⟨q, hx⟩
  · rw [hvalue, abs_signed s hrest.1, abs_signed t hy.le]
    exact hrest.2
  rw [hvalue, signed_eq_zero_iff]
  rcases hx0.eq_or_lt with hzero | hpos
  · -- zero leaves zero
    exact .inl (remainder_unique (k := 0) (z := 0) hx hrest (by simp [← hzero]) ⟨le_rfl, hy⟩)
  · exact hrest.1.eq_or_lt.imp Eq.symm fun hpos' => sign_signed s hpos' hpos

theorem RemainderContract.eq_zero_of_scaled {s t : Bool} {y rest c : ℚ}
    (h : RemainderContract (signed s x) (signed t y) r) (hx : x = q * y + rest)
    (hrest : 0 ≤ rest ∧ rest < y) (hc : 1 < c) (hvalue : r.2.value = signed s (rest * c)) :
    rest = 0 := by
  have hy : 0 < y := hrest.1.trans_lt hrest.2
  have hnonneg : 0 ≤ rest * c := mul_nonneg hrest.1 (zero_lt_one.trans hc).le
  obtain ⟨k, hk⟩ := (multiple_signed_iff s t).mp (hvalue ▸ h.multiple)
  have hlt := h.lt
  rw [hvalue, abs_signed s hnonneg, abs_signed t hy.le] at hlt
  have heq := remainder_unique hx hrest hk ⟨hnonneg, hlt⟩
  by_contra hne
  have hpos : 0 < rest := lt_of_le_of_ne hrest.1 (Ne.symm hne)
  exact absurd heq (lt_mul_of_one_lt_right hpos hc).ne

/-- `decimal_mod` returns the remainder of the truncated division, for a dividend that is not below
`10 ^ -9`, starts with the last digit of a word, or is a multiple of the divisor. -/
theorem decimalMod_contract_iff {a b dst : Decimal} (ha : a.WellFormed) (hb : b.WellFormed)
    (hne : b.value ≠ 0) (hlen : roundUp b.intg + 2 * roundUp (max a.frac b.frac) + 1 ≤ dst.len) :
    RemainderContract a.value b.value (decimalMod a b dst) ↔ 1 / (digBase : ℚ) ≤ |a.value| ∨
        (∃ j : ℕ, 1 ≤ |a.value| * (digBase : ℚ) ^ j ∧ |a.value| * (digBase : ℚ) ^ j < 10) ∨
        ∃ k : ℤ, a.value = k * b.value := by
  rw [decimalMod]
  rcases doDivMod_cases ha hb hne dst true 0 with ⟨hzero, heq⟩ |
    ⟨ops, hops, rfl, rfl, -, _, -, -, heq⟩
  · have hvalue : dst.makeZero.value = 0 := by
      rw [value_eq_signed, magnitude_makeZero, signed_eq_zero_iff]
    have hmultiple : ∃ k : ℤ, a.value = k * b.value := ⟨0, by rw [hzero, Int.cast_zero, zero_mul]⟩
    refine iff_of_true ?_ (.inr (.inr hmultiple))
    rw [heq]
    refine ⟨rfl, makeZero_wellFormed dst, ⟨0, ?_⟩, ?_, .inl hvalue⟩
    · rw [hvalue, hzero, Int.cast_zero, zero_mul, add_zero]
    · rw [hvalue, abs_zero]
      exact abs_pos.mpr hne
  rw [heq, if_pos rfl, ha.abs_value_eq, ← or_assoc]
  obtain ⟨q, rest, hnonneg, hlt, hq, hok, hwf, hvalue⟩ := hops.remainder_spec dst rfl hlen
  generalize hfrac0 : roundUp (max ops.from1.frac ops.from2.frac) = frac0 at *
  have hmax : frac0 = max (roundUp ops.from1.frac) (roundUp ops.from2.frac) := by
    rw [← hfrac0, roundUp_max]
  have hbase := digBase_cast_pos
  have hpow : (0 : ℚ) < (digBase : ℚ) ^ frac0 := pow_pos hbase frac0
  -- the division of the magnitudes
  have hx : ops.from1.magnitude = q * ops.from2.magnitude + rest / (digBase : ℚ) ^ frac0 := by
    rw [magnitude_eq_shifted (d := ops.from1) (k := frac0) (by omega),
      magnitude_eq_shifted (d := ops.from2) (k := frac0) (by omega), hq]
    push_cast
    field_simp
  have hrest : 0 ≤ rest / (digBase : ℚ) ^ frac0 ∧
      rest / (digBase : ℚ) ^ frac0 < ops.from2.magnitude := by
    rw [magnitude_eq_shifted (d := ops.from2) (k := frac0) (by omega)]
    exact ⟨div_nonneg (by exact_mod_cast hnonneg) hpow.le,
      div_lt_div_of_pos_right (by exact_mod_cast hlt) hpow⟩
  rw [value_eq_signed ops.from1, value_eq_signed ops.from2]
  by_cases hmis : ops.Misplaced
  · rw [or_iff_right (hops.misplaced_iff.mp hmis)]
    rw [if_pos hmis, Int.cast_mul, mul_div_right_comm] at hvalue
    have hmultiple : (∃ k : ℤ, signed ops.from1.sign ops.from1.magnitude =
        k * signed ops.from2.sign ops.from2.magnitude) ↔ rest / (digBase : ℚ) ^ frac0 = 0 := by
      have hiff := multiple_signed_iff ops.from1.sign ops.from2.sign (x := ops.from1.magnitude)
        (y := ops.from2.magnitude) (z := 0)
      rw [(signed_eq_zero_iff _).mpr rfl] at hiff
      simp only [add_zero] at hiff
      rw [hiff]
      refine ⟨fun ⟨k, hk⟩ => ?_, fun hzero => ⟨q, ?_⟩⟩
      · exact remainder_unique hx hrest (hk.trans (add_zero _).symm)
          ⟨le_rfl, hrest.1.trans_lt hrest.2⟩
      · rw [hx, hzero, add_zero]
    rw [hmultiple]
    refine ⟨fun h => h.eq_zero_of_scaled hx hrest (by norm_num [digBase]) hvalue, fun hzero => ?_⟩
    refine .of_value ha.magnitude_nonneg hx hrest hok hwf ?_
    rw [hvalue, hzero, zero_mul]
  · rw [if_neg hmis] at hvalue
    refine iff_of_true (.of_value ha.magnitude_nonneg hx hrest hok hwf hvalue) (.inl ?_)
    rwa [hops.misplaced_iff, not_not] at hmis

theorem Decimal.value_eq_of_words {d : Decimal} {n : ℤ} {k : ℕ}
    (h : d.sign = false ∧ roundUp d.frac = k ∧ radix digBase d.buf 0 d.words = n) :
    d.value = n / (digBase : ℚ) ^ k := by
  obtain ⟨hsign, hfrac, hradix⟩ := h
  rw [value_eq_signed, hsign, magnitude, hfrac, hradix]
  rfl

theorem decimalMod_contract_iff_seven :
    (ofWord 7).WellFormed ∧ (ofWord 2).WellFormed ∧ (ofWord 2).value ≠ 0 ∧
      RemainderContract (ofWord 7).value (ofWord 2).value
        (decimalMod (.ofWord 7) (.ofWord 2) (.ofWord 0)) := by
  have ha := ofWord_wellFormed (w := 7) (by decide)
  have hb := ofWord_wellFormed (w := 2) (by decide)
  have hne : (ofWord 2).value ≠ 0 := by
    rw [Ne, value_eq_zero_iff]
    decide
  refine ⟨ha, hb, hne, (decimalMod_contract_iff ha hb hne (by decide)).mpr (.inl ?_)⟩
  rw [value_eq_of_words (n := 7) (k := 0) (d := .ofWord 7) (by decide)]
  norm_num [digBase]

/-- `0.0000000009999`, whose first nonzero word is the second one. -/
def Decimal.tiny : Decimal := ⟨0, 13, 2, false, fun i => if i = 1 then 999900000 else 0⟩

theorem Decimal.tiny_wellFormed : tiny.WellFormed := by
  refine ⟨fun i _ _ => ?_, fun h => absurd (show 0 % 9 = 0 from rfl) h, fun _ => by decide⟩
  change 0 ≤ (if i = 1 then (999900000 : ℤ) else 0) ∧ (if i = 1 then (999900000 : ℤ) else 0) < _
  split <;> decide

/-- `0.0000000009999` modulo `330` is `0.9999`, which is not congruent to it. -/
theorem decimalMod_misplaced :
    tiny.WellFormed ∧ (ofWord 330).WellFormed ∧ (ofWord 330).value ≠ 0 ∧
      (decimalMod .tiny (.ofWord 330) { ofWord 0 with len := 100 }).1 = .ok ∧
      (decimalMod .tiny (.ofWord 330) { ofWord 0 with len := 100 }).2.value = 9999 / 10000 ∧
      ¬ RemainderContract tiny.value (ofWord 330).value
        (decimalMod .tiny (.ofWord 330) { ofWord 0 with len := 100 }) := by
  have hb := ofWord_wellFormed (w := 330) (by decide)
  have hne : (ofWord 330).value ≠ 0 := by
    rw [Ne, value_eq_zero_iff]
    decide
  have hvalue : (decimalMod .tiny (.ofWord 330) { ofWord 0 with len := 100 }).2.value =
      9999 / 10000 := by
    rw [value_eq_of_words (n := 999900000000000000) (k := 2) (by decide +kernel)]
    norm_num [digBase]
  refine ⟨tiny_wellFormed, hb, hne, by decide +kernel, hvalue, fun h => ?_⟩
  obtain ⟨k, hk⟩ := h.multiple
  rw [hvalue, value_eq_of_words (n := 999900000) (k := 2) (d := .tiny) (by decide),
    value_eq_of_words (n := 330) (k := 0) (d := .ofWord 330) (by decide)] at hk
  have hint : (9999 : ℚ) = k * 330 * 10 ^ 13 + 9999 * 10 ^ 9 := by
    norm_num [digBase] at hk ⊢
    linarith
  have hint' : (9999 : ℤ) = k * 330 * 10 ^ 13 + 9999 * 10 ^ 9 := by exact_mod_cast hint
  omega

end LibSources
