import LibSources.DecimalBin
import LibSources.DecimalDifference
import LibSources.DecimalQuotient

/-!
# The Order of the Binary Format

The bytes that `decimal2bin` writes are a number in base `256`, and this number only depends on
the digits that the format keeps: it is `binCode` of them. The words keep their values, so
`binCode` is the number in a larger base, and the order stays.

## Main results

* `decimal2bin_order`: bytes are ordered like values.
-/

namespace LibSources

open Nat Decimal List

variable {d : Decimal}

/-! ### Sizes -/

theorem dig2bytes_eq {i : ℕ} (h : i < 9) : dig2bytes i = (i + 1) / 2 := by
  interval_cases i <;> rfl

theorem digitBytes_eq (n : ℕ) : digitBytes n = n / 9 * 4 + (n % 9 + 1) / 2 := by
  rw [digitBytes, dig2bytes_eq (mod_lt n (by norm_num))]

theorem digitBytes_mono {m n : ℕ} (h : m ≤ n) : digitBytes m ≤ digitBytes n := by
  rw [digitBytes_eq, digitBytes_eq]
  omega

theorem widenGroup_eq : ∀ x < 9, ∀ lim ≤ 9, x ≠ 0 → dig2bytes x = dig2bytes lim →
    widenGroup (dig2bytes x) lim 9 x = max x lim := by
  decide

theorem widenGroup_of_le {x lim : ℕ} (h : lim ≤ x) : widenGroup (dig2bytes x) lim 9 x = x := by
  rw [widenGroup, if_neg (by omega)]

/-! ### Leading zeros -/

/-- The integer part has `intg` digits from its first digit on, and these start in the word at
`pos`. -/
structure Decimal.FirstDigits (d : Decimal) (pos intg : ℕ) : Prop where
  words : pos + roundUp intg = roundUp d.intg
  zeros : ∀ i < pos, d.buf i = 0
  first : intg % 9 ≠ 0 → d.buf pos < powers10 (intg % 9)
  least : 0 < intg → powers10 (intg - 1) ≤ radix digBase d.buf 0 (roundUp d.intg)

def Decimal.integerPart (d : Decimal) : Decimal := { d with frac := 0 }

theorem Decimal.words_integerPart (d : Decimal) : d.integerPart.words = roundUp d.intg := by
  change roundUp d.intg + roundUp 0 = roundUp d.intg
  rw [roundUp_zero, add_zero]

theorem Decimal.buf_integerPart (d : Decimal) : d.integerPart.buf = d.buf := rfl

theorem Decimal.WellFormed.integerPart (h : d.WellFormed) : d.integerPart.WellFormed :=
  ⟨h.range.mono le_rfl (by rw [d.words_integerPart, words]; omega), h.first,
    fun hne => absurd (show 0 % 9 = 0 from rfl) hne⟩

theorem removeLeadingZeroes_eq (d : Decimal) :
    removeLeadingZeroes d = leadingWord d.integerPart := by
  have hprec : d.integerPart.intg + roundUp d.integerPart.frac * 9 = d.intg := by
    change d.intg + roundUp 0 * 9 = d.intg
    rw [roundUp_zero, zero_mul, add_zero]
  rw [removeLeadingZeroes, leadingWord]
  simp only [hprec, d.buf_integerPart]
  generalize skipZeroWords d.buf d.intg 0 d.intg ((d.intg - 1) % 9 + 1) = r
  rcases Nat.eq_zero_or_pos r.2 with hzero | hpos
  · rw [if_neg (by omega), if_pos hzero, hzero]
  · rw [if_pos hpos, if_neg (by omega)]

theorem removeLeadingZeroes_spec (h : d.WellFormed) :
    d.FirstDigits (removeLeadingZeroes d).1 (removeLeadingZeroes d).2 := by
  rw [removeLeadingZeroes_eq]
  have hwords := d.words_integerPart
  have hrange := h.integerPart.range
  rcases leadingWord_spec h.integerPart with ⟨hzero, hpos, hradix⟩ | ⟨hne, hleading⟩
  · rw [hzero, hpos, hwords]
    rw [hwords] at hrange hradix
    refine ⟨rfl, fun i hi => ?_, fun hmod => absurd rfl hmod, fun hlt => absurd hlt (lt_irrefl 0)⟩
    exact hrange.eq_zero_of_radix hradix i zero_le (by omega)
  obtain ⟨k, hk, hk', hprec, hle, hlt⟩ := hleading.digits
  have hround := hleading.roundUp_prec
  have hpos := hleading.lt_words
  have hzeros := hleading.zeros
  generalize (leadingWord d.integerPart).1 = pos at *
  generalize (leadingWord d.integerPart).2 = prec at *
  rw [hwords] at hprec hround hpos hrange
  rw [d.buf_integerPart] at hle hlt hrange hzeros
  refine ⟨by omega, hzeros, fun hmod => ?_, fun _ => ?_⟩
  · have hdigits : prec % 9 = k := by omega
    rw [hdigits]
    exact hlt
  obtain ⟨n, hn⟩ : ∃ n, roundUp d.intg = pos + (n + 1) := ⟨roundUp d.intg - pos - 1, by omega⟩
  have hskip : radix digBase d.buf 0 (roundUp d.intg) = radix digBase d.buf pos (n + 1) := by
    rw [hn, radix_skip_zeros fun i _ hi => hzeros i (by omega), zero_add]
  have hrest := (hrange.mono zero_le (by omega) :
    InRange digBase d.buf (pos + 1) n).radix_nonneg
  have hexp : prec - 1 = k - 1 + 9 * n := by omega
  rw [hskip, radix_succ_left, powers10, hexp, pow_add, pow_mul]
  calc (10 : ℤ) ^ (k - 1) * (10 ^ 9) ^ n ≤ d.buf pos * digBase ^ n :=
        mul_le_mul_of_nonneg_right hle (pow_pos digBase_pos n).le
    _ ≤ _ := le_add_of_nonneg_right hrest

theorem Decimal.FirstDigits.intg_le {pos intg n : ℕ} (h : d.FirstDigits pos intg)
    (hd : d.WellFormed) (hlt : d.magnitude < 10 ^ n) : intg ≤ n := by
  rcases Nat.eq_zero_or_pos intg with hzero | hpos
  · omega
  have hleast := h.least hpos
  have hint : (radix digBase d.buf 0 (roundUp d.intg) : ℚ) ≤ d.magnitude := by
    have hzero := hd.shifted_of_ge (zero_le (roundUp d.frac))
    have hfloor := d.shifted_eq_floor 0
    rw [add_zero] at hzero
    rw [pow_zero, mul_one] at hfloor
    rw [← hzero, hfloor]
    exact Int.floor_le _
  have hpow : ((10 : ℤ) ^ (intg - 1) : ℚ) < 10 ^ n := by
    refine lt_of_le_of_lt ?_ (hint.trans_lt hlt)
    exact_mod_cast hleast
  have := (pow_lt_pow_iff_right₀ (by norm_num : (1 : ℚ) < 10)).mp (by exact_mod_cast hpow)
  omega

/-! ### The mask -/

def maskBytes (mask : Bool) (l : List UInt8) : List UInt8 := if mask then l.map (~~~ ·) else l

section

variable (mask : Bool)

@[simp] theorem length_maskBytes (l : List UInt8) : (maskBytes mask l).length = l.length := by
  cases mask
  · rfl
  · exact length_map _

theorem maskBytes_append (l l' : List UInt8) :
    maskBytes mask (l ++ l') = maskBytes mask l ++ maskBytes mask l' := by
  cases mask
  · rfl
  · exact map_append

theorem maskBytes_replicate (k : ℕ) :
    maskBytes mask (replicate k 0) = replicate k (maskByte mask) := by
  cases mask
  · rfl
  · exact map_replicate

theorem maskBytes_toBytes (k : ℕ) (x : ℤ) :
    maskBytes mask (toBytes k x) = toBytes k (xorMask mask x) := by
  cases mask
  · rfl
  · exact (toBytes_not k x).symm

variable (buf : ℕ → ℤ)

theorem maskBytes_storeWords (pos k : ℕ) :
    maskBytes mask (storeWords false buf pos k) = storeWords mask buf pos k := by
  induction k generalizing pos with
  | zero => cases mask <;> rfl
  | succ k ih =>
    rw [storeWords, maskBytes_append, ih, maskBytes_toBytes]
    rfl

theorem maskBytes_storeFirst (pos intg1x : ℕ) :
    maskBytes mask (storeFirst false buf pos intg1x) = storeFirst mask buf pos intg1x := by
  rw [storeFirst, storeFirst]
  split
  · rw [maskBytes_toBytes]
    rfl
  · cases mask <;> rfl

theorem maskBytes_storeLast (pos frac1x lim : ℕ) :
    maskBytes mask (storeLast false buf pos frac1x lim) = storeLast mask buf pos frac1x lim := by
  rw [storeLast, storeLast]
  split
  · rw [maskBytes_toBytes]
    rfl
  · cases mask <;> rfl

theorem ofBytes_flipSign_maskBytes {l : List UInt8} (hne : l ≠ [])
    (hlt : 2 * ofBytes l < 256 ^ l.length) :
    (ofBytes (flipSign (maskBytes mask l)) : ℤ) =
      256 ^ l.length / 2 + xorMask mask (ofBytes l) := by
  have heven := pow_length_mod_two hne
  have hcast : ((256 ^ l.length : ℕ) : ℤ) = 256 ^ l.length := by push_cast; rfl
  have hmask : maskBytes mask l ≠ [] := by
    rw [← length_pos_iff, length_maskBytes, length_pos_iff]
    exact hne
  rw [ofBytes_flipSign hmask, length_maskBytes, ← hcast]
  cases mask
  · change (((if 2 * ofBytes l < _ then ofBytes l + _ else _) : ℕ) : ℤ) = _ + (ofBytes l : ℤ)
    rw [if_pos hlt]
    omega
  have hnot := ofBytes_not l
  change (((if 2 * ofBytes (l.map (~~~ ·)) < _ then _ else ofBytes (l.map (~~~ ·)) - _) : ℕ) : ℤ) =
    _ + (-1 - (ofBytes l : ℤ))
  rw [if_neg (by omega)]
  omega

end

/-- A number in words of nine digits as a number in words of four bytes. -/
def packWords (n : ℕ) : ℕ := recode 1000000000 (2 ^ 32) n

variable {k r p : ℕ} {l : List UInt8} {words word : ℤ}

theorem storeWords_spec {buf : ℕ → ℤ} {pos : ℕ} (h : InRange digBase buf pos k) :
    (storeWords false buf pos k).length = 4 * k ∧
      (ofBytes (storeWords false buf pos k) : ℤ) = radix (2 ^ 32) buf pos k := by
  induction k generalizing pos with
  | zero => exact ⟨rfl, rfl⟩
  | succ k ih =>
    obtain ⟨hlen, hvalue⟩ := ih (h.mono (le_succ pos) (by omega))
    have hword := h pos le_rfl (by omega)
    have hbase : digBase = 1000000000 := rfl
    have hpow : ((256 : ℤ) ^ (4 * k)) = (2 ^ 32) ^ k := by
      rw [pow_mul]
      norm_num
    rw [storeWords, length_append, length_toBytes, hlen, ofBytes_append, hlen]
    refine ⟨by omega, ?_⟩
    rw [Nat.cast_add, Nat.cast_mul, Nat.cast_pow, Nat.cast_ofNat, ofBytes_toBytes, hvalue, hpow,
      radix_succ_left]
    change (buf pos % 256 ^ 4) * _ + _ = _
    rw [Int.emod_eq_of_lt hword.1 (by omega)]

theorem Decimal.WellFormed.packWords_shifted (h : d.WellFormed) (hk : k ≤ roundUp d.frac) :
    (packWords (d.shifted k).toNat : ℤ) = radix (2 ^ 32) d.buf 0 (roundUp d.intg + k) := by
  have hrange : InRange digBase d.buf 0 (roundUp d.intg + k) :=
    h.range.mono le_rfl (by rw [words]; omega)
  rw [h.shifted_of_ge hk]
  exact recode_radix (b := 1000000000) (c := 2 ^ 32) (by norm_num) hrange

theorem Decimal.FirstDigits.bytes {pos intg isize0 frac1 : ℕ} (h : d.FirstDigits pos intg)
    (hd : d.WellFormed) (hfrac : frac1 ≤ roundUp d.frac) (hsize : digitBytes intg ≤ isize0) :
    let l := replicate (isize0 - digitBytes intg) 0 ++ storeFirst false d.buf pos (intg % 9) ++
      storeWords false d.buf (if intg % 9 ≠ 0 then pos + 1 else pos) (intg / 9 + frac1)
    l.length = isize0 + 4 * frac1 ∧ ofBytes l = packWords (d.shifted frac1).toNat := by
  have hwords := h.words
  have hround : roundUp intg = (intg + 9 - 1) / 9 := rfl
  have hdigits := digitBytes_eq intg
  have hrange : InRange digBase d.buf 0 (roundUp d.intg + frac1) :=
    hd.range.mono le_rfl (by rw [Decimal.words]; omega)
  -- the words from the first digit on
  have hskip : radix (2 ^ 32) d.buf 0 (roundUp d.intg + frac1) =
      radix (2 ^ 32) d.buf pos (roundUp intg + frac1) := by
    rw [← hwords, add_assoc, radix_skip_zeros fun i _ hi => h.zeros i (by omega), zero_add]
  have hpack := hd.packWords_shifted hfrac
  rw [hskip] at hpack
  intro l
  by_cases hfirst : intg % 9 = 0
  · obtain ⟨hlen, hvalue⟩ := storeWords_spec (hrange.mono zero_le (by omega) :
      InRange digBase d.buf pos (intg / 9 + frac1))
    have hl : l = replicate (isize0 - digitBytes intg) 0 ++
        storeWords false d.buf pos (intg / 9 + frac1) := by
      simp only [l, storeFirst, hfirst, ne_eq, not_true_eq_false, if_false, append_nil]
    have hcount : roundUp intg + frac1 = intg / 9 + frac1 := by omega
    rw [hl, length_append, length_replicate, hlen, ofBytes_append,
      ofBytes_replicate_zero, zero_mul, zero_add]
    refine ⟨by omega, ?_⟩
    rw [hcount] at hpack
    exact_mod_cast hvalue.trans hpack.symm
  obtain ⟨hlen, hvalue⟩ := storeWords_spec (hrange.mono (zero_le (pos + 1)) (by omega) :
    InRange digBase d.buf (pos + 1) (intg / 9 + frac1))
  have hword := hrange pos zero_le (by omega)
  have hl : l = replicate (isize0 - digitBytes intg) 0 ++
      (toBytes (dig2bytes (intg % 9)) (d.buf pos % powers10 (intg % 9)) ++
        storeWords false d.buf (pos + 1) (intg / 9 + frac1)) := by
    simp only [l, storeFirst, hfirst, ne_eq, not_false_eq_true, if_true, append_assoc]
    rfl
  have hcount : roundUp intg + frac1 = intg / 9 + frac1 + 1 := by omega
  have hsmall := h.first hfirst
  have hfits : powers10 (intg % 9) ≤ 256 ^ dig2bytes (intg % 9) := by
    have : ∀ i < 9, powers10 i ≤ 256 ^ dig2bytes i := by decide
    exact this _ (mod_lt _ (by norm_num))
  rw [hl, length_append, length_append, length_replicate, length_toBytes, hlen,
    ofBytes_append, ofBytes_replicate_zero, zero_mul, zero_add, ofBytes_append, hlen]
  refine ⟨by rw [digitBytes] at hdigits hsize ⊢; omega, ?_⟩
  rw [hcount, radix_succ_left] at hpack
  have hpow : ((256 : ℤ) ^ (4 * (intg / 9 + frac1))) = (2 ^ 32) ^ (intg / 9 + frac1) := by
    rw [pow_mul]
    norm_num
  refine Int.natCast_inj.mp ?_
  rw [Nat.cast_add, Nat.cast_mul, Nat.cast_pow, Nat.cast_ofNat, hpack, hvalue, ofBytes_toBytes,
    hpow, Int.emod_eq_of_lt hword.1 hsmall, Int.emod_eq_of_lt hword.1 (hsmall.trans_le hfits)]

/-! ### The bytes of the last digits -/

/-- The number of the bytes that the format has for the digits `n`, of which `scale` are behind the
point. -/
def binCode (scale n : ℕ) : ℕ :=
  packWords (n / 10 ^ (scale % 9)) * 256 ^ dig2bytes (scale % 9) + n % 10 ^ (scale % 9)

theorem binCode_eq {scale : ℕ} {group : ℤ} (hwords : 0 ≤ words)
    (hgroup : 0 ≤ group ∧ group < 10 ^ (scale % 9)) :
    (binCode scale (words * 10 ^ (scale % 9) + group).toNat : ℤ) =
      packWords words.toNat * 256 ^ dig2bytes (scale % 9) + group := by
  obtain ⟨w, rfl⟩ := Int.eq_ofNat_of_zero_le hwords
  obtain ⟨g, rfl⟩ := Int.eq_ofNat_of_zero_le hgroup.1
  have hlt : g < 10 ^ (scale % 9) := by exact_mod_cast hgroup.2
  have hcast : ((w : ℤ) * 10 ^ (scale % 9) + g).toNat = 10 ^ (scale % 9) * w + g := by
    rw [mul_comm]
    exact_mod_cast Int.toNat_natCast _
  rw [hcast, binCode, mul_add_div (by positivity), div_eq_of_lt hlt, mul_add_mod,
    mod_eq_of_lt hlt, add_zero, Int.toNat_natCast]
  rfl

theorem packWords_mul_add (hwords : 0 ≤ words) (hword : 0 ≤ word ∧ word < digBase) :
    (packWords (words * digBase + word).toNat : ℤ) = packWords words.toNat * 256 ^ 4 + word := by
  obtain ⟨w, rfl⟩ := Int.eq_ofNat_of_zero_le hwords
  obtain ⟨g, rfl⟩ := Int.eq_ofNat_of_zero_le hword.1
  have hbase : digBase = 1000000000 := rfl
  have hcast : ((w : ℤ) * digBase + g).toNat = w * 1000000000 + g := by
    rw [hbase]
    exact_mod_cast Int.toNat_natCast _
  rw [hcast, packWords, recode_mul_add (by norm_num) w (by omega), Int.toNat_natCast, packWords]
  rfl

theorem packWords_mul_pow (hwords : 0 ≤ words) (k : ℕ) :
    packWords (words * digBase ^ k).toNat = packWords words.toNat * 256 ^ (4 * k) := by
  obtain ⟨w, rfl⟩ := Int.eq_ofNat_of_zero_le hwords
  have hcast : ((w : ℤ) * digBase ^ k).toNat = w * 1000000000 ^ k := by
    exact_mod_cast Int.toNat_natCast _
  have hpow : (256 : ℕ) ^ (4 * k) = (2 ^ 32) ^ k := by
    rw [pow_mul]
    norm_num
  rw [hcast, packWords, recode_mul_pow (by norm_num) w, Int.toNat_natCast, packWords, hpow]

/-- The fraction has more digits than the format, in as many bytes, and they are not all zero in
the last word. -/
def Decimal.GroupSlip (d : Decimal) (scale : ℕ) : Prop :=
  scale < d.frac ∧ digitBytes d.frac = digitBytes scale ∧ d.buf (d.words - 1) ≠ 0

/-- What `decimal2bin` does with the fraction: it cuts off digits or has zeros for the missing ones
of a group, it takes a group of as many bytes, or it adds zero bytes to full words. -/
theorem binFraction_cases (s f : ℕ) :
    (s / 9 + (if s % 9 = 0 then 0 else 1) ≤ roundUp f ∧ ∃ fsize0 ≤ digitBytes f,
        binFraction s f = (s / 9, s % 9, fsize0, decide (digitBytes s < digitBytes f))) ∨
      (digitBytes f = digitBytes s ∧ binFraction s f = (f / 9, f % 9, digitBytes s, false)) ∨
      (digitBytes f ≤ digitBytes s ∧ roundUp f ≤ s / 9 ∧
        binFraction s f = (roundUp f, 0, digitBytes s, false)) := by
  have hf := digitBytes_eq f
  have hs := digitBytes_eq s
  have hround : roundUp f = (f + 9 - 1) / 9 := rfl
  rw [binFraction]
  by_cases hlt : digitBytes s < digitBytes f
  · rw [if_pos hlt]
    exact .inl ⟨by split <;> omega, _, hlt.le, by rw [decide_eq_true hlt]⟩
  rw [if_neg hlt]
  by_cases hgt : digitBytes f < digitBytes s ∧ f % 9 ≠ 0
  · rw [if_pos hgt]
    by_cases hsame : s / 9 = f / 9
    · rw [if_pos hsame]
      exact .inl ⟨by split <;> omega, _, le_rfl, by rw [decide_eq_false hlt, hsame]⟩
    rw [if_neg hsame]
    have hfrac : f / 9 + 1 = roundUp f := by omega
    exact .inr (.inr ⟨by omega, by omega, by rw [hfrac]⟩)
  rw [if_neg hgt]
  rcases eq_or_lt_of_le (not_lt.mp hlt) with heq | hless
  · exact .inr (.inl ⟨heq, rfl⟩)
  have hmod : f % 9 = 0 := by
    by_contra hne
    exact hgt ⟨hless, hne⟩
  have hfrac : f / 9 = roundUp f := by omega
  exact .inr (.inr ⟨hless.le, by omega, by rw [hmod, hfrac]⟩)

theorem word_div_mem (hword : 0 ≤ word ∧ word < digBase) (hr : r ≤ 9) :
    0 ≤ word / 10 ^ (9 - r) ∧ word / 10 ^ (9 - r) < 10 ^ r := by
  have hpow : digBase = 10 ^ r * 10 ^ (9 - r) := by
    rw [← pow_add, Nat.add_sub_cancel' hr]
    rfl
  refine ⟨Int.ediv_nonneg hword.1 (by positivity), ?_⟩
  rw [Int.ediv_lt_iff_lt_mul (by positivity), ← hpow]
  exact hword.2

theorem pow_le_dig2bytes (hr : r ≤ 9) : (10 : ℤ) ^ r ≤ 256 ^ dig2bytes r := by
  have : ∀ i ≤ 9, (10 : ℤ) ^ i ≤ 256 ^ dig2bytes i := by decide
  exact this r hr

section

variable {d : Decimal} {s isize0 : ℕ} {front : List UInt8}

theorem storeLast_spec (hd : d.WellFormed) {x lim : ℕ} (hk : k < roundUp d.frac) (hx : x ≠ 0)
    (hr : r ≤ 9) (hwiden : widenGroup (dig2bytes x) lim 9 x = r)
    (hbytes : dig2bytes x = dig2bytes r) :
    (storeLast false d.buf (roundUp d.intg + k) x lim).length = dig2bytes r ∧
      (ofBytes (storeLast false d.buf (roundUp d.intg + k) x lim) : ℤ) =
        d.buf (roundUp d.intg + k) / 10 ^ (9 - r) := by
  have hword := hd.range (roundUp d.intg + k) zero_le (by rw [words]; omega)
  obtain ⟨hnonneg, hlt⟩ := word_div_mem hword hr
  rw [storeLast, if_pos hx]
  dsimp only
  rw [hwiden, hbytes, length_toBytes, ofBytes_toBytes]
  exact ⟨rfl, Int.emod_eq_of_lt hnonneg (hlt.trans_le (pow_le_dig2bytes hr))⟩

theorem binFraction_le (s f : ℕ) : (binFraction s f).1 ≤ roundUp f ∧
    (binFraction s f).2.2.2 = decide (digitBytes s < digitBytes f) := by
  have hround : roundUp f = (f + 9 - 1) / 9 := rfl
  rcases binFraction_cases s f with ⟨hle, fsize0, -, heq⟩ | ⟨hsize, heq⟩ | ⟨hsize, hle, heq⟩
  · rw [heq]
    exact ⟨(le_add_right _ _).trans hle, rfl⟩
  · rw [heq]
    exact ⟨by dsimp only; omega, (decide_eq_false (by omega)).symm⟩
  · rw [heq]
    exact ⟨le_rfl, (decide_eq_false (by omega)).symm⟩

theorem group_spec (hd : d.WellFormed)
    (hfront : ofBytes front = packWords (d.shifted (s / 9)).toNat)
    (hlen : l.length = dig2bytes (s % 9)) {g : ℤ} (hgroup : 0 ≤ g ∧ g < 10 ^ (s % 9))
    (hlast : (ofBytes l : ℤ) = g) (hscaled : d.scaled s = d.shifted (s / 9) * 10 ^ (s % 9) + g) :
    (ofBytes (front ++ l) : ℤ) = binCode s (d.scaled s).toNat := by
  rw [hscaled, binCode_eq (hd.shifted_nonneg _) hgroup, ofBytes_append, hfront, hlen, Nat.cast_add,
    Nat.cast_mul, Nat.cast_pow, Nat.cast_ofNat, hlast]

theorem whole_spec (hd : d.WellFormed) (hzero : s % 9 = 0)
    (hfront : ofBytes front = packWords (d.shifted (s / 9)).toNat) :
    (ofBytes front : ℤ) = binCode s (d.scaled s).toNat := by
  have hscaled := d.scaled_mul (s / 9)
  rw [show s / 9 * 9 = s by omega] at hscaled
  have hcode := group_spec hd (l := []) (g := 0) hfront (by rw [hzero]; rfl)
    ⟨le_rfl, by positivity⟩ rfl (by rw [hscaled, hzero, pow_zero, mul_one, add_zero])
  rwa [append_nil] at hcode

theorem scaled_of_zero (hd : d.WellFormed) (hk : s / 9 < roundUp d.frac)
    (hzero : d.buf (roundUp d.intg + s / 9) = 0) :
    d.scaled s = d.shifted (s / 9) * 10 ^ (s % 9) + 0 := by
  have hscaled := hd.scaled_eq hk (mod_lt s (by norm_num)).le
  rwa [show s / 9 * 9 + s % 9 = s by omega, hzero, Int.zero_ediv] at hscaled

theorem binTail_spec (hd : d.WellFormed) (hslip : ¬ d.GroupSlip s)
    (hlen : front.length = isize0 + 4 * (binFraction s d.frac).1)
    (hfront : ofBytes front = packWords (d.shifted (binFraction s d.frac).1).toNat) :
    let b := binFraction s d.frac
    let out := front ++ storeLast false d.buf (roundUp d.intg + b.1) b.2.1
      (if b.1 < s / 9 then 9 else s % 9)
    let l := out ++ replicate
      (min (b.2.2.1 - digitBytes d.frac) (isize0 + digitBytes s - out.length)) 0
    l.length = isize0 + digitBytes s ∧ (ofBytes l : ℤ) = binCode s (d.scaled s).toNat := by
  have hs := digitBytes_eq s
  have hf := digitBytes_eq d.frac
  have hs' : digitBytes s = s / 9 * 4 + dig2bytes (s % 9) := rfl
  have hf' : digitBytes d.frac = d.frac / 9 * 4 + dig2bytes (d.frac % 9) := rfl
  have hround : roundUp d.frac = (d.frac + 9 - 1) / 9 := rfl
  have hsplit : s / 9 * 9 + s % 9 = s := by omega
  have hmod : s % 9 < 9 := mod_lt s (by norm_num)
  have hnil : ∀ pos lim, storeLast false d.buf pos 0 lim = [] := fun _ _ => if_neg (not_not.mpr rfl)
  have hword : ∀ {k}, k < roundUp d.frac → 0 ≤ d.buf (roundUp d.intg + k) ∧
      d.buf (roundUp d.intg + k) < digBase := fun hk =>
    hd.range _ zero_le (by rw [words]; omega)
  rcases binFraction_cases s d.frac with
    ⟨hle, fsize0, hsize, heq⟩ | ⟨hsize, heq⟩ | ⟨hsize, hle, heq⟩
  · -- digits are cut off, or zeros take the place of missing ones in a group
    rw [heq] at hlen hfront ⊢
    dsimp only at hlen hfront ⊢
    rw [if_neg (lt_irrefl _), Nat.sub_eq_zero_of_le hsize, Nat.zero_min, replicate_zero,
      append_nil, length_append, hlen]
    by_cases hzero : s % 9 = 0
    · rw [hzero, hnil, length_nil, append_nil]
      exact ⟨by omega, whole_spec hd hzero hfront⟩
    rw [if_neg hzero] at hle
    obtain ⟨hlast, hvalue⟩ := storeLast_spec hd (k := s / 9) (by omega) hzero hmod.le
      (widenGroup_of_le le_rfl) rfl
    refine ⟨by omega, group_spec hd hfront hlast (word_div_mem (hword (by omega)) hmod.le) hvalue
      ?_⟩
    rw [← hd.scaled_eq (by omega) hmod.le, hsplit]
  · -- a group of as many bytes
    rw [heq] at hlen hfront ⊢
    dsimp only at hlen hfront ⊢
    rw [hsize, tsub_self, Nat.zero_min, replicate_zero, append_nil, length_append, hlen]
    have hzeroWord : s < d.frac → d.buf (roundUp d.intg + s / 9) = 0 := fun hlt => by
      by_contra hne
      refine hslip ⟨hlt, hsize, ?_⟩
      rwa [words, show roundUp d.intg + roundUp d.frac - 1 = roundUp d.intg + s / 9 by omega]
    rcases lt_trichotomy (d.frac / 9) (s / 9) with hlt | hsame | hgt
    · -- seven or eight digits in the place of nine
      have hx : d.frac % 9 < 9 := mod_lt _ (by norm_num)
      have hbytes : dig2bytes (d.frac % 9) = dig2bytes 9 := by
        rw [dig2bytes_eq hx]
        change _ = 4
        omega
      have hwiden := widenGroup_eq _ hx 9 le_rfl (by omega) hbytes
      rw [if_pos hlt]
      obtain ⟨hlast, hvalue⟩ := storeLast_spec hd (k := d.frac / 9) (by omega) (by omega) le_rfl
        (hwiden.trans (max_eq_right hx.le)) hbytes
      have hwords : d.shifted (s / 9) = d.shifted (d.frac / 9) * digBase +
          d.buf (roundUp d.intg + d.frac / 9) := by
        rw [← hd.shifted_succ (by omega), show d.frac / 9 + 1 = s / 9 by omega]
      have hnine : dig2bytes 9 = 4 := rfl
      rw [hlast]
      refine ⟨by omega, whole_spec hd (by omega) ?_⟩
      refine Int.natCast_inj.mp ?_
      rw [ofBytes_append, hfront, hlast, hnine, Nat.cast_add, Nat.cast_mul, Nat.cast_pow,
        Nat.cast_ofNat, hvalue, hwords, packWords_mul_add (hd.shifted_nonneg _) (hword (by omega)),
        tsub_self, pow_zero, Int.ediv_one]
    · rw [if_neg (by omega), hsame]
      rw [hsame] at hfront
      by_cases hzero : d.frac % 9 = 0
      · rw [hzero, hnil, length_nil, append_nil]
        exact ⟨by omega, whole_spec hd (by omega) hfront⟩
      have hbytes : dig2bytes (d.frac % 9) = dig2bytes (s % 9) := by omega
      have hwiden := widenGroup_eq _ (mod_lt d.frac (by norm_num)) (s % 9) hmod.le hzero hbytes
      rcases lt_or_ge (s % 9) (d.frac % 9) with hmore | hless
      · -- a group of zeros
        obtain ⟨hlast, hvalue⟩ := storeLast_spec hd (k := s / 9) (by omega) hzero
          (show d.frac % 9 ≤ 9 by omega) (hwiden.trans (max_eq_left hmore.le)) rfl
        have hgroup := hzeroWord (by omega)
        rw [hgroup, Int.zero_ediv] at hvalue
        rw [hbytes] at hlast
        exact ⟨by omega, group_spec hd hfront hlast ⟨le_rfl, by positivity⟩ hvalue
          (scaled_of_zero hd (by omega) hgroup)⟩
      · obtain ⟨hlast, hvalue⟩ := storeLast_spec hd (k := s / 9) (by omega) hzero hmod.le
          (hwiden.trans (max_eq_right hless)) hbytes
        refine ⟨by omega, group_spec hd hfront hlast (word_div_mem (hword (by omega)) hmod.le)
          hvalue ?_⟩
        rw [← hd.scaled_eq (by omega) hmod.le, hsplit]
    · -- a word of zeros in the place of seven or eight digits
      have hzero : d.frac % 9 = 0 := by omega
      have hgroup := hzeroWord (by omega)
      have hwords : d.shifted (d.frac / 9) = d.shifted (s / 9) * digBase + 0 := by
        rw [← hgroup, ← hd.shifted_succ (by omega), show s / 9 + 1 = d.frac / 9 by omega]
      have hbytes : dig2bytes (s % 9) = 4 := by
        rw [dig2bytes_eq hmod]
        omega
      rw [hzero, hnil, length_nil, append_nil, hfront, scaled_of_zero hd (by omega) hgroup,
        binCode_eq (hd.shifted_nonneg _) ⟨le_rfl, by positivity⟩, hwords,
        packWords_mul_add (hd.shifted_nonneg _) ⟨le_rfl, digBase_pos⟩, hbytes]
      exact ⟨by omega, rfl⟩
  · -- zero bytes behind the words
    rw [heq] at hlen hfront ⊢
    dsimp only at hlen hfront ⊢
    have hcount : min (digitBytes s - digitBytes d.frac)
        (isize0 + digitBytes s - (isize0 + 4 * roundUp d.frac)) =
        4 * (s / 9 - roundUp d.frac) + dig2bytes (s % 9) := by omega
    have hwords : d.shifted (s / 9) =
        d.shifted (roundUp d.frac) * digBase ^ (s / 9 - roundUp d.frac) := by
      rw [shifted_of_le hle, shifted_of_le le_rfl, tsub_self, pow_zero, mul_one]
    have hscaled := scaled_of_ge hle (s % 9)
    rw [hsplit, ← add_zero (d.shifted (s / 9) * 10 ^ (s % 9))] at hscaled
    rw [hnil, append_nil, hlen, hcount, length_append, length_replicate, hlen,
      hscaled, binCode_eq (hd.shifted_nonneg _) ⟨le_rfl, by positivity⟩, ofBytes_append,
      ofBytes_replicate_zero, length_replicate, hfront, hwords,
      packWords_mul_pow (hd.shifted_nonneg _), pow_add]
    refine ⟨by omega, ?_⟩
    push_cast
    ring

end

/-! ### `decimal2bin` -/

theorem binFraction_zero (s : ℕ) : binFraction s 0 = (0, 0, digitBytes s, false) := by
  have hzero : digitBytes 0 = 0 := rfl
  simp [binFraction, hzero]

theorem decimal2bin_eq {s : ℕ} (hintg : (removeLeadingZeroes d).2 ≤ p - s) :
    let r := removeLeadingZeroes d
    let b := binFraction s d.frac
    let pos := if r.2 % 9 ≠ 0 then r.1 + 1 else r.1
    let out := replicate (digitBytes (p - s) - digitBytes r.2) 0 ++
      storeFirst false d.buf r.1 (r.2 % 9) ++ storeWords false d.buf pos (r.2 / 9 + b.1) ++
      storeLast false d.buf (pos + (r.2 / 9 + b.1)) b.2.1 (if b.1 < s / 9 then 9 else s % 9)
    let trail := min (b.2.2.1 - digitBytes d.frac) (decimalBinSize p s - out.length)
    decimal2bin d p s = (if b.2.2.2 then .truncated else .ok,
      flipSign (maskBytes (if r.2 + digitBytes d.frac = 0 then false else d.sign)
        (out ++ replicate trail 0))) := by
  simp only [maskBytes_append, maskBytes_replicate, maskBytes_storeFirst, maskBytes_storeWords,
    maskBytes_storeLast, decimal2bin, decide_eq_true_eq]
  generalize removeLeadingZeroes d = r at hintg ⊢
  by_cases hzero : r.2 + digitBytes d.frac = 0
  · -- a zero without digits: no word is read
    have hdigits := digitBytes_eq d.frac
    have hfrac : d.frac = 0 := by omega
    have hintg' : r.2 = 0 := by omega
    simp [hfrac, hintg', binFraction_zero, storeFirst, storeWords, storeLast, digitBytes]
  have hlen : ∀ (pos k x lim lead : ℕ), (replicate lead (maskByte d.sign) ++
      storeFirst d.sign d.buf r.1 (r.2 % 9) ++ storeWords d.sign d.buf pos k ++
      storeLast d.sign d.buf (pos + k) x lim).length = (replicate lead (0 : UInt8) ++
      storeFirst false d.buf r.1 (r.2 % 9) ++ storeWords false d.buf pos k ++
      storeLast false d.buf (pos + k) x lim).length := fun pos k x lim lead => by
    rw [← maskBytes_replicate, ← maskBytes_storeFirst d.sign, ← maskBytes_storeWords d.sign,
      ← maskBytes_storeLast d.sign, ← maskBytes_append, ← maskBytes_append, ← maskBytes_append,
      length_maskBytes]
  simp only [if_neg hzero, if_neg (not_lt.mpr hintg), hlen]

/-- The mask that `decimal2bin` takes: a zero without digits behind the point has no sign. -/
def Decimal.StoredMask (d : Decimal) (mask : Bool) : Prop :=
  mask = d.sign ∧ (d.magnitude ≠ 0 ∨ d.frac ≠ 0) ∨ mask = false ∧ d.magnitude = 0 ∧ d.frac = 0

theorem decimal2bin_spec (hd : d.WellFormed) {s : ℕ} (hlt : d.magnitude < 10 ^ (p - s))
    (hslip : ¬ d.GroupSlip s) :
    (decimal2bin d p s).1 = (if digitBytes s < digitBytes d.frac then .truncated else .ok) ∧
      ∃ mask l, d.StoredMask mask ∧ (decimal2bin d p s).2 = flipSign (maskBytes mask l) ∧
        l.length = decimalBinSize p s ∧ ofBytes l = binCode s (d.scaled s).toNat := by
  have hfirst := removeLeadingZeroes_spec hd
  have hintg := hfirst.intg_le hd hlt
  obtain ⟨hfrac, htruncated⟩ := binFraction_le s d.frac
  obtain ⟨hlen, hvalue⟩ := hfirst.bytes hd hfrac (digitBytes_mono hintg)
  have hend : (if (removeLeadingZeroes d).2 % 9 ≠ 0 then (removeLeadingZeroes d).1 + 1
      else (removeLeadingZeroes d).1) + ((removeLeadingZeroes d).2 / 9 + (binFraction s d.frac).1) =
      roundUp d.intg + (binFraction s d.frac).1 := by
    have hwords := hfirst.words
    have hround : roundUp (removeLeadingZeroes d).2 = ((removeLeadingZeroes d).2 + 9 - 1) / 9 := rfl
    split <;> omega
  obtain ⟨hlen', hvalue'⟩ := binTail_spec hd hslip hlen hvalue
  rw [decimal2bin_eq hintg]
  rw [hend, htruncated]
  refine ⟨by simp only [decide_eq_true_eq], _, _, ?_, rfl, hlen', by exact_mod_cast hvalue'⟩
  by_cases hzero : (removeLeadingZeroes d).2 + digitBytes d.frac = 0
  · rw [if_pos hzero]
    -- no digits at all
    have hdigits := digitBytes_eq d.frac
    have hwords := hfirst.words
    have hnone : (removeLeadingZeroes d).2 = 0 := by omega
    rw [hnone, roundUp_zero, add_zero] at hwords
    have hfrac : d.frac = 0 := by omega
    have hfrac0 : roundUp d.frac = 0 := by
      rw [hfrac]
      rfl
    refine .inr ⟨rfl, ?_, hfrac⟩
    rw [magnitude, words, hfrac0, add_zero,
      radix_eq_zero fun i _ hi => hfirst.zeros i (by omega), Int.cast_zero, zero_div]
  · rw [if_neg hzero]
    refine .inl ⟨rfl, ?_⟩
    by_contra hno
    rw [not_or, not_not, not_not] at hno
    have hnone := hfirst.intg_le (n := 0) hd (by rw [hno.1]; norm_num)
    have hbytes : digitBytes d.frac = 0 := by
      rw [hno.2]
      rfl
    omega

/-! ### The order of the codes -/

theorem packWords_strictMono : StrictMono packWords := recode_strictMono (by norm_num) (by norm_num)

theorem mod_pow_lt (s n : ℕ) : n % 10 ^ (s % 9) < 256 ^ dig2bytes (s % 9) := by
  have hle : 10 ^ (s % 9) ≤ 256 ^ dig2bytes (s % 9) := by
    exact_mod_cast pow_le_dig2bytes (mod_lt s (by norm_num)).le
  exact (mod_lt n (by positivity)).trans_le hle

theorem binCode_strictMono (s : ℕ) : StrictMono (binCode s) := by
  intro m n hlt
  have hm := div_add_mod m (10 ^ (s % 9))
  have hn := div_add_mod n (10 ^ (s % 9))
  rw [binCode, binCode]
  rcases eq_or_lt_of_le (Nat.div_le_div_right hlt.le : m / 10 ^ (s % 9) ≤ _) with heq | hless
  · rw [heq] at hm ⊢
    omega
  · exact leading_lt (packWords_strictMono hless) (mod_pow_lt s m)

theorem two_mul_pow_le (hr : 1 ≤ r) (hr' : r ≤ 9) : 2 * 10 ^ r ≤ 256 ^ dig2bytes r := by
  have : ∀ i ≤ 9, 1 ≤ i → 2 * 10 ^ i ≤ 256 ^ dig2bytes i := by decide
  exact this r hr' hr

theorem two_mul_packWords_lt {n : ℕ} (hr : 1 ≤ r) (hr' : r ≤ 9) (hn : n < 10 ^ (r + 9 * k)) :
    2 * packWords n < 256 ^ (dig2bytes r + 4 * k) := by
  have hlt : packWords n < 10 ^ r * (2 ^ 32) ^ k := by
    refine recode_lt (by norm_num) (by norm_num) ?_ (hn.trans_eq ?_)
    · exact (Nat.pow_le_pow_right (by norm_num) hr').trans_eq (by norm_num)
    · rw [pow_add, pow_mul]
      norm_num
  have hle := two_mul_pow_le hr hr'
  calc 2 * packWords n < 2 * 10 ^ r * (2 ^ 32) ^ k := by
        rw [mul_assoc]
        exact mul_lt_mul_of_pos_left hlt (by norm_num)
    _ ≤ 256 ^ dig2bytes r * (2 ^ 32) ^ k := mul_le_mul_right _ hle
    _ = 256 ^ (dig2bytes r + 4 * k) := by
      rw [pow_add, pow_mul]
      norm_num

theorem two_mul_binCode_lt {s n : ℕ} (hs : s ≤ p) (hp : 1 ≤ p) (hn : n < 10 ^ p) :
    2 * binCode s n < 256 ^ decimalBinSize p s := by
  have hmod : s % 9 < 9 := mod_lt s (by norm_num)
  have hsize : decimalBinSize p s = (p - s) / 9 * 4 + dig2bytes ((p - s) % 9) +
      (s / 9 * 4 + dig2bytes (s % 9)) := rfl
  have hzero : dig2bytes 0 = 0 := rfl
  have hnine : dig2bytes 9 = 4 := rfl
  -- the words, and their number of digits
  have hwords : n / 10 ^ (s % 9) < 10 ^ (p - s % 9) := by
    rw [Nat.div_lt_iff_lt_mul (by positivity), ← pow_add, Nat.sub_add_cancel (by omega)]
    exact hn
  have hcode : ∀ {e}, 2 * packWords (n / 10 ^ (s % 9)) < 256 ^ e → e ≠ 0 →
      2 * binCode s n < 256 ^ (e + dig2bytes (s % 9)) := fun {e} hlt he => by
    have heven : 256 ^ e % 2 = 0 := mod_eq_zero_of_dvd (dvd_pow (by norm_num) he)
    have hlast := mod_pow_lt s n
    have hround : 2 * (packWords (n / 10 ^ (s % 9)) + 1) ≤ 256 ^ e := by omega
    calc 2 * binCode s n < 2 * (packWords (n / 10 ^ (s % 9)) + 1) * 256 ^ dig2bytes (s % 9) := by
          rw [binCode, mul_assoc, add_mul, one_mul]
          omega
      _ ≤ 256 ^ e * 256 ^ dig2bytes (s % 9) := mul_le_mul_right _ hround
      _ = 256 ^ (e + dig2bytes (s % 9)) := (pow_add _ _ _).symm
  by_cases hfirst : (p - s) % 9 = 0
  · rcases Nat.eq_zero_or_pos ((p - s) / 9 + s / 9) with hnone | hsome
    · -- no words at all
      have hnil : n / 10 ^ (s % 9) = 0 := div_eq_of_lt (by rwa [show s % 9 = p by omega])
      have hlast := two_mul_pow_le (r := s % 9) (by omega) hmod.le
      have hlt := mod_lt n (show 0 < 10 ^ (s % 9) by positivity)
      rw [binCode, hnil, hsize, hfirst, hzero]
      have hpack : packWords 0 = 0 := recode_of_lt (by norm_num) (by norm_num)
      rw [hpack, zero_mul, zero_add]
      rw [show (p - s) / 9 * 4 + 0 + (s / 9 * 4 + dig2bytes (s % 9)) = dig2bytes (s % 9) by omega]
      omega
    · obtain ⟨k, hk⟩ : ∃ k, (p - s) / 9 + s / 9 = k + 1 := ⟨_, (succ_pred_eq_of_pos hsome).symm⟩
      have hlt := two_mul_packWords_lt (r := 9) (k := k) (by omega) le_rfl
        (by rwa [show 9 + 9 * k = p - s % 9 by omega])
      have hbytes := hcode hlt (by omega)
      rwa [show dig2bytes 9 + 4 * k + dig2bytes (s % 9) = decimalBinSize p s by
        rw [hsize, hfirst]; omega] at hbytes
  · have hdigits := dig2bytes_eq (mod_lt (p - s) (show 0 < 9 by norm_num))
    have hlt := two_mul_packWords_lt (r := (p - s) % 9) (k := (p - s) / 9 + s / 9) (by omega)
      (by omega) (by rwa [show (p - s) % 9 + 9 * ((p - s) / 9 + s / 9) = p - s % 9 by omega])
    have hbytes := hcode hlt (by omega)
    rwa [show dig2bytes ((p - s) % 9) + 4 * ((p - s) / 9 + s / 9) + dig2bytes (s % 9) =
      decimalBinSize p s by rw [hsize]; omega] at hbytes

theorem decimalBinSize_pos {s : ℕ} (hs : s ≤ p) (hp : 1 ≤ p) : 0 < decimalBinSize p s := by
  rw [decimalBinSize, digitBytes_eq, digitBytes_eq]
  omega

theorem decimal2bin_number (hd : d.WellFormed) {s : ℕ} (hs : s ≤ p) (hp : 1 ≤ p)
    (hlt : d.magnitude < 10 ^ (p - s)) (hslip : ¬ d.GroupSlip s) :
    ∃ mask, d.StoredMask mask ∧ (decimal2bin d p s).2.length = decimalBinSize p s ∧
      (ofBytes (decimal2bin d p s).2 : ℤ) =
        256 ^ decimalBinSize p s / 2 + xorMask mask (binCode s (d.scaled s).toNat) := by
  obtain ⟨-, mask, l, hmask, hbytes, hlen, hvalue⟩ := decimal2bin_spec hd hlt hslip
  have hpos := decimalBinSize_pos hs hp
  have hscaled : (d.scaled s).toNat < 10 ^ p := by
    have hdigits := scaled_lt (s := s) hlt
    rw [Nat.sub_add_cancel hs] at hdigits
    have hnonneg := hd.scaled_nonneg s
    zify
    rwa [Int.toNat_of_nonneg hnonneg]
  have hcode := two_mul_binCode_lt hs hp hscaled
  refine ⟨mask, hmask, by rw [hbytes, length_flipSign, length_maskBytes, hlen], ?_⟩
  rw [hbytes, ofBytes_flipSign_maskBytes mask (ne_nil_of_length_pos (by omega))
    (by rwa [hlen, hvalue]), hlen, hvalue]

/-! ### `memcmp` -/

theorem sign_sub_congr {x y : ℤ} {u v : ℚ} (hlt : x < y ↔ u < v) (hgt : y < x ↔ v < u) :
    SignType.sign (x - y) = SignType.sign (u - v) := by
  rcases lt_trichotomy x y with h | h | h
  · rw [sign_neg (sub_neg.mpr h), sign_neg (sub_neg.mpr (hlt.mp h))]
  · have heq : u = v := le_antisymm (not_lt.mp fun h' => (hgt.mpr h').ne' h)
      (not_lt.mp fun h' => (hlt.mpr h').ne h)
    rw [h, heq, sub_self, sub_self, sign_zero, sign_zero]
  · rw [sign_pos (sub_pos.mpr h), sign_pos (sub_pos.mpr (hgt.mp h))]

theorem xorMask_lt_iff {sa sb : Bool} {s m n : ℕ} {u v : ℚ} (hu : u = m / (10 : ℚ) ^ s)
    (hv : v = n / (10 : ℚ) ^ s) (hzu : sa = true → 0 < u) (hzv : sb = true → 0 < v) :
    xorMask sa (binCode s m) < xorMask sb (binCode s n) ↔ signed sa u < signed sb v := by
  have hpow : (0 : ℚ) < 10 ^ s := by positivity
  have hcode : ∀ {i j : ℕ}, binCode s i < binCode s j ↔ (i : ℚ) / 10 ^ s < j / 10 ^ s :=
    fun {i j} => by
      rw [(binCode_strictMono s).lt_iff_lt, div_lt_div_iff_of_pos_right hpow, Nat.cast_lt]
  have hnonneg : 0 ≤ u ∧ 0 ≤ v := by
    rw [hu, hv]
    exact ⟨by positivity, by positivity⟩
  cases sa <;> cases sb
  · change (binCode s m : ℤ) < binCode s n ↔ u < v
    rw [Nat.cast_lt, hcode, hu, hv]
  · change (binCode s m : ℤ) < -1 - binCode s n ↔ u < -v
    have := hzv rfl
    exact iff_of_false (by omega) (by linarith [hnonneg.1])
  · change -1 - (binCode s m : ℤ) < binCode s n ↔ -u < v
    have := hzu rfl
    exact iff_of_true (by omega) (by linarith [hnonneg.2])
  · change -1 - (binCode s m : ℤ) < -1 - binCode s n ↔ -u < -v
    rw [sub_lt_sub_iff_left, neg_lt_neg_iff, Nat.cast_lt, hcode, hu, hv]

/-- A decimal whose digits fit into the format, and that is not a negative zero. -/
structure Decimal.Storable (d : Decimal) (p s : ℕ) : Prop where
  wellFormed : d.WellFormed
  notNegativeZero : ¬ d.NegativeZero
  intg_lt : |d.value| < 10 ^ (p - s)
  frac_le : d.frac ≤ s

theorem Decimal.Storable.number {s : ℕ} (h : d.Storable p s) (hs : s ≤ p) (hp : 1 ≤ p) :
    (decimal2bin d p s).2.length = decimalBinSize p s ∧ (ofBytes (decimal2bin d p s).2 : ℤ) =
        256 ^ decimalBinSize p s / 2 + xorMask d.sign (binCode s (d.scaled s).toNat) ∧
      d.magnitude = (d.scaled s).toNat / (10 : ℚ) ^ s ∧ (d.sign = true → 0 < d.magnitude) := by
  have hlt : d.magnitude < 10 ^ (p - s) := h.wellFormed.abs_value_eq ▸ h.intg_lt
  obtain ⟨mask, hmask, hlen, hvalue⟩ := decimal2bin_number h.wellFormed hs hp hlt
    fun hslip => absurd hslip.1 (not_lt.mpr h.frac_le)
  have hsign : mask = d.sign := by
    rcases hmask with ⟨heq, -⟩ | ⟨heq, hzero, -⟩
    · exact heq
    rw [heq]
    cases hd : d.sign
    · rfl
    · exact absurd ⟨hd, hzero⟩ h.notNegativeZero
  rw [hsign] at hvalue
  refine ⟨hlen, hvalue, ?_, fun hneg => ?_⟩
  · have hcast : (((d.scaled s).toNat : ℤ) : ℚ) = d.scaled s := by
      rw [Int.toNat_of_nonneg (h.wellFormed.scaled_nonneg s)]
    rw [h.wellFormed.magnitude_eq_scaled h.frac_le, ← hcast, Int.cast_natCast]
  · exact lt_of_le_of_ne h.wellFormed.magnitude_nonneg fun hzero =>
      h.notNegativeZero ⟨hneg, hzero.symm⟩

/-- The binary format keeps the order: `memcmp` of the bytes is `decimal_cmp` of the decimals. -/
theorem decimal2bin_order {p s : ℕ} (hs : s ≤ p) (hp : 1 ≤ p) {a b : Decimal}
    (ha : a.Storable p s) (hb : b.Storable p s) :
    let x := (decimal2bin a p s).2
    let y := (decimal2bin b p s).2
    x.length = decimalBinSize p s ∧ y.length = decimalBinSize p s ∧
      SignType.sign (memcmp x y) = SignType.sign (a.value - b.value) ∧
      decimalCmp a b = SignType.sign (a.value - b.value) ∧ (x = y ↔ a.value = b.value) := by
  obtain ⟨hlenA, hvalueA, hmagA, hposA⟩ := ha.number hs hp
  obtain ⟨hlenB, hvalueB, hmagB, hposB⟩ := hb.number hs hp
  intro x y
  have hlen : x.length = y.length := hlenA.trans hlenB.symm
  have hsign : SignType.sign (memcmp x y) = SignType.sign (a.value - b.value) := by
    rw [sign_memcmp hlen, hvalueA, hvalueB, add_sub_add_left_eq_sub]
    exact sign_sub_congr (xorMask_lt_iff hmagA hmagB hposA hposB)
      (xorMask_lt_iff hmagB hmagA hposB hposA)
  refine ⟨hlenA, hlenB, hsign, decimalCmp_eq_sign ha.wellFormed hb.wellFormed ha.notNegativeZero
    hb.notNegativeZero, fun heq => ?_, fun heq => ?_⟩
  · rw [sign_memcmp hlen, heq, sub_self, sign_zero, eq_comm, sign_eq_zero_iff] at hsign
    exact sub_eq_zero.mp hsign
  · rw [sign_memcmp hlen, heq, sub_self, sign_zero, sign_eq_zero_iff, sub_eq_zero] at hsign
    exact ofBytes_inj hlen (by exact_mod_cast hsign)

theorem Decimal.ofWord_storable {w : ℤ} (hw : 0 ≤ w ∧ w < digBase) {s : ℕ} (h : 9 ≤ p - s) :
    (ofWord w).Storable p s := by
  have hwf := ofWord_wellFormed hw
  refine ⟨hwf, fun hneg => Bool.false_ne_true hneg.1, ?_, zero_le⟩
  rw [hwf.abs_value_eq]
  exact hwf.magnitude_lt_pow.trans_le (pow_le_pow_right₀ (by norm_num) h)

theorem decimal2bin_order_seven :
    (ofWord 7).Storable 11 2 ∧ (ofWord 2).Storable 11 2 ∧
      SignType.sign (memcmp (decimal2bin (.ofWord 7) 11 2).2 (decimal2bin (.ofWord 2) 11 2).2) =
        SignType.sign ((ofWord 7).value - (ofWord 2).value) := by
  have ha := ofWord_storable (w := 7) (p := 11) (s := 2) (by decide) (by decide)
  have hb := ofWord_storable (w := 2) (p := 11) (s := 2) (by decide) (by decide)
  exact ⟨ha, hb, (decimal2bin_order (by decide) (by decide) ha hb).2.2.1⟩

end LibSources
