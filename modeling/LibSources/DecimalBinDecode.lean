import LibSources.DecimalBinEncode

/-!
# The Round Trip of the Binary Format

`bin2decimal` reads the groups of the format back: the words are the ones that `decimal2bin` has
stored, without zero words in front.

`decimal2bin` chooses the bytes of the last group by the number of bytes only. A fraction with
more digits than the scale in as many bytes is stored with all its digits, and these are read as
if they were fewer: `Decimal.GroupSlip`.

## Main results

* `bin2decimal_decimal2bin`: the round trip.
-/

namespace LibSources

open Nat Decimal Function List

/-! ### Groups of bytes -/

theorem flipSign_flipSign (l : List UInt8) : flipSign (flipSign l) = l := by
  cases l with
  | nil => rfl
  | cons b l => rw [flipSign, flipSign, UInt8.xor_assoc, UInt8.xor_self, UInt8.xor_zero]

theorem window_flipSign (mem : ℕ → UInt8) {n : ℕ} (hn : 0 < n) :
    window (update mem 0 (mem 0 ^^^ 0x80)) 0 n = flipSign (window mem 0 n) := by
  obtain ⟨k, rfl⟩ := exists_eq_succ_of_ne_zero hn.ne'
  rw [window_succ, window_succ, flipSign, update_self]
  refine congrArg _ (window_congr fun j hj _ => ?_)
  rw [update_of_ne (by omega)]

theorem ofBytes_group {l1 l2 l3 : List UInt8} :
    ofBytes (l1 ++ (l2 ++ l3)) / 256 ^ l3.length % 256 ^ l2.length = ofBytes l2 := by
  have hpos : ∀ n : ℕ, 0 < 256 ^ n := fun n => by positivity
  have hsplit : ofBytes (l1 ++ (l2 ++ l3)) =
      256 ^ l3.length * (256 ^ l2.length * ofBytes l1 + ofBytes l2) + ofBytes l3 := by
    rw [ofBytes_append, ofBytes_append, length_append, pow_add]
    ring
  rw [hsplit, mul_add_div (hpos _), div_eq_of_lt (ofBytes_lt l3), add_zero,
    mul_add_mod, mod_eq_of_lt (ofBytes_lt l2)]

section

variable {mem : ℕ → UInt8} {mask : Bool} {l : List UInt8}
  (h : window mem 0 l.length = maskBytes mask l) {o i rest : ℕ} (ho : o + (i + rest) = l.length)
  (hi : 0 < i)
include h ho hi

theorem xorMask_miSintKorr :
    xorMask mask (miSintKorr mem o i) =
      Int.bmod (ofBytes l / 256 ^ rest % 256 ^ i : ℕ) (256 ^ i) := by
  -- the bytes before the group, of the group and behind it
  obtain ⟨l1, l', rfl, hl1⟩ : ∃ l1 l', l = l1 ++ l' ∧ l1.length = o :=
    ⟨l.take o, l.drop o, (take_append_drop o l).symm, by rw [length_take]; omega⟩
  rw [length_append] at ho
  obtain ⟨l2, l3, rfl, hl2⟩ : ∃ l2 l3, l' = l2 ++ l3 ∧ l2.length = i :=
    ⟨l'.take i, l'.drop i, (take_append_drop i l').symm, by rw [length_take]; omega⟩
  rw [length_append] at ho
  have hl3 : l3.length = rest := by omega
  subst hl1 hl2 hl3
  rw [ofBytes_group]
  have hwindow : window mem l1.length l2.length = maskBytes mask l2 := by
    rw [maskBytes_append, maskBytes_append] at h
    have h' := (window_eq_append h).2
    rw [length_maskBytes, zero_add] at h'
    have h'' := (window_eq_append h').1
    rwa [length_maskBytes] at h''
  change _ = signedOfBytes l2
  rw [miSintKorr, hwindow]
  cases mask
  · rfl
  change -1 - signedOfBytes (l2.map (~~~ ·)) = _
  rw [signedOfBytes_not (ne_nil_of_length_pos hi)]
  omega

theorem miSintKorr_eq (hlt : 2 * (ofBytes l / 256 ^ rest % 256 ^ i) < 256 ^ i) :
    xorMask mask (miSintKorr mem o i) = ((ofBytes l / 256 ^ rest % 256 ^ i : ℕ) : ℤ) := by
  rw [xorMask_miSintKorr h ho hi]
  generalize ofBytes l / 256 ^ rest % 256 ^ i = g at *
  generalize 256 ^ i = N at *
  rw [Int.bmod_def, Int.emod_eq_of_lt (by omega) (by omega)]
  split <;> omega

end

/-! ### The reader -/

section

variable (words m : ℕ)

def wordsAbove : ℕ := words / 1000000000 ^ m

def wordAt : ℕ := words / 1000000000 ^ m % 1000000000

theorem wordsAbove_succ :
    wordsAbove words m = wordsAbove words (m + 1) * 1000000000 + wordAt words m := by
  have h := div_add_mod (words / 1000000000 ^ m) 1000000000
  rw [Nat.div_div_eq_div_mul, ← pow_succ] at h
  rw [wordsAbove, wordsAbove, wordAt]
  omega

theorem wordAt_lt : wordAt words m < 1000000000 := mod_lt _ (by norm_num)

theorem wordAt_mem : 0 ≤ (wordAt words m : ℤ) ∧ (wordAt words m : ℤ) < digBase := by
  have hlt := wordAt_lt words m
  have hbase : digBase = 1000000000 := rfl
  omega

end

/-- The state before `m` words of the integer part and `f` words of the fraction: the words in
front of them have been read, and `intg` counts their digits and those to come. -/
structure BinReader.Integer (r : BinReader) (size words m f : ℕ) : Prop where
  src_eq : r.src + 4 * (m + f) = size
  range : InRange digBase r.buf 0 r.dst
  value : radix digBase r.buf 0 r.dst = (wordsAbove words (m + f) : ℤ)
  intg_ge : 9 * m ≤ r.intg
  dst_eq : roundUp (r.intg - 9 * m) = r.dst
  lt : wordsAbove words (m + f) < 10 ^ (r.intg - 9 * m)

structure BinReader.Fraction (r : BinReader) (size words f : ℕ) : Prop where
  src_eq : r.src + 4 * f = size
  range : InRange digBase r.buf 0 r.dst
  value : radix digBase r.buf 0 r.dst = (wordsAbove words f : ℤ)

section

variable {size words m f : ℕ} {r : BinReader}

theorem append_word {buf : ℕ → ℤ} {dst k : ℕ} (hrange : InRange digBase buf 0 dst)
    (hvalue : radix digBase buf 0 dst = (wordsAbove words (k + 1) : ℤ)) :
    InRange digBase (update buf dst (wordAt words k)) 0 (dst + 1) ∧
      radix digBase (update buf dst (wordAt words k)) 0 (dst + 1) = (wordsAbove words k : ℤ) := by
  constructor
  · refine InRange.succ ?_ ?_
    · exact hrange.congr fun i _ hi => update_of_ne (by omega) _ _
    · rw [zero_add, update_self]
      exact wordAt_mem words k
  · rw [radix_succ, zero_add, update_self, radix_update (.inr (by omega)), hvalue,
      wordsAbove_succ words k]
    rfl

theorem BinReader.Integer.keep (h : r.Integer size words (m + 1) f) :
    (r.keep (wordAt words (m + f)) 4 9).Integer size words m f := by
  have hsrc := h.src_eq
  have hge := h.intg_ge
  have hlt := h.lt
  have hvalue := h.value
  have hcount : m + 1 + f = m + f + 1 := by omega
  rw [hcount] at hlt hvalue
  rw [BinReader.keep]
  by_cases hkeep : 0 < r.dst ∨ (wordAt words (m + f) : ℤ) ≠ 0
  · obtain ⟨hrange', hvalue'⟩ := append_word h.range hvalue
    rw [if_pos hkeep]
    refine ⟨by dsimp only; omega, hrange', hvalue', by dsimp only; omega, ?_, ?_⟩
    · have hdst := h.dst_eq
      dsimp only
      rw [roundUp] at hdst ⊢
      omega
    have hword := wordAt_lt words (m + f)
    have hexp : r.intg - 9 * m = r.intg - 9 * (m + 1) + 9 := by omega
    rw [wordsAbove_succ, hexp, pow_add]
    omega
  -- a zero before the number
  have hzero : r.dst = 0 := by omega
  have hword : wordAt words (m + f) = 0 := by omega
  have habove : wordsAbove words (m + f) = 0 := by
    rw [hzero, radix_zero] at hvalue
    rw [wordsAbove_succ, hword]
    omega
  rw [if_neg hkeep]
  refine ⟨by dsimp only; omega, ?_, ?_, by dsimp only; omega, ?_, ?_⟩
  · rw [hzero]
    exact fun i _ hi => by omega
  · rw [hzero, radix_zero, habove]
    rfl
  · have hdst := h.dst_eq
    rw [show r.intg - 9 - 9 * m = r.intg - 9 * (m + 1) by omega]
    exact hdst
  · rw [habove]
    positivity

variable {mem : ℕ → UInt8} {mask : Bool}

theorem readInts_spec (hread : ∀ o j, o + 4 * (j + 1) = size →
      xorMask mask (miSintKorr mem o 4) = wordAt words j) (h : r.Integer size words m f) :
    ∃ r', readInts mem mask m r = .ok r' ∧ r'.Integer size words 0 f := by
  induction m generalizing r with
  | zero => exact ⟨r, rfl, h⟩
  | succ m ih =>
    have hword := hread r.src (m + f) (by have := h.src_eq; omega)
    have hmem := wordAt_lt words (m + f)
    have hmax : digMax = 999999999 := rfl
    obtain ⟨r', hrun, hr'⟩ := ih h.keep
    refine ⟨r', ?_, hr'⟩
    rw [readInts, hword, if_neg (by omega), hrun]

theorem readFracs_spec (hread : ∀ o j, o + 4 * (j + 1) = size →
      xorMask mask (miSintKorr mem o 4) = wordAt words j) (h : r.Fraction size words f) :
    ∃ r', readFracs mem mask f r = .ok r' ∧ r'.Fraction size words 0 ∧ r'.intg = r.intg ∧
      r'.dst = r.dst + f := by
  induction f generalizing r with
  | zero => exact ⟨r, rfl, h, rfl, rfl⟩
  | succ f ih =>
    have hword := hread r.src f h.src_eq
    have hmem := wordAt_lt words f
    have hmax : digMax = 999999999 := rfl
    obtain ⟨hrange, hvalue⟩ := append_word h.range h.value
    obtain ⟨r', hrun, hr', hintg, hdst⟩ := @ih
      { r with src := r.src + 4, buf := update r.buf r.dst (wordAt words f), dst := r.dst + 1 }
      ⟨by have := h.src_eq; dsimp only; omega, hrange, hvalue⟩
    refine ⟨r', ?_, hr', hintg, by rw [hdst]; dsimp only; omega⟩
    rw [readFracs, hword, if_neg (by omega), hrun]

end

section

variable {p s n : ℕ}

theorem binCode_div (s n : ℕ) : binCode s n / 256 ^ dig2bytes (s % 9) =
    packWords (n / 10 ^ (s % 9)) := by
  rw [binCode, mul_comm, mul_add_div (by positivity), div_eq_of_lt (mod_pow_lt s n), add_zero]

theorem binCode_word (s n j : ℕ) : binCode s n / 256 ^ (4 * j + dig2bytes (s % 9)) % 256 ^ 4 =
    wordAt (n / 10 ^ (s % 9)) j := by
  have hpow : (256 : ℕ) ^ (4 * j) = (2 ^ 32) ^ j := by
    rw [pow_mul]
    norm_num
  rw [add_comm, pow_add, ← Nat.div_div_eq_div_mul, binCode_div, hpow, packWords,
    recode_div_pow (by norm_num) (by norm_num)]
  exact recode_mod (by norm_num) (by norm_num) _

theorem binCode_first {k x : ℕ} (hx : x ≤ 9) (hn : n / 10 ^ (s % 9) < 10 ^ (x + 9 * k)) :
    binCode s n / 256 ^ (4 * k + dig2bytes (s % 9)) % 256 ^ dig2bytes x =
        wordsAbove (n / 10 ^ (s % 9)) k ∧ wordsAbove (n / 10 ^ (s % 9)) k < 10 ^ x := by
  have hpow : (256 : ℕ) ^ (4 * k) = (2 ^ 32) ^ k := by
    rw [pow_mul]
    norm_num
  have hlt : wordsAbove (n / 10 ^ (s % 9)) k < 10 ^ x := by
    rw [wordsAbove, div_lt_iff_lt_mul (by positivity)]
    refine hn.trans_eq ?_
    rw [pow_add, pow_mul]
    norm_num
  have hbase : 10 ^ x ≤ 1000000000 := (Nat.pow_le_pow_right (by norm_num) hx).trans_eq (by norm_num)
  have hbytes : 10 ^ x ≤ 256 ^ dig2bytes x := by exact_mod_cast pow_le_dig2bytes hx
  refine ⟨?_, hlt⟩
  rw [add_comm, pow_add, ← Nat.div_div_eq_div_mul, binCode_div, hpow, packWords,
    recode_div_pow (by norm_num) (by norm_num), ← wordsAbove, recode_of_lt (by norm_num) (by omega),
    mod_eq_of_lt (by omega)]

theorem binCode_last (s n : ℕ) : binCode s n % 256 ^ dig2bytes (s % 9) = n % 10 ^ (s % 9) := by
  rw [binCode, mul_comm, mul_add_mod, mod_eq_of_lt (mod_pow_lt s n)]

end

/-! ### `bin2decimal` -/

structure HoldsCode (mem : ℕ → UInt8) (mask : Bool) (p s n : ℕ) : Prop where
  lt : n < 10 ^ p
  bytes : ∃ l : List UInt8, window mem 0 l.length = maskBytes mask l ∧
    l.length = decimalBinSize p s ∧ ofBytes l = binCode s n

section

variable {mem : ℕ → UInt8} {mask : Bool} {p s n : ℕ}

section

variable (h : HoldsCode mem mask p s n)
include h

theorem HoldsCode.read (o i rest : ℕ) (ho : o + (i + rest) = decimalBinSize p s) (hi : 0 < i)
    (hlt : 2 * (binCode s n / 256 ^ rest % 256 ^ i) < 256 ^ i) :
    xorMask mask (miSintKorr mem o i) = ((binCode s n / 256 ^ rest % 256 ^ i : ℕ) : ℤ) := by
  obtain ⟨l, hwindow, hlen, hvalue⟩ := h.bytes
  rw [← hvalue] at hlt ⊢
  exact miSintKorr_eq hwindow (by omega) hi hlt

theorem HoldsCode.read_word (o j : ℕ)
    (ho : o + 4 * (j + 1) = decimalBinSize p s - dig2bytes (s % 9)) :
    xorMask mask (miSintKorr mem o 4) = wordAt (n / 10 ^ (s % 9)) j := by
  have hlt := wordAt_lt (n / 10 ^ (s % 9)) j
  have hread := h.read o 4 (4 * j + dig2bytes (s % 9)) (by omega) (by norm_num)
    (by rw [binCode_word]; omega)
  rwa [binCode_word] at hread

theorem HoldsCode.words_lt (hs : s ≤ p) :
    n / 10 ^ (s % 9) < 10 ^ ((p - s) % 9 + 9 * ((p - s) / 9 + s / 9)) := by
  rw [div_lt_iff_lt_mul (by positivity), ← pow_add]
  exact h.lt.trans_eq (by congr 1; omega)

theorem HoldsCode.readFirst_spec (hs : s ≤ p) (buf : ℕ → ℤ) :
    ∃ r, readFirst mem mask ((p - s) % 9) ⟨0, buf, 0, (p - s) / 9 * 9 + (p - s) % 9⟩ = .ok r ∧
      r.Integer (decimalBinSize p s - dig2bytes (s % 9)) (n / 10 ^ (s % 9)) ((p - s) / 9)
        (s / 9) := by
  have hmod : (p - s) % 9 < 9 := mod_lt _ (by norm_num)
  have hsize : decimalBinSize p s = (p - s) / 9 * 4 + dig2bytes ((p - s) % 9) +
      (s / 9 * 4 + dig2bytes (s % 9)) := rfl
  obtain ⟨hcode, hfirst⟩ := binCode_first (s := s) hmod.le (h.words_lt hs)
  set words := n / 10 ^ (s % 9)
  set k := (p - s) / 9 + s / 9 with hk
  rw [readFirst]
  by_cases hzero : (p - s) % 9 = 0
  · have hnone : wordsAbove words k = 0 := by
      rw [hzero, pow_zero] at hfirst
      omega
    have hbytes : dig2bytes 0 = 0 := rfl
    rw [if_neg (not_not.mpr hzero)]
    rw [hzero] at hsize ⊢
    refine ⟨_, rfl, ?_, fun i _ hi => ?_, ?_, by dsimp only; omega, ?_, ?_⟩
    · dsimp only
      omega
    · dsimp only at hi
      omega
    · rw [← hk, hnone, radix_zero, cast_zero]
    · rw [show (p - s) / 9 * 9 + 0 - 9 * ((p - s) / 9) = 0 by omega]
      rfl
    · rw [← hk, hnone]
      positivity
  have hdigits := dig2bytes_eq hmod
  have hbytes := two_mul_pow_le (r := (p - s) % 9) (by omega) hmod.le
  have hword := h.read 0 (dig2bytes ((p - s) % 9)) (4 * k + dig2bytes (s % 9)) (by omega)
    (by omega) (by rw [hcode]; omega)
  rw [hcode] at hword
  have hbase : 10 ^ ((p - s) % 9) ≤ 10 ^ 8 := Nat.pow_le_pow_right (by norm_num) (by omega)
  have hmem : ((wordsAbove words k : ℕ) : ℤ) < 10 ^ ((p - s) % 9) := by exact_mod_cast hfirst
  have hcheck : ¬ powers10 ((p - s) % 9 + 1) ≤ (wordsAbove words k : ℤ) % 2 ^ 64 := by
    rw [powers10, pow_succ]
    omega
  rw [if_pos hzero]
  dsimp only
  rw [hword, if_neg hcheck]
  refine ⟨_, rfl, ?_⟩
  rw [BinReader.keep]
  dsimp only
  by_cases hkeep : (wordsAbove words k : ℤ) ≠ 0
  · rw [if_pos (.inr hkeep)]
    refine ⟨by dsimp only; omega, fun i _ hi => ?_, ?_, by dsimp only; omega, ?_, ?_⟩
    · obtain rfl : i = 0 := by
        dsimp only at hi
        omega
      dsimp only
      rw [update_self]
      have hdig : digBase = 1000000000 := rfl
      omega
    · dsimp only
      rw [zero_add, radix_one, update_self]
    · dsimp only
      rw [show (p - s) / 9 * 9 + (p - s) % 9 - 9 * ((p - s) / 9) = (p - s) % 9 by omega, roundUp]
      omega
    · dsimp only
      rwa [show (p - s) / 9 * 9 + (p - s) % 9 - 9 * ((p - s) / 9) = (p - s) % 9 by omega]
  · have hnone : wordsAbove words k = 0 := by omega
    rw [if_neg (by omega)]
    refine ⟨by dsimp only; omega, fun i _ hi => ?_, ?_, by dsimp only; omega, ?_, ?_⟩
    · dsimp only at hi
      omega
    · rw [← hk, hnone, radix_zero, cast_zero]
    · dsimp only
      rw [show (p - s) / 9 * 9 + (p - s) % 9 - (p - s) % 9 - 9 * ((p - s) / 9) = 0 by omega]
      rfl
    · rw [← hk, hnone]
      positivity

theorem HoldsCode.readLast_spec {r : BinReader}
    (hr : r.Fraction (decimalBinSize p s - dig2bytes (s % 9)) (n / 10 ^ (s % 9)) 0) :
    ∃ r', readLast mem mask (s % 9) r = .ok r' ∧ r'.intg = r.intg ∧
      InRange digBase r'.buf 0 (r.dst + (if s % 9 = 0 then 0 else 1)) ∧
      radix digBase r'.buf 0 (r.dst + (if s % 9 = 0 then 0 else 1)) =
        n * 10 ^ (roundUp s * 9 - s) := by
  have hmod : s % 9 < 9 := mod_lt _ (by norm_num)
  have hround : roundUp s = (s + 9 - 1) / 9 := rfl
  have hvalue := hr.value
  rw [wordsAbove, pow_zero, Nat.div_one] at hvalue
  rw [readLast]
  by_cases hzero : s % 9 = 0
  · rw [if_neg (not_not.mpr hzero), if_pos hzero, add_zero]
    refine ⟨r, rfl, rfl, hr.range, ?_⟩
    rw [hvalue, hzero, show roundUp s * 9 - s = 0 by omega]
    simp
  have hsize : decimalBinSize p s = digitBytes (p - s) + (s / 9 * 4 + dig2bytes (s % 9)) := rfl
  have hdigits := dig2bytes_eq hmod
  have hbytes := two_mul_pow_le (r := s % 9) (by omega) hmod.le
  have hgroup := mod_lt n (show 0 < 10 ^ (s % 9) by positivity)
  have hcode := binCode_last s n
  have hword := h.read r.src (dig2bytes (s % 9)) 0 (by have := hr.src_eq; omega)
    (by omega) (by rw [pow_zero, Nat.div_one, hcode]; omega)
  rw [pow_zero, Nat.div_one, hcode] at hword
  -- the digits of the group as a word
  have hmem : ((n % 10 ^ (s % 9) : ℕ) : ℤ) * 10 ^ (9 - s % 9) < digBase := by
    have hpow : digBase = 10 ^ (s % 9) * 10 ^ (9 - s % 9) := by
      rw [← pow_add, Nat.add_sub_cancel' hmod.le]
      rfl
    rw [hpow]
    exact mul_lt_mul_of_pos_right (by exact_mod_cast hgroup) (by positivity)
  have hnonneg : 0 ≤ ((n % 10 ^ (s % 9) : ℕ) : ℤ) * 10 ^ (9 - s % 9) := by positivity
  have hbase : digBase = 1000000000 := rfl
  have hmax : digMax = 999999999 := rfl
  have hint : toInt32 (((n % 10 ^ (s % 9) : ℕ) : ℤ) * powers10 (9 - s % 9)) =
      ((n % 10 ^ (s % 9) : ℕ) : ℤ) * 10 ^ (9 - s % 9) := by
    rw [powers10, toInt32_of_mem (by omega) (by omega)]
  have hcheck : ¬ digMax < ((n % 10 ^ (s % 9) : ℕ) : ℤ) * 10 ^ (9 - s % 9) % 2 ^ 32 := by
    rw [hmax, Int.emod_eq_of_lt hnonneg (by rw [hbase] at hmem; exact hmem.trans (by norm_num))]
    exact not_lt.mpr (Int.le_of_lt_add_one hmem)
  rw [if_pos hzero, if_neg hzero]
  dsimp only
  rw [hword, hint, if_neg hcheck]
  refine ⟨_, rfl, rfl, InRange.succ ?_ ?_, ?_⟩
  · exact hr.range.congr fun i _ hi => update_of_ne (by omega) _ _
  · dsimp only
    rw [zero_add, update_self]
    exact ⟨hnonneg, hmem⟩
  dsimp only
  rw [radix_succ, zero_add, update_self, radix_update (.inr (by omega)), hvalue,
    show roundUp s * 9 - s = 9 - s % 9 by omega]
  have hpow : digBase = 10 ^ (s % 9) * 10 ^ (9 - s % 9) := by
    rw [← pow_add, Nat.add_sub_cancel' hmod.le]
    rfl
  have hsplit : (10 ^ (s % 9) : ℤ) * (n / 10 ^ (s % 9) : ℕ) + (n % 10 ^ (s % 9) : ℕ) = n := by
    exact_mod_cast div_add_mod n (10 ^ (s % 9))
  rw [hpow]
  linear_combination (10 : ℤ) ^ (9 - s % 9) * hsplit

end

theorem binFit_ok {len : ℕ} (hlen : roundUp (p - s) + roundUp s ≤ len) :
    binFit len p s = (0, ((p - s) / 9, (p - s) % 9), (s / 9, s % 9), .ok) := by
  have hfix : fixIntgFracError len (roundUp (p - s)) (roundUp s) =
      (roundUp (p - s), roundUp s, .ok) := by
    rw [fixIntgFracError, if_neg (not_lt.mpr hlen)]
  rw [binFit]
  simp only [hfix, if_true]

theorem HoldsCode.bin2decimal {bytes : ℕ → UInt8} (hmask : mask = decide ((bytes 0).toNat < 128))
    (h : HoldsCode (update bytes 0 (bytes 0 ^^^ 0x80)) mask p s n) (hs : s ≤ p)
    {dst : Decimal} (hlen : roundUp (p - s) + roundUp s ≤ dst.len) :
    let r := bin2decimal bytes dst p s
    r.1 = .ok ∧ r.2.WellFormed ∧ r.2.sign = mask ∧ r.2.frac = s ∧
      r.2.magnitude = n / (10 : ℚ) ^ s := by
  obtain ⟨r1, hrun1, hr1⟩ := h.readFirst_spec hs dst.buf
  obtain ⟨r2, hrun2, hr2⟩ := readInts_spec h.read_word hr1
  have hsrc := hr2.src_eq
  have hvalue := hr2.value
  have hdst := hr2.dst_eq
  have hlt := hr2.lt
  rw [zero_add] at hsrc hvalue hlt
  rw [mul_zero, tsub_zero] at hdst hlt
  obtain ⟨r3, hrun3, hr3, hintg3, hdst3⟩ := readFracs_spec h.read_word ⟨hsrc, hr2.range, hvalue⟩
  obtain ⟨r4, hrun4, hintg4, hrange, hradix⟩ := h.readLast_spec hr3
  have hfrac : s / 9 * 9 + s % 9 = s := by omega
  have hround : roundUp s = (s + 9 - 1) / 9 := rfl
  have hwords : roundUp r4.intg + roundUp s = r3.dst + (if s % 9 = 0 then 0 else 1) := by
    rw [hintg4, hintg3, hdst, hdst3]
    split <;> omega
  rw [← hwords] at hrange hradix
  rw [LibSources.bin2decimal]
  simp only [binFit_ok hlen, ← hmask, hrun1, hrun2, hrun3, hrun4, hfrac, bind, Except.bind]
  have hle : s ≤ roundUp s * 9 := le_roundUp_mul s
  refine ⟨trivial, wellFormed_of_lt hrange ?_ ?_, trivial, trivial, ?_⟩
  · -- the number has at most `intg` digits before the point
    have hnum : n < 10 ^ r2.intg * 10 ^ s := by
      rw [wordsAbove, Nat.div_div_eq_div_mul, Nat.div_lt_iff_lt_mul (by positivity)] at hlt
      refine hlt.trans_eq ?_
      rw [show (1000000000 : ℕ) = 10 ^ 9 by norm_num, ← pow_mul, ← pow_add]
      congr 2
      omega
    rw [words]
    rw [hradix, hintg4, hintg3]
    have hpow : digBase ^ roundUp s = (10 : ℤ) ^ s * 10 ^ (roundUp s * 9 - s) := by
      rw [← pow_add, Nat.add_sub_cancel' hle, mul_comm, pow_mul]
      rfl
    rw [hpow, ← mul_assoc]
    exact mul_lt_mul_of_pos_right (by exact_mod_cast hnum) (by positivity)
  · rw [words]
    rw [hradix]
    exact Dvd.intro_left _ rfl
  · rw [magnitude, words]
    rw [hradix, digBase_pow, ← Nat.add_sub_cancel' hle, add_tsub_cancel_left, pow_add]
    push_cast
    field_simp

end

/-! ### The round trip -/

theorem head_lt_iff (b : UInt8) (l : List UInt8) :
    b.toNat < 128 ↔ 2 * ofBytes (b :: l) < 256 ^ (l.length + 1) := by
  have hlt := ofBytes_lt l
  rw [ofBytes, pow_succ]
  constructor
  · intro hb
    nlinarith
  intro hnum
  by_contra hge
  nlinarith

theorem holdsCode_decimal2bin {p s : ℕ} (hs : s ≤ p) (hp : 1 ≤ p) {a : Decimal}
    (ha : a.WellFormed) (hlt : a.magnitude < 10 ^ (p - s)) (hslip : ¬ a.GroupSlip s)
    {mem : ℕ → UInt8} (hmem : window mem 0 (decimalBinSize p s) = (decimal2bin a p s).2) :
    ∃ mask, a.StoredMask mask ∧ mask = decide ((mem 0).toNat < 128) ∧
      HoldsCode (update mem 0 (mem 0 ^^^ 0x80)) mask p s (a.scaled s).toNat := by
  obtain ⟨-, mask, l, hmask, hbytes, hlen, hvalue⟩ := decimal2bin_spec ha hlt hslip
  have hpos := decimalBinSize_pos hs hp
  have hscaled : (a.scaled s).toNat < 10 ^ p := by
    have hdigits := scaled_lt (s := s) hlt
    rw [Nat.sub_add_cancel hs] at hdigits
    zify
    rwa [Int.toNat_of_nonneg (ha.scaled_nonneg s)]
  have hcode := two_mul_binCode_lt hs hp hscaled
  rw [← hvalue, ← hlen] at hcode
  have hne : l ≠ [] := ne_nil_of_length_pos (by omega)
  rw [hbytes] at hmem
  refine ⟨mask, hmask, ?_, hscaled, l, ?_, hlen, hvalue⟩
  · -- the first byte has the sign
    have hnumber := ofBytes_flipSign_maskBytes mask hne hcode
    obtain ⟨k, hk⟩ : ∃ k, decimalBinSize p s = k + 1 := exists_eq_succ_of_ne_zero hpos.ne'
    have hcast : ((256 ^ l.length : ℕ) : ℤ) = 256 ^ l.length := by push_cast; rfl
    have heven := pow_length_mod_two hne
    have hiff := head_lt_iff (mem 0) (window mem (0 + 1) k)
    rw [← window_succ, length_window, ← hk, hmem, ← hlen] at hiff
    cases mask
    · change _ = _ + (ofBytes l : ℤ) at hnumber
      refine (decide_eq_false ?_).symm
      rw [hiff]
      omega
    change _ = _ + (-1 - (ofBytes l : ℤ)) at hnumber
    refine (decide_eq_true ?_).symm
    rw [hiff]
    omega
  · rw [hlen, window_flipSign mem hpos, hmem, flipSign_flipSign]

theorem Decimal.WellFormed.magnitude_eq_of_size {a : Decimal} (ha : a.WellFormed) {s : ℕ}
    (hslip : ¬ a.GroupSlip s) (hsize : digitBytes a.frac ≤ digitBytes s) :
    a.magnitude = a.scaled s / (10 : ℚ) ^ s := by
  by_cases hle : a.frac ≤ s
  · exact ha.magnitude_eq_scaled hle
  -- the last word is zero
  have hf := digitBytes_eq a.frac
  have hs := digitBytes_eq s
  have hround : roundUp a.frac = (a.frac + 9 - 1) / 9 := rfl
  have hwords : roundUp a.frac = s / 9 + 1 := by omega
  have hzero : a.buf (roundUp a.intg + s / 9) = 0 := by
    by_contra hne
    refine hslip ⟨by omega, by omega, ?_⟩
    rwa [words, show roundUp a.intg + roundUp a.frac - 1 = roundUp a.intg + s / 9 by omega]
  have hbase := digBase_cast_pos.ne'
  have hpow : (10 : ℚ) ^ s = (digBase : ℚ) ^ (s / 9) * 10 ^ (s % 9) := by
    rw [digBase_pow, ← pow_add]
    congr 1
    omega
  rw [magnitude_eq_shifted le_rfl, hwords, ha.shifted_succ (by omega), hzero, add_zero,
    scaled_of_zero ha (by omega) hzero, add_zero, pow_succ, hpow]
  push_cast
  field_simp

/-- The round trip through the binary format truncates towards zero, unless the last group has
more digits than the format in as many bytes. A truncation is reported when the fraction has more
bytes than the format. -/
theorem bin2decimal_decimal2bin {p s : ℕ} (hs : s ≤ p) (hp : 1 ≤ p) {a : Decimal}
    (ha : a.WellFormed) (hlt : |a.value| < 10 ^ (p - s)) (hslip : ¬ a.GroupSlip s)
    {mem : ℕ → UInt8} (hmem : window mem 0 (decimalBinSize p s) = (decimal2bin a p s).2)
    {dst : Decimal} (hlen : roundUp (p - s) + roundUp s ≤ dst.len) :
    (decimal2bin a p s).1 = (if digitBytes s < digitBytes a.frac then .truncated else .ok) ∧
      ((decimal2bin a p s).1 = .ok → truncateDigits a.value s = a.value) ∧
      (bin2decimal mem dst p s).1 = .ok ∧ (bin2decimal mem dst p s).2.WellFormed ∧
      (bin2decimal mem dst p s).2.frac = s ∧
      (bin2decimal mem dst p s).2.value = truncateDigits a.value s := by
  have hlt' : a.magnitude < 10 ^ (p - s) := ha.abs_value_eq ▸ hlt
  have herror := (decimal2bin_spec ha hlt' hslip).1
  obtain ⟨mask, hmask, hfirst, hcode⟩ := holdsCode_decimal2bin hs hp ha hlt' hslip hmem
  obtain ⟨hok, hwf, hsign, hfrac, hmagnitude⟩ := hcode.bin2decimal hfirst hs hlen
  have hcast : (((a.scaled s).toNat : ℕ) : ℚ) = a.scaled s := by
    have := congrArg (Int.cast : ℤ → ℚ) (Int.toNat_of_nonneg (ha.scaled_nonneg s))
    rwa [Int.cast_natCast] at this
  have htruncate : truncateDigits a.value s = signed a.sign (a.scaled s / (10 : ℚ) ^ s) := by
    rw [value_eq_signed, truncateDigits_signed ha.magnitude_nonneg, zpow_natCast, scaled]
  refine ⟨herror, fun hsuccess => ?_, hok, hwf, hfrac, ?_⟩
  · have hsize : digitBytes a.frac ≤ digitBytes s := by
      by_contra hgt
      rw [herror, if_pos (by omega)] at hsuccess
      exact absurd hsuccess (by decide)
    rw [htruncate, ← ha.magnitude_eq_of_size hslip hsize, ← value_eq_signed]
  rw [htruncate, value_eq_signed, hsign, hmagnitude, hcast]
  rcases hmask with ⟨rfl, -⟩ | ⟨rfl, hzero, -⟩
  · rfl
  · rw [scaled, hzero, zero_mul, Int.floor_zero, Int.cast_zero, zero_div, signed_zero, signed_zero]

def memoryOf (l : List UInt8) : ℕ → UInt8 := fun i => l.getD i 0

theorem bin2decimal_decimal2bin_seven :
    let mem := memoryOf (decimal2bin (.ofWord 7) 11 2).2
    (ofWord 7).WellFormed ∧ |(ofWord 7).value| < 10 ^ (11 - 2) ∧ ¬ (ofWord 7).GroupSlip 2 ∧
      window mem 0 (decimalBinSize 11 2) = (decimal2bin (.ofWord 7) 11 2).2 ∧
      (bin2decimal mem (.ofWord 0) 11 2).2.value = truncateDigits (ofWord 7).value 2 := by
  have ha := ofWord_storable (w := 7) (p := 11) (s := 2) (by decide) (by decide)
  have hslip : ¬ (ofWord 7).GroupSlip 2 := fun h => absurd h.1 (by decide)
  have hmem : window (memoryOf (decimal2bin (.ofWord 7) 11 2).2) 0 (decimalBinSize 11 2) =
      (decimal2bin (.ofWord 7) 11 2).2 := by decide +kernel
  exact ⟨ha.wellFormed, ha.intg_lt, hslip, hmem, (bin2decimal_decimal2bin (by decide) (by decide)
    ha.wellFormed ha.intg_lt hslip hmem (by decide)).2.2.2.2.2⟩

/-- A fraction of one word, without an integer part. -/
def Decimal.fraction (frac : ℕ) (w : ℤ) : Decimal :=
  ⟨0, frac, 1, false, fun i => if i = 0 then w else 0⟩

theorem Decimal.fraction_wellFormed {frac : ℕ} {w : ℤ} (hfrac : 1 ≤ frac ∧ frac ≤ 9)
    (hw : 0 ≤ w ∧ w < digBase) (hdvd : powers10 (9 - frac) ∣ w) :
    (fraction frac w).WellFormed := by
  have hwords : (fraction frac w).words = 1 := by
    change roundUp 0 + roundUp frac = 1
    rw [roundUp, roundUp]
    omega
  refine ⟨fun i _ hi => ?_, fun h => absurd (show 0 % 9 = 0 from rfl) h, fun h => ?_⟩
  · obtain rfl : i = 0 := by omega
    exact hw
  have hmod : frac % 9 = frac := mod_eq_of_lt (by
    have : frac % 9 ≠ 0 := h
    omega)
  rw [hwords]
  change powers10 (9 - frac % 9) ∣ w
  rwa [hmod]

/-- The zero digits of `0.000` are dropped, and a truncation is reported. `0.12` with one digit
behind the point is stored with both digits, without an error, and is not read back. -/
theorem decimal2bin_round_trip_fails :
    (fraction 3 0).WellFormed ∧ (decimal2bin (.fraction 3 0) 1 0).1 = .truncated ∧
      truncateDigits (fraction 3 0).value 0 = (fraction 3 0).value ∧
      (fraction 2 120000000).WellFormed ∧
      (decimal2bin (.fraction 2 120000000) 2 1).1 = .ok ∧
      (bin2decimal (memoryOf (decimal2bin (.fraction 2 120000000) 2 1).2) (.ofWord 0) 2 1).1 =
        .badNum := by
  have hzero : (fraction 3 0).value = 0 := by
    rw [value_eq_zero_iff]
    decide
  refine ⟨fraction_wellFormed (by decide) (by decide) (by decide), by decide +kernel, ?_,
    fraction_wellFormed (by decide) (by decide) (by decide), by decide +kernel,
    by decide +kernel⟩
  rw [hzero, truncateDigits, sign_zero, abs_zero, zero_mul, Int.floor_zero]
  simp

end LibSources
