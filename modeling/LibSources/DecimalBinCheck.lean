import LibSources.DecimalBinDecode

/-!
# What `bin2decimal` Accepts

The bytes may not come from `decimal2bin`. `bin2decimal` reports `E_DEC_BAD_NUM` for a group of
digits above a bound. Two of the checks are not exact: the first group of `n` digits is compared
with `10 ^ (n + 1)`, and the last one is checked after a multiplication that may wrap around. A
decimal from such a group is not the one that `decimal2bin` would have stored. The bytes of a
negative zero without a fraction are accepted, too, but `decimal2bin` stores a zero without
digits as a positive one.

* `BinPasses` are the checks of the source, `BinDigits` says that the first and the last group
  hold no more digits than the format has for them.

## Main results

* `bin2decimal_validates_iff`: the bytes for which the checks are exact.
-/

namespace LibSources

open List Decimal Function

/-! ### The groups -/

section

variable (bytes : ℕ → UInt8)

def binMask : Bool := (bytes 0).toNat < 128

def binCopy : ℕ → UInt8 := update bytes 0 (bytes 0 ^^^ 0x80)

def binGroup (o i : ℕ) : ℤ := xorMask (binMask bytes) (miSintKorr (binCopy bytes) o i)

/-- The digits of the integer part before its full words. -/
def firstGroup (p s : ℕ) : ℤ := binGroup bytes 0 (dig2bytes ((p - s) % 9))

def wordGroup (p s j : ℕ) : ℤ := binGroup bytes (dig2bytes ((p - s) % 9) + 4 * j) 4

/-- The digits of the fraction behind its full words. -/
def lastGroup (p s : ℕ) : ℤ :=
  binGroup bytes (dig2bytes ((p - s) % 9) + 4 * ((p - s) / 9 + s / 9)) (dig2bytes (s % 9))

end

structure BinPasses (bytes : ℕ → UInt8) (p s : ℕ) : Prop where
  first : (p - s) % 9 ≠ 0 → firstGroup bytes p s % 2 ^ 64 < powers10 ((p - s) % 9 + 1)
  words : ∀ j < (p - s) / 9 + s / 9, wordGroup bytes p s j % 2 ^ 32 ≤ digMax
  last : s % 9 ≠ 0 → toInt32 (lastGroup bytes p s * powers10 (9 - s % 9)) % 2 ^ 32 ≤ digMax

/-- The groups that are not full words have as many digits as the format has for them. -/
structure BinDigits (bytes : ℕ → UInt8) (p s : ℕ) : Prop where
  first : (p - s) % 9 ≠ 0 → 0 ≤ firstGroup bytes p s ∧ firstGroup bytes p s < 10 ^ ((p - s) % 9)
  last : s % 9 ≠ 0 → 0 ≤ lastGroup bytes p s ∧ lastGroup bytes p s < 10 ^ (s % 9)

/-! ### The checks -/

/-- A part of the reader stops with an error unless its checks pass, and else it goes on `size`
bytes later. -/
def BinReader.Reads (r : BinReader) (size : ℕ) (passes : Prop)
    (result : Except (ℕ → ℤ) BinReader) : Prop :=
  (¬ passes ∧ ∃ buf, result = .error buf) ∨
    passes ∧ ∃ r', result = .ok r' ∧ r'.src = r.src + size ∧ r'.intg ≤ r.intg

section

variable {mem : ℕ → UInt8} {mask : Bool} {r : BinReader} {size size' : ℕ} {passes passes' : Prop}
  {result : Except (ℕ → ℤ) BinReader}

theorem BinReader.Reads.bind {f : BinReader → Except (ℕ → ℤ) BinReader}
    (h : r.Reads size passes result)
    (hf : ∀ r' : BinReader, r'.src = r.src + size → r'.Reads size' passes' (f r')) :
    r.Reads (size + size') (passes ∧ passes') (result >>= f) := by
  rcases h with ⟨hfails, buf, rfl⟩ | ⟨hpasses, r', rfl, hsrc, hintg⟩
  · exact .inl ⟨fun h => hfails h.1, buf, rfl⟩
  rcases hf r' hsrc with ⟨hfails, buf, heq⟩ | ⟨hpasses', r'', heq, hsrc', hintg'⟩
  · exact .inl ⟨fun h => hfails h.2, buf, heq⟩
  · exact .inr ⟨⟨hpasses, hpasses'⟩, r'', heq, by omega, hintg'.trans hintg⟩

theorem BinReader.Reads.check {r1 : BinReader} {fails : Prop} [Decidable fails] {buf : ℕ → ℤ}
    (h : r1.Reads size' passes result) (hsrc : r1.src = r.src + size) (hintg : r1.intg ≤ r.intg) :
    r.Reads (size + size') (¬ fails ∧ passes) (if fails then .error buf else result) := by
  by_cases hfails : fails
  · rw [if_pos hfails]
    exact .inl ⟨fun h => h.1 hfails, buf, rfl⟩
  rw [if_neg hfails]
  rcases h with ⟨hno, hbuf⟩ | ⟨hyes, r', hresult, hsrc', hintg'⟩
  · exact .inl ⟨fun h => hno h.2, hbuf⟩
  · exact .inr ⟨⟨hfails, hyes⟩, r', hresult, by omega, hintg'.trans hintg⟩

theorem BinReader.Reads.congr (h : r.Reads size passes result) (hsize : size = size')
    (hpasses : passes ↔ passes') : r.Reads size' passes' result := by
  rw [← hsize]
  rcases h with ⟨hfails, hbuf⟩ | ⟨hyes, hok⟩
  · exact .inl ⟨mt hpasses.mpr hfails, hbuf⟩
  · exact .inr ⟨hpasses.mp hyes, hok⟩

theorem BinReader.Reads.done (r : BinReader) : r.Reads 0 True (.ok r) :=
  .inr ⟨trivial, r, rfl, rfl, le_rfl⟩

section

variable (r : BinReader) (word : ℤ) (i digits : ℕ)

theorem BinReader.keep_src : (r.keep word i digits).src = r.src + i := by
  rw [BinReader.keep]
  split <;> rfl

theorem BinReader.keep_intg_le : (r.keep word i digits).intg ≤ r.intg := by
  rw [BinReader.keep]
  split
  · exact le_rfl
  · exact Nat.sub_le _ _

end

section

variable (mem : ℕ → UInt8) (mask : Bool) (x : ℕ) {r : BinReader} {src : ℕ}

theorem readFirst_reads (hsrc : r.src = src) : r.Reads (dig2bytes x)
      (x ≠ 0 → xorMask mask (miSintKorr mem src (dig2bytes x)) % 2 ^ 64 < powers10 (x + 1))
      (readFirst mem mask x r) := by
  subst hsrc
  rw [readFirst]
  by_cases hx : x = 0
  · subst hx
    exact (BinReader.Reads.done r).congr rfl ⟨fun _ h => absurd rfl h, fun _ => trivial⟩
  rw [if_pos hx]
  refine ((BinReader.Reads.done _).check (BinReader.keep_src _ _ _ _)
    (BinReader.keep_intg_le _ _ _ _)).congr rfl ?_
  rw [and_true, not_le]
  exact ⟨fun h _ => h, fun h => h hx⟩

theorem forall_words_succ (src k : ℕ) :
    (¬ digMax < xorMask mask (miSintKorr mem src 4) % 2 ^ 32 ∧
      ∀ j < k, xorMask mask (miSintKorr mem (src + 4 + 4 * j) 4) % 2 ^ 32 ≤ digMax) ↔
    ∀ j < k + 1, xorMask mask (miSintKorr mem (src + 4 * j) 4) % 2 ^ 32 ≤ digMax := by
  rw [Nat.forall_lt_succ_left, not_lt, mul_zero, add_zero]
  refine and_congr_right fun _ => forall₂_congr fun j _ => ?_
  rw [show src + 4 + 4 * j = src + 4 * (j + 1) by omega]

section

variable (k : ℕ) {r : BinReader} {src : ℕ}

theorem readInts_reads (hsrc : r.src = src) :
    r.Reads (4 * k) (∀ j < k, xorMask mask (miSintKorr mem (src + 4 * j) 4) % 2 ^ 32 ≤ digMax)
      (readInts mem mask k r) := by
  induction k generalizing r src with
  | zero =>
    exact (BinReader.Reads.done r).congr rfl
      ⟨fun _ _ h => absurd h (Nat.not_lt_zero _), fun _ => trivial⟩
  | succ k ih =>
    subst hsrc
    rw [readInts]
    have hrest := ih (BinReader.keep_src r (xorMask mask (miSintKorr mem r.src 4)) 4 9)
    exact (hrest.check (BinReader.keep_src _ _ _ _) (BinReader.keep_intg_le _ _ _ _)).congr
      (by omega) (forall_words_succ mem mask r.src k)

theorem readFracs_reads (hsrc : r.src = src) :
    r.Reads (4 * k) (∀ j < k, xorMask mask (miSintKorr mem (src + 4 * j) 4) % 2 ^ 32 ≤ digMax)
      (readFracs mem mask k r) := by
  induction k generalizing r src with
  | zero =>
    exact (BinReader.Reads.done r).congr rfl
      ⟨fun _ _ h => absurd h (Nat.not_lt_zero _), fun _ => trivial⟩
  | succ k ih =>
    subst hsrc
    rw [readFracs]
    have hrest := @ih { r with
      src := r.src + 4,
      buf := update r.buf r.dst (xorMask mask (miSintKorr mem r.src 4)),
      dst := r.dst + 1 } (r.src + 4) rfl
    exact (hrest.check rfl le_rfl).congr (by omega) (forall_words_succ mem mask r.src k)

end

theorem readLast_reads (hsrc : r.src = src) : r.Reads (dig2bytes x)
      (x ≠ 0 → toInt32 (xorMask mask (miSintKorr mem src (dig2bytes x)) * powers10 (9 - x)) %
        2 ^ 32 ≤ digMax) (readLast mem mask x r) := by
  subst hsrc
  rw [readLast]
  by_cases hx : x = 0
  · subst hx
    exact (BinReader.Reads.done r).congr rfl ⟨fun _ h => absurd rfl h, fun _ => trivial⟩
  rw [if_pos hx]
  have hdone := BinReader.Reads.done { r with
    src := r.src + dig2bytes x,
    buf := update r.buf r.dst
      (toInt32 (xorMask mask (miSintKorr mem r.src (dig2bytes x)) * powers10 (9 - x))),
    dst := r.dst + 1 }
  refine (hdone.check rfl le_rfl).congr rfl ?_
  rw [and_true, not_lt]
  exact ⟨fun h _ => h, fun h => h hx⟩

end

end

theorem forall_wordGroup (bytes : ℕ → UInt8) (p s k k' : ℕ) :
    (∀ j < k + k', wordGroup bytes p s j % 2 ^ 32 ≤ digMax) ↔
      (∀ j < k, wordGroup bytes p s j % 2 ^ 32 ≤ digMax) ∧
        ∀ j < k', wordGroup bytes p s (k + j) % 2 ^ 32 ≤ digMax := by
  constructor
  · exact fun h => ⟨fun j hj => h j (by omega), fun j hj => h (k + j) (by omega)⟩
  rintro ⟨hfirst, hlast⟩ j hj
  by_cases hlt : j < k
  · exact hfirst j hlt
  · have hword := hlast (j - k) (by omega)
    rwa [Nat.add_sub_cancel' (not_lt.mp hlt)] at hword

/-- `bin2decimal` reports an error and sets the result to zero if and only if a check fails. -/
theorem bin2decimal_reads {p s : ℕ} (bytes : ℕ → UInt8) {dst : Decimal}
    (hlen : roundUp (p - s) + roundUp s ≤ dst.len) :
    (¬ BinPasses bytes p s ∧ ∃ d : Decimal, bin2decimal bytes dst p s = (.badNum, d.makeZero)) ∨
      BinPasses bytes p s ∧ (bin2decimal bytes dst p s).1 = .ok ∧
        (bin2decimal bytes dst p s).2.intg ≤ p - s := by
  -- the four parts of the reader, one behind the other
  have hreads := (readFirst_reads (binCopy bytes) (binMask bytes) ((p - s) % 9)
    (rfl : (⟨0, dst.buf, 0, (p - s) / 9 * 9 + (p - s) % 9⟩ : BinReader).src = 0)).bind
    fun r1 (h1 : r1.src = 0 + _) => (@readInts_reads (binCopy bytes) (binMask bytes)
      ((p - s) / 9) r1 (dig2bytes ((p - s) % 9)) (by rw [h1, zero_add])).bind
    fun r2 h2 => (@readFracs_reads (binCopy bytes) (binMask bytes) (s / 9) r2
      (dig2bytes ((p - s) % 9) + 4 * ((p - s) / 9)) (by rw [h2, h1, zero_add])).bind
    fun r3 h3 => @readLast_reads (binCopy bytes) (binMask bytes) (s % 9) r3
      (dig2bytes ((p - s) % 9) + 4 * ((p - s) / 9 + s / 9)) (by rw [h3, h2, h1]; omega)
  have hiff := forall_wordGroup bytes p s ((p - s) / 9) (s / 9)
  have hsecond : ∀ j, wordGroup bytes p s ((p - s) / 9 + j) = xorMask (binMask bytes)
      (miSintKorr (binCopy bytes) (dig2bytes ((p - s) % 9) + 4 * ((p - s) / 9) + 4 * j) 4) := by
    intro j
    rw [wordGroup, binGroup, mul_add, add_assoc]
  simp only [hsecond] at hiff
  have hintg : (p - s) / 9 * 9 + (p - s) % 9 = p - s := Nat.div_add_mod' _ _
  simp only [binCopy, binMask] at hreads hiff
  simp only [bin2decimal, binFit_ok hlen]
  rcases hreads with ⟨hfails, buf, heq⟩ | ⟨⟨hfirst, hints, hfracs, hlast⟩, r, heq, -, hle⟩
  · refine .inl ⟨fun h => ?_, ?_⟩
    · obtain ⟨hints, hfracs⟩ := hiff.mp h.words
      exact hfails ⟨h.first, hints, hfracs, h.last⟩
    · simp only [heq]
      exact ⟨_, rfl⟩
  · refine .inr ⟨⟨hfirst, hiff.mpr ⟨hints, hfracs⟩, hlast⟩, ?_⟩
    simp only [heq]
    exact ⟨trivial, hle.trans_eq hintg⟩

/-! ### The bytes of a code -/

theorem dig2bytes_pos {i : ℕ} (hi : i ≠ 0) (hi' : i < 9) : 0 < dig2bytes i := by
  have hall : ∀ i < 9, i ≠ 0 → 0 < dig2bytes i := by decide
  exact hall i hi' hi

theorem maskBytes_maskBytes (mask : Bool) (l : List UInt8) :
    maskBytes mask (maskBytes mask l) = l := by
  cases mask
  · rfl
  change (l.map (~~~ ·)).map (~~~ ·) = l
  rw [map_map]
  exact (map_congr_left fun b _ => UInt8.not_not).trans (map_id l)

theorem exists_packWords {k x w : ℕ} (hx : x ≤ 9) (hfirst : w / (2 ^ 32) ^ k < 10 ^ x)
    (hwords : ∀ j < k, w / (2 ^ 32) ^ j % 2 ^ 32 < 1000000000) :
    ∃ m < 10 ^ (x + 9 * k), packWords m = w := by
  induction k generalizing w with
  | zero =>
    rw [pow_zero, Nat.div_one] at hfirst
    have hle : 10 ^ x ≤ 10 ^ 9 := Nat.pow_le_pow_right (by norm_num) hx
    exact ⟨w, hfirst, recode_of_lt (by norm_num) (hfirst.trans_le hle)⟩
  | succ k ih =>
    have hdiv : ∀ j, w / (2 ^ 32) ^ (j + 1) = w / 2 ^ 32 / (2 ^ 32) ^ j := fun j => by
      rw [pow_succ', Nat.div_div_eq_div_mul]
    rw [hdiv] at hfirst
    obtain ⟨m, hm, hpack⟩ := ih hfirst fun j hj => hdiv j ▸ hwords (j + 1) (by omega)
    have hlast := hwords 0 (Nat.succ_pos k)
    rw [pow_zero, Nat.div_one] at hlast
    refine ⟨m * 1000000000 + w % 2 ^ 32, ?_, ?_⟩
    · have hpow : 10 ^ (x + 9 * (k + 1)) = 10 ^ (x + 9 * k) * 1000000000 := by
        rw [mul_add, ← add_assoc, pow_add]
        norm_num
      rw [hpow]
      omega
    · rw [packWords, recode_mul_add (by norm_num) m hlast]
      change packWords m * 2 ^ 32 + _ = _
      rw [hpack, mul_comm]
      exact Nat.div_add_mod w (2 ^ 32)

theorem binCode_zero (s : ℕ) : binCode s 0 = 0 := by
  rw [binCode, Nat.zero_div, Nat.zero_mod, add_zero, packWords,
    recode_of_lt (by norm_num) (by norm_num), zero_mul]

theorem words_pow (d k : ℕ) : 256 ^ d * (2 ^ 32) ^ k = 256 ^ (4 * k + d) := by
  rw [pow_add, pow_mul, mul_comm]
  norm_num

theorem bmod_word_emod {g : ℕ} (hg : g < 256 ^ 4) : Int.bmod (g : ℤ) (256 ^ 4) % 2 ^ 32 = g := by
  rw [Int.bmod_def]
  split <;> omega

section

variable {bytes : ℕ → UInt8} {l : List UInt8}
  (h : window (binCopy bytes) 0 l.length = maskBytes (binMask bytes) l) {o i rest : ℕ}
  (ho : o + (i + rest) = l.length) (hi : 0 < i)
include h ho hi

theorem binGroup_eq :
    binGroup bytes o i = Int.bmod (ofBytes l / 256 ^ rest % 256 ^ i : ℕ) (256 ^ i) :=
  xorMask_miSintKorr h ho hi

theorem binGroup_eq_of_nonneg (hnonneg : 0 ≤ binGroup bytes o i) :
    binGroup bytes o i = (ofBytes l / 256 ^ rest % 256 ^ i : ℕ) := by
  have hlt : ofBytes l / 256 ^ rest % 256 ^ i < 256 ^ i := Nat.mod_lt _ (by positivity)
  rw [binGroup_eq h ho hi] at hnonneg ⊢
  generalize ofBytes l / 256 ^ rest % 256 ^ i = g at *
  generalize 256 ^ i = N at *
  rw [Int.bmod_def] at hnonneg ⊢
  have hmod : ((g : ℤ) % (N : ℤ)) = g := Int.emod_eq_of_lt (by omega) (by omega)
  rw [hmod] at hnonneg ⊢
  split_ifs at hnonneg ⊢ <;> omega

end

variable {bytes : ℕ → UInt8} {a : Decimal}

theorem decimalBinSize_eq (p s : ℕ) : decimalBinSize p s =
    dig2bytes ((p - s) % 9) + (4 * ((p - s) / 9 + s / 9) + dig2bytes (s % 9)) := by
  rw [decimalBinSize, digitBytes, digitBytes]
  omega

/-- Bytes that pass the checks and have no digits too many are the code of a number. -/
theorem BinPasses.holdsCode {p s : ℕ} (h : BinPasses bytes p s) (hdigits : BinDigits bytes p s)
    (hs : s ≤ p) : ∃ n, HoldsCode (binCopy bytes) (binMask bytes) p s n := by
  have hsize := decimalBinSize_eq p s
  set l := maskBytes (binMask bytes) (window (binCopy bytes) 0 (decimalBinSize p s)) with hl
  have hlength : l.length = decimalBinSize p s := by rw [hl, length_maskBytes, length_window]
  have hwindow : window (binCopy bytes) 0 l.length = maskBytes (binMask bytes) l := by
    rw [hlength, hl, maskBytes_maskBytes]
  have hnumber := ofBytes_lt l
  rw [hlength, hsize] at hnumber
  set d := dig2bytes ((p - s) % 9) with hd
  set d' := dig2bytes (s % 9) with hd'
  set k := (p - s) / 9 + s / 9 with hk
  -- the last group
  have hlast : ofBytes l % 256 ^ d' < 10 ^ (s % 9) := by
    by_cases hzero : s % 9 = 0
    · have hd0 : d' = 0 := by rw [hd', hzero]; rfl
      rw [hd0, hzero, pow_zero, pow_zero, Nat.mod_one]
      exact one_pos
    obtain ⟨hnonneg, hlt⟩ := hdigits.last hzero
    have hgroup := @binGroup_eq_of_nonneg bytes l hwindow (d + 4 * k) d' 0 (by omega)
      (dig2bytes_pos hzero (Nat.mod_lt _ (by norm_num))) hnonneg
    rw [pow_zero, Nat.div_one] at hgroup
    have heq : lastGroup bytes p s = (ofBytes l % 256 ^ d' : ℕ) := hgroup
    rw [heq] at hlt
    exact_mod_cast hlt
  -- the first group
  have hfirst : ofBytes l / 256 ^ d' / (2 ^ 32) ^ k < 10 ^ ((p - s) % 9) := by
    rw [Nat.div_div_eq_div_mul, words_pow]
    have hlt : ofBytes l / 256 ^ (4 * k + d') < 256 ^ d := by
      rw [Nat.div_lt_iff_lt_mul (by positivity), ← pow_add]
      exact hnumber
    by_cases hzero : (p - s) % 9 = 0
    · have hd0 : d = 0 := by rw [hd, hzero]; rfl
      rw [hd0] at hlt
      rw [hzero]
      exact hlt
    obtain ⟨hnonneg, hsmall⟩ := hdigits.first hzero
    have hgroup := @binGroup_eq_of_nonneg bytes l hwindow 0 d (4 * k + d') (by omega)
      (dig2bytes_pos hzero (Nat.mod_lt _ (by norm_num))) hnonneg
    rw [Nat.mod_eq_of_lt hlt] at hgroup
    have heq : firstGroup bytes p s = (ofBytes l / 256 ^ (4 * k + d') : ℕ) := hgroup
    rw [heq] at hsmall
    exact_mod_cast hsmall
  -- the words
  have hwords : ∀ j < k, ofBytes l / 256 ^ d' / (2 ^ 32) ^ j % 2 ^ 32 < 1000000000 := by
    intro j hj
    rw [Nat.div_div_eq_div_mul, words_pow]
    have hgroup := @binGroup_eq bytes l hwindow (d + 4 * (k - 1 - j)) 4 (4 * j + d') (by omega)
      (by norm_num)
    have hpass : wordGroup bytes p s (k - 1 - j) % 2 ^ 32 ≤ digMax := h.words _ (by omega)
    have heq : wordGroup bytes p s (k - 1 - j) =
        Int.bmod (ofBytes l / 256 ^ (4 * j + d') % 256 ^ 4 : ℕ) (256 ^ 4) := hgroup
    rw [heq, bmod_word_emod (Nat.mod_lt _ (by norm_num))] at hpass
    have hmax : digMax = 999999999 := rfl
    have hmod : (2 : ℕ) ^ 32 = 256 ^ 4 := by norm_num
    rw [hmod]
    omega
  obtain ⟨m, hm, hpack⟩ := exists_packWords (Nat.mod_lt _ (by norm_num)).le hfirst hwords
  refine ⟨m * 10 ^ (s % 9) + ofBytes l % 256 ^ d', ?_, l, hwindow, hlength, ?_⟩
  · have hpow : 10 ^ p = 10 ^ ((p - s) % 9 + 9 * k) * 10 ^ (s % 9) := by
      rw [← pow_add]
      congr 1
      omega
    calc m * 10 ^ (s % 9) + ofBytes l % 256 ^ d' < m * 10 ^ (s % 9) + 10 ^ (s % 9) :=
          Nat.add_lt_add_left hlast _
      _ = (m + 1) * 10 ^ (s % 9) := (Nat.succ_mul m _).symm
      _ ≤ 10 ^ ((p - s) % 9 + 9 * k) * 10 ^ (s % 9) := Nat.mul_le_mul_right _ hm
      _ = 10 ^ p := hpow.symm
  · have hdiv : (m * 10 ^ (s % 9) + ofBytes l % 256 ^ d') / 10 ^ (s % 9) = m := by
      rw [mul_comm, Nat.mul_add_div (by positivity), Nat.div_eq_of_lt hlast, add_zero]
    have hmod : (m * 10 ^ (s % 9) + ofBytes l % 256 ^ d') % 10 ^ (s % 9) =
        ofBytes l % 256 ^ d' := by
      rw [mul_comm, Nat.mul_add_mod, Nat.mod_eq_of_lt hlast]
    rw [binCode, hdiv, hmod, hpack, mul_comm]
    exact (Nat.div_add_mod _ _).symm

theorem HoldsCode.binDigits {p s n : ℕ} (h : HoldsCode (binCopy bytes) (binMask bytes) p s n)
    (hs : s ≤ p) : BinDigits bytes p s := by
  have hsize := decimalBinSize_eq p s
  constructor
  · intro hzero
    obtain ⟨hcode, hlt⟩ := binCode_first (s := s) (Nat.mod_lt _ (by norm_num)).le (h.words_lt hs)
    have htwo := two_mul_pow_le (r := (p - s) % 9) (by omega) (by omega)
    have hread := h.read 0 (dig2bytes ((p - s) % 9))
      (4 * ((p - s) / 9 + s / 9) + dig2bytes (s % 9)) (by omega)
      (dig2bytes_pos hzero (Nat.mod_lt _ (by norm_num))) (by rw [hcode]; omega)
    rw [hcode] at hread
    have heq : firstGroup bytes p s =
        (wordsAbove (n / 10 ^ (s % 9)) ((p - s) / 9 + s / 9) : ℤ) := hread
    rw [heq]
    exact ⟨Int.natCast_nonneg _, by exact_mod_cast hlt⟩
  intro hzero
  have hlt : n % 10 ^ (s % 9) < 10 ^ (s % 9) := Nat.mod_lt _ (by positivity)
  have htwo := two_mul_pow_le (r := s % 9) (by omega) (by omega)
  have hcode : binCode s n / 256 ^ 0 % 256 ^ dig2bytes (s % 9) = n % 10 ^ (s % 9) := by
    rw [pow_zero, Nat.div_one, binCode_last]
  have hread := h.read (dig2bytes ((p - s) % 9) + 4 * ((p - s) / 9 + s / 9))
    (dig2bytes (s % 9)) 0 (by omega) (dig2bytes_pos hzero (Nat.mod_lt _ (by norm_num)))
    (by rw [hcode]; omega)
  rw [hcode] at hread
  have heq : lastGroup bytes p s = (n % 10 ^ (s % 9) : ℕ) := hread
  rw [heq]
  exact ⟨Int.natCast_nonneg _, by exact_mod_cast hlt⟩

/-! ### Validation -/

def negativeZeroBytes (size : ℕ) : List UInt8 := flipSign (replicate size 0xFF)

/-- `bin2decimal` rejects the bytes and sets the result to zero, or it returns the decimal that
`decimal2bin` stores in these bytes. -/
def BinValidated (bytes : ℕ → UInt8) (dst : Decimal) (p s : ℕ) : Prop :=
  let r := bin2decimal bytes dst p s
  (r.1 = .badNum ∧ r.2.WellFormed ∧ r.2.value = 0) ∨
    r.1 = .ok ∧ r.2.WellFormed ∧ r.2.intg ≤ p - s ∧ r.2.frac ≤ s ∧
      decimal2bin r.2 p s = (.ok, window bytes 0 (decimalBinSize p s))

section

variable {p s : ℕ} (hs : s ≤ p) (hp : 1 ≤ p)

include hs hp

section

variable (ha : a.WellFormed) (hintg : a.intg ≤ p - s) (hfrac : a.frac ≤ s)
  (hbytes : (decimal2bin a p s).2 = window bytes 0 (decimalBinSize p s))
include ha hintg hfrac hbytes

theorem holdsCode_of_decimal2bin :
    a.StoredMask (binMask bytes) ∧
      HoldsCode (binCopy bytes) (binMask bytes) p s (a.scaled s).toNat := by
  have hlt : a.magnitude < 10 ^ (p - s) :=
    ha.magnitude_lt_pow.trans_le (pow_le_pow_right₀ (by norm_num) hintg)
  obtain ⟨mask, hmask, hfirst, hcode⟩ := holdsCode_decimal2bin hs hp ha hlt
    (fun h => absurd h.1 (not_lt.mpr hfrac)) hbytes.symm
  subst hfirst
  exact ⟨hmask, hcode⟩

theorem ne_negativeZeroBytes :
    ¬ (s = 0 ∧ window bytes 0 (decimalBinSize p s) = negativeZeroBytes (decimalBinSize p s)) := by
  rintro ⟨hzero, hneg⟩
  have hpos := decimalBinSize_pos hs hp
  obtain ⟨hmask, hcode⟩ := holdsCode_of_decimal2bin hs hp ha hintg hfrac hbytes
  obtain ⟨l, hwindow, hlen, hvalue⟩ := hcode.bytes
  -- the first byte is `0x7F`
  have hsign : binMask bytes = true := by
    obtain ⟨k, hk⟩ : ∃ k, decimalBinSize p s = k + 1 := Nat.exists_eq_succ_of_ne_zero hpos.ne'
    rw [hk, window_succ, negativeZeroBytes, replicate_succ, flipSign, cons.injEq] at hneg
    rw [binMask, hneg.1]
    decide
  -- so the code is zero
  have hcopy : window (binCopy bytes) 0 (decimalBinSize p s) =
      maskBytes true (replicate (decimalBinSize p s) 0) := by
    rw [binCopy, window_flipSign bytes hpos, hneg, negativeZeroBytes, flipSign_flipSign,
      maskBytes_replicate]
    rfl
  have hl : l = replicate (decimalBinSize p s) 0 := by
    rw [hlen, hcopy, hsign] at hwindow
    rw [← maskBytes_maskBytes true l, ← hwindow, maskBytes_maskBytes]
  rw [hl, ofBytes_replicate_zero] at hvalue
  have hscaled : (a.scaled s).toNat = 0 := by
    refine (binCode_strictMono s).injective ?_
    rw [← hvalue, binCode_zero]
  have hmagnitude : a.magnitude = 0 := by
    rw [ha.magnitude_eq_scaled hfrac, ← Int.toNat_of_nonneg (ha.scaled_nonneg s), hscaled,
      Nat.cast_zero, Int.cast_zero, zero_div]
  rcases hmask with ⟨-, hne | hne⟩ | ⟨hfalse, -⟩
  · exact hne hmagnitude
  · omega
  · exact absurd (hsign.symm.trans hfalse) (by decide)

end

theorem HoldsCode.decimal2bin_eq {n : ℕ} (h : HoldsCode (binCopy bytes) (binMask bytes) p s n)
    (hneg : ¬ (s = 0 ∧
      window bytes 0 (decimalBinSize p s) = negativeZeroBytes (decimalBinSize p s)))
    (ha : a.WellFormed) (hintg : a.intg ≤ p - s) (hsign : a.sign = binMask bytes)
    (hfrac : a.frac = s) (hmagnitude : a.magnitude = n / (10 : ℚ) ^ s) :
    decimal2bin a p s = (.ok, window bytes 0 (decimalBinSize p s)) := by
  have hpos := decimalBinSize_pos hs hp
  have hlt : a.magnitude < 10 ^ (p - s) :=
    ha.magnitude_lt_pow.trans_le (pow_le_pow_right₀ (by norm_num) hintg)
  obtain ⟨herror, mask, l', hmask, hbytes, hlen', hvalue'⟩ := decimal2bin_spec ha hlt
    fun hslip => absurd hslip.1 (not_lt.mpr hfrac.le)
  obtain ⟨l, hwindow, hlen, hvalue⟩ := h.bytes
  have hscaled : (a.scaled s).toNat = n := by
    have heq : a.scaled s = n := by
      rw [scaled, hmagnitude, div_mul_cancel₀ _ (by positivity), Int.floor_natCast]
    rw [heq, Int.toNat_natCast]
  rw [hscaled] at hvalue'
  obtain rfl : l' = l := ofBytes_inj (hlen'.trans hlen.symm) (hvalue'.trans hvalue.symm)
  have hcopy : window bytes 0 (decimalBinSize p s) = flipSign (maskBytes (binMask bytes) l') := by
    rw [← hwindow, hlen', binCopy, window_flipSign bytes hpos, flipSign_flipSign]
  have hsame : mask = binMask bytes := by
    rcases hmask with ⟨rfl, -⟩ | ⟨rfl, hzero, hnofrac⟩
    · exact hsign
    -- a negative zero is excluded
    by_contra hne
    have htrue : binMask bytes = true := (Bool.eq_false_or_eq_true _).resolve_right (Ne.symm hne)
    have hn : n = 0 := by
      rw [hmagnitude, div_eq_zero_iff, or_iff_left (by positivity)] at hzero
      exact_mod_cast hzero
    refine hneg ⟨hfrac ▸ hnofrac, ?_⟩
    have hl : l' = replicate (decimalBinSize p s) 0 := by
      refine ofBytes_inj (by rw [hlen', length_replicate]) ?_
      rw [hvalue, hn, ofBytes_replicate_zero, binCode_zero]
    rw [hcopy, htrue, hl, maskBytes_replicate]
    rfl
  refine Prod.ext ?_ ?_
  · rw [herror, hfrac, if_neg (lt_irrefl _)]
  · rw [hbytes, hsame, hcopy]

end

/-- `bin2decimal` into a large enough buffer validates its input iff a check fails or the
groups have no digits too many and the bytes are not those of a negative zero without a
fraction. -/
theorem bin2decimal_validates_iff {p s : ℕ} (hs : s ≤ p) (hp : 1 ≤ p) (bytes : ℕ → UInt8)
    {dst : Decimal} (hlen : roundUp (p - s) + roundUp s ≤ dst.len) :
    BinValidated bytes dst p s ↔ (BinPasses bytes p s → BinDigits bytes p s ∧ ¬ (s = 0 ∧
        window bytes 0 (decimalBinSize p s) = negativeZeroBytes (decimalBinSize p s))) := by
  rw [BinValidated]
  rcases bin2decimal_reads bytes hlen with ⟨hfails, d, hresult⟩ | ⟨hpasses, hok, hintg⟩
  · refine iff_of_true (.inl ?_) fun h => absurd h hfails
    rw [hresult]
    refine ⟨rfl, d.makeZero_wellFormed, ?_⟩
    rw [value_eq_signed, magnitude_makeZero, signed_zero]
  constructor
  · rintro (⟨hbad, -⟩ | ⟨-, hwf, hi, hf, hencode⟩) -
    · exact absurd (hok.symm.trans hbad) (by decide)
    have hbytes := congrArg Prod.snd hencode
    obtain ⟨-, hcode⟩ := holdsCode_of_decimal2bin hs hp hwf hi hf hbytes
    exact ⟨hcode.binDigits hs, ne_negativeZeroBytes hs hp hwf hi hf hbytes⟩
  intro h
  obtain ⟨hdigits, hneg⟩ := h hpasses
  obtain ⟨n, hcode⟩ := hpasses.holdsCode hdigits hs
  obtain ⟨-, hwf, hsign, hfrac, hmagnitude⟩ := hcode.bin2decimal rfl hs hlen
  exact .inr ⟨hok, hwf, hintg, hfrac.le,
    hcode.decimal2bin_eq hs hp hneg hwf hintg hsign hfrac hmagnitude⟩

theorem bin2decimal_validates_iff_seven :
    roundUp (1 - 0) + roundUp 0 ≤ (ofWord 0).len ∧
      (bin2decimal (memoryOf [0x87]) (.ofWord 0) 1 0).2.buf 0 = 7 ∧
      BinValidated (memoryOf [0x87]) (.ofWord 0) 1 0 := by
  have hlen : roundUp (1 - 0) + roundUp 0 ≤ (ofWord 0).len := by decide
  refine ⟨hlen, by decide +kernel, (bin2decimal_validates_iff (Nat.zero_le 1) le_rfl
    (memoryOf [0x87]) hlen).mpr fun _ => ⟨⟨fun _ => ?_, fun h => absurd rfl h⟩, ?_⟩⟩
  · decide +kernel
  · decide +kernel

/-- A first group of one digit that holds fifteen, a last group of one digit whose product wraps
around, and a negative zero: `bin2decimal` accepts them, and `decimal2bin` stores other bytes. -/
theorem bin2decimal_accepts_bad_groups :
    (bin2decimal (memoryOf [0x8F]) (.ofWord 0) 1 0).1 = .ok ∧
      ¬ (bin2decimal (memoryOf [0x8F]) (.ofWord 0) 1 0).2.WellFormed ∧
      ¬ BinValidated (memoryOf [0x8F]) (.ofWord 0) 1 0 ∧
      (bin2decimal (memoryOf [0xAB]) (.ofWord 0) 1 1).1 = .ok ∧
      (decimal2bin (bin2decimal (memoryOf [0xAB]) (.ofWord 0) 1 1).2 1 1).2 = [0x80] ∧
      (bin2decimal (memoryOf [0x7F]) (.ofWord 0) 1 0).1 = .ok ∧
      (decimal2bin (bin2decimal (memoryOf [0x7F]) (.ofWord 0) 1 0).2 1 0).2 = [0x80] := by
  have hok : (bin2decimal (memoryOf [0x8F]) (.ofWord 0) 1 0).1 = .ok := by decide +kernel
  have hwf : ¬ (bin2decimal (memoryOf [0x8F]) (.ofWord 0) 1 0).2.WellFormed := fun h => by
    have hdigit := h.first (by decide +kernel)
    revert hdigit
    decide +kernel
  refine ⟨hok, hwf, ?_, by decide +kernel, by decide +kernel, by decide +kernel, by decide +kernel⟩
  rintro (⟨hbad, -⟩ | ⟨-, h, -⟩)
  · exact absurd (hok.symm.trans hbad) (by decide)
  · exact hwf h

end LibSources
