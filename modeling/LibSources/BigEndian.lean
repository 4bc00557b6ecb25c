import LibSources.Radix

/-!
# Big-Endian Bytes

A list of bytes is a number in base `256`, first byte first. Lists of one length compare like
their numbers, complements are taken byte by byte, and a number has a two's complement.

`recode` reads a number in digits of one base in a larger base. Order and digits stay.
-/

namespace LibSources

open Nat List

def ofBytes : List UInt8 → ℕ
  | [] => 0
  | b :: l => b.toNat * 256 ^ l.length + ofBytes l

theorem ofBytes_lt (l : List UInt8) : ofBytes l < 256 ^ l.length := by
  induction l with
  | nil => exact one_pos
  | cons b l ih =>
    have hb := b.toNat_lt
    rw [ofBytes, length_cons, pow_succ]
    nlinarith

theorem ofBytes_append (l l' : List UInt8) :
    ofBytes (l ++ l') = ofBytes l * 256 ^ l'.length + ofBytes l' := by
  induction l with
  | nil => rw [nil_append, ofBytes, zero_mul, zero_add]
  | cons b l ih =>
    rw [cons_append, ofBytes, ih, ofBytes, length_append, pow_add]
    ring

@[simp] theorem ofBytes_replicate_zero (k : ℕ) : ofBytes (List.replicate k 0) = 0 := by
  induction k with
  | zero => rfl
  | succ k ih => rw [replicate_succ, ofBytes, ih, UInt8.toNat_zero, zero_mul]

theorem leading_lt {b b' size x y : ℕ} (hb : b < b') (hx : x < size) :
    b * size + x < b' * size + y := by
  nlinarith

theorem ofBytes_inj {l l' : List UInt8} (hlen : l.length = l'.length)
    (h : ofBytes l = ofBytes l') : l = l' := by
  induction l generalizing l' with
  | nil => exact (length_eq_zero_iff.mp hlen.symm).symm
  | cons b l ih =>
    obtain ⟨b', l', rfl⟩ : ∃ b' t, l' = b' :: t := exists_of_length_succ l' hlen.symm
    have hlen' : l.length = l'.length := succ.inj hlen
    have hlt' := ofBytes_lt l'
    rw [ofBytes, ofBytes, ← hlen'] at h
    rw [← hlen'] at hlt'
    have hfirst : b.toNat = b'.toNat := by
      by_contra hne
      rcases lt_or_gt_of_ne hne with hlt | hgt
      · exact absurd h (leading_lt hlt (ofBytes_lt l)).ne
      · exact absurd h (leading_lt hgt hlt').ne'
    rw [hfirst] at h
    rw [UInt8.toNat_inj.mp hfirst, ih hlen' (add_left_cancel h)]

theorem ofBytes_not (l : List UInt8) :
    ofBytes (l.map (~~~ ·)) + ofBytes l + 1 = 256 ^ l.length := by
  induction l with
  | nil => rfl
  | cons b l ih =>
    have hb := b.toNat_lt
    have hnot : (~~~b).toNat + b.toNat = 255 := by
      rw [UInt8.toNat_not, UInt8.size]
      omega
    rw [map_cons, ofBytes, ofBytes, length_map, length_cons, pow_succ]
    linear_combination ih + 256 ^ l.length * hnot

def flipSign : List UInt8 → List UInt8
  | [] => []
  | b :: l => (b ^^^ 0x80) :: l

@[simp] theorem length_flipSign (l : List UInt8) : (flipSign l).length = l.length := by
  cases l <;> rfl

theorem xor_sign_eq : ∀ n < 256, n ^^^ 128 = if n < 128 then n + 128 else n - 128 := by
  decide +kernel

theorem ofBytes_flipSign {l : List UInt8} (h : l ≠ []) :
    ofBytes (flipSign l) = if 2 * ofBytes l < 256 ^ l.length then ofBytes l + 256 ^ l.length / 2
      else ofBytes l - 256 ^ l.length / 2 := by
  obtain ⟨b, l, rfl⟩ := exists_cons_of_ne_nil h
  have hb := b.toNat_lt
  have hlt := ofBytes_lt l
  have hhalf : 256 ^ (l.length + 1) / 2 = 128 * 256 ^ l.length := by
    rw [pow_succ]
    omega
  have hxor : (b ^^^ 0x80).toNat = if b.toNat < 128 then b.toNat + 128 else b.toNat - 128 := by
    rw [UInt8.toNat_xor]
    exact xor_sign_eq b.toNat hb
  rw [flipSign, ofBytes, ofBytes, hxor, length_cons, hhalf, pow_succ]
  by_cases hsmall : b.toNat < 128
  · rw [if_pos hsmall, if_pos (by nlinarith)]
    ring
  obtain ⟨c, hc⟩ := Nat.exists_eq_add_of_le (not_lt.mp hsmall)
  rw [if_neg hsmall, if_neg (by nlinarith), hc, add_tsub_cancel_left, add_mul]
  omega

def memcmp : List UInt8 → List UInt8 → ℤ
  | b :: l, b' :: l' => if b = b' then memcmp l l' else (b.toNat : ℤ) - b'.toNat
  | _, _ => 0

theorem sign_memcmp {l l' : List UInt8} (hlen : l.length = l'.length) :
    SignType.sign (memcmp l l') = SignType.sign ((ofBytes l : ℤ) - ofBytes l') := by
  induction l generalizing l' with
  | nil => rw [length_eq_zero_iff.mp hlen.symm, sub_self, memcmp.eq_def]
  | cons b l ih =>
    obtain ⟨b', l', rfl⟩ : ∃ b' t, l' = b' :: t := exists_of_length_succ l' hlen.symm
    have hlen' : l.length = l'.length := succ.inj hlen
    have hlt' := ofBytes_lt l'
    rw [← hlen'] at hlt'
    rw [memcmp]
    by_cases heq : b = b'
    · rw [if_pos heq, ih hlen', heq, ofBytes, ofBytes, hlen']
      push_cast
      rw [add_sub_add_left_eq_sub]
    have hne : b.toNat ≠ b'.toNat := fun h => heq (UInt8.toNat_inj.mp h)
    rw [if_neg heq, ofBytes, ofBytes, ← hlen']
    rcases lt_or_gt_of_ne hne with hlt | hgt
    · have hnum := leading_lt (y := ofBytes l') hlt (ofBytes_lt l)
      rw [sign_neg (by omega), sign_neg (by omega)]
    · have hnum := leading_lt (y := ofBytes l) hgt hlt'
      rw [sign_pos (by omega), sign_pos (by omega)]

/-! ### Two's complement -/

def toBytes : ℕ → ℤ → List UInt8
  | 0, _ => []
  | k + 1, x => toBytes k (x / 256) ++ [UInt8.ofInt x]

section

variable (k : ℕ) (x : ℤ)

@[simp] theorem length_toBytes : (toBytes k x).length = k := by
  induction k generalizing x with
  | zero => rfl
  | succ k ih => rw [toBytes, length_append, ih, length_singleton]

theorem toNat_ofInt (x : ℤ) : ((UInt8.ofInt x).toNat : ℤ) = x % 256 := by
  have hlt : (x % 2 ^ 8).toNat < 2 ^ 8 := by omega
  rw [UInt8.ofInt, UInt8.toNat_ofNat', mod_eq_of_lt hlt]
  omega

theorem ofBytes_toBytes : (ofBytes (toBytes k x) : ℤ) = x % 256 ^ k := by
  induction k generalizing x with
  | zero => rw [toBytes, ofBytes, pow_zero, Int.emod_one, cast_zero]
  | succ k ih =>
    have h1 := Int.emod_add_mul_ediv x 256
    have h2 := Int.emod_add_mul_ediv (x / 256) (256 ^ k)
    have h3 := Int.emod_add_mul_ediv x (256 * 256 ^ k)
    rw [← Int.ediv_ediv_of_nonneg (by norm_num)] at h3
    rw [toBytes, ofBytes_append, ofBytes, ofBytes, length_singleton, length_nil,
      pow_zero, pow_one, mul_one, add_zero, pow_succ, mul_comm (256 ^ k)]
    push_cast
    rw [ih, toNat_ofInt]
    linear_combination h1 + 256 * h2 - h3

theorem toBytes_not : toBytes k (-1 - x) = (toBytes k x).map (~~~ ·) := by
  refine ofBytes_inj (by rw [length_map, length_toBytes, length_toBytes]) ?_
  have hnot := ofBytes_not (toBytes k x)
  rw [length_toBytes] at hnot
  have hpow : (0 : ℤ) < 256 ^ k := pow_pos (by norm_num) k
  have hmod : (-1 - x) % 256 ^ k = 256 ^ k - 1 - x % 256 ^ k := by
    have h := Int.emod_add_mul_ediv x (256 ^ k)
    refine (Int.emod_eq_iff hpow.ne').mpr ⟨by omega, by rw [Int.natAbs_of_nonneg hpow.le]; omega, ?_⟩
    exact ⟨1 + x / 256 ^ k, by linear_combination -h⟩
  have h1 := ofBytes_toBytes k x
  have h2 := ofBytes_toBytes k (-1 - x)
  have hcast : ((256 ^ k : ℕ) : ℤ) = 256 ^ k := by push_cast; rfl
  omega

end

def signedOfBytes (l : List UInt8) : ℤ := Int.bmod (ofBytes l) (256 ^ l.length)

theorem pow_length_mod_two {l : List UInt8} (hne : l ≠ []) : 256 ^ l.length % 2 = 0 :=
  mod_eq_zero_of_dvd (dvd_pow (by norm_num) (mt length_eq_zero_iff.mp hne))

theorem signedOfBytes_not {l : List UInt8} (hne : l ≠ []) :
    signedOfBytes (l.map (~~~ ·)) = -1 - signedOfBytes l := by
  have hnot := ofBytes_not l
  have heven := pow_length_mod_two hne
  rw [signedOfBytes, signedOfBytes, length_map]
  generalize 256 ^ l.length = N at *
  rw [Int.bmod_def, Int.bmod_def, Int.emod_eq_of_lt (by omega) (by omega),
    Int.emod_eq_of_lt (by omega) (by omega)]
  split <;> split <;> omega

/-! ### Digits in a larger base -/

def recode (b c n : ℕ) : ℕ := ofDigits c (digits b n)

section

variable {b c : ℕ}

section

variable (hb : 1 < b)
include hb

theorem recode_eq (n : ℕ) : recode b c n = recode b c (n / b) * c + n % b := by
  rcases Nat.eq_zero_or_pos n with rfl | hn
  · simp [recode]
  · rw [recode, digits_def' hb hn, ofDigits_cons, recode, mul_comm, add_comm]

theorem recode_of_lt {n : ℕ} (h : n < b) : recode b c n = n := by
  rw [recode_eq hb, div_eq_of_lt h, mod_eq_of_lt h]
  simp [recode]

theorem recode_mul_add (n : ℕ) {r : ℕ} (hr : r < b) :
    recode b c (n * b + r) = recode b c n * c + r := by
  rw [recode_eq hb, mul_comm n, mul_add_div (by omega), mul_add_mod, div_eq_of_lt hr,
    mod_eq_of_lt hr, add_zero]

theorem recode_mul_pow (n k : ℕ) : recode b c (n * b ^ k) = recode b c n * c ^ k := by
  induction k with
  | zero => rw [pow_zero, pow_zero, mul_one, mul_one]
  | succ k ih =>
    have hstep := recode_mul_add (c := c) hb (n * b ^ k) (show 0 < b by omega)
    rw [add_zero, add_zero, ih] at hstep
    rw [pow_succ, ← mul_assoc, hstep, pow_succ, mul_assoc]

theorem recode_strictMono (hbc : b ≤ c) : StrictMono (recode b c) := by
  intro m n hlt
  induction n using Nat.strong_induction_on generalizing m with
  | _ n ih =>
    have hm := mod_lt m (show 0 < b by omega)
    have hm' := div_add_mod m b
    have hn' := div_add_mod n b
    rw [recode_eq hb m, recode_eq hb n]
    rcases eq_or_lt_of_le (Nat.div_le_div_right hlt.le : m / b ≤ n / b) with heq | hless
    · rw [heq] at hm' ⊢
      omega
    · exact leading_lt (ih (n / b) (div_lt_self (by omega) hb) hless) (by omega)

theorem recode_lt (hbc : b ≤ c) {m n k : ℕ} (hm : m ≤ b) (h : n < m * b ^ k) :
    recode b c n < m * c ^ k := by
  induction k generalizing n with
  | zero =>
    rw [pow_zero, mul_one] at h ⊢
    rwa [recode_of_lt hb (by omega)]
  | succ k ih =>
    have hdiv : n / b < m * b ^ k := by
      rw [div_lt_iff_lt_mul (by omega), mul_assoc, ← pow_succ]
      exact h
    have hmod := mod_lt n (show 0 < b by omega)
    have hrec := ih hdiv
    rw [recode_eq hb, pow_succ, ← mul_assoc]
    calc recode b c (n / b) * c + n % b < recode b c (n / b) * c + c := by omega
      _ = (recode b c (n / b) + 1) * c := by ring
      _ ≤ m * c ^ k * c := mul_le_mul_right c hrec

theorem recode_mod (hbc : b ≤ c) (n : ℕ) : recode b c n % c = n % b := by
  have hmod := mod_lt n (show 0 < b by omega)
  rw [recode_eq hb, mul_comm, mul_add_mod, mod_eq_of_lt (by omega)]

theorem recode_div_pow (hbc : b ≤ c) (n k : ℕ) : recode b c n / c ^ k = recode b c (n / b ^ k) := by
  induction k generalizing n with
  | zero => rw [pow_zero, pow_zero, Nat.div_one, Nat.div_one]
  | succ k ih =>
    have hmod := mod_lt n (show 0 < b by omega)
    have hone : recode b c n / c = recode b c (n / b) := by
      rw [recode_eq hb n, mul_comm, mul_add_div (by omega), 
        div_eq_of_lt (show n % b < c by omega), add_zero]
    rw [pow_succ', ← Nat.div_div_eq_div_mul, hone, ih, pow_succ', Nat.div_div_eq_div_mul]

/-- Words of a memory that are digits of the smaller base. -/
theorem recode_radix {m : ℕ → ℤ} {lo n : ℕ} (h : InRange (b : ℤ) m lo n) :
    (recode b c (radix (b : ℤ) m lo n).toNat : ℤ) = radix (c : ℤ) m lo n := by
  induction n with
  | zero => simp [recode]
  | succ n ih =>
    have hn : InRange (b : ℤ) m lo n := h.mono le_rfl (by omega)
    have hnonneg := hn.radix_nonneg
    have hlast := h (lo + n) (by omega) (by omega)
    have hsplit : (radix (b : ℤ) m lo n * b + m (lo + n)).toNat =
        (radix (b : ℤ) m lo n).toNat * b + (m (lo + n)).toNat := by
      have hmul : 0 ≤ radix (b : ℤ) m lo n * b := by positivity
      rw [Int.toNat_add hmul hlast.1, Int.toNat_mul hnonneg (by omega), Int.toNat_natCast]
    rw [radix_succ, radix_succ, hsplit, recode_mul_add hb _ (by omega)]
    push_cast
    rw [ih hn, Int.toNat_of_nonneg hlast.1]

end

end

end LibSources
