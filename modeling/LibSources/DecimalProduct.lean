import LibSources.DecimalMul
import LibSources.DecimalDifference

/-!
# The Product of Two Decimals

Each row of the schoolbook product adds a word of the first operand times the second operand. The
rows together give the product of the words that are used, and a product that fits its words
leaves no carry.

## Main results

* `decimalMul_contract_iff`: the products that are right.
-/

namespace LibSources

open SignType Decimal Function Option

/-! ### Rows -/

variable {m2 m : ℕ → ℤ} {carry w : ℤ} {p intg0 : ℕ} {x : ℚ}

/-- The inner loop adds the product of the word and the second operand, up to its carry. -/
theorem mulWords_spec {lo2 lo0 k : ℕ} (hw : 0 ≤ w ∧ w < digBase) (h2 : InRange digBase m2 lo2 k)
    (hm : InRange digBase m lo0 k) (hc : 0 ≤ carry ∧ carry < digBase) :
    let r := mulWords w m2 lo2 lo0 k m carry
    radix digBase r.1 lo0 k + r.2 * digBase ^ k =
        radix digBase m lo0 k + w * radix digBase m2 lo2 k + carry ∧
      InRange digBase r.1 lo0 k ∧ (0 ≤ r.2 ∧ r.2 < digBase) ∧
      ∀ i, i < lo0 ∨ lo0 + k ≤ i → r.1 i = m i := by
  induction k generalizing m carry with
  | zero =>
    refine ⟨?_, fun i hi hi' => absurd hi (by omega), hc, fun _ _ => rfl⟩
    simp only [mulWords, radix_zero, pow_zero]
    ring
  | succ k ih =>
    have hbase := digBase_pos
    have hword := h2 (lo2 + k) (by omega) (by omega)
    have hcell := hm (lo0 + k) (by omega) (by omega)
    have hlo : w * m2 (lo2 + k) - w * m2 (lo2 + k) / digBase * digBase =
        w * m2 (lo2 + k) % digBase := by rw [Int.emod_def]; ring
    have hadd := addWord2_spec hcell (b := w * m2 (lo2 + k) % digBase)
      ⟨Int.emod_nonneg _ hbase.ne', Int.emod_lt_of_pos _ hbase⟩ ⟨hc.1, hc.2.le⟩
    simp only [mulWords, hlo]
    generalize addWord2 (m (lo0 + k)) (w * m2 (lo2 + k) % digBase) carry = s at hadd ⊢
    obtain ⟨hsum, hrange, hcarry⟩ := hadd
    -- a word, a product of two words and a carry have two words
    have htotal : s.1 + (s.2 + w * m2 (lo2 + k) / digBase) * digBase =
        m (lo0 + k) + w * m2 (lo2 + k) + carry := by
      linear_combination -hsum - hlo
    have hhi : 0 ≤ w * m2 (lo2 + k) / digBase := Int.ediv_nonneg (mul_nonneg hw.1 hword.1) hbase.le
    have hcarry' : 0 ≤ s.2 + w * m2 (lo2 + k) / digBase ∧
        s.2 + w * m2 (lo2 + k) / digBase < digBase := by
      refine ⟨by omega, ?_⟩
      have hprod : w * m2 (lo2 + k) ≤ (digBase - 1) * (digBase - 1) :=
        mul_le_mul (by omega) (by omega) hword.1 (by omega)
      by_contra hge
      have := mul_le_mul_of_nonneg_right (not_lt.mp hge) hbase.le
      nlinarith
    obtain ⟨heq, hrange', hlast, houtside⟩ := ih (h2.mono le_rfl (by omega))
      ((hm.mono le_rfl (by omega)).update (i := lo0 + k) hrange) hcarry'
    have hend : (mulWords w m2 lo2 lo0 k (update m (lo0 + k) s.1)
        (s.2 + w * m2 (lo2 + k) / digBase)).1 (lo0 + k) = s.1 := by
      rw [houtside _ (.inr le_rfl), update_self]
    refine ⟨?_, hrange'.succ (by rw [hend]; exact hrange), hlast, fun i hi => ?_⟩
    · rw [radix_update (.inr le_rfl)] at heq
      rw [radix_succ, radix_succ, radix_succ, hend, pow_succ]
      linear_combination digBase * heq + htotal
    · rw [houtside i (by omega), update_of_ne (by omega)]

structure Carried (p : ℕ) (m : ℕ → ℤ) (carry : ℤ) (r : (ℕ → ℤ) × Bool) : Prop where
  no_overflow : r.2 = false
  sum : radix digBase r.1 0 p = radix digBase m 0 p + carry
  range : InRange digBase r.1 0 p
  behind : ∀ i, p ≤ i → r.1 i = m i

theorem Carried.refl (hm : InRange digBase m 0 p) : Carried p m 0 (m, false) :=
  ⟨rfl, (add_zero _).symm, hm, fun _ _ => rfl⟩

theorem Carried.succ {word carry' : ℤ} {r : (ℕ → ℤ) × Bool}
    (hsum : m p + carry = word + carry' * digBase) (hword : 0 ≤ word ∧ word < digBase)
    (h : Carried p (update m p word) carry' r) : Carried (p + 1) m carry r := by
  have hend : r.1 p = word := by rw [h.behind p le_rfl, update_self]
  have heq := h.sum
  rw [radix_update (.inr (by omega))] at heq
  refine ⟨h.no_overflow, ?_, h.range.succ (by rw [zero_add, hend]; exact hword), fun i hi => ?_⟩
  · rw [radix_succ, radix_succ, zero_add, hend, heq]
    linear_combination -hsum
  · rw [h.behind i (by omega), update_of_ne (by omega)]

theorem carry_fits {word carry' : ℤ} (hsum : m p + carry = word + carry' * digBase)
    (hword : 0 ≤ word) (hfits : radix digBase m 0 (p + 1) + carry < digBase ^ (p + 1)) :
    radix digBase (update m p word) 0 p + carry' < digBase ^ p := by
  rw [radix_succ, zero_add, pow_succ] at hfits
  rw [radix_update (.inr (by omega))]
  by_contra hge
  have := mul_le_mul_of_nonneg_right (not_lt.mp hge) digBase_pos.le
  nlinarith

theorem carryInto_spec (hm : InRange digBase m 0 p) (hc : 0 ≤ carry ∧ carry ≤ 1)
    (hfits : radix digBase m 0 p + carry < digBase ^ p) :
    Carried p m carry (carryInto p m carry) := by
  induction p generalizing m carry with
  | zero =>
    obtain rfl : carry = 0 := by
      rw [radix_zero, pow_zero] at hfits
      omega
    exact Carried.refl hm
  | succ p ih =>
    rw [carryInto]
    by_cases hzero : carry = 0
    · rw [if_pos hzero, hzero]
      exact Carried.refl hm
    obtain ⟨hsum, hrange, hcarry⟩ := addWord_spec (hm p zero_le (by omega)) ⟨le_rfl, digBase_pos⟩ hc
    rw [add_zero] at hsum
    rw [if_neg hzero]
    exact (ih ((hm.mono le_rfl (by omega)).update hrange) hcarry
      (carry_fits hsum hrange.1 hfits)).succ hsum hrange

theorem addCarry_spec (hm : InRange digBase m 0 p) (hc : 0 ≤ carry ∧ carry < digBase)
    (hfits : radix digBase m 0 p + carry < digBase ^ p) :
    Carried p m carry (addCarry p m carry) := by
  rw [addCarry.eq_def]
  by_cases hzero : carry = 0
  · rw [if_pos hzero, hzero]
    exact Carried.refl hm
  rw [if_neg hzero]
  cases p with
  | zero =>
    rw [radix_zero, pow_zero] at hfits
    omega
  | succ p =>
    have hcell := hm p zero_le (by omega)
    obtain ⟨hsum, hrange, hcarry⟩ := addWord2_spec hcell ⟨le_rfl, digBase_pos⟩ ⟨hc.1, hc.2.le⟩
    rw [add_zero] at hsum
    -- two words below the base give a carry of one at most
    have hone : (addWord2 (m p) 0 carry).2 ≤ 1 := by
      by_contra hgt
      have htwo : (addWord2 (m p) 0 carry).2 = 2 := by omega
      rw [htwo] at hsum
      omega
    exact (carryInto_spec ((hm.mono le_rfl (by omega)).update hrange) ⟨hcarry.1, hone⟩
      (carry_fits hsum hrange.1 hfits)).succ hsum hrange

theorem mulRow_spec {lo2 n2 e : ℕ} (hw : 0 ≤ w ∧ w < digBase) (h2 : InRange digBase m2 lo2 n2)
    (hm : InRange digBase m 0 e) (he : n2 ≤ e)
    (hfits : radix digBase m 0 e + w * radix digBase m2 lo2 n2 < digBase ^ e) :
    let row := mulWords w m2 lo2 (e - n2) n2 m 0
    Carried e m (w * radix digBase m2 lo2 n2) (addCarry (e - n2) row.1 row.2) := by
  intro row
  obtain ⟨hsum, hrange, hcarry, houtside⟩ := mulWords_spec hw h2
    (hm.mono (Nat.zero_le (e - n2)) (by omega)) ⟨le_rfl, digBase_pos⟩
  have hsplit : e = e - n2 + n2 := by omega
  have hfront : ∀ i, 0 ≤ i → i < 0 + (e - n2) → row.1 i = m i := fun i _ hi =>
    houtside i (.inl (by omega))
  have hradix : ∀ m' : ℕ → ℤ, radix digBase m' 0 e =
      radix digBase m' 0 (e - n2) * digBase ^ n2 + radix digBase m' (e - n2) n2 := by
    intro m'
    conv_lhs => rw [hsplit]
    rw [radix_add, zero_add]
  have hlow := hrange.radix_nonneg
  have hpow := pow_pos digBase_pos n2
  have hfits' : radix digBase row.1 0 (e - n2) + row.2 < digBase ^ (e - n2) := by
    rw [radix_congr hfront]
    have htotal : (radix digBase m 0 (e - n2) + row.2) * digBase ^ n2 <
        digBase ^ (e - n2) * digBase ^ n2 := by
      rw [← pow_add, ← hsplit]
      rw [hradix m] at hfits
      linarith
    exact lt_of_mul_lt_mul_right htotal hpow.le
  have hdone := addCarry_spec ((hm.mono le_rfl (by omega) : InRange digBase m 0 (e - n2)).congr
    hfront) hcarry hfits'
  have hback : ∀ i, e - n2 ≤ i → i < e - n2 + n2 →
      (addCarry (e - n2) row.1 row.2).1 i = row.1 i := fun i hi _ => hdone.behind i hi
  refine ⟨hdone.no_overflow, ?_, fun i _ hi => ?_, fun i hi => ?_⟩
  · have hsum' := hdone.sum
    rw [radix_congr hfront] at hsum'
    rw [hradix, hradix m, radix_congr hback, hsum']
    linear_combination hsum
  · by_cases hlt : i < e - n2
    · exact hdone.range i zero_le (by omega)
    · rw [hdone.behind i (by omega)]
      exact hrange i (by omega) (by omega)
  · rw [hdone.behind i (by omega)]
    exact houtside i (.inr (by omega))

theorem mulRows_spec {m1 : ℕ → ℤ} {lo1 lo2 n2 k e n : ℕ} (h1 : InRange digBase m1 lo1 k)
    (h2 : InRange digBase m2 lo2 n2) (hm : InRange digBase m 0 n) (he : e ≤ n)
    (hk : k = 0 ∨ n2 + k ≤ e + 1) (hfits : radix digBase m 0 n +
      radix digBase m1 lo1 k * radix digBase m2 lo2 n2 * digBase ^ (n - e) < digBase ^ n) :
    ∃ m', mulRows m1 lo1 m2 lo2 n2 k e m = some (m', false) ∧ InRange digBase m' 0 n ∧
      radix digBase m' 0 n = radix digBase m 0 n +
        radix digBase m1 lo1 k * radix digBase m2 lo2 n2 * digBase ^ (n - e) := by
  induction k generalizing e m with
  | zero =>
    refine ⟨m, rfl, hm, ?_⟩
    rw [radix_zero, zero_mul, zero_mul, add_zero]
  | succ k ih =>
    have hle : n2 ≤ e := by omega
    have hword := h1 (lo1 + k) (by omega) (by omega)
    have hinit := (h1.mono le_rfl (by omega) : InRange digBase m1 lo1 k).radix_nonneg
    have hV := h2.radix_nonneg
    have hsplit : n = e + (n - e) := by omega
    have hradix : ∀ m' : ℕ → ℤ, radix digBase m' 0 n =
        radix digBase m' 0 e * digBase ^ (n - e) + radix digBase m' e (n - e) := by
      intro m'
      conv_lhs => rw [hsplit]
      rw [radix_add, zero_add]
    have hpow := pow_pos digBase_pos (n - e)
    have hlow := (hm.mono zero_le (by omega) : InRange digBase m e (n - e)).radix_nonneg
    -- the row alone has room, since the whole product has
    have hrowfits : radix digBase m 0 e + m1 (lo1 + k) * radix digBase m2 lo2 n2 < digBase ^ e := by
      have hrest : 0 ≤ radix digBase m1 lo1 k * digBase * radix digBase m2 lo2 n2 *
          digBase ^ (n - e) := by
        have := digBase_pos
        positivity
      have htotal : (radix digBase m 0 e + m1 (lo1 + k) * radix digBase m2 lo2 n2) *
          digBase ^ (n - e) < digBase ^ e * digBase ^ (n - e) := by
        rw [← pow_add, ← hsplit]
        rw [hradix m, radix_succ] at hfits
        linarith
      exact lt_of_mul_lt_mul_right htotal hpow.le
    have hrow := mulRow_spec hword h2 (hm.mono le_rfl (by omega)) hle hrowfits
    rw [mulRows, if_neg (by omega)]
    dsimp only
    dsimp only at hrow
    generalize addCarry (e - n2) (mulWords (m1 (lo1 + k)) m2 lo2 (e - n2) n2 m 0).1
      (mulWords (m1 (lo1 + k)) m2 lo2 (e - n2) n2 m 0).2 = r at hrow ⊢
    rw [if_neg (by rw [hrow.no_overflow]; exact Bool.false_ne_true)]
    have hm' : InRange digBase r.1 0 n := fun i _ hi => by
      by_cases hlt : i < e
      · exact hrow.range i zero_le (by omega)
      · rw [hrow.behind i (by omega)]
        exact hm i zero_le hi
    have hsum : radix digBase r.1 0 n = radix digBase m 0 n +
        m1 (lo1 + k) * radix digBase m2 lo2 n2 * digBase ^ (n - e) := by
      rw [hradix, hradix m, hrow.sum, radix_congr fun i hi _ => hrow.behind i hi]
      ring
    have htotal : radix digBase r.1 0 n +
        radix digBase m1 lo1 k * radix digBase m2 lo2 n2 * digBase ^ (n - (e - 1)) =
        radix digBase m 0 n +
          radix digBase m1 lo1 (k + 1) * radix digBase m2 lo2 n2 * digBase ^ (n - e) := by
      rcases eq_zero_or_pos k with rfl | hpos
      · rw [hsum, radix_zero, radix_succ, radix_zero]
        ring
      · rw [hsum, radix_succ, show n - (e - 1) = n - e + 1 by omega, pow_succ]
        ring
    obtain ⟨m', hrun, hrange, heq⟩ := ih (h1.mono le_rfl (by omega)) hm'
      (show e - 1 ≤ n by omega) (by omega) (by rw [htotal]; exact hfits)
    exact ⟨m', hrun, hrange, heq.trans htotal⟩

/-- Without words of the second operand nothing is added. -/
theorem mulRows_zero (m1 m2 : ℕ → ℤ) (lo1 lo2 k e : ℕ) (m : ℕ → ℤ) :
    mulRows m1 lo1 m2 lo2 0 k e m = some (m, false) := by
  induction k generalizing e with
  | zero => rfl
  | succ k ih =>
    rw [mulRows, if_neg (Nat.not_lt_zero e)]
    exact ih (e - 1)

section

variable (m : ℕ → ℤ)

theorem allZero_iff (pos n : ℕ) :
    allZero m pos n = true ↔ ∀ i, pos ≤ i → i < pos + n → m i = 0 := by
  induction n generalizing pos with
  | zero => exact iff_of_true rfl fun i hi hi' => absurd hi (by omega)
  | succ n ih =>
    rw [allZero]
    by_cases hzero : m pos = 0
    · rw [if_neg (not_not.mpr hzero), ih]
      constructor
      · intro h i hi hi'
        rcases eq_or_lt_of_le hi with rfl | hlt
        · exact hzero
        · exact h i hlt (by omega)
      · exact fun h i hi hi' => h i (by omega) (by omega)
    · rw [if_pos hzero]
      exact iff_of_false Bool.false_ne_true fun h => hzero (h pos le_rfl (by omega))

theorem skipLeading_spec (fuel pos k : ℕ) :
    ∃ j, skipLeading m fuel pos (k * 9) = (pos + j, (k - j) * 9) ∧ j ≤ k ∧
      ∀ i, pos ≤ i → i < pos + j → m i = 0 := by
  induction fuel generalizing pos k with
  | zero => exact ⟨0, rfl, zero_le, fun i hi hi' => absurd hi (by omega)⟩
  | succ fuel ih =>
    rw [skipLeading]
    by_cases hskip : m pos = 0 ∧ 9 < k * 9
    · rw [if_pos hskip, show k * 9 - 9 = (k - 1) * 9 by omega]
      obtain ⟨j, heq, hle, hzeros⟩ := ih (pos + 1) (k - 1)
      refine ⟨j + 1, ?_, by omega, fun i hi hi' => ?_⟩
      · rw [heq, show pos + 1 + j = pos + (j + 1) by omega, show k - 1 - j = k - (j + 1) by omega]
      rcases eq_or_lt_of_le hi with rfl | hlt
      · exact hskip.1
      · exact hzeros i hlt (by omega)
    · rw [if_neg hskip]
      exact ⟨0, rfl, zero_le, fun i hi hi' => absurd hi (by omega)⟩

theorem moveWords_eq {dst src : ℕ} (h : dst ≤ src) (k i : ℕ) :
    moveWords m dst src k i = if dst ≤ i ∧ i < dst + k then m (i + (src - dst)) else m i := by
  induction k generalizing m dst src with
  | zero => rw [moveWords, if_neg (by omega)]
  | succ k ih =>
    rw [moveWords, ih _ (by omega), show src + 1 - (dst + 1) = src - dst by omega]
    by_cases hi : i = dst
    · rw [if_neg (by omega), if_pos (by omega), hi, update_self]
      congr 1
      omega
    by_cases hmem : dst ≤ i ∧ i < dst + (k + 1)
    · rw [if_pos hmem, if_pos (by omega), update_of_ne (by omega)]
    · rw [if_neg hmem, if_neg (by omega), update_of_ne hi]

end

theorem Decimal.dropLeading_spec {d : Decimal} (hintg : d.intg = intg0 * 9) (hd : d.WellFormed) :
    (d.dropLeading intg0).WellFormed ∧ (d.dropLeading intg0).value = d.value := by
  obtain ⟨j, heq, hle, hzeros⟩ := skipLeading_spec d.buf d.intg 0 intg0
  have hwords : d.words = intg0 + roundUp d.frac := by rw [words, hintg, roundUp_mul]
  rw [← hintg, zero_add] at heq
  set r := d.dropLeading intg0 with hr
  have hrintg : r.intg = (intg0 - j) * 9 := by rw [hr, dropLeading, heq]
  have hrbuf : ∀ i < intg0 - j + roundUp d.frac, r.buf i = d.buf (j + i) := by
    intro i hi
    rw [hr, dropLeading, heq]
    dsimp only
    by_cases hj : 0 < j
    · rw [if_pos hj, moveWords_eq _ hj.le, if_pos (by omega)]
      congr 1
      omega
    rw [if_neg hj]
    congr 1
    omega
  have hrwords : r.words = intg0 - j + roundUp d.frac := by
    rw [words, hrintg, roundUp_mul]
    rfl
  have hradix : radix digBase r.buf 0 (intg0 - j + roundUp d.frac) =
      radix digBase d.buf 0 d.words := by
    rw [hwords, show intg0 + roundUp d.frac = j + (intg0 - j + roundUp d.frac) by omega,
      radix_skip_zeros hzeros, zero_add]
    exact radix_shift_congr fun i hi => by rw [zero_add, hrbuf i hi]
  refine ⟨wellFormed_of_words hrintg (fun i _ hi => ?_) ?_, ?_⟩
  · rw [hrbuf i (by rw [zero_add] at hi; exact hi)]
    exact hd.range _ zero_le (by rw [hwords]; change i < 0 + (_ + roundUp d.frac) at hi; omega)
  · exact hradix ▸ hd.dvd_radix
  have hmag : r.magnitude = d.magnitude := by
    rw [magnitude, magnitude, hrwords, hradix]
    rfl
  rw [value_eq_signed, value_eq_signed, hmag]
  rfl

/-! ### The operands -/

namespace Decimal

/-- The magnitude of a decimal cut to `f` fraction words. Where `f` is negative, integer words
are cut off as well. -/
def cut (d : Decimal) (f : ℤ) : ℚ := ⌊d.magnitude * (digBase : ℚ) ^ f⌋ / (digBase : ℚ) ^ f

def usedWords (d : Decimal) (f : ℤ) : ℕ := (roundUp d.intg + f).toNat

variable {d : Decimal} {f : ℤ}

theorem WellFormed.cut_eq (h : d.WellFormed) (hf : f ≤ roundUp d.frac) :
    d.cut f = radix digBase d.buf 0 (d.usedWords f) / (digBase : ℚ) ^ f := by
  have hbase := digBase_cast_pos
  rw [cut, usedWords]
  congr 2
  rcases le_total 0 ((roundUp d.intg : ℤ) + f) with hle | hle
  · obtain ⟨t, ht⟩ : ∃ t : ℕ, (roundUp d.frac : ℤ) - f = t :=
      ⟨(roundUp d.frac - f).toNat, by omega⟩
    have hwords : d.words = (roundUp d.intg + f).toNat + t := by
      rw [words]
      omega
    have hrange := h.range
    rw [hwords] at hrange
    rw [← hrange.radix_ediv digBase_pos, ← floor_div_eq _ (pow_pos digBase_pos t), magnitude,
      hwords]
    congr 1
    rw [show f = (roundUp d.frac : ℤ) - t by omega, zpow_sub₀ hbase.ne', zpow_natCast, zpow_natCast]
    push_cast
    have := hbase.ne'
    field_simp
  · rw [Int.toNat_of_nonpos hle, radix_zero, Int.floor_eq_zero_iff]
    have hlt : d.magnitude < (digBase : ℚ) ^ (roundUp d.intg : ℤ) := by
      rw [zpow_natCast, digBase_pow]
      exact h.magnitude_lt_pow.trans_le (pow_le_pow_right₀ (by norm_num) (le_roundUp_mul _))
    refine ⟨mul_nonneg h.magnitude_nonneg (zpow_pos hbase f).le, ?_⟩
    calc d.magnitude * (digBase : ℚ) ^ f
        < (digBase : ℚ) ^ (roundUp d.intg : ℤ) * (digBase : ℚ) ^ f :=
          mul_lt_mul_of_pos_right hlt (zpow_pos hbase f)
      _ = (digBase : ℚ) ^ ((roundUp d.intg : ℤ) + f) := (zpow_add₀ hbase.ne' _ _).symm
      _ ≤ 1 := zpow_le_one_of_nonpos₀ (by exact_mod_cast digBase_pos) hle

theorem WellFormed.cut_le (h : d.WellFormed) (f : ℤ) : 0 ≤ d.cut f ∧ d.cut f ≤ d.magnitude := by
  have hbase := digBase_cast_pos
  have hpow := zpow_pos hbase f
  constructor
  · refine div_nonneg ?_ hpow.le
    exact_mod_cast Int.floor_nonneg.mpr (mul_nonneg h.magnitude_nonneg hpow.le)
  · rw [cut, div_le_iff₀ hpow]
    exact Int.floor_le _

theorem WellFormed.dvd_used (h : d.WellFormed) (hf : f ≤ roundUp d.frac) :
    (10 : ℤ) ^ (f * 9 - d.frac).toNat ∣ radix digBase d.buf 0 (d.usedWords f) := by
  by_cases heq : f = roundUp d.frac
  · have hused : d.usedWords f = d.words := by
      rw [usedWords, words, heq]
      omega
    rw [hused, heq, show ((roundUp d.frac : ℤ) * 9 - d.frac).toNat =
      roundUp d.frac * 9 - d.frac by omega]
    exact h.dvd_radix
  · have hzero : (f * 9 - d.frac).toNat = 0 := by
      rw [roundUp] at hf heq
      omega
    rw [hzero, pow_zero]
    exact one_dvd _

theorem WellFormed.used_range (h : d.WellFormed) (hf : f ≤ roundUp d.frac) :
    InRange digBase d.buf 0 (d.usedWords f) :=
  h.range.mono le_rfl (by rw [usedWords, words]; omega)

end Decimal

/-! ### The product of the words -/

theorem mulFracs_spec {frac1 frac2 lost : ℕ} (h : lost ≤ frac1 + frac2) :
    (mulFracs frac1 frac2 lost).1 ≤ frac1 ∧ (mulFracs frac1 frac2 lost).2 ≤ frac2 ∧
      (mulFracs frac1 frac2 lost).1 + (mulFracs frac1 frac2 lost).2 =
        (frac1 + frac2 - lost : ℕ) := by
  rw [mulFracs]
  split_ifs <;> dsimp only <;> omega

section

variable {a b : Decimal} (ha : a.WellFormed) (hb : b.WellFormed) {f1 f2 : ℤ} {frac0 : ℕ}
  (h1 : f1 ≤ roundUp a.frac) (h2 : f2 ≤ roundUp b.frac) (hsum : f1 + f2 = frac0)
include ha hb h1 h2 hsum

theorem cut_mul_cut : a.cut f1 * b.cut f2 =
    (radix digBase a.buf 0 (a.usedWords f1) * radix digBase b.buf 0 (b.usedWords f2) : ℤ) /
      (digBase : ℚ) ^ frac0 := by
  have hbase := digBase_cast_pos.ne'
  rw [ha.cut_eq h1, hb.cut_eq h2, div_mul_div_comm, ← zpow_add₀ hbase, hsum, zpow_natCast]
  push_cast
  rfl

theorem product_lt :
    radix digBase a.buf 0 (a.usedWords f1) * radix digBase b.buf 0 (b.usedWords f2) <
      digBase ^ (roundUp (a.intg + b.intg) + frac0) := by
  have hbase := digBase_cast_pos
  have hproduct : a.cut f1 * b.cut f2 < (digBase : ℚ) ^ roundUp (a.intg + b.intg) :=
    calc a.cut f1 * b.cut f2 ≤ a.magnitude * b.magnitude :=
          mul_le_mul (ha.cut_le f1).2 (hb.cut_le f2).2 (hb.cut_le f2).1 ha.magnitude_nonneg
      _ < (10 : ℚ) ^ a.intg * (10 : ℚ) ^ b.intg :=
          mul_lt_mul'' ha.magnitude_lt_pow hb.magnitude_lt_pow ha.magnitude_nonneg
            hb.magnitude_nonneg
      _ = (10 : ℚ) ^ (a.intg + b.intg) := (pow_add _ _ _).symm
      _ ≤ (digBase : ℚ) ^ roundUp (a.intg + b.intg) := by
          rw [digBase_pow]
          exact pow_le_pow_right₀ (by norm_num) (le_roundUp_mul _)
  rw [cut_mul_cut ha hb h1 h2 hsum, div_lt_iff₀ (pow_pos hbase _), ← pow_add] at hproduct
  exact_mod_cast hproduct

theorem mulRows_product (buf : ℕ → ℤ) :
    let n := roundUp (a.intg + b.intg) + frac0
    ∃ m, mulRows a.buf 0 b.buf 0 (b.usedWords f2) (a.usedWords f1) n (fillWords 0 buf 0 n) =
        some (m, false) ∧ InRange digBase m 0 n ∧
      radix digBase m 0 n =
        radix digBase a.buf 0 (a.usedWords f1) * radix digBase b.buf 0 (b.usedWords f2) := by
  intro n
  have hclear : ∀ i, 0 ≤ i → i < 0 + n → fillWords 0 buf 0 n i = 0 := fun i hi hi' => by
    rw [fillWords_eq, if_pos ⟨hi, hi'⟩]
  have hrange : InRange digBase (fillWords 0 buf 0 n) 0 n := fun i hi hi' => by
    rw [hclear i hi hi']
    exact ⟨le_rfl, digBase_pos⟩
  rcases eq_zero_or_pos (b.usedWords f2) with hzero | hpos
  · rw [hzero, mulRows_zero]
    exact ⟨_, rfl, hrange, by rw [radix_eq_zero hclear, radix_zero, mul_zero]⟩
  have hrows : a.usedWords f1 = 0 ∨ b.usedWords f2 + a.usedWords f1 ≤ n + 1 := by
    have hwords : roundUp a.intg + roundUp b.intg ≤ roundUp (a.intg + b.intg) + 1 := by
      rw [roundUp, roundUp, roundUp]
      omega
    rw [usedWords] at hpos ⊢
    rw [usedWords]
    omega
  have hlt := product_lt ha hb h1 h2 hsum
  obtain ⟨m, hrun, hm, heq⟩ := mulRows_spec (ha.used_range h1) (hb.used_range h2) hrange le_rfl
    hrows (by
      rw [radix_eq_zero hclear, zero_add, tsub_self, pow_zero, mul_one]
      exact hlt)
  refine ⟨m, hrun, hm, ?_⟩
  rw [heq, radix_eq_zero hclear, zero_add, tsub_self, pow_zero, mul_one]

theorem dvd_product {frac : ℕ} (hfrac : min (a.frac + b.frac) (frac0 * 9) ≤ frac) :
    (10 : ℤ) ^ (frac0 * 9 - frac) ∣
      radix digBase a.buf 0 (a.usedWords f1) * radix digBase b.buf 0 (b.usedWords f2) := by
  refine (pow_dvd_pow 10 (show frac0 * 9 - frac ≤
    (f1 * 9 - a.frac).toNat + (f2 * 9 - b.frac).toNat by omega)).trans ?_
  rw [pow_add]
  exact mul_dvd_mul (ha.dvd_used h1) (hb.dvd_used h2)

end

theorem Decimal.of_product {d : Decimal} {frac0 : ℕ} (hintg : d.intg = intg0 * 9)
    (hfrac : d.frac ≤ frac0 * 9) (hrange : InRange digBase d.buf 0 (intg0 + frac0))
    (hdvd : (10 : ℤ) ^ (frac0 * 9 - d.frac) ∣ radix digBase d.buf 0 (intg0 + frac0)) :
    d.WellFormed ∧ d.magnitude = radix digBase d.buf 0 (intg0 + frac0) / (digBase : ℚ) ^ frac0 := by
  have hbase := digBase_cast_pos.ne'
  have hle : roundUp d.frac ≤ frac0 := roundUp_le_iff.mpr hfrac
  obtain ⟨z, hz⟩ : ∃ z, frac0 = roundUp d.frac + z := ⟨frac0 - roundUp d.frac, by omega⟩
  have hsplit := radix_add digBase d.buf 0 (intg0 + roundUp d.frac) z
  rw [zero_add, add_assoc, ← hz] at hsplit
  have htail : InRange digBase d.buf (intg0 + roundUp d.frac) z := hrange.mono zero_le (by omega)
  have hpow := digBase_pow_int z
  have hfrac' := le_roundUp_mul d.frac
  have hexp : frac0 * 9 - d.frac = z * 9 + (roundUp d.frac * 9 - d.frac) := by omega
  have hzero : radix digBase d.buf (intg0 + roundUp d.frac) z = 0 := by
    refine Int.eq_zero_of_dvd_of_nonneg_of_lt htail.radix_nonneg htail.radix_lt ?_
    rw [hexp, pow_add, ← hpow, hsplit] at hdvd
    exact (Int.dvd_add_right (Dvd.intro_left _ rfl)).mp (dvd_of_mul_right_dvd hdvd)
  rw [hzero, add_zero] at hsplit
  refine ⟨wellFormed_of_words hintg (hrange.mono le_rfl (by omega)) ?_, ?_⟩
  · rw [hexp, pow_add, ← hpow, hsplit, mul_comm] at hdvd
    exact (mul_dvd_mul_iff_right (pow_pos digBase_pos z).ne').mp hdvd
  rw [magnitude_of_words hintg, hsplit, hz, pow_add]
  push_cast
  field_simp

/-! ### `decimal_mul` -/

theorem Decimal.fixNegativeZero_spec {d : Decimal} {n : ℕ} (hwords : d.words ≤ n) :
    (d.fixNegativeZero n = none ∧ n = 0) ∨ d.fixNegativeZero n = some d ∨
      (d.fixNegativeZero n = some d.makeZero ∧ d.magnitude = 0) := by
  rw [fixNegativeZero]
  split_ifs with hsign hn hzero
  · exact .inl ⟨rfl, hn⟩
  · refine .inr (.inr ⟨rfl, ?_⟩)
    rw [allZero_iff] at hzero
    rw [magnitude, radix_eq_zero fun i hi hi' => hzero i hi (by omega), Int.cast_zero, zero_div]
  · exact .inr (.inl rfl)
  · exact .inr (.inl rfl)

theorem Decimal.dropLeading_makeZero (d : Decimal) (intg0 : ℕ) :
    d.makeZero.dropLeading intg0 = d.makeZero := by
  have hskip : skipLeading d.makeZero.buf d.makeZero.intg 0 d.makeZero.intg = (0, 1) := by
    have hintg : d.makeZero.intg = 1 := rfl
    rw [hintg, skipLeading, if_neg (by omega)]
  rw [dropLeading, hskip]
  rfl

/-- What `decimal_mul` returns when the integer part fits: the product of the operands cut to
the fraction words that are used. -/
theorem decimalMul_spec {a b : Decimal} (ha : a.WellFormed) (hb : b.WellFormed) (dst : Decimal)
    {frac0 : ℕ} {error : DecimalError}
    (hfix : fixIntgFracError dst.len (roundUp (a.intg + b.intg))
      (roundUp a.frac + roundUp b.frac) = (roundUp (a.intg + b.intg), frac0, error))
    (herror : error = .ok ∧ frac0 = roundUp a.frac + roundUp b.frac ∨
      error = .truncated ∧ frac0 ≤ roundUp a.frac + roundUp b.frac) :
    let f := mulFracs (roundUp a.frac) (roundUp b.frac) (roundUp a.frac + roundUp b.frac - frac0)
    (decimalMul a b dst = none ∧ roundUp (a.intg + b.intg) + frac0 = 0) ∨
      ∃ d, decimalMul a b dst = some (error, d) ∧ d.WellFormed ∧
        d.value = signed (xor a.sign b.sign) (a.cut f.1 * b.cut f.2) := by
  intro f
  have hle : frac0 ≤ roundUp a.frac + roundUp b.frac := by omega
  obtain ⟨h1, h2, hsum⟩ := mulFracs_spec
    (show roundUp a.frac + roundUp b.frac - frac0 ≤ roundUp a.frac + roundUp b.frac by omega)
  rw [show roundUp a.frac + roundUp b.frac - (roundUp a.frac + roundUp b.frac - frac0) = frac0
    by omega] at hsum
  obtain ⟨m, hrun, hrange, hproduct⟩ := mulRows_product ha hb h1 h2 hsum dst.buf
  set frac := if error ≠ .ok then min (a.frac + b.frac) (frac0 * 9) else a.frac + b.frac with hfrac
  have hfrac_ge : min (a.frac + b.frac) (frac0 * 9) ≤ frac := by
    rw [hfrac]
    split_ifs <;> omega
  have hfrac_le : frac ≤ frac0 * 9 := by
    have ha' := le_roundUp_mul a.frac
    have hb' := le_roundUp_mul b.frac
    rcases herror with ⟨rfl, hfull⟩ | ⟨rfl, -⟩
    · rw [hfrac, if_neg (not_not.mpr rfl)]
      omega
    · rw [hfrac, if_pos (by decide)]
      omega
  set d : Decimal := { dst with
    sign := xor a.sign b.sign, frac := frac, intg := roundUp (a.intg + b.intg) * 9, buf := m }
    with hd
  obtain ⟨hwf, hmag⟩ := of_product (d := d) rfl hfrac_le hrange (by
    rw [hproduct]
    exact dvd_product ha hb h1 h2 hsum hfrac_ge)
  have hvalue : d.value = signed (xor a.sign b.sign) (a.cut f.1 * b.cut f.2) := by
    rw [value_eq_signed, hmag, cut_mul_cut ha hb h1 h2 hsum, ← hproduct]
  have hsizes : mulSizes (roundUp (a.intg + b.intg)) (roundUp (a.intg + b.intg))
      (roundUp a.frac) (roundUp b.frac) frac0 error = (0, 0, f.1, f.2) := by
    rw [mulSizes]
    rcases herror with ⟨rfl, hfull⟩ | ⟨rfl, -⟩
    · rw [if_pos rfl]
      simp [f, mulFracs, hfull]
    · rw [if_neg (by decide), if_neg (lt_irrefl _)]
  have heq : decimalMul a b dst = (d.fixNegativeZero (roundUp (a.intg + b.intg) + frac0)).bind
      fun d => some (error, d.dropLeading (roundUp (a.intg + b.intg))) := by
    rw [decimalMul, hfix]
    dsimp only
    rw [hsizes]
    rw [Nat.cast_zero, sub_zero, sub_zero]
    change ((mulRows a.buf 0 b.buf 0 (b.usedWords f.2) (a.usedWords f.1) _ _).bind _) = _
    rw [hrun, bind_some, if_neg Bool.false_ne_true]
    rfl
  have hwords : d.words ≤ roundUp (a.intg + b.intg) + frac0 := by
    rw [words, hd]
    dsimp only
    rw [roundUp_mul]
    have := roundUp_le_iff.mpr hfrac_le
    omega
  rcases fixNegativeZero_spec hwords with ⟨hnone, hn⟩ | hsome | ⟨hsome, hzero⟩
  · exact .inl ⟨by rw [heq, hnone]; rfl, hn⟩
  · obtain ⟨hwf', hvalue'⟩ := dropLeading_spec rfl hwf
    exact .inr ⟨_, by rw [heq, hsome]; rfl, hwf', hvalue'.trans hvalue⟩
  refine .inr ⟨_, by rw [heq, hsome]; rfl, ?_, ?_⟩
  · rw [dropLeading_makeZero]
    exact d.makeZero_wellFormed
  · rw [dropLeading_makeZero, ← hvalue, value_eq_signed,
      value_eq_signed, hzero, magnitude_makeZero, signed_zero, signed_zero]

structure ProductContract (x : ℚ) (r : DecimalError × Decimal) : Prop where
  ok : r.1 = .ok → r.2.WellFormed ∧ r.2.value = x
  truncated : r.1 = .truncated → (r.2.value = 0 ∨ sign r.2.value = sign x) ∧
      0 ≤ |x| - |r.2.value| ∧ |x| - |r.2.value| < 1

theorem signed_mul_signed (s t : Bool) (x y : ℚ) :
    signed s x * signed t y = signed (xor s t) (x * y) := by
  cases s <;> cases t <;> simp [signed]

variable (s : Bool) {y : ℚ}

theorem abs_signed (hx : 0 ≤ x) : |signed s x| = x := by
  cases s
  · exact abs_of_nonneg hx
  · exact (abs_neg x).trans (abs_of_nonneg hx)

theorem sign_signed (hx : 0 < x) (hy : 0 < y) : sign (signed s x) = sign (signed s y) := by
  cases s
  · exact (sign_pos hx).trans (sign_pos hy).symm
  · exact (sign_neg (neg_neg_of_pos hx)).trans (sign_neg (neg_neg_of_pos hy)).symm

theorem productContract_truncated_iff {s : Bool} {y : ℚ} {d : Decimal} (hy : 0 ≤ y) (hle : y ≤ x)
    (hd : d.value = signed s y) : ProductContract (signed s x) (.truncated, d) ↔ x - y < 1 := by
  have habs : |signed s x| - |d.value| = x - y := by
    rw [hd, abs_signed s (hy.trans hle), abs_signed s hy]
  constructor
  · intro h
    rw [← habs]
    exact (h.truncated rfl).2.2
  refine fun hlt => ⟨nofun, fun _ => ⟨?_, ?_, ?_⟩⟩
  · rcases hy.eq_or_lt with rfl | hpos
    · exact .inl (hd.trans (signed_zero s))
    refine .inr ?_
    rw [hd]
    exact sign_signed s hpos (hpos.trans_le hle)
  · rw [habs]
    linarith
  · rw [habs]
    exact hlt

/-- **Products.** `decimal_mul` is exact when it returns `E_DEC_OK`. When fraction words do not
fit, it multiplies operands that are cut, possibly before the point, and the result lacks
less than one iff the product of these operands does. -/
theorem decimalMul_contract_iff {a b : Decimal} (ha : a.WellFormed) (hb : b.WellFormed)
    (dst : Decimal) :
    let intg0 := roundUp (a.intg + b.intg)
    let frac0 := roundUp a.frac + roundUp b.frac
    let f := mulFracs (roundUp a.frac) (roundUp b.frac) (frac0 - (dst.len - intg0))
    (∀ r, decimalMul a b dst = some r → ProductContract (a.value * b.value) r) ↔
      dst.len < intg0 ∨ intg0 + frac0 ≤ dst.len ∨
        a.magnitude * b.magnitude - a.cut f.1 * b.cut f.2 < 1 := by
  intro intg0 frac0 f
  rw [value_eq_signed, value_eq_signed, signed_mul_signed]
  rcases fixIntgFracError_cases dst.len intg0 frac0 with
    ⟨hfits, heq⟩ | ⟨hfits, hlen, heq⟩ | ⟨hlen, heq⟩
  · refine iff_of_true (fun r hr => ?_) (.inr (.inl hfits))
    rcases decimalMul_spec ha hb dst heq (.inl ⟨rfl, rfl⟩) with ⟨hnone, -⟩ | ⟨d, hd, hwf, hvalue⟩
    · rw [hnone] at hr
      exact absurd hr.symm (some_ne_none r)
    rw [hd] at hr
    obtain rfl := some.inj hr
    refine ⟨fun _ => ⟨hwf, ?_⟩, by rintro ⟨⟩⟩
    -- nothing is cut off
    have hcut : ∀ c : Decimal, c.WellFormed → c.cut (roundUp c.frac) = c.magnitude := by
      intro c hc
      rw [hc.cut_eq le_rfl, magnitude, zpow_natCast]
      congr 3
    rw [hvalue, tsub_self, mulFracs]
    simp only [Nat.zero_div, Nat.cast_zero, sub_zero, ite_self, tsub_self, hcut a ha, hcut b hb]
  · rw [or_iff_right (not_lt.mpr hfits), or_iff_right (not_le.mpr hlen)]
    have hle : a.cut f.1 * b.cut f.2 ≤ a.magnitude * b.magnitude :=
      mul_le_mul (ha.cut_le _).2 (hb.cut_le _).2 (hb.cut_le _).1 ha.magnitude_nonneg
    have hnonneg : 0 ≤ a.cut f.1 * b.cut f.2 := mul_nonneg (ha.cut_le _).1 (hb.cut_le _).1
    rcases decimalMul_spec ha hb dst heq (.inr ⟨rfl, by omega⟩) with
      ⟨hnone, hn⟩ | ⟨d, hd, -, hvalue⟩
    · -- without a word for the result both operands are below one
      refine iff_of_true (fun r hr => absurd (hr.symm.trans hnone) (some_ne_none r)) ?_
      have hintg : a.intg = 0 ∧ b.intg = 0 := by
        have hzero : roundUp (a.intg + b.intg) = 0 := by omega
        rw [roundUp] at hzero
        omega
      have ha' := ha.magnitude_lt_pow
      have hb' := hb.magnitude_lt_pow
      rw [hintg.1, pow_zero] at ha'
      rw [hintg.2, pow_zero] at hb'
      have := mul_lt_mul'' ha' hb' ha.magnitude_nonneg hb.magnitude_nonneg
      linarith
    · rw [hd]
      simp only [some.injEq, forall_eq']
      exact productContract_truncated_iff hnonneg hle hvalue
  · refine iff_of_true (fun r hr => ?_) (.inl hlen)
    -- every way out of the routine reports the overflow
    have herror : r.1 = .overflow := by
      rw [decimalMul, heq] at hr
      rw [bind_eq_bind, bind_eq_some_iff] at hr
      obtain ⟨rows, -, hr⟩ := hr
      by_cases hover : rows.2 = true
      · rw [if_pos hover] at hr
        rw [← some.inj hr]
      rw [if_neg hover, bind_eq_bind, bind_eq_some_iff] at hr
      obtain ⟨d, -, hr⟩ := hr
      rw [← some.inj hr]
    exact ⟨fun h => absurd (herror.symm.trans h) (by rintro ⟨⟩),
      fun h => absurd (herror.symm.trans h) (by rintro ⟨⟩)⟩

theorem decimalMul_contract_iff_three :
    (ofWord 3).WellFormed ∧ (ofWord 5).WellFormed ∧
      ∀ r, decimalMul (.ofWord 3) (.ofWord 5) (.ofWord 0) = some r →
        ProductContract ((ofWord 3).value * (ofWord 5).value) r := by
  have ha := ofWord_wellFormed (w := 3) (by decide)
  have hb := ofWord_wellFormed (w := 5) (by decide)
  exact ⟨ha, hb, (decimalMul_contract_iff ha hb (.ofWord 0)).mpr (.inr (.inl (by decide)))⟩

/-- A decimal with a word before the point and one digit behind it. -/
def Decimal.oneDigit (intg : ℕ) (w digit : ℤ) : Decimal :=
  ⟨intg, 1, 2, false, fun i => if i = 0 then w else if i = 1 then digit * 100000000 else 0⟩

theorem Decimal.oneDigit_wellFormed {intg : ℕ} {digit : ℤ} (hintg : 1 ≤ intg ∧ intg ≤ 9)
    (hw : 0 ≤ w ∧ w < powers10 intg) (hdigit : 0 ≤ digit ∧ digit < 10) :
    (oneDigit intg w digit).WellFormed := by
  have hbase : digBase = 1000000000 := rfl
  have hwords : (oneDigit intg w digit).words = 2 := by
    change roundUp intg + roundUp 1 = 2
    rw [roundUp, roundUp]
    omega
  have hpow : powers10 intg ≤ digBase := pow_le_pow_right₀ (by norm_num) hintg.2
  refine ⟨fun i _ _ => ?_, fun h => ?_, fun _ => ?_⟩
  · change 0 ≤ (if i = 0 then w else if i = 1 then digit * 100000000 else 0) ∧
      (if i = 0 then w else if i = 1 then digit * 100000000 else 0) < digBase
    split_ifs <;> omega
  · change intg % 9 ≠ 0 at h
    change w < powers10 (intg % 9)
    rw [Nat.mod_eq_of_lt (by omega)]
    exact hw.2
  · rw [hwords]
    exact ⟨digit, mul_comm _ _⟩

/-- 999999999.9 times 0.9 in three words: the fraction of the second factor is cut off, and the
result is zero. -/
theorem decimalMul_truncated_zero :
    (oneDigit 9 999999999 9).WellFormed ∧ (oneDigit 1 0 9).WellFormed ∧
      (oneDigit 9 999999999 9).value = 9999999999 / 10 ∧
      (oneDigit 1 0 9).value = 9 / 10 ∧
      ∃ d, decimalMul (.oneDigit 9 999999999 9) (.oneDigit 1 0 9) (.ofWord 0) =
        some (.truncated, d) ∧ d.value = 0 := by
  refine ⟨oneDigit_wellFormed (by decide) (by decide) (by decide),
    oneDigit_wellFormed (by decide) (by decide) (by decide), ?_, ?_, _, rfl, ?_⟩
  · norm_num [value, magnitude, words, oneDigit, roundUp, radix, digBase]
  · norm_num [value, magnitude, words, oneDigit, roundUp, radix, digBase]
  · rw [value_eq_zero_iff]
    decide +kernel

end LibSources
