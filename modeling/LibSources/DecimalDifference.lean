import LibSources.DecimalSum

/-!
# The Difference of Two Magnitudes

The first half of `do_sub` compares its operands, without their zero words in front and, where
they have as many integer words, at the end. The second half subtracts the smaller operand. When
the integer part does not fit, it goes on with the leading words of both, which have nothing to
do with each other.

## Main results

* `decimalAddSub_contract_iff`: the sums and differences that are right.
-/

namespace LibSources

open Nat Cursor Decimal Option

/-! ### The loops of `do_sub` -/

structure Aligned (p q : Operand) (frac0 : ℤ) (e a b g : ℕ) : Prop where
  intg : p.intg = e + q.intg
  first : q.intg + p.frac = a
  second : q.intg + q.frac = b
  result : q.intg + frac0 = g
  first_le : a ≤ g
  second_le : b ≤ g
  first_range : InRange digBase p.buf p.start (e + a)
  second_range : InRange digBase q.buf q.start b

section

variable {p q : Operand} {frac0 : ℤ} {e a b g : ℕ} (h : Aligned p q frac0 e a b g) (m : ℕ → ℤ)
include h

theorem Aligned.subFraction_spec :
    ∃ c carry, subFraction p q frac0 ⟨m, e + g⟩ =
        some (c, carry, ↑(p.start + e + min a b), ↑(q.start + min a b)) ∧
      c.pos = e + min a b ∧
      Rippled digBase (-1) (pad p.buf p.start 0 (e + a)) (pad q.buf q.start e b) m (e + g) c
        carry := by
  obtain ⟨hintg, hfirst, hsecond, hresult, hfirst_le, hsecond_le, hrange1, hrange2⟩ := h
  have hstart := Rippled.start digBase (-1) (pad p.buf p.start 0 (e + a))
    (pad q.buf q.start e b) m (e + g)
  rw [subFraction]
  by_cases hlt : q.frac < p.frac
  · obtain ⟨c, hzero, hpos, hc⟩ := hstart.zeroDown
      (show e + g = e + a + (g - a) by omega) fun i hi => by
        rw [pad_of_not_mem (by omega), pad_of_not_mem (by omega)]
        ring
    obtain ⟨c', hcopy, hpos', hc'⟩ := hc.copyDown (s := p.start + e + b) (p := e + b)
      (show c.pos = e + b + (a - b) by omega) (hrange1.mono (by omega) (by omega)) fun i hi => by
        rw [pad_of_mem (by omega), pad_of_not_mem (by omega), tsub_zero]
        ring_nf
    refine ⟨c', 0, ?_, by omega, hc'⟩
    rw [if_pos hlt, show (frac0 - p.frac).toNat = g - a by omega,
      show (p.frac - q.frac).toNat = a - b by omega,
      show (p.start + p.intg + q.frac : ℤ) = ↑(p.start + e + b) by push_cast; omega,
      show (q.start + q.intg + q.frac : ℤ) = ↑(q.start + b) by push_cast; omega,
      min_eq_right (by omega)]
    simp only [hzero, hcopy, bind_eq_bind, bind_some]
  obtain ⟨c, hzero, hpos, hc⟩ := hstart.zeroDown
    (show e + g = e + b + (g - b) by omega) fun i hi => by
      rw [pad_of_not_mem (by omega), pad_of_not_mem (by omega)]
      ring
  have hnone : InRange digBase noWords 0 (b - a) := fun _ _ _ => ⟨le_rfl, digBase_pos⟩
  obtain ⟨c', carry, hsub, hpos', hc'⟩ := hc.subDown (p := e + a)
    (show c.pos = e + a + (b - a) by omega) hnone
    (hrange2.mono (show q.start ≤ q.start + a by omega) (by omega)) fun i hi => by
      rw [pad_of_not_mem (by omega), pad_of_mem (by omega), noWords]
      congr 2
      omega
  refine ⟨c', carry, ?_, by omega, hc'⟩
  rw [if_neg hlt, show (frac0 - q.frac).toNat = g - b by omega,
    show (q.frac - p.frac).toNat = b - a by omega,
    show (q.start + q.intg + p.frac : ℤ) = ↑(q.start + a) by push_cast; omega,
    show (p.start + p.intg + p.frac : ℤ) = ↑(p.start + e + a) by push_cast; omega,
    min_eq_left (by omega)]
  rw [cast_zero] at hsub
  simp only [hzero, hsub, bind_eq_bind, bind_some]

/-- The loops of `do_sub` come to the front of the result. -/
theorem Aligned.subParts_spec :
    ∃ c carry, subParts p q frac0 ⟨m, e + g⟩ = some c ∧ c.pos = 0 ∧
      Rippled digBase (-1) (pad p.buf p.start 0 (e + a)) (pad q.buf q.start e b) m (e + g) c
        carry := by
  obtain ⟨c, carry, hfraction, hpos, hc⟩ := h.subFraction_spec m
  obtain ⟨hintg, hfirst, hsecond, hresult, hfirst_le, hsecond_le, hrange1, hrange2⟩ := h
  obtain ⟨c1, carry1, hsub, hpos1, hc1⟩ := hc.subDown (p := e) hpos
    (hrange1.mono (show p.start ≤ p.start + e by omega) (by omega))
    (hrange2.mono le_rfl (by omega)) fun i hi => by
      rw [pad_of_mem (by omega), pad_of_mem (by omega)]
      congr 2 <;> omega
  obtain ⟨c2, carry2, hborrow, hpos2, hc2⟩ := hc1.borrowDown (p := 0) (by omega)
    (hrange1.mono le_rfl (show p.start + e ≤ p.start + (e + a) by omega)) fun i hi => by
      rw [pad_of_mem (by omega), pad_of_not_mem (by omega), sub_zero]
      congr 1
      omega
  refine ⟨c2, carry2, ?_, hpos2, hc2⟩
  have hk : (((q.start + min a b : ℕ) : ℤ) - q.start).toNat = min a b := by omega
  have hstop : ((p.start + e + min a b : ℕ) : ℤ) - (min a b : ℕ) = ↑(p.start + e) := by omega
  have hrest : (((p.start + e : ℕ) : ℤ) - p.start).toNat = e := by omega
  simp only [subParts, hfraction, bind_eq_bind, bind_some, hk, hstop, hsub, hrest,
    hborrow, hpos2, zeroDown]

theorem Aligned.radix_pad :
    radix digBase (pad p.buf p.start 0 (e + a)) 0 (e + g) =
        radix digBase p.buf p.start (e + a) * digBase ^ (g - a) ∧
      radix digBase (pad q.buf q.start e b) 0 (e + g) =
        radix digBase q.buf q.start b * digBase ^ (g - b) := by
  have hfirst := h.first_le
  have hsecond := h.second_le
  have h1 : e + g = 0 + (e + a) + (g - a) := by omega
  have h2 : e + g = e + b + (g - b) := by omega
  refine ⟨?_, ?_⟩
  · rw [h1, LibSources.radix_pad]
  · rw [h2, LibSources.radix_pad]

end

theorem skipZeros_spec (m : ℕ → ℤ) (pos k : ℕ) :
    pos ≤ skipZeros m pos k ∧ skipZeros m pos k ≤ pos + k ∧
      (∀ i, pos ≤ i → i < skipZeros m pos k → m i = 0) ∧
      (skipZeros m pos k < pos + k → m (skipZeros m pos k) ≠ 0) := by
  induction k generalizing pos with
  | zero => exact ⟨le_rfl, le_rfl, fun i hi hi' => by rw [skipZeros] at hi'; omega,
      fun hlt => absurd hlt (lt_irrefl pos)⟩
  | succ k ih =>
    rw [skipZeros]
    by_cases hzero : m pos = 0
    · rw [if_pos hzero]
      obtain ⟨hle, hle', hzeros, hne⟩ := ih (pos + 1)
      refine ⟨by omega, by omega, fun i hi hi' => ?_, fun hlt => hne (by omega)⟩
      rcases eq_or_lt_of_le hi with rfl | hlt
      · exact hzero
      · exact hzeros i hlt hi'
    · rw [if_neg hzero]
      exact ⟨le_rfl, by omega, fun i hi hi' => by omega, fun _ => hzero⟩

theorem trimZeros_spec (m : ℕ → ℤ) (lo n : ℕ) :
    trimZeros m lo n ≤ n ∧ (∀ i, lo + trimZeros m lo n ≤ i → i < lo + n → m i = 0) ∧
      ∀ k, trimZeros m lo n = k + 1 → m (lo + k) ≠ 0 := by
  induction n with
  | zero => exact ⟨le_rfl, fun i hi hi' => by rw [trimZeros] at hi; omega, nofun⟩
  | succ n ih =>
    rw [trimZeros]
    by_cases hzero : m (lo + n) = 0
    · rw [if_pos hzero]
      obtain ⟨hle, hzeros, hne⟩ := ih
      refine ⟨by omega, fun i hi hi' => ?_, hne⟩
      rcases Nat.lt_succ_iff_lt_or_eq.mp hi' with hlt | rfl
      · exact hzeros i hi hlt
      · exact hzero
    · rw [if_neg hzero]
      refine ⟨le_rfl, fun i hi hi' => by omega, fun k hk => ?_⟩
      obtain rfl : n = k := by omega
      exact hzero

/-! ### Operands of a decimal -/

structure Operand.Reads (o : Operand) (d : Decimal) : Prop where
  buf_eq : o.buf = d.buf
  intg_eq : o.start + o.intg = roundUp d.intg
  frac_le : o.frac ≤ roundUp d.frac
  nonneg : 0 ≤ o.intg + o.frac
  zero_front : ∀ i < o.start, d.buf i = 0
  zero_back : ∀ i, o.start + o.words ≤ i → i < d.words → d.buf i = 0
  first_ne : 0 < o.intg → d.buf o.start ≠ 0

theorem Decimal.operand_reads (d : Decimal) : d.operand.Reads d := by
  obtain ⟨-, hle, hzeros, hne⟩ := skipZeros_spec d.buf 0 (roundUp d.intg)
  refine ⟨rfl, ?_, le_rfl, ?_, fun i hi => hzeros i (zero_le i) hi, fun i hi hi' => ?_,
    fun hpos => hne ?_⟩
  · dsimp only [operand]
    omega
  · dsimp only [operand]
    omega
  · dsimp only [Operand.words, operand, words] at hi hi'
    omega
  · dsimp only [operand] at hpos
    omega

theorem Operand.Reads.trim {o : Operand} {d : Decimal} (h : o.Reads d) : o.trim.Reads d := by
  have hnonneg := h.nonneg
  have hfrac := h.frac_le
  obtain ⟨hle, hzeros, -⟩ := trimZeros_spec o.buf o.start (o.intg + o.frac).toNat
  have hwords : o.trim.words = trimZeros o.buf o.start (o.intg + o.frac).toNat := by
    dsimp only [Operand.words, Operand.trim]
    omega
  refine ⟨h.buf_eq, h.intg_eq, ?_, ?_, h.zero_front, fun i hi hi' => ?_, h.first_ne⟩
  · dsimp only [Operand.trim]
    omega
  · dsimp only [Operand.trim]
    omega
  rw [hwords] at hi
  by_cases hlt : i < o.start + o.words
  · rw [← h.buf_eq]
    exact hzeros i hi hlt
  · exact h.zero_back i (not_lt.mp hlt) hi'

variable {k len : ℕ} {c : Cursor}

theorem Operand.trim_last_ne {o : Operand} (hk : o.trim.words = k + 1) :
    o.buf (o.start + k) ≠ 0 := by
  obtain ⟨-, -, hne⟩ := trimZeros_spec o.buf o.start (o.intg + o.frac).toNat
  refine hne k ?_
  dsimp only [Operand.words, Operand.trim] at hk
  omega

section

variable {o : Operand} {d : Decimal} (h : o.Reads d) (hd : d.WellFormed)
include h

theorem Operand.Reads.words_eq : (o.words : ℤ) = o.intg + o.frac := by
  have := h.nonneg
  rw [Operand.words]
  omega

theorem Operand.Reads.words_le : o.start + o.words ≤ d.words := by
  have hwords := h.words_eq
  have hintg := h.intg_eq
  have hfrac := h.frac_le
  rw [Decimal.words]
  omega

theorem Operand.Reads.radix_eq :
    radix digBase d.buf 0 d.words =
      radix digBase o.buf o.start o.words * digBase ^ (d.words - (o.start + o.words)) := by
  have hle := h.words_le
  have hfront : radix digBase d.buf 0 o.start = 0 :=
    radix_eq_zero fun i _ hi => h.zero_front i (by omega)
  have hback : radix digBase d.buf (o.start + o.words) (d.words - (o.start + o.words)) = 0 :=
    radix_eq_zero fun i hi hi' => h.zero_back i hi (by omega)
  have hsplit : d.words = o.start + o.words + (d.words - (o.start + o.words)) := by omega
  conv_lhs => rw [hsplit]
  rw [radix_add, radix_add, zero_add, hfront, zero_mul, zero_add, zero_add, hback, add_zero,
    h.buf_eq]

theorem Operand.Reads.magnitude_eq :
    d.magnitude = radix digBase o.buf o.start o.words * (digBase : ℚ) ^ o.intg /
      (digBase : ℚ) ^ o.words := by
  have hbase := digBase_cast_pos.ne'
  have hle := h.words_le
  have hintg := h.intg_eq
  have hpow : (digBase : ℚ) ^ (d.words - (o.start + o.words)) * digBase ^ o.words =
      digBase ^ o.intg * digBase ^ roundUp d.frac := by
    rw [← pow_add, ← pow_add]
    congr 1
    rw [Decimal.words] at hle ⊢
    omega
  rw [magnitude, h.radix_eq, div_eq_div_iff (pow_ne_zero _ hbase) (pow_ne_zero _ hbase)]
  push_cast
  linear_combination (radix digBase o.buf o.start o.words : ℚ) * hpow

include hd

theorem Operand.Reads.range : InRange digBase o.buf o.start o.words := by
  rw [h.buf_eq]
  exact hd.range.mono (zero_le _) (by have := h.words_le; omega)

theorem Operand.Reads.magnitude_lt : d.magnitude < (digBase : ℚ) ^ o.intg := by
  have hbase := digBase_cast_pos
  have hlt : (radix digBase o.buf o.start o.words : ℚ) < (digBase : ℚ) ^ o.words := by
    exact_mod_cast (h.range hd).radix_lt
  rw [h.magnitude_eq, div_lt_iff₀ (pow_pos hbase _), mul_comm]
  exact mul_lt_mul_of_pos_left hlt (pow_pos hbase _)

theorem Operand.Reads.pow_le_magnitude (hk : o.intg = k + 1) : (digBase : ℚ) ^ k ≤ d.magnitude := by
  have hbase := digBase_cast_pos
  have hne := h.first_ne (by omega)
  have hwords : o.words ≠ 0 := fun hzero => by
    refine hne (h.zero_back _ (by omega) ?_)
    have := h.intg_eq
    rw [Decimal.words]
    omega
  obtain ⟨n, hn⟩ := exists_eq_succ_of_ne_zero hwords
  have hrange := h.range hd
  rw [hn] at hrange
  have hone : 1 ≤ o.buf o.start := by
    have := (hrange o.start le_rfl (by omega)).1
    rw [h.buf_eq] at this ⊢
    omega
  have hrest := (hrange.mono (le_succ o.start) (by omega) :
    InRange digBase o.buf (o.start + 1) n).radix_nonneg
  have hge : (digBase : ℚ) ^ n ≤ radix digBase o.buf o.start (n + 1) := by
    rw [radix_succ_left]
    have hpow := (pow_pos digBase_pos n).le
    exact_mod_cast (show digBase ^ n ≤ _ by nlinarith)
  rw [h.magnitude_eq, le_div_iff₀ (pow_pos hbase _), hk, hn, succ_eq_add_one, ← pow_add,
    show k + (n + 1) = n + (k + 1) by omega, pow_add]
  exact mul_le_mul_of_nonneg_right hge (pow_pos hbase _).le

theorem Operand.Reads.shifted_eq (k : ℕ) :
    d.shifted k = radix digBase o.buf o.start (o.intg + min o.frac k).toNat *
      digBase ^ (k - min o.frac k).toNat := by
  have hbase := digBase_cast_pos.ne'
  have hwords := h.words_eq
  rw [shifted_eq_floor, h.magnitude_eq]
  rcases le_total o.frac k with hle | hle
  · obtain ⟨t, ht⟩ : ∃ t : ℕ, (k : ℤ) - o.frac = t := ⟨(k - o.frac).toNat, by omega⟩
    have hpow : (digBase : ℚ) ^ o.intg * digBase ^ k = digBase ^ t * digBase ^ o.words := by
      rw [← pow_add, ← pow_add]
      congr 1
      omega
    rw [min_eq_left hle, ht, Int.toNat_natCast, show (o.intg + o.frac).toNat = o.words from rfl,
      div_mul_eq_mul_div, mul_assoc, hpow, ← mul_assoc,
      mul_div_cancel_right₀ _ (pow_ne_zero _ hbase)]
    exact_mod_cast Int.floor_intCast (R := ℚ) (radix digBase o.buf o.start o.words * digBase ^ t)
  obtain ⟨t, ht⟩ : ∃ t : ℕ, o.frac - k = t := ⟨(o.frac - k).toNat, by omega⟩
  have hsplit : o.words = o.intg + k + t := by omega
  have hrange := h.range hd
  rw [hsplit] at hrange
  rw [min_eq_right hle, sub_self, Int.toNat_zero, pow_zero, mul_one,
    show ((o.intg : ℤ) + k).toNat = o.intg + k by omega, ← hrange.radix_ediv digBase_pos,
    ← floor_div_eq _ (pow_pos digBase_pos t), hsplit]
  congr 1
  push_cast
  rw [pow_add, pow_add]
  field_simp

end

theorem compareWords_spec {m1 m2 : ℕ → ℤ} {lo1 n1 lo2 n2 : ℕ}
    (h1 : InRange digBase m1 lo1 n1) (h2 : InRange digBase m2 lo2 n2)
    (hlast1 : ∀ k, n1 = k + 1 → m1 (lo1 + k) ≠ 0) (hlast2 : ∀ k, n2 = k + 1 → m2 (lo2 + k) ≠ 0) :
    let x := radix digBase m1 lo1 n1 * digBase ^ n2
    let y := radix digBase m2 lo2 n2 * digBase ^ n1
    (compareWords m1 m2 lo1 n1 lo2 n2 = none ∧ x = y) ∨
      (compareWords m1 m2 lo1 n1 lo2 n2 = some true ∧ x < y) ∨
      (compareWords m1 m2 lo1 n1 lo2 n2 = some false ∧ y < x) := by
  induction n1 generalizing lo1 lo2 n2 with
  | zero =>
    cases n2 with
    | zero => exact .inl ⟨rfl, rfl⟩
    | succ n2 =>
      refine .inr (.inl ⟨rfl, ?_⟩)
      rw [radix_zero, zero_mul, pow_zero, mul_one]
      exact h2.radix_pos (hlast2 n2 rfl)
  | succ n1 ih =>
    cases n2 with
    | zero =>
      refine .inr (.inr ⟨rfl, ?_⟩)
      rw [radix_zero, zero_mul, pow_zero, mul_one]
      exact h1.radix_pos (hlast1 n1 rfl)
    | succ n2 =>
      have hrest1 : InRange digBase m1 (lo1 + 1) n1 := h1.mono (by omega) (by omega)
      have hrest2 : InRange digBase m2 (lo2 + 1) n2 := h2.mono (by omega) (by omega)
      have hpow1 := pow_pos digBase_pos n1
      have hpow2 := pow_pos digBase_pos n2
      -- the first words count as much as all others together
      have hx : radix digBase m1 lo1 (n1 + 1) * digBase ^ (n2 + 1) =
          m1 lo1 * (digBase ^ n1 * digBase ^ n2 * digBase) +
            radix digBase m1 (lo1 + 1) n1 * digBase ^ n2 * digBase := by
        rw [radix_succ_left, pow_succ]
        ring
      have hy : radix digBase m2 lo2 (n2 + 1) * digBase ^ (n1 + 1) =
          m2 lo2 * (digBase ^ n1 * digBase ^ n2 * digBase) +
            radix digBase m2 (lo2 + 1) n2 * digBase ^ n1 * digBase := by
        rw [radix_succ_left, pow_succ]
        ring
      rw [compareWords, hx, hy]
      by_cases heq : m1 lo1 = m2 lo2
      · rw [if_pos heq, heq]
        have hcons : ∀ {x y : ℤ}, x < y → x * digBase < y * digBase := fun hlt =>
          mul_lt_mul_of_pos_right hlt digBase_pos
        rcases ih hrest1 hrest2
          (fun k hk => by have := hlast1 (k + 1) (by omega); rwa [← add_assoc, add_right_comm] at this)
          (fun k hk => by have := hlast2 (k + 1) (by omega); rwa [← add_assoc, add_right_comm] at this)
          with ⟨hrun, hxy⟩ | ⟨hrun, hxy⟩ | ⟨hrun, hxy⟩
        · exact .inl ⟨hrun, by rw [hxy]⟩
        · exact .inr (.inl ⟨hrun, by linarith [hcons hxy]⟩)
        · exact .inr (.inr ⟨hrun, by linarith [hcons hxy]⟩)
      rw [if_neg heq]
      have hlt1 : radix digBase m1 (lo1 + 1) n1 * digBase ^ n2 * digBase <
          digBase ^ n1 * digBase ^ n2 * digBase :=
        mul_lt_mul_of_pos_right (mul_lt_mul_of_pos_right hrest1.radix_lt hpow2) digBase_pos
      have hlt2 : radix digBase m2 (lo2 + 1) n2 * digBase ^ n1 * digBase <
          digBase ^ n1 * digBase ^ n2 * digBase := by
        rw [mul_comm (digBase ^ n1)]
        exact mul_lt_mul_of_pos_right (mul_lt_mul_of_pos_right hrest2.radix_lt hpow1) digBase_pos
      have hge1 : 0 ≤ radix digBase m1 (lo1 + 1) n1 * digBase ^ n2 * digBase :=
        mul_nonneg (mul_nonneg hrest1.radix_nonneg hpow2.le) digBase_pos.le
      have hge2 : 0 ≤ radix digBase m2 (lo2 + 1) n2 * digBase ^ n1 * digBase :=
        mul_nonneg (mul_nonneg hrest2.radix_nonneg hpow1.le) digBase_pos.le
      generalize digBase ^ n1 * digBase ^ n2 * digBase = P at hlt1 hlt2 ⊢
      by_cases hlt : m1 lo1 < m2 lo2
      · exact .inr (.inl ⟨by rw [decide_eq_true hlt], by nlinarith⟩)
      · have hgt : m2 lo2 < m1 lo1 := lt_of_le_of_ne (not_lt.mp hlt) (Ne.symm heq)
        exact .inr (.inr ⟨by rw [decide_eq_false hlt], by nlinarith⟩)

section

variable {a b : Decimal}

/-- The first half of `do_sub`: the operands, how they compare, and that zero words at the end
are only left out when there are as many integer words. -/
theorem compareOperands_spec (ha : a.WellFormed) (hb : b.WellFormed) :
    ∃ p q carry, compareOperands a.operand b.operand = (p, q, carry) ∧ p.Reads a ∧ q.Reads b ∧
      (p.intg = q.intg ∧ p = a.operand.trim ∧ q = b.operand.trim ∨
        p.intg ≠ q.intg ∧ p = a.operand ∧ q = b.operand) ∧
      (carry = none ∧ a.magnitude = b.magnitude ∨
        carry = some true ∧ a.magnitude < b.magnitude ∧ p.intg ≤ q.intg ∨
        carry = some false ∧ b.magnitude < a.magnitude ∧ q.intg ≤ p.intg) := by
  have hp := a.operand_reads
  have hq := b.operand_reads
  have hbase : (1 : ℚ) ≤ digBase := by exact_mod_cast digBase_pos
  rw [compareOperands]
  rcases lt_trichotomy a.operand.intg b.operand.intg with hlt | heq | hlt
  · rw [if_pos hlt]
    refine ⟨_, _, _, rfl, hp, hq, .inr ⟨hlt.ne, rfl, rfl⟩, .inr (.inl ⟨rfl, ?_, hlt.le⟩)⟩
    obtain ⟨k, hk⟩ := exists_eq_succ_of_ne_zero (show b.operand.intg ≠ 0 by omega)
    exact (hp.magnitude_lt ha).trans_le
      ((pow_le_pow_right₀ hbase (by omega)).trans (hq.pow_le_magnitude hb hk))
  · rw [if_neg heq.not_lt, if_pos heq.symm]
    have hp' := hp.trim
    have hq' := hq.trim
    refine ⟨_, _, _, rfl, hp', hq', .inl ⟨heq, rfl, rfl⟩, ?_⟩
    have hpos : ∀ n, (0 : ℚ) < (digBase : ℚ) ^ n := fun n => by positivity
    have hintg : a.operand.trim.intg = b.operand.trim.intg := heq
    -- the fractions that the loop compares, times the same power
    have hcompare : ∀ {n n' : ℕ} {x y : ℤ}, x * digBase ^ n' < y * digBase ^ n →
        (x : ℚ) * (digBase : ℚ) ^ b.operand.trim.intg / (digBase : ℚ) ^ n <
          y * (digBase : ℚ) ^ b.operand.trim.intg / (digBase : ℚ) ^ n' := by
      intro n n' x y hxy
      have hxy' : (x : ℚ) * (digBase : ℚ) ^ n' < y * (digBase : ℚ) ^ n := by exact_mod_cast hxy
      rw [div_lt_div_iff₀ (hpos n) (hpos n')]
      nlinarith [hpos b.operand.trim.intg]
    rw [hp'.magnitude_eq, hq'.magnitude_eq, hintg]
    rcases compareWords_spec (hp'.range ha) (hq'.range hb)
      (fun k hk => Operand.trim_last_ne (o := a.operand) hk)
      (fun k hk => Operand.trim_last_ne (o := b.operand) hk) with
      ⟨hrun, hxy⟩ | ⟨hrun, hxy⟩ | ⟨hrun, hxy⟩
    · refine .inl ⟨hrun, ?_⟩
      have hxy' : (radix digBase a.operand.trim.buf a.operand.trim.start a.operand.trim.words : ℚ) *
          (digBase : ℚ) ^ b.operand.trim.words =
          radix digBase b.operand.trim.buf b.operand.trim.start b.operand.trim.words *
            (digBase : ℚ) ^ a.operand.trim.words := by exact_mod_cast hxy
      rw [div_eq_div_iff (hpos _).ne' (hpos _).ne']
      linear_combination (digBase : ℚ) ^ b.operand.trim.intg * hxy'
    · exact .inr (.inl ⟨hrun, hcompare hxy, le_rfl⟩)
    · exact .inr (.inr ⟨hrun, hcompare hxy, le_rfl⟩)
  · rw [if_neg hlt.not_gt, if_neg hlt.ne]
    refine ⟨_, _, _, rfl, hp, hq, .inr ⟨hlt.ne', rfl, rfl⟩, .inr (.inr ⟨rfl, ?_, hlt.le⟩)⟩
    obtain ⟨k, hk⟩ := exists_eq_succ_of_ne_zero (show a.operand.intg ≠ 0 by omega)
    exact (hq.magnitude_lt hb).trans_le
      ((pow_le_pow_right₀ hbase (by omega)).trans (hp.pow_le_magnitude ha hk))

/-- `do_sub` without a result, for operands of the same sign. -/
theorem doCmp_eq_sign (ha : a.WellFormed) (hb : b.WellFormed)
    (hsign : a.sign = b.sign) : doCmp a b = SignType.sign (a.value - b.value) := by
  obtain ⟨p, q, carry, heq, -, -, -, hcases⟩ := compareOperands_spec ha hb
  rw [doCmp, heq, value, value, ← hsign]
  rcases hcases with ⟨rfl, hmag⟩ | ⟨rfl, hmag, -⟩ | ⟨rfl, hmag, -⟩
  · rw [hmag, sub_self, sign_zero]
    rfl
  · cases a.sign
    · rw [if_neg (by decide), if_neg (by decide), sign_neg (sub_neg.mpr hmag)]
      rfl
    · rw [if_pos rfl, if_pos rfl, sign_pos (by linarith)]
      rfl
  · cases a.sign
    · rw [if_neg (by decide), if_neg (by decide), sign_pos (sub_pos.mpr hmag)]
      rfl
    · rw [if_pos rfl, if_pos rfl, sign_neg (by linarith)]
      rfl

theorem decimalCmp_eq_sign (ha : a.WellFormed) (hb : b.WellFormed)
    (hza : ¬ a.NegativeZero) (hzb : ¬ b.NegativeZero) :
    decimalCmp a b = SignType.sign (a.value - b.value) := by
  rw [decimalCmp]
  by_cases hsign : a.sign = b.sign
  · rw [if_pos hsign, doCmp_eq_sign ha hb hsign]
  rw [if_neg hsign]
  have hpos : ∀ {d : Decimal}, d.WellFormed → ¬ d.NegativeZero → d.sign = true →
      0 < d.magnitude := fun hd hz hs =>
    lt_of_le_of_ne hd.magnitude_nonneg fun h => hz ⟨hs, h.symm⟩
  have hnonneg := ha.magnitude_nonneg
  have hnonneg' := hb.magnitude_nonneg
  rw [value, value]
  cases hs : a.sign <;> cases ht : b.sign
  · exact absurd (hs.trans ht.symm) hsign
  · have := hpos hb hzb ht
    simp only [if_true, Bool.false_eq_true, if_false]
    rw [sign_pos (by linarith)]
    rfl
  · have := hpos ha hza hs
    simp only [if_true, Bool.false_eq_true, if_false]
    rw [sign_neg (by linarith)]
    rfl
  · exact absurd (hs.trans ht.symm) hsign

end

/-! ### Overruns -/

theorem zeroDown_pos {c' : Cursor} (h : zeroDown k c = some c') : c'.pos + k = c.pos := by
  induction k generalizing c with
  | zero =>
    obtain rfl : c = c' := some.inj h
    rfl
  | succ k ih =>
    cases hpos : c.pos with
    | zero => simp [zeroDown, push_of_zero hpos] at h
    | succ p =>
      rw [zeroDown, push_of_pos hpos, bind_eq_bind, bind_some] at h
      have := ih h
      dsimp only at this
      omega

theorem copyDown_eq_none {m : ℕ → ℤ} {stop : ℤ} (h : c.pos < k) : copyDown m stop k c = none := by
  induction k generalizing c with
  | zero => omega
  | succ k ih =>
    rw [copyDown]
    cases load m (stop + k) with
    | none => rfl
    | some w =>
      cases hpos : c.pos with
      | zero => simp [push_of_zero hpos]
      | succ p =>
        simp only [push_of_pos hpos, bind_eq_bind, bind_some]
        exact ih (by dsimp only; omega)

theorem subDown_eq_none {m1 m2 : ℕ → ℤ} {stop1 stop2 carry : ℤ} (h : c.pos < k) :
    subDown m1 stop1 m2 stop2 k c carry = none := by
  induction k generalizing c carry with
  | zero => omega
  | succ k ih =>
    rw [subDown]
    cases load m1 (stop1 + k) with
    | none => rfl
    | some w1 =>
      cases load m2 (stop2 + k) with
      | none => rfl
      | some w2 =>
        cases hpos : c.pos with
        | zero => simp [push_of_zero hpos]
        | succ p =>
          simp only [push_of_pos hpos, bind_eq_bind, bind_some]
          exact ih (by dsimp only; omega)

/-- Where more zero words are left out than the result has, part 1 runs over the front of the
result. -/
theorem subParts_eq_none {p q : Operand} {frac0 : ℤ} {m : ℕ → ℤ} {n : ℕ}
    (h : n < (frac0 - p.frac).toNat ∨ n < (frac0 - q.frac).toNat)
    (hp : p.frac ≤ frac0) (hq : q.frac ≤ frac0) :
    subParts p q frac0 ⟨m, n⟩ = none := by
  suffices hpart : subFraction p q frac0 ⟨m, n⟩ = none by
    rw [subParts, hpart]
    rfl
  rw [subFraction]
  by_cases hlt : q.frac < p.frac
  · rw [if_pos hlt]
    cases hzero : zeroDown (frac0 - p.frac).toNat ⟨m, n⟩ with
    | none => rfl
    | some c =>
      have hpos := zeroDown_pos hzero
      dsimp only at hpos
      simp only [bind_eq_bind, bind_some]
      rw [copyDown_eq_none (by omega)]
      rfl
  rw [if_neg hlt]
  cases hzero : zeroDown (frac0 - q.frac).toNat ⟨m, n⟩ with
  | none => rfl
  | some c =>
    have hpos := zeroDown_pos hzero
    dsimp only at hpos
    simp only [bind_eq_bind, bind_some]
    rw [subDown_eq_none (by omega)]
    rfl

/-! ### `do_sub` -/

namespace Decimal

/-- The integer words of a decimal without the zero words in front. -/
def intWords (d : Decimal) : ℕ := d.operand.intg

/-- The zero words at the end of the integer part of a decimal without a fraction. -/
def tailZeros (d : Decimal) : ℕ := (-d.operand.trim.frac).toNat

/-- The first `len` words of a decimal, from its first nonzero integer word on, with
the last `z` of them taken as zero. -/
def leadingWords (d : Decimal) (len z : ℕ) : ℤ :=
  radix digBase d.buf d.operand.start (min d.intWords len - z) * digBase ^ z

def leftOut (d other : Decimal) : ℕ := if d.intWords = other.intWords then d.tailZeros else 0

/-- What `do_sub` leaves after an overflow happens to be the largest number: the leading words
of the smaller operand are by one larger than those of the larger one, or all of these are the
largest digits and the smaller operand has none. -/
def OverflowMax (large small : Decimal) (len : ℕ) : Prop :=
  large.leftOut small ≤ len ∧ small.leftOut large ≤ len ∧
    (large.leadingWords len (large.leftOut small) -
      small.leadingWords len (small.leftOut large)) % digBase ^ len = digBase ^ len - 1

/-- The difference of two magnitudes, the first of which has the given sign, can be stored in
`len` words, or the overflow leaves the right number by chance. -/
def DifferenceFits (a b : Decimal) (len : ℕ) : Prop :=
  a.magnitude = b.magnitude ∨ (b.magnitude < a.magnitude ∧
      (a.intWords ≤ len ∨ a.sign = false ∧ OverflowMax a b len)) ∨
    (a.magnitude < b.magnitude ∧ (b.intWords ≤ len ∨ a.sign = true ∧ OverflowMax b a len))

end Decimal

theorem signed_not (sign : Bool) (x : ℚ) : signed (!sign) x = -signed sign x := by
  cases sign
  · rfl
  · exact (neg_neg x).symm

theorem signed_sub (sign : Bool) (x y : ℚ) :
    signed sign (x - y) = signed sign x + signed (!sign) y := by
  rw [signed_not, sub_eq_add_neg, signed_add]
  cases sign <;> rfl

section

variable {large small : Decimal} {p q : Operand} (hl : large.WellFormed) (hs : small.WellFormed)
  (hp : p.Reads large) (hq : q.Reads small) (hintg : q.intg ≤ p.intg)
  (hfrac : p.intg ≠ q.intg → 0 ≤ p.frac ∧ 0 ≤ q.frac)
include hl hs hp hq hintg hfrac

theorem subParts_words (hlt : small.magnitude < large.magnitude) (k : ℕ) (m : ℕ → ℤ) :
    ∃ c, subParts { p with frac := min p.frac k } { q with frac := min q.frac k } k
        ⟨m, p.intg + k⟩ = some c ∧
      InRange digBase c.mem 0 (p.intg + k) ∧
      radix digBase c.mem 0 (p.intg + k) = large.shifted k - small.shifted k := by
  have hpnonneg := hp.nonneg
  have hqnonneg := hq.nonneg
  have hpwords := hp.words_eq
  have hqwords := hq.words_eq
  obtain ⟨a, ha⟩ : ∃ a : ℕ, q.intg + min p.frac k = a :=
    ⟨(q.intg + min p.frac k).toNat, by by_cases heq : p.intg = q.intg <;> omega⟩
  obtain ⟨b, hb⟩ : ∃ b : ℕ, q.intg + min q.frac k = b := ⟨(q.intg + min q.frac k).toNat, by omega⟩
  have haligned : Aligned { p with frac := min p.frac k } { q with frac := min q.frac k } k
      (p.intg - q.intg) a b (q.intg + k) :=
    { intg := by dsimp only; omega
      first := ha
      second := hb
      result := by push_cast; rfl
      first_le := by omega
      second_le := by omega
      first_range := (hp.range hl).mono le_rfl (by omega)
      second_range := (hq.range hs).mono le_rfl (by omega) }
  obtain ⟨c, carry, hrun, hpos, hc⟩ := haligned.subParts_spec m
  obtain ⟨hpad1, hpad2⟩ := haligned.radix_pad
  have hlshift := hp.shifted_eq hl k
  have hsshift := hq.shifted_eq hs k
  rw [show (p.intg + min p.frac k).toNat = p.intg - q.intg + a by omega,
    show ((k : ℤ) - min p.frac k).toNat = q.intg + k - a by omega, ← hpad1] at hlshift
  rw [show (q.intg + min q.frac k).toNat = b by omega,
    show ((k : ℤ) - min q.frac k).toNat = q.intg + k - b by omega, ← hpad2] at hsshift
  have hle : small.shifted k ≤ large.shifted k := by
    rw [shifted_eq_floor, shifted_eq_floor]
    have hbase : (0 : ℚ) ≤ digBase := by exact_mod_cast digBase_pos.le
    exact Int.floor_le_floor (mul_le_mul_of_nonneg_right hlt.le (pow_nonneg hbase k))
  have hlen : p.intg + k = p.intg - q.intg + (q.intg + k) := by omega
  rw [hlen]
  refine ⟨c, hrun, (hc.sum_zero hpos).1, ?_⟩
  rw [hlshift, hsshift] at hle ⊢
  exact hc.eq_of_nonneg hpos hle

theorem subParts_overflow {zl zs : ℕ} (hlen : len < p.intg) (hzl : (zl : ℤ) = -min p.frac 0)
    (hzs : (zs : ℤ) = -min q.frac 0) (hlle : zl ≤ len) (hsle : zs ≤ len) (m : ℕ → ℤ) :
    ∃ c, subParts { p with intg := len, frac := min p.frac 0 }
        { q with intg := min q.intg len, frac := min q.frac 0 } 0 ⟨m, len⟩ = some c ∧
      InRange digBase c.mem 0 len ∧
      radix digBase c.mem 0 len = (radix digBase p.buf p.start (len - zl) * digBase ^ zl -
          radix digBase q.buf q.start (min q.intg len - zs) * digBase ^ zs) % digBase ^ len := by
  have hpwords := hp.words_eq
  have hqwords := hq.words_eq
  -- zero words at the end are left out only for operands with as many integer words
  have hzeros : zl ≤ min q.intg len ∧ zs ≤ min q.intg len := by
    by_cases heq : p.intg = q.intg
    · omega
    · have := hfrac heq
      omega
  have haligned : Aligned { p with intg := len, frac := min p.frac 0 }
      { q with intg := min q.intg len, frac := min q.frac 0 } 0 (len - min q.intg len)
      (min q.intg len - zl) (min q.intg len - zs) (min q.intg len) :=
    { intg := by dsimp only; omega
      first := by push_cast; omega
      second := by push_cast; omega
      result := by rw [add_zero]
      first_le := by omega
      second_le := by omega
      first_range := (hp.range hl).mono le_rfl (by omega)
      second_range := (hq.range hs).mono le_rfl (by omega) }
  obtain ⟨c, carry, hrun, hpos, hc⟩ := haligned.subParts_spec m
  obtain ⟨hpad1, hpad2⟩ := haligned.radix_pad
  have hsum := hc.eq_emod hpos
  have hrange := (hc.sum_zero hpos).1
  have hlen' : len - min q.intg len + min q.intg len = len := by omega
  rw [hpad1, hpad2, hlen', show min q.intg len - (min q.intg len - zl) = zl by omega,
    show min q.intg len - (min q.intg len - zs) = zs by omega,
    show len - min q.intg len + (min q.intg len - zl) = len - zl by omega] at hsum
  rw [hlen'] at hrun hrange
  exact ⟨c, hrun, hrange, hsum⟩

end

theorem SumContract.symm {x y : ℚ} {r : DecimalError × Decimal} (h : SumContract x y len r) :
    SumContract y x len r :=
  ⟨h.error, fun hok => by rw [add_comm]; exact h.ok hok,
    fun htrunc => by rw [add_comm]; exact h.truncated htrunc, h.overflow⟩

section

variable {a b large small : Decimal} {p q : Operand} (hl : large.WellFormed)
  (hs : small.WellFormed) (hp : p.Reads large) (hq : q.Reads small) (hintg : q.intg ≤ p.intg)
  (hfrac : p.intg ≠ q.intg → 0 ≤ p.frac ∧ 0 ≤ q.frac)
  (hmax : max a.frac b.frac = max large.frac small.frac) (sign : Bool) (dst : Decimal)
include hl hs hp hq hintg hfrac hmax

theorem subOrdered_spec (hlt : small.magnitude < large.magnitude) (hfits : p.intg ≤ dst.len) :
    ∃ r, subOrdered a b dst sign p q = some r ∧
      SumContract (signed sign large.magnitude) (signed (!sign) small.magnitude) dst.len r := by
  have hwords := fun k => subParts_words hl hs hp hq hintg hfrac hlt k dst.buf
  have hpfrac := hp.frac_le
  have hqfrac := hq.frac_le
  have hroundUp := roundUp_max large.frac small.frac
  have hlarge : roundUp large.frac ≤ roundUp (max large.frac small.frac) := by omega
  have hsmall : roundUp small.frac ≤ roundUp (max large.frac small.frac) := by omega
  rw [subOrdered, ← roundUp_max, hmax]
  rcases fixIntgFracError_cases dst.len p.intg (roundUp (max large.frac small.frac)) with
    ⟨-, heq⟩ | ⟨-, hlen, heq⟩ | ⟨hlen, -⟩
  · -- everything fits
    obtain ⟨c, hrun, hrange, hsum⟩ := hwords (roundUp (max large.frac small.frac))
    rw [min_eq_left (by omega), min_eq_left (by omega)] at hrun
    rw [heq]
    simp only [ne_eq, not_true_eq_false, if_false, hrun, bind_eq_bind, bind_some]
    refine ⟨_, rfl, SumContract.of_ok ?_ ?_⟩
    · refine wellFormed_of_words (show _ = p.intg * 9 from rfl) hrange ?_
      rw [hsum]
      exact dvd_sub (hl.dvd_shifted hlarge (le_max_left _ _))
        (hs.dvd_shifted hsmall (le_max_right _ _))
    · rw [value_eq_signed, magnitude_of_words (show _ = p.intg * 9 from rfl), ← signed_sub]
      rw [hsum, magnitude_eq_shifted hlarge, magnitude_eq_shifted hsmall, ← sub_div, Int.cast_sub]
  · -- fraction words are cut off
    obtain ⟨c, hrun, -, hsum⟩ := hwords (dst.len - p.intg)
    have hlimit := roundUp_limit (show dst.len - p.intg ≤ roundUp (max large.frac small.frac) by
      omega)
    rw [heq]
    simp only [ne_eq, reduceCtorEq, not_false_eq_true, if_true, min_self, min_eq_left hintg, hrun,
      bind_eq_bind, bind_some]
    refine ⟨_, rfl, SumContract.of_truncated ?_⟩
    rw [value_eq_signed, magnitude_of_words (show _ = p.intg * 9 from rfl)]
    rw [hlimit, hsum, hl.truncateWords_signed, hs.truncateWords_signed, ← signed_sub, ← sub_div,
      Int.cast_sub]
  · exact absurd hlen (not_lt.mpr hfits)

omit hmax in
theorem subOrdered_overflow_iff {zl zs : ℕ} (hlen : dst.len < p.intg)
    (hzl : (zl : ℤ) = -min p.frac 0) (hzs : (zs : ℤ) = -min q.frac 0) {x y : ℚ} :
    (∃ r, subOrdered a b dst sign p q = some r ∧ SumContract x y dst.len r) ↔
      sign = false ∧ zl ≤ dst.len ∧ zs ≤ dst.len ∧
        (radix digBase p.buf p.start (dst.len - zl) * digBase ^ zl -
          radix digBase q.buf q.start (min q.intg dst.len - zs) * digBase ^ zs) %
            digBase ^ dst.len = digBase ^ dst.len - 1 := by
  have heq : fixIntgFracError dst.len p.intg (max (roundUp a.frac) (roundUp b.frac)) =
      (dst.len, 0, .overflow) := by
    rw [fixIntgFracError, if_pos (by omega), if_pos hlen]
  rw [subOrdered, heq]
  simp only [ne_eq, reduceCtorEq, not_false_eq_true, if_true, min_self, cast_zero, add_zero,
    zero_mul, min_zero]
  by_cases hroom : zl ≤ dst.len ∧ zs ≤ dst.len
  · obtain ⟨c, hrun, hrange, hsum⟩ :=
      subParts_overflow hl hs hp hq hintg hfrac hlen hzl hzs hroom.1 hroom.2 dst.buf
    rw [hrun, ← hsum, hrange.radix_eq_max_iff digBase_pos]
    simp only [bind_eq_bind, bind_some, some.injEq, exists_eq_left',
      sumContract_overflow_iff, zero_add]
    constructor
    · exact fun h => ⟨h.sign_eq, hroom.1, hroom.2, h.words_eq⟩
    · exact fun h => ⟨h.1, rfl, rfl, h.2.2.2⟩
  · rw [subParts_eq_none (by dsimp only; omega) (min_le_right _ _) (min_le_right _ _)]
    simp only [bind_eq_bind, bind_none, reduceCtorEq, false_and, exists_false, false_iff]
    exact fun h => hroom ⟨h.2.1, h.2.2.1⟩

end

theorem subOrdered_contract_iff {a b large small : Decimal} {p q : Operand}
    (hl : large.WellFormed) (hs : small.WellFormed)
    (hp : p.intg = q.intg ∧ p = large.operand.trim ∧ q = small.operand.trim ∨
      p.intg ≠ q.intg ∧ p = large.operand ∧ q = small.operand)
    (hintg : q.intg ≤ p.intg) (hlt : small.magnitude < large.magnitude)
    (hmax : max a.frac b.frac = max large.frac small.frac) (sign : Bool) (dst : Decimal) :
    (∃ r, subOrdered a b dst sign p q = some r ∧
        SumContract (signed sign large.magnitude) (signed (!sign) small.magnitude) dst.len r) ↔
      large.intWords ≤ dst.len ∨ sign = false ∧ large.OverflowMax small dst.len := by
  have hreads : p.Reads large ∧ q.Reads small := by
    rcases hp with ⟨-, rfl, rfl⟩ | ⟨-, rfl, rfl⟩
    · exact ⟨large.operand_reads.trim, small.operand_reads.trim⟩
    · exact ⟨large.operand_reads, small.operand_reads⟩
  have hfrac : p.intg ≠ q.intg → 0 ≤ p.frac ∧ 0 ≤ q.frac := by
    intro hne
    rcases hp with ⟨heq, -, -⟩ | ⟨-, rfl, rfl⟩
    · exact absurd heq hne
    · exact ⟨Int.natCast_nonneg _, Int.natCast_nonneg _⟩
  have hwords : large.intWords = p.intg ∧ small.intWords = q.intg := by
    rcases hp with ⟨-, rfl, rfl⟩ | ⟨-, rfl, rfl⟩ <;> exact ⟨rfl, rfl⟩
  rw [hwords.1]
  by_cases hfits : p.intg ≤ dst.len
  · exact iff_of_true (subOrdered_spec hl hs hreads.1 hreads.2 hintg hfrac hmax sign dst hlt hfits)
      (.inl hfits)
  have hlen := not_le.mp hfits
  have hzl : (large.leftOut small : ℤ) = -min p.frac 0 := by
    rw [leftOut, hwords.1, hwords.2]
    rcases hp with ⟨heq, rfl, -⟩ | ⟨hne, -, -⟩
    · rw [if_pos heq, tailZeros]
      omega
    · rw [if_neg hne, min_eq_right (hfrac hne).1]
      rfl
  have hzs : (small.leftOut large : ℤ) = -min q.frac 0 := by
    rw [leftOut, hwords.1, hwords.2]
    rcases hp with ⟨heq, -, rfl⟩ | ⟨hne, -, -⟩
    · rw [if_pos heq.symm, tailZeros]
      omega
    · rw [if_neg (Ne.symm hne), min_eq_right (hfrac hne).2]
      rfl
  have hstart : p.start = large.operand.start ∧ q.start = small.operand.start := by
    rcases hp with ⟨-, rfl, rfl⟩ | ⟨-, rfl, rfl⟩ <;> exact ⟨rfl, rfl⟩
  rw [or_iff_right hfits, subOrdered_overflow_iff hl hs hreads.1 hreads.2 hintg hfrac sign dst
    hlen hzl hzs, hreads.1.buf_eq, hreads.2.buf_eq, hstart.1, hstart.2, Decimal.OverflowMax,
    leadingWords, leadingWords, hwords.1, hwords.2, min_eq_right hlen.le]

theorem doSub_contract_iff {a b : Decimal} (ha : a.WellFormed) (hb : b.WellFormed) (dst : Decimal) :
    (∃ r, doSub a b dst = some r ∧
        SumContract (signed a.sign a.magnitude) (signed (!a.sign) b.magnitude) dst.len r) ↔
      a.DifferenceFits b dst.len := by
  obtain ⟨p, q, carry, heq, -, -, hops, hcases⟩ := compareOperands_spec ha hb
  rw [doSub, heq, Decimal.DifferenceFits]
  rcases hcases with ⟨rfl, hmag⟩ | ⟨rfl, hmag, hintg⟩ | ⟨rfl, hmag, hintg⟩
  · refine iff_of_true ⟨_, rfl, SumContract.of_ok dst.makeZero_wellFormed ?_⟩ (.inl hmag)
    rw [value_eq_signed, magnitude_makeZero, hmag, ← signed_sub, sub_self, signed_zero, signed_zero]
  · have hswap : q.intg = p.intg ∧ q = b.operand.trim ∧ p = a.operand.trim ∨
        q.intg ≠ p.intg ∧ q = b.operand ∧ p = a.operand := by
      rcases hops with ⟨h, h', h''⟩ | ⟨h, h', h''⟩
      · exact .inl ⟨h.symm, h'', h'⟩
      · exact .inr ⟨h.symm, h'', h'⟩
    have hiff := subOrdered_contract_iff hb ha hswap hintg hmag (max_comm a.frac b.frac)
      (!a.sign) dst
    rw [Bool.not_not, Bool.not_eq_false'] at hiff
    dsimp only
    rw [if_pos rfl, or_iff_right hmag.ne, or_iff_right fun h => absurd h.1 hmag.not_gt,
      and_iff_right hmag, ← hiff]
    exact exists_congr fun r => and_congr_right fun _ => ⟨SumContract.symm, SumContract.symm⟩
  · have hiff := subOrdered_contract_iff ha hb hops hintg hmag rfl a.sign dst
    dsimp only
    rw [if_neg Bool.false_ne_true, or_iff_right hmag.ne', or_iff_left fun h => absurd h.1 hmag.not_gt,
      and_iff_right hmag, ← hiff]

/-- **Sums and differences.** `decimal_add` and `decimal_sub` keep their contract for all operands
whose magnitudes are added. For operands whose magnitudes are subtracted they keep it iff
the difference fits: `do_sub` does not store the largest decimal on an overflow. -/
theorem decimalAddSub_contract_iff {a b : Decimal} (ha : a.WellFormed) (hb : b.WellFormed)
    (dst : Decimal) :
    ((∃ r, decimalAdd a b dst = some r ∧ SumContract a.value b.value dst.len r) ↔
        a.sign = b.sign ∨ a.DifferenceFits b dst.len) ∧
      ((∃ r, decimalSub a b dst = some r ∧ SumContract a.value (-b.value) dst.len r) ↔
        a.sign ≠ b.sign ∨ a.DifferenceFits b dst.len) := by
  have hadd := doAdd_spec ha hb dst
  have hsub := doSub_contract_iff ha hb dst
  rw [decimalAdd, decimalSub, value_eq_signed a, value_eq_signed b]
  by_cases hsign : a.sign = b.sign
  · rw [if_pos hsign, if_pos hsign, ← hsign, ← signed_not]
    exact ⟨iff_of_true hadd (.inl rfl), by rw [or_iff_right (not_not.mpr rfl)]; exact hsub⟩
  have hnot : b.sign = !a.sign := (Bool.eq_not.mpr (Ne.symm hsign))
  rw [if_neg hsign, if_neg hsign, hnot, ← signed_not, Bool.not_not]
  exact ⟨by rw [or_iff_right (Bool.not_ne_self _).symm]; exact hsub,
    iff_of_true hadd (.inl (Bool.not_ne_self _).symm)⟩

theorem decimalAddSub_contract_iff_five :
    (ofWord 5).WellFormed ∧ (ofWord 3).WellFormed ∧
      (∃ r, decimalAdd (.ofWord 5) (.ofWord 3) (.ofWord 0) = some r ∧
        SumContract (ofWord 5).value (ofWord 3).value 3 r) ∧
      ∃ r, decimalSub (.ofWord 5) (.ofWord 3) (.ofWord 0) = some r ∧
        SumContract (ofWord 5).value (-(ofWord 3).value) 3 r := by
  have ha := ofWord_wellFormed (w := 5) (by decide)
  have hb := ofWord_wellFormed (w := 3) (by decide)
  have hiff := decimalAddSub_contract_iff ha hb (.ofWord 0)
  have hlt : (ofWord 3).magnitude < (ofWord 5).magnitude := by
    norm_num [magnitude, words, ofWord, roundUp]
  exact ⟨ha, hb, hiff.1.mpr (.inl rfl), hiff.2.mpr (.inr (.inr (.inl ⟨hlt, .inl (by decide)⟩)))⟩

def Decimal.thousandMillion : Decimal := ⟨10, 0, 2, false, fun i => if i = 0 then 1 else 0⟩

theorem Decimal.thousandMillion_wellFormed : thousandMillion.WellFormed := by
  refine ⟨fun i _ _ => ?_, fun _ => by decide, fun h => absurd (show 0 % 9 = 0 from rfl) h⟩
  change 0 ≤ (if i = 0 then (1 : ℤ) else 0) ∧ (if i = 0 then (1 : ℤ) else 0) < digBase
  split <;> decide

/-- 1000000000 minus one in a buffer of one word: the overflow is reported, and the buffer has
zero in it. -/
theorem decimalSub_overflow_zero :
    thousandMillion.WellFormed ∧ (ofWord 1).WellFormed ∧
      ∃ d, decimalSub .thousandMillion (.ofWord 1) { ofWord 0 with len := 1 } =
          some (.overflow, d) ∧ d.value = 0 ∧ ¬ d.IsMax 1 := by
  refine ⟨thousandMillion_wellFormed, ofWord_wellFormed (by decide), _, rfl, ?_,
    fun h => absurd (h.words_eq 0 one_pos) (by decide)⟩
  rw [value_eq_zero_iff]
  decide +kernel

end LibSources
