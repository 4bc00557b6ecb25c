import LibSources.DecimalAdd

/-!
# The Sum of Two Magnitudes

The loops of `do_add` and `do_sub` are parts of one carry chain; with that, `do_add` stores the
sum of its operands, cut to the fraction words there is room for.
-/

namespace LibSources

open Function

variable {d : Decimal}

/-! ### Loops -/

@[simp] theorem load_natCast (m : ℕ → ℤ) (p : ℕ) : load m p = some (m p) := by
  rw [load, if_neg (by omega), Int.toNat_natCast]

@[simp] theorem load_natCast_add (m : ℕ → ℤ) (p k : ℕ) : load m (p + k) = some (m (p + k)) := by
  rw [← Nat.cast_add, load_natCast]

section

variable {σ : ℤ} {u v m₀ : ℕ → ℤ} {hi : ℕ} {c : Cursor} {carry : ℤ}

theorem Rippled.zeroDown {k p : ℕ} (h : Rippled digBase σ u v m₀ hi c 0) (hpos : c.pos = p + k)
    (hzero : ∀ i < k, u (p + i) + σ * v (p + i) = 0) :
    ∃ c', zeroDown k c = some c' ∧ c'.pos = p ∧ Rippled digBase σ u v m₀ hi c' 0 := by
  induction k generalizing c with
  | zero => exact ⟨c, rfl, hpos, h⟩
  | succ k ih =>
    have hword := hzero k (lt_add_one k)
    obtain ⟨c', hpush, hpos', h'⟩ := h.push (p := p + k) hpos ⟨le_rfl, digBase_pos⟩
      ⟨le_rfl, Int.one_nonneg⟩ (by rw [add_zero, hword]; ring)
    obtain ⟨c'', hloop, hdone⟩ := ih h' hpos' fun i hi => hzero i (hi.trans (lt_add_one k))
    refine ⟨c'', ?_, hdone⟩
    simp only [LibSources.zeroDown, hpush, Option.bind_eq_bind, Option.bind_some, hloop]

theorem Rippled.copyDown {m : ℕ → ℤ} {s k p : ℕ} (h : Rippled digBase σ u v m₀ hi c 0)
    (hpos : c.pos = p + k) (hrange : InRange digBase m s k)
    (hwords : ∀ i < k, u (p + i) + σ * v (p + i) = m (s + i)) :
    ∃ c', copyDown m s k c = some c' ∧ c'.pos = p ∧ Rippled digBase σ u v m₀ hi c' 0 := by
  induction k generalizing c with
  | zero => exact ⟨c, rfl, hpos, h⟩
  | succ k ih =>
    have hword := hwords k (lt_add_one k)
    obtain ⟨c', hpush, hpos', h'⟩ := h.push (p := p + k) hpos (hrange (s + k) (by omega) (by omega))
      ⟨le_rfl, Int.one_nonneg⟩ (by rw [add_zero, hword]; ring)
    obtain ⟨c'', hloop, hdone⟩ := ih h' hpos' (hrange.mono le_rfl (by omega))
      fun i hi => hwords i (hi.trans (lt_add_one k))
    refine ⟨c'', ?_, hdone⟩
    simp only [LibSources.copyDown, load_natCast_add, hpush, Option.bind_eq_bind,
      Option.bind_some, hloop]

theorem Rippled.addDown {m1 m2 : ℕ → ℤ} {s1 s2 k p : ℕ} (h : Rippled digBase 1 u v m₀ hi c carry)
    (hpos : c.pos = p + k) (hrange1 : InRange digBase m1 s1 k) (hrange2 : InRange digBase m2 s2 k)
    (hwords : ∀ i < k, u (p + i) + v (p + i) = m1 (s1 + i) + m2 (s2 + i)) :
    ∃ c' carry', addDown m1 s1 m2 s2 k c carry = some (c', carry') ∧ c'.pos = p ∧
      Rippled digBase 1 u v m₀ hi c' carry' := by
  induction k generalizing c carry with
  | zero => exact ⟨c, carry, rfl, hpos, h⟩
  | succ k ih =>
    have hword := hwords k (lt_add_one k)
    obtain ⟨hsum, hw, hcarry⟩ := addWord_spec (hrange1 (s1 + k) (by omega) (by omega))
      (hrange2 (s2 + k) (by omega) (by omega)) h.carry_mem
    obtain ⟨c', hpush, hpos', h'⟩ := h.push (p := p + k) hpos hw hcarry
      (by linear_combination hword + hsum)
    obtain ⟨c'', carry'', hloop, hdone⟩ := ih h' hpos' (hrange1.mono le_rfl (by omega))
      (hrange2.mono le_rfl (by omega)) fun i hi => hwords i (hi.trans (lt_add_one k))
    refine ⟨c'', carry'', ?_, hdone⟩
    simp only [LibSources.addDown, load_natCast_add, hpush, Option.bind_eq_bind, Option.bind_some,
      hloop]

theorem Rippled.subDown {m1 m2 : ℕ → ℤ} {s1 s2 k p : ℕ} (h : Rippled digBase (-1) u v m₀ hi c carry)
    (hpos : c.pos = p + k) (hrange1 : InRange digBase m1 s1 k) (hrange2 : InRange digBase m2 s2 k)
    (hwords : ∀ i < k, u (p + i) - v (p + i) = m1 (s1 + i) - m2 (s2 + i)) :
    ∃ c' carry', subDown m1 s1 m2 s2 k c carry = some (c', carry') ∧ c'.pos = p ∧
      Rippled digBase (-1) u v m₀ hi c' carry' := by
  induction k generalizing c carry with
  | zero => exact ⟨c, carry, rfl, hpos, h⟩
  | succ k ih =>
    have hword := hwords k (lt_add_one k)
    obtain ⟨hsum, hw, hcarry⟩ := subWord_spec (hrange1 (s1 + k) (by omega) (by omega))
      (hrange2 (s2 + k) (by omega) (by omega)) h.carry_mem
    obtain ⟨c', hpush, hpos', h'⟩ := h.push (p := p + k) hpos hw hcarry
      (by linear_combination hword + hsum)
    obtain ⟨c'', carry'', hloop, hdone⟩ := ih h' hpos' (hrange1.mono le_rfl (by omega))
      (hrange2.mono le_rfl (by omega)) fun i hi => hwords i (hi.trans (lt_add_one k))
    refine ⟨c'', carry'', ?_, hdone⟩
    simp only [LibSources.subDown, load_natCast_add, hpush, Option.bind_eq_bind, Option.bind_some,
      hloop]

theorem Rippled.borrowDown {m : ℕ → ℤ} {s k p : ℕ} (h : Rippled digBase (-1) u v m₀ hi c carry)
    (hpos : c.pos = p + k) (hrange : InRange digBase m s k)
    (hwords : ∀ i < k, u (p + i) - v (p + i) = m (s + i)) :
    ∃ c' carry', borrowDown m s k c carry = some c' ∧ c'.pos = p ∧
      Rippled digBase (-1) u v m₀ hi c' carry' := by
  induction k generalizing c carry with
  | zero => exact ⟨c, carry, rfl, hpos, h⟩
  | succ k ih =>
    rw [LibSources.borrowDown]
    by_cases hzero : carry = 0
    · subst hzero
      obtain ⟨c', hloop, hdone⟩ := h.copyDown hpos hrange fun i hi => by
        linear_combination hwords i hi
      exact ⟨c', 0, by rw [if_neg (not_not.mpr rfl), hloop], hdone⟩
    have hword := hwords k (lt_add_one k)
    obtain ⟨hsum, hw, hcarry⟩ := subWord_spec (hrange (s + k) (by omega) (by omega))
      ⟨le_rfl, digBase_pos⟩ h.carry_mem
    obtain ⟨c', hpush, hpos', h'⟩ := h.push (p := p + k) hpos hw hcarry
      (by linear_combination hword + hsum)
    obtain ⟨c'', carry'', hloop, hdone⟩ := ih h' hpos' (hrange.mono le_rfl (by omega))
      fun i hi => hwords i (hi.trans (lt_add_one k))
    refine ⟨c'', carry'', ?_, hdone⟩
    rw [if_pos hzero]
    simp only [load_natCast_add, hpush, Option.bind_eq_bind, Option.bind_some, hloop]

theorem Rippled.symm (h : Rippled digBase 1 u v m₀ hi c carry) :
    Rippled digBase 1 v u m₀ hi c carry :=
  { h with sum := by linear_combination h.sum }

end

/-! ### The parts of `do_add` -/

namespace Addend

/-- The number of an operand when the fraction has `k` words. -/
def value (p : Addend) (k : ℕ) : ℤ :=
  radix digBase p.buf 0 (p.intg + p.frac) * digBase ^ (k - p.frac)

/-- The words of an operand where a result with `intg0` integer words has them. -/
def padded (p : Addend) (intg0 : ℕ) : ℕ → ℤ := pad p.buf 0 (intg0 - p.intg) (p.intg + p.frac)

variable {k len : ℕ} {x y : ℚ} (p : Addend)

theorem radix_padded {intg0 : ℕ} (hintg : p.intg ≤ intg0) (hfrac : p.frac ≤ k) :
    radix digBase (p.padded intg0) 0 (intg0 + k) = p.value k := by
  have hlen : intg0 + k = intg0 - p.intg + (p.intg + p.frac) + (k - p.frac) := by omega
  rw [padded, hlen, radix_pad, value]

theorem padded_of_le {intg0 i j : ℕ} (hj : j < p.intg + p.frac)
    (heq : i + p.intg = intg0 + j) (hintg : p.intg ≤ intg0) : p.padded intg0 i = p.buf j := by
  rw [padded, pad_of_mem ⟨by omega, by omega⟩]
  congr 1
  omega

theorem padded_of_lt {intg0 i : ℕ} (h : i + p.intg < intg0) :
    p.padded intg0 i = 0 := pad_of_not_mem (Or.inl (by omega))

theorem padded_of_ge {intg0 i : ℕ} (h : intg0 + p.frac ≤ i)
    (hintg : p.intg ≤ intg0) : p.padded intg0 i = 0 := pad_of_not_mem (Or.inr (by omega))

end Addend

section

variable {p q : Addend} {intg0 : ℕ} (hp : InRange digBase p.buf 0 (p.intg + p.frac))
  (hq : InRange digBase q.buf 0 (q.intg + q.frac)) (hpintg : p.intg ≤ intg0)
  (hqintg : q.intg ≤ intg0) (m : ℕ → ℤ)
include hp hq hpintg hqintg

theorem addCommon_spec (hfrac : q.frac ≤ p.frac) :
    ∃ c carry, addCommon p q ⟨m, intg0 + p.frac⟩ = some (c, carry) ∧
      c.pos = intg0 - min p.intg q.intg ∧
      Rippled digBase 1 (p.padded intg0) (q.padded intg0) m (intg0 + p.frac) c carry := by
  obtain ⟨c, hcopy, hpos, hc⟩ :=
    (Rippled.start digBase 1 (p.padded intg0) (q.padded intg0) m (intg0 + p.frac)).copyDown
      (show intg0 + p.frac = intg0 + q.frac + (p.frac - q.frac) by omega)
      (hp.mono (Nat.zero_le (p.intg + q.frac)) (by omega))
      fun i hi => by
        rw [p.padded_of_le (j := p.intg + q.frac + i) (by omega) (by omega) hpintg,
          q.padded_of_ge (by omega) hqintg]
        ring
  obtain ⟨c', carry, hadd, hpos', hc'⟩ := hc.addDown
    (show c.pos = intg0 - min p.intg q.intg + (min p.intg q.intg + q.frac) by omega)
    (hp.mono (Nat.zero_le (p.intg - min p.intg q.intg)) (by omega))
    (hq.mono (Nat.zero_le (q.intg - min p.intg q.intg)) (by omega))
    fun i hi => by
      rw [p.padded_of_le (j := p.intg - min p.intg q.intg + i) (by omega) (by omega) hpintg,
        q.padded_of_le (j := q.intg - min p.intg q.intg + i) (by omega) (by omega) hqintg]
  refine ⟨c', carry, ?_, hpos', hc'⟩
  simp only [addCommon, hcopy, Option.bind_eq_bind, Option.bind_some, hadd]

theorem addByFrac_spec :
    ∃ c carry, addByFrac p q ⟨m, intg0 + max p.frac q.frac⟩ = some (c, carry) ∧
      c.pos = intg0 - min p.intg q.intg ∧
      Rippled digBase 1 (p.padded intg0) (q.padded intg0) m (intg0 + max p.frac q.frac) c
        carry := by
  rw [addByFrac]
  by_cases hlt : q.frac < p.frac
  · rw [if_pos hlt, max_eq_left hlt.le]
    exact addCommon_spec hp hq hpintg hqintg m hlt.le
  rw [if_neg hlt, max_eq_right (not_lt.mp hlt), min_comm]
  obtain ⟨c, carry, hrun, hpos, hc⟩ := addCommon_spec hq hp hqintg hpintg m (not_lt.mp hlt)
  exact ⟨c, carry, hrun, hpos, hc.symm⟩

omit hq in
theorem addRest_spec {hi : ℕ} {c : Cursor} {carry : ℤ} (hle : q.intg ≤ p.intg)
    (hpos : c.pos = intg0 - min p.intg q.intg)
    (hc : Rippled digBase 1 (p.padded intg0) (q.padded intg0) m hi c carry) :
    ∃ c' carry', addDown p.buf 0 noWords 0 (p.intg - q.intg) c carry = some (c', carry') ∧
      c'.pos = intg0 - max p.intg q.intg ∧
      Rippled digBase 1 (p.padded intg0) (q.padded intg0) m hi c' carry' := by
  have hnone : InRange digBase noWords 0 (p.intg - q.intg) := fun _ _ _ => ⟨le_rfl, digBase_pos⟩
  have hrange : InRange digBase p.buf 0 (p.intg - q.intg) := hp.mono le_rfl (by omega)
  obtain ⟨c', carry', hadd, hdone⟩ := hc.addDown
    (show c.pos = intg0 - max p.intg q.intg + (p.intg - q.intg) by omega) hrange hnone
    fun i hi => by
      rw [p.padded_of_le (j := 0 + i) (by omega) (by omega) hpintg, q.padded_of_lt (by omega)]
      rfl
  exact ⟨c', carry', hadd, hdone⟩

theorem addByIntg_spec {hi : ℕ} {c : Cursor} {carry : ℤ} (hpos : c.pos = intg0 - min p.intg q.intg)
    (hc : Rippled digBase 1 (p.padded intg0) (q.padded intg0) m hi c carry) :
    ∃ c' carry', addByIntg p q c carry = some (c', carry') ∧ c'.pos = intg0 - max p.intg q.intg ∧
      Rippled digBase 1 (p.padded intg0) (q.padded intg0) m hi c' carry' := by
  rw [addByIntg]
  by_cases hlt : q.intg < p.intg
  · rw [if_pos hlt]
    exact addRest_spec hp hpintg hqintg m hlt.le hpos hc
  rw [if_neg hlt, max_comm]
  rw [min_comm] at hpos
  obtain ⟨c', carry', hrun, hpos', hc'⟩ :=
    addRest_spec hq hqintg hpintg m (not_lt.mp hlt) hpos hc.symm
  exact ⟨c', carry', hrun, hpos', hc'.symm⟩

omit hp hq in
theorem addFinish_spec {F : ℕ} {c : Cursor} {carry : ℤ} (hF : p.frac ≤ F ∧ q.frac ≤ F)
    (hextra : intg0 ≤ max p.intg q.intg + 1) (hzero : max p.intg q.intg < intg0 → m 0 = 0)
    (hfits : intg0 = max p.intg q.intg → p.value F + q.value F < digBase ^ (intg0 + F))
    (hpos : c.pos = intg0 - max p.intg q.intg)
    (hc : Rippled digBase 1 (p.padded intg0) (q.padded intg0) m (intg0 + F) c carry) :
    ∃ c', (if carry ≠ 0 then c.push 1 else some c) = some c' ∧
      InRange digBase c'.mem 0 (intg0 + F) ∧
      radix digBase c'.mem 0 (intg0 + F) = p.value F + q.value F := by
  have hpval := p.radix_padded hpintg hF.1
  have hqval := q.radix_padded hqintg hF.2
  -- at the front nothing is carried any more
  suffices hchain : ∃ c', (if carry ≠ 0 then c.push 1 else some c) = some c' ∧
      Rippled digBase 1 (p.padded intg0) (q.padded intg0) m (intg0 + F) ⟨c'.mem, 0⟩ 0 by
    obtain ⟨c', heq, hc'⟩ := hchain
    obtain ⟨hrange, hsum⟩ := hc'.sum_zero rfl
    rw [hpval, hqval] at hsum
    exact ⟨c', heq, hrange, by linear_combination -hsum⟩
  by_cases hroom : intg0 = max p.intg q.intg
  · have hfront : c.pos = 0 := by omega
    have hcarry : carry = 0 := hc.carry_eq_zero hfront (by
      rw [hpval, hqval]
      exact hfits hroom)
    subst hcarry
    refine ⟨c, if_neg (not_not.mpr rfl), ?_⟩
    rw [← hfront]
    exact hc
  have hfront : c.pos = 0 + 1 := by omega
  have hpfirst : p.padded intg0 0 = 0 := p.padded_of_lt (by omega)
  have hqfirst : q.padded intg0 0 = 0 := q.padded_of_lt (by omega)
  by_cases hcarry : carry = 0
  · subst hcarry
    have hmem : c.mem 0 = 0 := by
      rw [hc.frame 0 (by omega)]
      exact hzero (by omega)
    refine ⟨c, if_neg (not_not.mpr rfl), ?_⟩
    exact hc.accept hfront (by rw [hmem]; exact ⟨le_rfl, digBase_pos⟩) ⟨le_rfl, Int.one_nonneg⟩
      (by rw [hpfirst, hqfirst, hmem]; ring)
  have hone : carry = 1 := by
    have := hc.carry_mem
    omega
  obtain ⟨c', hpush, hpos', hc'⟩ := hc.push hfront ⟨Int.one_nonneg, by decide⟩
    ⟨le_rfl, Int.one_nonneg⟩ (by rw [hpfirst, hqfirst, hone]; ring)
  refine ⟨c', by rw [if_pos hcarry, hpush], ?_⟩
  rw [← hpos']
  exact hc'

theorem addParts_spec (hextra : intg0 ≤ max p.intg q.intg + 1)
    (hzero : max p.intg q.intg < intg0 → m 0 = 0)
    (hfits : intg0 = max p.intg q.intg → p.value (max p.frac q.frac) + q.value (max p.frac q.frac) <
        digBase ^ (intg0 + max p.frac q.frac)) :
    ∃ c, addParts p q ⟨m, intg0 + max p.frac q.frac⟩ = some c ∧
      InRange digBase c.mem 0 (intg0 + max p.frac q.frac) ∧
      radix digBase c.mem 0 (intg0 + max p.frac q.frac) =
        p.value (max p.frac q.frac) + q.value (max p.frac q.frac) := by
  obtain ⟨c, carry, hfrac, hpos, hc⟩ := addByFrac_spec hp hq hpintg hqintg m
  obtain ⟨c', carry', hintg, hpos', hc'⟩ := addByIntg_spec hp hq hpintg hqintg m hpos hc
  obtain ⟨c'', hfinish, hdone⟩ := addFinish_spec hpintg hqintg m
    ⟨le_max_left _ _, le_max_right _ _⟩ hextra hzero hfits hpos' hc'
  refine ⟨c'', ?_, hdone⟩
  simp only [addParts, hfrac, hintg, Option.bind_eq_bind, Option.bind_some, hfinish]

end

section

variable {p q : Addend} (hp : InRange digBase p.buf 0 (p.intg + p.frac))
  (hq : InRange digBase q.buf 0 (q.intg + q.frac))
include hp

theorem Addend.padded_mem (intg0 i : ℕ) : 0 ≤ p.padded intg0 i ∧ p.padded intg0 i < digBase :=
  hp.pad digBase_pos _ i

theorem Addend.value_lt {intg0 : ℕ} (hintg : p.intg ≤ intg0) (hfrac : p.frac ≤ k) :
    p.value k < digBase ^ (intg0 + k) := by
  have hrange : InRange digBase (p.padded intg0) 0 (intg0 + k) :=
    fun i _ _ => Addend.padded_mem hp intg0 i
  rw [← p.radix_padded hintg hfrac]
  exact hrange.radix_lt

include hq

/-- Without the extra word the sum has room: its first word and a carry into it are below the
base. -/
theorem Addend.value_add_lt (hk : p.frac ≤ k ∧ q.frac ≤ k)
    (hx : (if q.intg < p.intg then p.buf 0 else if p.intg < q.intg then q.buf 0
      else p.buf 0 + q.buf 0) ≤ digMax - 1) :
    p.value k + q.value k < digBase ^ (max p.intg q.intg + k) := by
  have hdigMax : digMax = digBase - 1 := rfl
  by_cases hpz : p.intg + p.frac = 0
  · have hzero : p.value k = 0 := by
      rw [Addend.value, hpz, radix_zero, zero_mul]
    rw [hzero, zero_add]
    exact Addend.value_lt hq (le_max_right _ _) hk.2
  by_cases hqz : q.intg + q.frac = 0
  · have hzero : q.value k = 0 := by
      rw [Addend.value, hqz, radix_zero, zero_mul]
    rw [hzero, add_zero]
    exact Addend.value_lt hp (le_max_left _ _) hk.1
  -- the words at the front
  have hfront : p.padded (max p.intg q.intg) 0 + q.padded (max p.intg q.intg) 0 ≤ digBase - 2 := by
    rcases lt_trichotomy q.intg p.intg with hlt | heq | hlt
    · rw [if_pos hlt] at hx
      rw [p.padded_of_le (j := 0) (by omega) (by omega) (le_max_left _ _),
        q.padded_of_lt (by omega)]
      omega
    · rw [if_neg heq.not_lt, if_neg heq.not_gt] at hx
      rw [p.padded_of_le (j := 0) (by omega) (by omega) (le_max_left _ _),
        q.padded_of_le (j := 0) (by omega) (by omega) (le_max_right _ _)]
      omega
    · rw [if_neg hlt.not_gt, if_pos hlt] at hx
      rw [p.padded_of_lt (by omega),
        q.padded_of_le (j := 0) (by omega) (by omega) (le_max_right _ _)]
      omega
  obtain ⟨n, hn⟩ : ∃ n, max p.intg q.intg + k = n + 1 := ⟨max p.intg q.intg + k - 1, by omega⟩
  have hprange : InRange digBase (p.padded (max p.intg q.intg)) 0 (n + 1) :=
    fun i _ _ => Addend.padded_mem hp _ i
  have hqrange : InRange digBase (q.padded (max p.intg q.intg)) 0 (n + 1) :=
    fun i _ _ => Addend.padded_mem hq _ i
  rw [← p.radix_padded (le_max_left _ _) hk.1, ← q.radix_padded (le_max_right _ _) hk.2, hn,
    pow_succ']
  have hpow : 0 ≤ digBase ^ n := (pow_pos digBase_pos n).le
  nlinarith [hprange.radix_lt_first, hqrange.radix_lt_first]

end

/-! ### What is asked of sums -/

def signed (sign : Bool) (x : ℚ) : ℚ := if sign then -x else x

theorem Decimal.value_eq_signed (d : Decimal) : d.value = signed d.sign d.magnitude := rfl

@[simp] theorem signed_zero (sign : Bool) : signed sign 0 = 0 := by
  cases sign
  · rfl
  · exact neg_zero

theorem signed_add (sign : Bool) (x y : ℚ) :
    signed sign (x + y) = signed sign x + signed sign y := by
  cases sign
  · rfl
  · exact neg_add x y

/-- A number cut to `k` fraction words, towards zero. -/
def truncateWords (x : ℚ) (k : ℕ) : ℚ :=
  SignType.sign x * (⌊|x| * (digBase : ℚ) ^ k⌋ / (digBase : ℚ) ^ k)

theorem truncateWords_signed (hx : 0 ≤ x) (sign : Bool) (k : ℕ) :
    truncateWords (signed sign x) k =
      signed sign (⌊x * (digBase : ℚ) ^ k⌋ / (digBase : ℚ) ^ k) := by
  rcases hx.eq_or_lt with rfl | hpos
  · cases sign <;> simp [truncateWords, signed]
  cases sign
  · simp [truncateWords, signed, abs_of_pos hpos, sign_pos hpos]
  · simp [truncateWords, signed, abs_of_pos hpos, Left.sign_neg, sign_pos hpos]

theorem Decimal.WellFormed.truncateWords_signed (h : d.WellFormed) (sign : Bool) (k : ℕ) :
    truncateWords (signed sign d.magnitude) k = signed sign (d.shifted k / (digBase : ℚ) ^ k) := by
  rw [LibSources.truncateWords_signed h.magnitude_nonneg, ← Decimal.shifted_eq_floor]

/-- A number cut to `s` digits behind the point, towards zero. -/
def truncateDigits (x : ℚ) (s : ℤ) : ℚ := SignType.sign x * (⌊|x| * 10 ^ s⌋ / 10 ^ s)

theorem truncateDigits_signed (hx : 0 ≤ x) (sign : Bool) (s : ℤ) :
    truncateDigits (signed sign x) s = signed sign (⌊x * 10 ^ s⌋ / 10 ^ s) := by
  rcases hx.eq_or_lt with rfl | hpos
  · cases sign <;> simp [truncateDigits, signed]
  cases sign
  · simp [truncateDigits, signed, abs_of_pos hpos, sign_pos hpos]
  · simp [truncateDigits, signed, abs_of_pos hpos, Left.sign_neg, sign_pos hpos]

structure Decimal.IsMax (d : Decimal) (len : ℕ) : Prop where
  sign_eq : d.sign = false
  intg_eq : d.intg = len * 9
  frac_eq : d.frac = 0
  words_eq : ∀ i < len, d.buf i = digMax

/-- The contract of a sum of `x` and `y` in a buffer of `len` words: it is exact, or the sum of
the numbers cut to the fraction words that are kept, or the largest decimal. -/
structure SumContract (x y : ℚ) (len : ℕ) (r : DecimalError × Decimal) : Prop where
  error : r.1 = .ok ∨ r.1 = .truncated ∨ r.1 = .overflow
  ok : r.1 = .ok → r.2.WellFormed ∧ r.2.value = x + y
  truncated : r.1 = .truncated → r.2.value =
    truncateWords x (roundUp r.2.frac) + truncateWords y (roundUp r.2.frac)
  overflow : r.1 = .overflow → r.2.IsMax len

theorem SumContract.of_ok (hd : d.WellFormed) (hvalue : d.value = x + y) :
    SumContract x y len (.ok, d) :=
  ⟨.inl rfl, fun _ => ⟨hd, hvalue⟩, nofun, nofun⟩

theorem SumContract.of_truncated
    (hvalue : d.value = truncateWords x (roundUp d.frac) + truncateWords y (roundUp d.frac)) :
    SumContract x y len (.truncated, d) :=
  ⟨.inr (.inl rfl), nofun, fun _ => hvalue, nofun⟩

theorem sumContract_overflow_iff : SumContract x y len (.overflow, d) ↔ d.IsMax len :=
  ⟨fun h => h.overflow rfl, fun h => ⟨.inr (.inr rfl), nofun, nofun, fun _ => h⟩⟩

theorem fillWords_eq (w : ℤ) (buf : ℕ → ℤ) (pos k i : ℕ) :
    fillWords w buf pos k i = if pos ≤ i ∧ i < pos + k then w else buf i := by
  induction k generalizing buf pos with
  | zero => rw [fillWords, if_neg (by omega)]
  | succ k ih =>
    rw [fillWords, ih]
    by_cases hi : i = pos
    · rw [if_neg (by omega), if_pos (by omega), hi, update_self]
    · rw [update_of_ne hi]
      exact if_congr (by omega) rfl rfl

theorem maxDecimal_isMax (len : ℕ) (dst : Decimal) : (maxDecimal (len * 9) 0 dst).IsMax len := by
  have hmod : (len * 9 - 0) % 9 = 0 := by omega
  have hdiv : (len * 9 - 0) / 9 = len := by omega
  refine ⟨rfl, rfl, rfl, fun i hi => ?_⟩
  simp only [maxDecimal, hmod, hdiv, ne_eq, not_true_eq_false, if_false, Nat.zero_mod,
    Nat.zero_div, fillWords_eq]
  rw [if_neg (by omega), if_pos (by omega)]

/-! ### `do_add` -/

theorem Decimal.WellFormed.addend (h : d.WellFormed) {frac0 : ℕ}
    (hk : min (roundUp d.frac) frac0 ≤ k) (hfrac0 : k ≤ frac0) :
    InRange digBase d.buf 0 (roundUp d.intg + min (roundUp d.frac) frac0) ∧
      (Addend.mk d.buf (roundUp d.intg) (min (roundUp d.frac) frac0)).value k = d.shifted k := by
  refine ⟨h.range.mono le_rfl (by rw [Decimal.words]; omega), ?_⟩
  rw [Addend.value]
  rcases le_total (roundUp d.frac) frac0 with hle | hle
  · rw [min_eq_left hle] at hk ⊢
    rw [Decimal.shifted_of_le hk, Decimal.words]
  · obtain rfl : k = frac0 := by omega
    rw [min_eq_right hle, tsub_self, pow_zero, mul_one, h.shifted_of_ge hle]

theorem roundUp_limit {frac frac0 : ℕ} (h : frac0 ≤ roundUp frac) :
    roundUp (min frac (frac0 * 9)) = frac0 := by
  rw [roundUp] at h ⊢
  omega

theorem doAdd_words {a b : Decimal} (ha : a.WellFormed) (hb : b.WellFormed) (buf : ℕ → ℤ)
    {extra : Bool}
    (hextra : extra = decide (digMax - 1 < if roundUp b.intg < roundUp a.intg then a.buf 0
      else if roundUp a.intg < roundUp b.intg then b.buf 0 else a.buf 0 + b.buf 0))
    (frac0 : ℕ) (hfrac0 : frac0 ≤ max (roundUp a.frac) (roundUp b.frac)) :
    let intg0 := max (roundUp a.intg) (roundUp b.intg) + (if extra then 1 else 0)
    ∃ c, addParts ⟨a.buf, roundUp a.intg, min (roundUp a.frac) frac0⟩
        ⟨b.buf, roundUp b.intg, min (roundUp b.frac) frac0⟩
        ⟨if extra then update buf 0 0 else buf, intg0 + frac0⟩ = some c ∧
      InRange digBase c.mem 0 (intg0 + frac0) ∧
      radix digBase c.mem 0 (intg0 + frac0) = a.shifted frac0 + b.shifted frac0 := by
  intro intg0
  have hmax : max (min (roundUp a.frac) frac0) (min (roundUp b.frac) frac0) = frac0 := by omega
  obtain ⟨harange, havalue⟩ := ha.addend (min_le_right (roundUp a.frac) frac0) le_rfl
  obtain ⟨hbrange, hbvalue⟩ := hb.addend (min_le_right (roundUp b.frac) frac0) le_rfl
  have hextra' : (if extra then 1 else 0) ≤ 1 := by split_ifs <;> omega
  have haintg : roundUp a.intg ≤ intg0 := by omega
  have hbintg : roundUp b.intg ≤ intg0 := by omega
  have hspec := addParts_spec (p := ⟨a.buf, roundUp a.intg, min (roundUp a.frac) frac0⟩)
    (q := ⟨b.buf, roundUp b.intg, min (roundUp b.frac) frac0⟩) harange hbrange haintg hbintg
    (if extra then update buf 0 0 else buf)
  dsimp only at hspec
  rw [hmax, havalue, hbvalue] at hspec
  refine hspec (by omega) (fun hlt => ?_) fun heq => ?_
  · cases hx : extra
    · simp [intg0, hx] at hlt
    · rw [if_pos rfl, update_self]
  cases hx : extra
  · rw [hx] at hextra
    have hle := Addend.value_add_lt (p := ⟨a.buf, roundUp a.intg, min (roundUp a.frac) frac0⟩)
      (q := ⟨b.buf, roundUp b.intg, min (roundUp b.frac) frac0⟩) harange hbrange
      ⟨min_le_right _ frac0, min_le_right _ frac0⟩ (not_lt.mp (of_decide_eq_false hextra.symm))
    rw [havalue, hbvalue] at hle
    rw [heq]
    exact hle
  · simp [intg0, hx] at heq

theorem Decimal.wellFormed_of_words {intg0 : ℕ} (hintg : d.intg = intg0 * 9)
    (hrange : InRange digBase d.buf 0 (intg0 + roundUp d.frac))
    (hdvd : (10 : ℤ) ^ (roundUp d.frac * 9 - d.frac) ∣
      radix digBase d.buf 0 (intg0 + roundUp d.frac)) :
    d.WellFormed := by
  have hwords : d.words = intg0 + roundUp d.frac := by rw [Decimal.words, hintg, roundUp_mul]
  rw [← hwords] at hrange hdvd
  exact ⟨hrange, fun hne => absurd (by rw [hintg]; omega) hne, Decimal.last_of_dvd_radix hdvd⟩

theorem Decimal.magnitude_of_words {intg0 : ℕ} (hintg : d.intg = intg0 * 9) :
    d.magnitude = radix digBase d.buf 0 (intg0 + roundUp d.frac) /
      (digBase : ℚ) ^ roundUp d.frac := by
  rw [Decimal.magnitude, Decimal.words, hintg, roundUp_mul]

theorem doAdd_spec {a b : Decimal} (ha : a.WellFormed) (hb : b.WellFormed) (dst : Decimal) :
    ∃ r, doAdd a b dst = some r ∧
      SumContract (signed a.sign a.magnitude) (signed a.sign b.magnitude) dst.len r := by
  rw [doAdd]
  generalize hextra : decide (digMax - 1 < if roundUp b.intg < roundUp a.intg then a.buf 0
    else if roundUp a.intg < roundUp b.intg then b.buf 0 else a.buf 0 + b.buf 0) = extra
  have hbound : max (roundUp a.intg) (roundUp b.intg) ≤
    max (roundUp a.intg) (roundUp b.intg) + (if extra then 1 else 0) := Nat.le_add_right _ _
  have hwords := doAdd_words ha hb dst.buf hextra.symm
  generalize max (roundUp a.intg) (roundUp b.intg) + (if extra then 1 else 0) = intg0
    at hbound hwords ⊢
  have hroundUp := roundUp_max a.frac b.frac
  rcases fixIntgFracError_cases dst.len intg0 (max (roundUp a.frac) (roundUp b.frac)) with
    ⟨hfits, heq⟩ | ⟨hfits, hlt, heq⟩ | ⟨hlt, heq⟩
  · -- everything fits
    obtain ⟨c, hparts, hrange, hsum⟩ := hwords _ le_rfl
    rw [min_eq_left (le_max_left _ _), min_eq_left (le_max_right _ _)] at hparts
    rw [heq]
    simp only [reduceCtorEq, if_false, ne_eq, not_true_eq_false, hparts, Option.bind_eq_bind,
      Option.bind_some]
    refine ⟨_, rfl, SumContract.of_ok ?_ ?_⟩
    · refine Decimal.wellFormed_of_words (show _ = intg0 * 9 from rfl) ?_ ?_
      · rw [hroundUp]
        exact hrange
      rw [hroundUp, hsum]
      exact dvd_add (ha.dvd_shifted (le_max_left _ _) (le_max_left _ _))
        (hb.dvd_shifted (le_max_right _ _) (le_max_right _ _))
    · rw [Decimal.value_eq_signed, Decimal.magnitude_of_words (show _ = intg0 * 9 from rfl), ← signed_add]
      dsimp only
      rw [hroundUp, hsum, Decimal.magnitude_eq_shifted (d := a) (le_max_left _ (roundUp b.frac)),
        Decimal.magnitude_eq_shifted (d := b) (le_max_right (roundUp a.frac) _), ← add_div,
        Int.cast_add]
  · -- fraction words are cut off
    obtain ⟨c, hparts, -, hsum⟩ := hwords (dst.len - intg0) (by omega)
    have hfrac := roundUp_limit (show dst.len - intg0 ≤ roundUp (max a.frac b.frac) by omega)
    rw [heq]
    dsimp only
    simp only [reduceCtorEq, if_false, ne_eq, not_false_eq_true, if_true,
      min_eq_left ((le_max_left _ _).trans hbound), min_eq_left ((le_max_right _ _).trans hbound),
      hparts, Option.bind_eq_bind, Option.bind_some]
    refine ⟨_, rfl, SumContract.of_truncated ?_⟩
    rw [Decimal.value_eq_signed, Decimal.magnitude_of_words (show _ = intg0 * 9 from rfl)]
    dsimp only
    rw [hfrac, hsum, ha.truncateWords_signed, hb.truncateWords_signed, ← signed_add, ← add_div,
      Int.cast_add]
  · rw [heq]
    exact ⟨_, rfl, sumContract_overflow_iff.mpr (maxDecimal_isMax _ _)⟩

end LibSources
