import LibSources.Radix

/-!
# Carry Chains

A sum or a difference is stored from its last word on: `Cursor.push` is `*--p = w`. `Rippled` says
what has been stored so far, for sums (`σ = 1`) and differences (`σ = -1`) alike: the words from
the cursor up to `hi` and the carry are the sum of the words of `u` and `v` there.

Operands of different lengths are padded with zero words (`pad`), so that one chain goes through
all loops of a routine.
-/

namespace LibSources

open Function

structure Cursor where
  mem : ℕ → ℤ
  pos : ℕ

/-- `*--p = w`. In front of the buffer there is no word to store to. -/
def Cursor.push (c : Cursor) (w : ℤ) : Option Cursor :=
  match c.pos with
  | 0 => none
  | p + 1 => some ⟨update c.mem p w, p⟩

theorem Cursor.push_of_pos {c : Cursor} {p : ℕ} (h : c.pos = p + 1) (w : ℤ) :
    c.push w = some ⟨update c.mem p w, p⟩ := by
  rw [Cursor.push, h]

theorem Cursor.push_of_zero {c : Cursor} (h : c.pos = 0) (w : ℤ) : c.push w = none := by
  rw [Cursor.push, h]

/-! ### Operands -/

/-- The `k` words of `m` from `src` on at the positions from `lo` on, and zero elsewhere. -/
def pad (m : ℕ → ℤ) (src lo k : ℕ) : ℕ → ℤ := fun i =>
  if lo ≤ i ∧ i < lo + k then m (src + (i - lo)) else 0

section

variable {m : ℕ → ℤ} {src lo k i : ℕ}

theorem pad_of_mem (h : lo ≤ i ∧ i < lo + k) : pad m src lo k i = m (src + (i - lo)) := if_pos h

theorem pad_of_not_mem (h : i < lo ∨ lo + k ≤ i) : pad m src lo k i = 0 := if_neg (by omega)

end

/-- A padded operand is shifted by the zero words behind it. -/
theorem radix_pad (base : ℤ) (m : ℕ → ℤ) (src lo k z : ℕ) :
    radix base (pad m src lo k) 0 (lo + k + z) = radix base m src k * base ^ z := by
  have hfront : radix base (pad m src lo k) 0 lo = 0 :=
    radix_eq_zero fun i _ hi => pad_of_not_mem (.inl (by omega))
  have hback : radix base (pad m src lo k) (lo + k) z = 0 :=
    radix_eq_zero fun i hi _ => pad_of_not_mem (.inr hi)
  have hmid : radix base (pad m src lo k) lo k = radix base m src k :=
    radix_shift_congr fun i hi => by
      rw [pad_of_mem ⟨by omega, by omega⟩, add_tsub_cancel_left]
  rw [radix_add, radix_add, hfront, zero_mul, zero_add, zero_add, zero_add, hmid, hback, add_zero]

theorem InRange.pad {base : ℤ} {m : ℕ → ℤ} {src k : ℕ} (h : InRange base m src k)
    (hbase : 0 < base) (lo i : ℕ) : 0 ≤ pad m src lo k i ∧ pad m src lo k i < base := by
  by_cases hi : lo ≤ i ∧ i < lo + k
  · rw [pad_of_mem hi]
    exact h _ (by omega) (by omega)
  · rw [pad_of_not_mem (by omega)]
    exact ⟨le_rfl, hbase⟩

/-! ### The chain -/

/-- The words of `c` from its position up to `hi` and the carry are what `u` and `v` give there.
The words in front are those of `m₀`. -/
structure Rippled (base σ : ℤ) (u v m₀ : ℕ → ℤ) (hi : ℕ) (c : Cursor) (carry : ℤ) : Prop where
  pos_le : c.pos ≤ hi
  carry_mem : 0 ≤ carry ∧ carry ≤ 1
  frame : ∀ i < c.pos, c.mem i = m₀ i
  range : InRange base c.mem c.pos (hi - c.pos)
  sum : radix base u c.pos (hi - c.pos) + σ * radix base v c.pos (hi - c.pos) =
    radix base c.mem c.pos (hi - c.pos) + σ * (carry * base ^ (hi - c.pos))

section

variable {base σ : ℤ} {u v m₀ : ℕ → ℤ} {hi : ℕ} {c : Cursor} {carry : ℤ}

theorem Rippled.start (base σ : ℤ) (u v m₀ : ℕ → ℤ) (hi : ℕ) :
    Rippled base σ u v m₀ hi ⟨m₀, hi⟩ 0 where
  pos_le := le_rfl
  carry_mem := ⟨le_rfl, Int.one_nonneg⟩
  frame _ _ := rfl
  range := by
    rw [tsub_self]
    exact fun i hi hi' => absurd hi (by omega)
  sum := by
    rw [tsub_self]
    simp only [radix_zero]
    ring

/-- A word that lies in memory already counts as stored when it fits. -/
theorem Rippled.accept {p : ℕ} {carry' : ℤ} (h : Rippled base σ u v m₀ hi c carry)
    (hpos : c.pos = p + 1) (hword : 0 ≤ c.mem p ∧ c.mem p < base) (hcarry : 0 ≤ carry' ∧ carry' ≤ 1)
    (hsum : u p + σ * (v p + carry) = c.mem p + σ * (carry' * base)) :
    Rippled base σ u v m₀ hi ⟨c.mem, p⟩ carry' where
  pos_le := by
    have := h.pos_le
    dsimp only
    omega
  carry_mem := hcarry
  frame i hi := h.frame i (by dsimp only at hi; omega)
  range i hi hi' := by
    dsimp only at hi hi'
    rcases eq_or_lt_of_le hi with rfl | hlt
    · exact hword
    · exact h.range i (by omega) (by have := h.pos_le; omega)
  sum := by
    have hn : hi - p = hi - c.pos + 1 := by
      have := h.pos_le
      omega
    have hprev := h.sum
    dsimp only
    rw [hn, radix_succ_left, radix_succ_left, radix_succ_left, ← hpos, pow_succ]
    linear_combination hprev + base ^ (hi - c.pos) * hsum

theorem Rippled.push {p : ℕ} {w carry' : ℤ} (h : Rippled base σ u v m₀ hi c carry)
    (hpos : c.pos = p + 1) (hword : 0 ≤ w ∧ w < base) (hcarry : 0 ≤ carry' ∧ carry' ≤ 1)
    (hsum : u p + σ * (v p + carry) = w + σ * (carry' * base)) :
    ∃ c', c.push w = some c' ∧ c'.pos = p ∧ Rippled base σ u v m₀ hi c' carry' := by
  refine ⟨_, Cursor.push_of_pos hpos w, rfl, ?_⟩
  -- the words behind are not touched, so the chain holds of the new memory as well
  have hkeep : ∀ i, c.pos ≤ i → update c.mem p w i = c.mem i := fun i hi =>
    update_of_ne (by omega) _ _
  have h' : Rippled base σ u v (update m₀ p w) hi ⟨update c.mem p w, c.pos⟩ carry :=
    { pos_le := h.pos_le
      carry_mem := h.carry_mem
      frame := fun i hi => by
        by_cases hip : i = p
        · dsimp only
          rw [hip, update_self, update_self]
        dsimp only
        rw [update_of_ne hip, update_of_ne hip]
        exact h.frame i hi
      range := h.range.congr fun i hi _ => hkeep i hi
      sum := by
        have hmem : radix base (update c.mem p w) c.pos (hi - c.pos) =
            radix base c.mem c.pos (hi - c.pos) := radix_congr fun i hi _ => hkeep i hi
        dsimp only
        rw [hmem]
        exact h.sum }
  have hself : update c.mem p w p = w := update_self p w c.mem
  have hdone := h'.accept hpos (by dsimp only; rw [hself]; exact hword) hcarry
    (by dsimp only; rw [hself]; exact hsum)
  exact { hdone with
    frame := fun i hi => by
      dsimp only at hi ⊢
      rw [update_of_ne (by omega)]
      exact h.frame i (by omega) }

theorem Rippled.sum_zero (h : Rippled base σ u v m₀ hi c carry) (hpos : c.pos = 0) :
    InRange base c.mem 0 hi ∧ radix base u 0 hi + σ * radix base v 0 hi =
        radix base c.mem 0 hi + σ * (carry * base ^ hi) := by
  have hrange := h.range
  have hsum := h.sum
  rw [hpos, tsub_zero] at hrange hsum
  exact ⟨hrange, hsum⟩

theorem Rippled.eq_of_nonneg (h : Rippled base (-1) u v m₀ hi c carry) (hpos : c.pos = 0)
    (hle : radix base v 0 hi ≤ radix base u 0 hi) :
    radix base c.mem 0 hi = radix base u 0 hi - radix base v 0 hi := by
  obtain ⟨hrange, hsum⟩ := h.sum_zero hpos
  have hlt := hrange.radix_lt
  have hzero : carry = 0 := by
    by_contra hne
    have hone : carry = 1 := by
      have := h.carry_mem
      omega
    rw [hone] at hsum
    linarith
  rw [hzero] at hsum
  linarith

/-- Otherwise the difference is stored modulo the range of the words. -/
theorem Rippled.eq_emod (h : Rippled base (-1) u v m₀ hi c carry) (hpos : c.pos = 0) :
    radix base c.mem 0 hi = (radix base u 0 hi - radix base v 0 hi) % base ^ hi := by
  obtain ⟨hrange, hsum⟩ := h.sum_zero hpos
  have heq : radix base u 0 hi - radix base v 0 hi =
      radix base c.mem 0 hi + base ^ hi * -carry := by
    linear_combination hsum
  rw [heq, Int.add_mul_emod_self_left, Int.emod_eq_of_lt hrange.radix_nonneg hrange.radix_lt]

theorem Rippled.carry_eq_zero (h : Rippled base 1 u v m₀ hi c carry) (hpos : c.pos = 0)
    (hlt : radix base u 0 hi + radix base v 0 hi < base ^ hi) : carry = 0 := by
  obtain ⟨hrange, hsum⟩ := h.sum_zero hpos
  have hnonneg := hrange.radix_nonneg
  by_contra hne
  have hone : carry = 1 := by
    have := h.carry_mem
    omega
  rw [hone] at hsum
  linarith

end

end LibSources
