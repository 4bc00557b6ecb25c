import LibSources.DecimalSum

/-!
# Rounding of Decimals

A model of `decimal_round` of `strings/decimal.c` that follows its loops.

* The result goes to another decimal or, when `dst` is `none`, replaces the operand.
* `scale` and the number `frac0` of fraction words that are kept are integers: both are negative
  when the number is cut before the point.
* `buf0` and `buf1` lie at the last word that is kept. Its position is a natural number, and the
  case that no word is kept is apart.
-/

namespace LibSources

open Nat Function

inductive RoundMode where
  | truncate
  | halfEven
  | halfUp
  | ceiling
  | floor
  deriving DecidableEq

def roundDigit (mode : RoundMode) (sign : Bool) : ℤ :=
  match mode with
  | .halfUp => 5
  | .halfEven => 5
  | .ceiling => if sign then 10 else 0
  | .floor => if sign then 0 else 10
  | .truncate => 10

def scaleWords (scale : ℤ) : ℤ := if 0 < scale then roundUp scale.toNat else scale.tdiv 9

/-- `*(--p1) = *(--p0)`, `k` times down to the first word of `p0`. The words come from `src` or,
without one, from the buffer itself. -/
def copyUp (src : Option (ℕ → ℤ)) (off : ℕ) : ℕ → (ℕ → ℤ) → (ℕ → ℤ)
  | 0, m => m
  | k + 1, m => copyUp src off k (update m (k + off) (src.getD m k))

variable (src : Decimal) (dst : Option Decimal)

/-- The loop that looks for a nonzero word. -/
def anyNonzero (m : ℕ → ℤ) (lo : ℕ) : ℕ → Bool
  | 0 => false
  | k + 1 => if m (lo + k) ≠ 0 then true else anyNonzero m lo k

variable (mode : RoundMode)

def doInc (digit : ℤ) (m : ℕ → ℤ) (kept cut : ℕ) : Bool :=
  if digit = 0 then anyNonzero m kept cut
  else if digit = 5 then
    let x := m kept / powers10 8
    5 < x || (x == 5 && (mode == .halfUp || (0 < kept && m (kept - 1) % 2 == 1)))
  else false

def roundWord (digit w : ℤ) (pos : ℕ) : ℤ :=
  let x := w / powers10 pos
  let y := x % 10
  let x := if digit < y ∨ (digit = 5 ∧ y = 5 ∧ (mode = .halfUp ∨ x / 10 % 2 = 1)) then x + 10 else x
  powers10 pos * (x - y)

def carryDown : ℕ → (ℕ → ℤ) → Option ℕ × (ℕ → ℤ)
  | 0, m => (none, m)
  | k + 1, m =>
    let sum := addWord (m k) 0 1
    if sum.2 ≠ 0 then carryDown k (update m k sum.1)
    else (some k, update m k sum.1)

/-- The loop down to the last nonzero word. -/
def lastNonzero (m : ℕ → ℤ) : ℕ → Option ℕ
  | 0 => if m 0 ≠ 0 then some 0 else none
  | k + 1 => if m (k + 1) ≠ 0 then some (k + 1) else lastNonzero m k

section

variable (res : Decimal)

/-- The end of `decimal_round`, with `buf1` at the word `p`: `intg` grows in the case
999.9 -> 1000. -/
def finishRound (p : ℕ) (scale : ℤ) : Decimal :=
  let firstDig := res.intg % 9
  { res with
    intg := if firstDig ≠ 0 ∧ powers10 firstDig ≤ res.buf p then res.intg + 1 else res.intg
    frac := scale.toNat }

/-- The words behind the ones that are kept are cleared, and the carry out of the word `last`
goes to the words before it. -/
def roundCarry (last intg0 : ℕ) (frac0 : ℤ) (frac1 : ℕ) (scale : ℤ)
    (error : DecimalError) : DecimalError × Decimal :=
  let start := if scale = 0 ∧ intg0 = 0 then 1 else (intg0 + frac0).toNat
  let buf := if frac0 < frac1 then fillWords 0 res.buf start (res.len - start) else res.buf
  if digBase ≤ buf last then
    match carryDown last (update buf last (buf last - digBase)) with
    | (some p, buf) => (error, finishRound { res with buf := buf } p scale)
    | (none, buf) =>
      -- shifting the number to create space for the new digit
      let (frac0, scale, error) :=
        if (res.len : ℤ) ≤ frac0 + intg0 then (frac0 - 1, (frac0 - 1) * 9, .truncated)
        else (frac0, scale, error)
      let buf := copyUp none 1 (intg0 + frac0.toNat) buf
      (error, finishRound { res with buf := update buf 0 1, intg := res.intg + 1 } 0 scale)
  else
    match lastNonzero buf last with
    | some p => (error, finishRound { res with buf := buf } p scale)
    | none =>
      -- making zero with the proper scale
      (.ok, { res with
        buf := fillWords 0 buf 0 (frac0 + 1).toNat
        intg := 1
        frac := scale.toNat
        sign := false })

def roundKept (mode : RoundMode) (digit : ℤ) (intg0 : ℕ) (frac0 : ℤ)
    (frac1 : ℕ) (scale : ℤ) (error : DecimalError) : DecimalError × Decimal :=
  let kept := (intg0 + frac0).toNat
  if scale = frac0 * 9 then
    if doInc mode digit res.buf kept (frac1 - frac0).toNat then
      if 0 < kept then
        roundCarry { res with buf := update res.buf (kept - 1) (res.buf (kept - 1) + 1) }
          (kept - 1) intg0 frac0 frac1 scale error
      else
        roundCarry { res with buf := update res.buf 0 digBase } 0 intg0 frac0 frac1
          scale error
    else if kept = 0 then (.ok, res.makeZero)
    else roundCarry res (kept - 1) intg0 frac0 frac1 scale error
  else
    let pos := (frac0 * 9 - scale - 1).toNat
    let word := roundWord mode digit (res.buf (kept - 1)) pos
    roundCarry { res with buf := update res.buf (kept - 1) word } (kept - 1) intg0 frac0
      frac1 scale error

end

theorem copyUp_eq (src : Option (ℕ → ℤ)) (off k : ℕ) (m : ℕ → ℤ) (i : ℕ) :
    copyUp src off k m i = if off ≤ i ∧ i < off + k then src.getD m (i - off) else m i := by
  induction k generalizing m with
  | zero => rw [copyUp, if_neg (by omega)]
  | succ k ih =>
    rw [copyUp, ih]
    by_cases hi : off ≤ i ∧ i < off + k
    · rw [if_pos hi, if_pos (by omega)]
      cases src with
      | some src => rfl
      | none => exact update_of_ne (by omega) _ _
    rw [if_neg hi]
    by_cases hlast : i = k + off
    · rw [if_pos (by omega), hlast, update_self, Nat.add_sub_cancel]
    · rw [if_neg (by omega), update_of_ne hlast]

variable (m : ℕ → ℤ)

theorem anyNonzero_iff (lo k : ℕ) : anyNonzero m lo k = true ↔ ∃ i < k, m (lo + i) ≠ 0 := by
  induction k with
  | zero => simp [anyNonzero]
  | succ k ih =>
    rw [anyNonzero]
    by_cases hk : m (lo + k) = 0
    · rw [if_neg (not_not.mpr hk), ih]
      constructor
      · rintro ⟨i, hi, hne⟩
        exact ⟨i, by omega, hne⟩
      rintro ⟨i, hi, hne⟩
      have : i ≠ k := fun heq => hne (heq ▸ hk)
      exact ⟨i, by omega, hne⟩
    · rw [if_pos hk]
      exact iff_of_true rfl ⟨k, lt_succ_self k, hk⟩

theorem carryDown_cases {k : ℕ} {m : ℕ → ℤ} (h : InRange digBase m 0 k) :
    (∃ p m', carryDown k m = (some p, m') ∧ p < k ∧ InRange digBase m' 0 k ∧
        radix digBase m' 0 k = radix digBase m 0 k + 1 ∧ 0 < m' p ∧
        (∀ i, p < i → i < k → m' i = 0) ∧ ∀ i, k ≤ i → m' i = m i) ∨
      ∃ m', carryDown k m = (none, m') ∧ radix digBase m 0 k + 1 = digBase ^ k ∧
        (∀ i < k, m' i = 0) ∧ ∀ i, k ≤ i → m' i = m i := by
  induction k generalizing m with
  | zero => exact .inr ⟨m, rfl, by rw [radix_zero, pow_zero, zero_add], nofun, fun _ _ => rfl⟩
  | succ k ih =>
    have hk := h k (zero_le k) (by omega)
    have hinit : InRange digBase m 0 k := h.mono le_rfl (by omega)
    rw [carryDown]
    by_cases hmax : m k = digMax
    · have hsum : addWord (m k) 0 1 = (0, 1) := by rw [hmax]; decide
      have hinit' : InRange digBase (update m k 0) 0 k := hinit.update ⟨le_rfl, digBase_pos⟩
      simp only [hsum, ne_eq, one_ne_zero, not_false_eq_true, if_true]
      rcases ih hinit' with ⟨p, m', heq, hp, hrange, hradix, hpos, hzero, hrest⟩ |
        ⟨m', heq, hradix, hzero, hrest⟩
      · have hmk : m' k = 0 := by rw [hrest k le_rfl, update_self]
        refine .inl ⟨p, m', heq, by omega, hrange.succ ?_, ?_, hpos, fun i hi hi' => ?_,
          fun i hi => ?_⟩
        · rw [zero_add, hmk]
          exact ⟨le_rfl, digBase_pos⟩
        · rw [radix_succ, radix_succ, zero_add, hradix, hmk, hmax, digMax,
            radix_update (.inr (by omega))]
          ring
        · rcases Nat.lt_succ_iff_lt_or_eq.mp hi' with hi' | rfl
          · exact hzero i hi hi'
          · exact hmk
        · rw [hrest i (by omega), update_of_ne (by omega)]
      · refine .inr ⟨m', heq, ?_, fun i hi => ?_, fun i hi => ?_⟩
        · rw [radix_update (.inr (by omega))] at hradix
          rw [radix_succ, zero_add, hmax, digMax, pow_succ, ← hradix]
          ring
        · rcases Nat.lt_succ_iff_lt_or_eq.mp hi with hi | rfl
          · exact hzero i hi
          · rw [hrest i le_rfl, update_self]
        · rw [hrest i (by omega), update_of_ne (by omega)]
    · have hlt : ¬ digBase ≤ m k + 0 + 1 := by
        rw [digMax] at hmax
        omega
      have hsum : addWord (m k) 0 1 = (m k + 1, 0) := by rw [addWord, if_neg hlt, add_zero]
      simp only [hsum, ne_eq, not_true_eq_false, if_false]
      refine .inl ⟨k, _, rfl, lt_succ_self k, h.update (by omega), ?_, ?_,
        fun i hi hi' => ?_, fun i hi => update_of_ne (by omega) _ _⟩
      · rw [radix_succ, radix_succ, zero_add, radix_update (.inr (by omega)), update_self]
        ring
      · rw [update_self]
        omega
      · omega

theorem lastNonzero_cases (k : ℕ) :
    (∃ p ≤ k, lastNonzero m k = some p ∧ m p ≠ 0 ∧ ∀ i, p < i → i ≤ k → m i = 0) ∨
      lastNonzero m k = none ∧ ∀ i ≤ k, m i = 0 := by
  induction k with
  | zero =>
    rw [lastNonzero]
    by_cases h0 : m 0 = 0
    · rw [if_neg (not_not.mpr h0)]
      exact .inr ⟨rfl, fun i hi => by rw [le_zero.mp hi, h0]⟩
    · rw [if_pos h0]
      exact .inl ⟨0, le_rfl, rfl, h0, fun i hi hi' => absurd hi (not_lt.mpr hi')⟩
  | succ k ih =>
    rw [lastNonzero]
    by_cases hk : m (k + 1) = 0
    · rw [if_neg (not_not.mpr hk)]
      rcases ih with ⟨p, hp, heq, hne, hzero⟩ | ⟨heq, hzero⟩
      · refine .inl ⟨p, by omega, heq, hne, fun i hi hi' => ?_⟩
        rcases le_succ_iff.mp hi' with hi' | rfl
        · exact hzero i hi hi'
        · exact hk
      refine .inr ⟨heq, fun i hi => ?_⟩
      rcases le_succ_iff.mp hi with hi | rfl
      · exact hzero i hi
      · exact hk
    · rw [if_pos hk]
      exact .inl ⟨k + 1, le_rfl, rfl, hk, fun i hi hi' => absurd hi (not_lt.mpr hi')⟩

end LibSources
