import LibSources.DecimalRound

/-!
# What `decimal_round` Computes

The words that `decimal_round` of `strings/decimal.c` leaves are the operand in units of the last
digit that is kept, and one more where the digits behind it ask for it.

* `F` counts the fraction words of the result, `last` is the last word that is kept and `z` the
  number of words behind it up to the end of the fraction.
* `t` digits are cut off from the word `last` and `c` words behind it are dropped.
* A result is described by its words alone (`AlignedCopy`), so that the copy of the operand and the
  operand itself are one case.
-/

namespace LibSources

open Decimal Function

variable {w word : ℤ} {m buf : ℕ → ℤ} {n e : ℕ} {d : Decimal}

/-- A word with a digit more is found at the end, where `buf1` lies. -/
theorem radix_eq_pow_first (hrange : InRange digBase m 0 (n + 1))
    (h : radix digBase m 0 (n + 1) = w * digBase ^ n) :
    m 0 = w ∧ ∀ i, 0 < i → i < n + 1 → m i = 0 := by
  have hrest : InRange digBase m (0 + 1) n := hrange.mono zero_le (by omega)
  have hnonneg := hrest.radix_nonneg
  have hlt := hrest.radix_lt
  have hpow := pow_pos digBase_pos n
  rw [radix_succ_left] at h
  have hfirst : m 0 = w := by
    have hdiff : (w - m 0) * digBase ^ n = radix digBase m (0 + 1) n := by
      rw [sub_mul, ← h]
      ring
    rw [← hdiff] at hnonneg hlt
    have hge : 0 ≤ w - m 0 := nonneg_of_mul_nonneg_left hnonneg hpow
    have hlt : w - m 0 < 1 := by
      by_contra hcontra
      have := mul_le_mul_of_nonneg_right (not_lt.mp hcontra) hpow.le
      rw [one_mul] at this
      omega
    omega
  refine ⟨hfirst, fun i hi hi' => hrest.eq_zero_of_radix ?_ i (by omega) (by omega)⟩
  rw [hfirst] at h
  omega

section Finish

variable {res : Decimal} {scale : ℤ} {F : ℕ}

theorem finishRound_spec {p : ℕ} (hF : roundUp scale.toNat = F)
    (hrange : InRange digBase res.buf 0 (roundUp res.intg + F))
    (hle : radix digBase res.buf 0 (roundUp res.intg + F) ≤ 10 ^ res.intg * digBase ^ F)
    (hdvd : (10 : ℤ) ^ (F * 9 - scale.toNat) ∣ radix digBase res.buf 0 (roundUp res.intg + F))
    (hp : p < roundUp res.intg + F) (hne : res.buf p ≠ 0) :
    (finishRound res p scale).WellFormed ∧ (finishRound res p scale).magnitude =
        radix digBase res.buf 0 (roundUp res.intg + F) / (digBase : ℚ) ^ F := by
  have hfrac : (finishRound res p scale).frac = scale.toNat := rfl
  have hbuf : (finishRound res p scale).buf = res.buf := rfl
  have hwords : (finishRound res p scale).words = roundUp res.intg + F := by
    rw [words, hfrac, hF, finishRound]
    split_ifs with hfirst
    · have hroundUp : roundUp (res.intg + 1) = roundUp res.intg := by
        rw [roundUp, roundUp]
        omega
      rw [hroundUp]
    · rfl
  have hlt : radix digBase res.buf 0 (roundUp res.intg + F) <
      10 ^ (finishRound res p scale).intg * digBase ^ F := by
    have hpow := pow_pos digBase_pos F
    have hpow₁₀ : (0 : ℤ) < 10 ^ res.intg := by positivity
    rcases hle.lt_or_eq with hlt | heq
    · refine hlt.trans_le (mul_le_mul_of_nonneg_right ?_ hpow.le)
      refine pow_le_pow_right₀ (by norm_num) ?_
      rw [finishRound]
      dsimp only
      split_ifs <;> omega
    have hfirst : res.intg % 9 ≠ 0 := by
      intro hcontra
      have hintg : res.intg = roundUp res.intg * 9 := by
        rw [roundUp]
        omega
      have hpow : (10 : ℤ) ^ res.intg = digBase ^ roundUp res.intg := by
        rw [digBase_pow_int, ← hintg]
      rw [hpow, ← pow_add] at heq
      exact absurd hrange.radix_lt (by rw [heq]; exact lt_irrefl _)
    obtain ⟨k, hk⟩ : ∃ k, roundUp res.intg = k + 1 := ⟨roundUp res.intg - 1, by rw [roundUp]; omega⟩
    have hsucc : roundUp res.intg + F = k + F + 1 := by omega
    rw [hsucc] at hrange heq hp
    rw [pow_intg_eq hk hfirst] at heq
    obtain ⟨hword, hzero⟩ := radix_eq_pow_first hrange heq
    have hp : p = 0 := by
      by_contra hcontra
      exact hne (hzero p (by omega) hp)
    have hintg : (finishRound res p scale).intg = res.intg + 1 := by
      rw [finishRound]
      rw [if_pos ⟨hfirst, by rw [hp, hword]⟩]
    rw [hsucc, heq, ← pow_intg_eq hk hfirst, hintg, pow_succ]
    have : (0 : ℤ) < 10 ^ res.intg * digBase ^ F := mul_pos hpow₁₀ hpow
    linarith
  constructor
  · refine wellFormed_of_lt ?_ ?_ ?_
    · rw [hwords, hbuf]
      exact hrange
    · rw [hwords, hbuf, hfrac, hF]
      exact hlt
    · rw [hwords, hbuf, hfrac, hF]
      exact hdvd
  · rw [magnitude, hwords, hbuf, hfrac, hF]

theorem radix_one_zeros (h0 : m 0 = 1) (h : ∀ i, 0 < i → i < n + 1 → m i = 0) :
    radix digBase m 0 (n + 1) = digBase ^ n := by
  have hrest : radix digBase m (0 + 1) n = 0 :=
    radix_eq_zero fun i hi hi' => h i (by omega) (by omega)
  rw [radix_succ_left, h0, hrest, one_mul, add_zero]

/-- What the carry starts with: the words up to `last` are those of a number that has at most one
digit more than `intg`, and the space is enough. `F` and `z` are the fraction words that are kept
and the words before the point that are cut off. -/
structure Carries (res : Decimal) (last intg0 : ℕ) (frac0 : ℤ) (frac1 : ℕ) (scale : ℤ)
    (F z : ℕ) : Prop where
  frac0_eq : frac0 = F - z
  one_zero : F = 0 ∨ z = 0
  kept : last + 1 + z = intg0 + F
  scale_eq : roundUp scale.toNat = F
  intg_eq : roundUp res.intg = intg0
  len_le : intg0 + F ≤ res.len
  space : intg0 + F < res.len ∨ radix digBase res.buf 0 (last + 1) < digBase ^ (last + 1)
  cleared : frac0 < frac1 ∨ z = 0
  range : InRange digBase res.buf 0 last
  last_mem : 0 ≤ res.buf last ∧ res.buf last ≤ digBase
  le_pow : radix digBase res.buf 0 (last + 1) * digBase ^ z ≤ 10 ^ res.intg * digBase ^ F
  dvd : (10 : ℤ) ^ (F * 9 - scale.toNat) ∣ radix digBase res.buf 0 (last + 1) * digBase ^ z

variable {last intg0 frac1 z : ℕ} {frac0 : ℤ}

section

variable (h : Carries res last intg0 frac0 frac1 scale F z)
include h

theorem Carries.clear :
    ∃ buf, (if frac0 < frac1 then
        fillWords 0 res.buf (if scale = 0 ∧ intg0 = 0 then 1 else (intg0 + frac0).toNat)
          (res.len - if scale = 0 ∧ intg0 = 0 then 1 else (intg0 + frac0).toNat)
        else res.buf) = buf ∧ (∀ i ≤ last, buf i = res.buf i) ∧
      ∀ i, last < i → i < intg0 + F → buf i = 0 := by
  refine ⟨_, rfl, ?_⟩
  have hkept := h.kept
  have hfrac0 := h.frac0_eq
  have hlen := h.len_le
  have hstart : (if scale = 0 ∧ intg0 = 0 then 1 else (intg0 + frac0).toNat) = last + 1 := by
    rw [if_neg]
    · omega
    rintro ⟨rfl, rfl⟩
    have hF := h.scale_eq
    rw [Int.toNat_zero, roundUp_zero] at hF
    omega
  rw [hstart]
  constructor
  · intro i hi
    split_ifs
    · rw [fillWords_eq, if_neg (by omega)]
    · rfl
  intro i hi hi'
  rcases h.cleared with hlt | hz
  · rw [if_pos hlt, fillWords_eq, if_pos (by omega)]
  · omega

theorem Carries.radix_eq (hzero : ∀ i, last < i → i < intg0 + F → buf i = 0) :
    radix digBase buf 0 (intg0 + F) = radix digBase buf 0 (last + 1) * digBase ^ z := by
  have hkept := h.kept
  have hbehind : radix digBase buf (0 + (last + 1)) z = 0 :=
    radix_eq_zero fun i hi hi' => hzero i (by omega) (by omega)
  rw [← h.kept, radix_add, hbehind, add_zero]

theorem Carries.finish (hzero : ∀ i, last < i → i < intg0 + F → buf i = 0)
    (hrange : InRange digBase buf 0 (last + 1))
    (hradix : radix digBase buf 0 (last + 1) = radix digBase res.buf 0 (last + 1)) {p : ℕ}
    (hp : p ≤ last) (hne : buf p ≠ 0) :
    (finishRound { res with buf := buf } p scale).WellFormed ∧
      (finishRound { res with buf := buf } p scale).value =
        signed res.sign ((radix digBase res.buf 0 (last + 1) * digBase ^ z : ℤ) /
          (digBase : ℚ) ^ F) := by
  have hkept := h.kept
  have hwords := h.radix_eq hzero
  rw [hradix] at hwords
  have hfull : InRange digBase buf 0 (intg0 + F) := by
    intro i hi hi'
    by_cases hlast : i ≤ last
    · exact hrange i hi (by omega)
    · rw [hzero i (by omega) (by omega)]
      exact ⟨le_rfl, digBase_pos⟩
  have hintg : roundUp ({ res with buf := buf } : Decimal).intg = intg0 := h.intg_eq
  obtain ⟨hwf, hmagnitude⟩ := @finishRound_spec { res with buf := buf } scale F p h.scale_eq
    (by rw [hintg]; exact hfull) (by rw [hintg, hwords]; exact h.le_pow)
    (by rw [hintg, hwords]; exact h.dvd) (by rw [hintg]; omega) hne
  refine ⟨hwf, ?_⟩
  rw [hintg, hwords] at hmagnitude
  rw [value_eq_signed, hmagnitude]
  rfl

theorem Carries.shift (hzero : ∀ i, i < intg0 + F → buf i = 0)
    (hfull : radix digBase res.buf 0 (last + 1) = digBase ^ (last + 1)) :
    (finishRound { res with
        buf := update (copyUp none 1 (intg0 + frac0.toNat) buf) 0 1
        intg := res.intg + 1 } 0 scale).WellFormed ∧
      (finishRound { res with
        buf := update (copyUp none 1 (intg0 + frac0.toNat) buf) 0 1
        intg := res.intg + 1 } 0 scale).value =
        signed res.sign ((radix digBase res.buf 0 (last + 1) * digBase ^ z : ℤ) /
          (digBase : ℚ) ^ F) := by
  have hfrac0 : frac0.toNat = F := by
    have := h.frac0_eq
    have := h.one_zero
    omega
  have hle := h.le_pow
  have hdvd := h.dvd
  rw [hfull, ← pow_add, h.kept] at hle hdvd ⊢
  rw [hfrac0]
  have hintg : res.intg = intg0 * 9 := by
    have hroundUp := h.intg_eq
    have hpow : digBase ^ intg0 ≤ (10 : ℤ) ^ res.intg := by
      rw [pow_add] at hle
      exact le_of_mul_le_mul_right hle (pow_pos digBase_pos F)
    rw [digBase_pow_int, pow_le_pow_iff_right₀ (by norm_num)] at hpow
    rw [roundUp] at hroundUp
    omega
  have hroundUp : roundUp (res.intg + 1) = intg0 + 1 := by
    rw [roundUp, hintg]
    omega
  generalize hbuf : update (copyUp none 1 (intg0 + F) buf) 0 1 = buf'
  have hfirst : buf' 0 = 1 := by
    rw [← hbuf]
    exact update_self _ _ _
  have hrest : ∀ i, 0 < i → i < intg0 + F + 1 → buf' i = 0 := by
    intro i hi hi'
    rw [← hbuf, update_of_ne hi.ne', copyUp_eq, if_pos (by omega)]
    exact hzero (i - 1) (by omega)
  have hradix := radix_one_zeros hfirst hrest
  have hwords : intg0 + 1 + F = intg0 + F + 1 := by omega
  have hrange : InRange digBase buf' 0 (intg0 + F + 1) := by
    intro i _ hi
    rcases eq_zero_or_pos i with rfl | hi'
    · rw [hfirst]
      decide
    · rw [hrest i hi' (by omega)]
      exact ⟨le_rfl, digBase_pos⟩
  obtain ⟨hwf, hmagnitude⟩ := @finishRound_spec
    { res with buf := buf', intg := res.intg + 1 } scale F 0 h.scale_eq
    (by dsimp only; rw [hroundUp, hwords]; exact hrange)
    (by
      rw [hroundUp, hwords, hradix]
      refine hle.trans (mul_le_mul_of_nonneg_right ?_ (pow_pos digBase_pos F).le)
      exact pow_le_pow_right₀ (by norm_num) (Nat.le_succ _))
    (by dsimp only; rw [hroundUp, hwords, hradix]; exact hdvd)
    (by dsimp only; rw [hroundUp]; omega)
    (by dsimp only; rw [hfirst]; decide)
  refine ⟨hwf, ?_⟩
  rw [hroundUp, hwords, hradix] at hmagnitude
  rw [value_eq_signed, hmagnitude]
  rfl

theorem Carries.zero (hzero : ∀ i ≤ last, buf i = 0) :
    (({ res with
        buf := fillWords 0 buf 0 (frac0 + 1).toNat
        intg := 1
        frac := scale.toNat
        sign := false } : Decimal)).WellFormed ∧
      ({ res with
        buf := fillWords 0 buf 0 (frac0 + 1).toNat
        intg := 1
        frac := scale.toNat
        sign := false } : Decimal).value = 0 := by
  have hfrac0 := h.frac0_eq
  have hone := h.one_zero
  generalize hres : ({ res with
        buf := fillWords 0 buf 0 (frac0 + 1).toNat
        intg := 1
        frac := scale.toNat
        sign := false } : Decimal) = r
  have hwords : r.words = 1 + F := by
    have hone : roundUp 1 = 1 := by decide
    rw [← hres, words, h.scale_eq, hone]
  refine zero_of_words fun i hi => ?_
  rw [hwords] at hi
  rw [← hres]
  dsimp only
  rw [fillWords_eq]
  split_ifs
  · rfl
  · exact hzero i (by omega)

theorem roundCarry_spec :
    (roundCarry res last intg0 frac0 frac1 scale .ok).2.WellFormed ∧
      (roundCarry res last intg0 frac0 frac1 scale .ok).2.value =
        signed res.sign ((radix digBase res.buf 0 (last + 1) * digBase ^ z : ℤ) /
          (digBase : ℚ) ^ F) := by
  obtain ⟨buf, hbuf, hkeep, hzero⟩ := h.clear
  have hkept := h.kept
  have hlast := h.last_mem
  have hradix : radix digBase buf 0 (last + 1) = radix digBase res.buf 0 (last + 1) :=
    radix_congr fun i _ hi => hkeep i (by omega)
  have hrange : InRange digBase buf 0 last := h.range.congr fun i _ hi => hkeep i (by omega)
  rw [← hkeep last le_rfl] at hlast
  rw [roundCarry]
  rw [hbuf]
  by_cases hcarry : digBase ≤ buf last
  · rw [if_pos hcarry]
    have hbase : buf last = digBase := le_antisymm hlast.2 hcarry
    have hbefore : radix digBase (update buf last 0) 0 last = radix digBase buf 0 last :=
      radix_update (.inr (by omega)) 0
    rw [hbase, sub_self]
    rw [radix_succ, zero_add, hbase] at hradix
    rcases carryDown_cases (m := update buf last 0) (k := last)
        (hrange.congr fun i _ hi => update_of_ne (by omega) _ _) with
      ⟨p, m, heq, hp, hrange', hradix', hpos, -, hrest⟩ | ⟨m, heq, hradix', hzero', hrest⟩
    · rw [heq]
      have hmlast : m last = 0 := (hrest last le_rfl).trans (update_self _ _ _)
      refine h.finish (fun i hi hi' => ?_) (hrange'.succ ?_) ?_ hp.le hpos.ne'
      · rw [hrest i hi.le, update_of_ne hi.ne']
        exact hzero i hi hi'
      · rw [zero_add, hmlast]
        exact ⟨le_rfl, digBase_pos⟩
      · rw [radix_succ, zero_add, hmlast, hradix', hbefore, ← hradix]
        ring
    rw [heq]
    have hfull : radix digBase res.buf 0 (last + 1) = digBase ^ (last + 1) := by
      rw [hbefore] at hradix'
      rw [← hradix, pow_succ, ← hradix']
      ring
    have hspace : ¬ (res.len : ℤ) ≤ frac0 + intg0 := by
      have hlen := h.space.resolve_right (by rw [hfull]; exact lt_irrefl _)
      have hfrac0 := h.frac0_eq
      omega
    rw [if_neg hspace]
    refine h.shift (fun i hi => ?_) hfull
    · rcases lt_trichotomy i last with hlt | rfl | hlt
      · exact hzero' i hlt
      · exact (hrest i le_rfl).trans (update_self _ _ _)
      · rw [hrest i hlt.le, update_of_ne hlt.ne']
        exact hzero i hlt hi
  · rw [if_neg hcarry]
    have hrange' : InRange digBase buf 0 (last + 1) := hrange.succ (by
      rw [zero_add]
      exact ⟨hlast.1, not_le.mp hcarry⟩)
    rcases lastNonzero_cases buf last with ⟨p, hp, heq, hne, -⟩ | ⟨heq, hall⟩
    · rw [heq]
      exact h.finish hzero hrange' hradix hp hne
    rw [heq]
    obtain ⟨hwf, hvalue⟩ := h.zero hall
    refine ⟨hwf, hvalue.trans ?_⟩
    have hnone : radix digBase buf 0 (last + 1) = 0 := radix_eq_zero fun i _ hi => hall i (by omega)
    rw [← hradix, hnone, zero_mul, Int.cast_zero, zero_div, signed_zero]

end

end Finish

/-! ### The digits of the number -/

namespace Decimal

def units (d : Decimal) (scale : ℤ) : ℚ := d.magnitude * 10 ^ scale

def nextDigit (d : Decimal) (scale : ℤ) : ℤ := ⌊d.units (scale + 1)⌋ % 10

theorem units_eq (d : Decimal) {scale : ℤ} (he : (roundUp d.frac * 9 : ℕ) - scale = e) :
    d.units scale = (radix digBase d.buf 0 d.words : ℚ) / ((10 ^ e : ℕ) : ℚ) := by
  have hscale : scale = (roundUp d.frac * 9 : ℕ) - (e : ℤ) := by omega
  rw [units, magnitude, digBase_pow, hscale, zpow_sub₀ (by norm_num), zpow_natCast, zpow_natCast]
  push_cast
  field_simp

theorem floor_units (d : Decimal) {scale : ℤ} (he : (roundUp d.frac * 9 : ℕ) - scale = e) :
    ⌊d.units scale⌋ = radix digBase d.buf 0 d.words / 10 ^ e := by
  rw [d.units_eq he, Int.floor_div_natCast, Int.floor_intCast]
  rfl

theorem WellFormed.units_lt (h : d.WellFormed) {scale : ℤ} (hn : d.intg + scale = n) :
    d.units scale < 10 ^ n := by
  have hpow : (10 : ℚ) ^ n = 10 ^ d.intg * 10 ^ scale := by
    rw [← zpow_natCast, ← hn, zpow_add₀ (by norm_num), zpow_natCast]
  rw [units, hpow]
  exact mul_lt_mul_of_pos_right h.magnitude_lt_pow (by positivity)

def RoundsUp (d : Decimal) (scale : ℤ) (mode : RoundMode) : Prop :=
  (roundDigit mode d.sign = 0 ∧ if (9 : ℤ) ∣ scale then d.units scale ≠ ⌊d.units scale⌋
    else 0 < d.nextDigit scale) ∨
  (roundDigit mode d.sign = 5 ∧ (5 < d.nextDigit scale ∨
    (d.nextDigit scale = 5 ∧ (mode = .halfUp ∨ ⌊d.units scale⌋ % 2 = 1))))

open Classical in
noncomputable def increment (d : Decimal) (scale : ℤ) (mode : RoundMode) : ℤ :=
  if d.RoundsUp scale mode then 1 else 0

end Decimal

/-- The operand in the words of the result: `intg0` integer words and the fraction. `F` fraction
words are to be kept. -/
structure AlignedCopy (src res : Decimal) (intg0 F : ℕ) : Prop where
  range : InRange digBase res.buf 0 (intg0 + roundUp src.frac)
  radix_eq : radix digBase res.buf 0 (intg0 + roundUp src.frac) = radix digBase src.buf 0 src.words
  intg_eq : roundUp res.intg = intg0
  intg_le : src.intg ≤ res.intg
  sign_eq : res.sign = src.sign
  space : intg0 + F < res.len ∨ (intg0 + F ≤ res.len ∧ roundUp src.intg < intg0)

section Kept

variable {src res : Decimal} {scale frac0 : ℤ} {intg0 F z last t c : ℕ}

structure Cut (src : Decimal) (scale frac0 : ℤ) (intg0 F z last t c : ℕ) : Prop where
  frac0_eq : frac0 = F - z
  one_zero : F = 0 ∨ z = 0
  scale_eq : roundUp scale.toNat = F
  kept : last + 1 + z = intg0 + F
  digits : frac0 * 9 - scale = t
  digits_lt : t < 9
  words : last + 1 + c = intg0 + roundUp src.frac
  some_cut : 0 < t ∨ 0 < c

theorem Cut.units_le (h : Cut src scale frac0 intg0 F z last t c) (hsrc : src.WellFormed)
    (hscale : 0 ≤ scale + src.intg) (mode : RoundMode) :
    (⌊src.units scale⌋ + src.increment scale mode) * 10 ^ t * digBase ^ z ≤
      10 ^ (src.intg + F * 9) := by
  have hfrac0 := h.frac0_eq
  have hdigits := h.digits
  obtain ⟨n, hn⟩ : ∃ n : ℕ, src.intg + scale = n := ⟨(src.intg + scale).toNat, by omega⟩
  have hexp : src.intg + F * 9 = n + (t + z * 9) := by omega
  have hlt : ⌊src.units scale⌋ < 10 ^ n := by
    rw [Int.floor_lt]
    exact_mod_cast hsrc.units_lt hn
  have hincrement : src.increment scale mode ≤ 1 := by
    rw [increment]
    split_ifs <;> decide
  rw [digBase_pow_int, mul_assoc, ← pow_add, hexp, pow_add 10 n]
  exact mul_le_mul_of_nonneg_right (by omega) (by positivity)

theorem Cut.carries (h : Cut src scale frac0 intg0 F z last t c) (ha : AlignedCopy src res intg0 F)
    (hsrc : src.WellFormed) (hscale : 0 ≤ scale + src.intg) {mode : RoundMode}
    (hword : 0 ≤ word ∧ word ≤ digBase) (hradix : radix digBase res.buf 0 last * digBase + word =
      (⌊src.units scale⌋ + src.increment scale mode) * 10 ^ t) :
    Carries { res with buf := update res.buf last word } last intg0 frac0
      (roundUp src.frac) scale F z := by
  have hfrac0 := h.frac0_eq
  have hkept := h.kept
  have hwords := h.words
  have hdigits := h.digits
  have hunits := h.units_le hsrc hscale mode
  have hradix' : radix digBase (update res.buf last word) 0 (last + 1) =
      (⌊src.units scale⌋ + src.increment scale mode) * 10 ^ t := by
    rw [radix_succ, zero_add, radix_update (.inr (by omega)), update_self, hradix]
  refine ⟨hfrac0, h.one_zero, hkept, h.scale_eq, ha.intg_eq, ?_, ?_, ?_, ?_, ?_, ?_, ?_⟩
  · exact ha.space.elim le_of_lt And.left
  · rcases ha.space with hlt | ⟨-, hlt⟩
    · exact .inl hlt
    right
    rw [hradix']
    refine lt_of_mul_lt_mul_right ?_ (pow_pos digBase_pos z).le
    refine hunits.trans_lt ?_
    rw [← pow_add, hkept, digBase_pow_int]
    refine pow_lt_pow_right₀ (by norm_num) ?_
    rw [roundUp] at hlt
    omega
  · have hone := h.one_zero
    omega
  · exact (ha.range.mono le_rfl (by omega)).congr fun i _ hi => update_of_ne (by omega) _ _
  · dsimp only
    rw [update_self]
    exact hword
  · dsimp only
    rw [hradix', digBase_pow_int F, ← pow_add]
    refine hunits.trans (pow_le_pow_right₀ (by norm_num) ?_)
    have := ha.intg_le
    omega
  · rw [hradix', digBase_pow_int, mul_assoc, ← pow_add]
    exact Dvd.dvd.mul_left (pow_dvd_pow 10 (by omega)) _

theorem Cut.value_eq (h : Cut src scale frac0 intg0 F z last t c) (u : ℤ) :
    ((u * 10 ^ t * digBase ^ z : ℤ) : ℚ) / (digBase : ℚ) ^ F = u / 10 ^ scale := by
  have hfrac0 := h.frac0_eq
  have hdigits := h.digits
  have hscale : scale = (F * 9 : ℕ) - ((t + z * 9 : ℕ) : ℤ) := by omega
  rw [digBase_pow_int, mul_assoc, ← pow_add, digBase_pow, hscale, zpow_sub₀ (by norm_num),
    zpow_natCast, zpow_natCast]
  push_cast
  field_simp

end Kept

/-! ### The decision -/

section Decision

variable {src res : Decimal} {scale : ℤ} {intg0 F K t c : ℕ} {mode : RoundMode}

theorem AlignedCopy.floor_eq (ha : AlignedCopy src res intg0 F)
    (hwords : K + c = intg0 + roundUp src.frac)
    (hscale : (roundUp src.frac * 9 : ℕ) - scale = (t + c * 9 : ℕ)) :
    ⌊src.units scale⌋ = radix digBase res.buf 0 K / 10 ^ t := by
  have hrange := ha.range
  rw [← hwords] at hrange
  rw [src.floor_units hscale, ← ha.radix_eq, ← hwords, add_comm t, pow_add, ← digBase_pow_int,
    ← Int.ediv_ediv_of_nonneg (pow_pos digBase_pos c).le, hrange.radix_ediv digBase_pos]

theorem ediv_pow_word (a w : ℤ) (hn : n ≤ 9) :
    (a * digBase + w) / 10 ^ n = a * 10 ^ (9 - n) + w / 10 ^ n := by
  have hbase : digBase = 10 ^ (9 - n) * 10 ^ n := by
    rw [← pow_add, Nat.sub_add_cancel hn]
    rfl
  rw [hbase, ← mul_assoc, add_comm, Int.add_mul_ediv_right _ _ (by positivity), add_comm]

theorem AlignedCopy.nextDigit_word (ha : AlignedCopy src res intg0 F)
    (hwords : K + (c + 1) = intg0 + roundUp src.frac)
    (hscale : (roundUp src.frac * 9 : ℕ) - scale = ((c + 1) * 9 : ℕ)) :
    src.nextDigit scale = res.buf K / 10 ^ 8 := by
  have hmem := ha.range K zero_le (by omega)
  have hdigit : 0 ≤ res.buf K / 10 ^ 8 ∧ res.buf K / 10 ^ 8 < 10 := by
    have hbase : digBase = 1000000000 := rfl
    omega
  rw [nextDigit, ha.floor_eq (K := K + 1) (t := 8) (c := c) (by omega) (by push_cast; omega),
    radix_succ, zero_add, ediv_pow_word _ _ (by norm_num)]
  omega

theorem AlignedCopy.nextDigit_inside (ha : AlignedCopy src res intg0 F)
    (hwords : K + 1 + c = intg0 + roundUp src.frac) (ht : t < 9)
    (hscale : (roundUp src.frac * 9 : ℕ) - scale = (t + 1 + c * 9 : ℕ)) :
    src.nextDigit scale = res.buf K / 10 ^ t % 10 := by
  have hpow : (10 : ℤ) ^ (9 - t) = 10 ^ (8 - t) * 10 := by
    rw [← pow_succ]
    congr 1
    omega
  rw [nextDigit, ha.floor_eq (K := K + 1) (t := t) (c := c) hwords (by push_cast; omega),
    radix_succ, zero_add, ediv_pow_word _ _ ht.le, hpow, ← mul_assoc, add_comm,
    Int.add_mul_emod_self_right]

theorem AlignedCopy.exact_iff (ha : AlignedCopy src res intg0 F)
    (hwords : K + c = intg0 + roundUp src.frac)
    (hscale : (roundUp src.frac * 9 : ℕ) - scale = (c * 9 : ℕ)) :
    src.units scale ≠ ⌊src.units scale⌋ ↔ anyNonzero res.buf K c = true := by
  have hrange := ha.range
  rw [← hwords] at hrange
  have hrest : InRange digBase res.buf (0 + K) c := hrange.mono zero_le (by omega)
  have hpow : (0 : ℚ) < (digBase : ℚ) ^ c := pow_pos (by exact_mod_cast digBase_pos) c
  have hfloor := ha.floor_eq (t := 0) hwords (by rw [hscale, zero_add])
  rw [pow_zero, Int.ediv_one] at hfloor
  have hunits : src.units scale = radix digBase res.buf 0 K +
      radix digBase res.buf (0 + K) c / (digBase : ℚ) ^ c := by
    rw [src.units_eq hscale, ← ha.radix_eq, ← hwords, radix_add]
    push_cast
    rw [← digBase_pow, add_div, mul_div_assoc, div_self hpow.ne', mul_one]
  rw [hfloor, hunits, anyNonzero_iff, ne_eq, add_eq_left, div_eq_zero_iff, or_iff_left hpow.ne',
    Int.cast_eq_zero]
  constructor
  · intro hne
    by_contra hnone
    refine hne (radix_eq_zero fun i hi hi' => ?_)
    by_contra hi0
    refine hnone ⟨i - K, by omega, ?_⟩
    rwa [Nat.add_sub_cancel' (by omega)]
  · rintro ⟨i, hi, hne⟩ hcontra
    exact hne (hrest.eq_zero_of_radix hcontra (K + i) (by omega) (by omega))

theorem roundDigit_cases (mode : RoundMode) (sign : Bool) :
    roundDigit mode sign = 0 ∨ roundDigit mode sign = 5 ∨ roundDigit mode sign = 10 := by
  cases mode <;> cases sign <;> decide

/-- The parity of the digits that are kept, which is that of the last word. -/
theorem AlignedCopy.odd_iff (ha : AlignedCopy src res intg0 F)
    (hwords : K + c = intg0 + roundUp src.frac)
    (hscale : (roundUp src.frac * 9 : ℕ) - scale = (c * 9 : ℕ)) :
    ⌊src.units scale⌋ % 2 = 1 ↔ 0 < K ∧ res.buf (K - 1) % 2 = 1 := by
  rw [ha.floor_eq (t := 0) hwords (by rw [hscale, zero_add]), pow_zero, Int.ediv_one]
  cases K with
  | zero => simp
  | succ K =>
    have hbase : digBase = 500000000 * 2 := rfl
    rw [radix_succ, zero_add, hbase, ← mul_assoc, add_comm, Int.add_mul_emod_self_right,
      Nat.add_sub_cancel]
    exact (and_iff_right (Nat.succ_pos K)).symm

variable (mode) in
theorem AlignedCopy.doInc_iff (ha : AlignedCopy src res intg0 F)
    (hwords : K + (c + 1) = intg0 + roundUp src.frac)
    (hscale : (roundUp src.frac * 9 : ℕ) - scale = ((c + 1) * 9 : ℕ)) :
    doInc mode (roundDigit mode src.sign) res.buf K (c + 1) = true ↔ src.RoundsUp scale mode := by
  have hdvd : (9 : ℤ) ∣ scale := ⟨(roundUp src.frac : ℤ) - (c + 1), by push_cast at hscale; omega⟩
  have hexact := ha.exact_iff hwords hscale
  have hdigit := ha.nextDigit_word hwords hscale
  have hodd := ha.odd_iff hwords hscale
  rw [doInc, Decimal.RoundsUp, if_pos hdvd, hdigit, hexact, hodd, powers10]
  rcases roundDigit_cases mode src.sign with h | h | h <;> rw [h]
  · simp
  · simp
  · simp

theorem roundWord_eq {pos : ℕ} {digit : ℤ} {up : Prop} [Decidable up]
    (hup : (digit < w / powers10 pos % 10 ∨ (digit = 5 ∧ w / powers10 pos % 10 = 5 ∧
      (mode = .halfUp ∨ w / powers10 pos / 10 % 2 = 1))) ↔ up) :
    roundWord mode digit w pos = 10 ^ (pos + 1) * (w / 10 ^ (pos + 1) + if up then 1 else 0) := by
  have hdiv : w / 10 ^ (pos + 1) = w / powers10 pos / 10 := by
    rw [pow_succ, powers10, Int.ediv_ediv_of_nonneg (by positivity)]
  rw [roundWord]
  rw [if_congr hup rfl rfl, hdiv, pow_succ, powers10, mul_assoc]
  congr 1
  split_ifs <;> omega

theorem AlignedCopy.roundWord_eq (ha : AlignedCopy src res intg0 F)
    (hwords : K + 1 + c = intg0 + roundUp src.frac) (ht : t + 1 < 9)
    (hscale : (roundUp src.frac * 9 : ℕ) - scale = (t + 1 + c * 9 : ℕ)) :
    roundWord mode (roundDigit mode src.sign) (res.buf K) t =
      10 ^ (t + 1) * (res.buf K / 10 ^ (t + 1) + src.increment scale mode) := by
  classical
  have hdvd : ¬ (9 : ℤ) ∣ scale := by
    rintro ⟨k, rfl⟩
    omega
  have hdigit := ha.nextDigit_inside hwords (by omega) hscale
  have hdiv : res.buf K / 10 ^ (t + 1) = res.buf K / powers10 t / 10 := by
    rw [pow_succ, powers10, Int.ediv_ediv_of_nonneg (by positivity)]
  have hodd : ⌊src.units scale⌋ % 2 = res.buf K / powers10 t / 10 % 2 := by
    have hpow : (10 : ℤ) ^ (9 - (t + 1)) = 10 ^ (9 - (t + 2)) * 5 * 2 := by
      have hexp : 9 - (t + 1) = 9 - (t + 2) + 1 := by omega
      rw [hexp, pow_succ]
      ring
    rw [ha.floor_eq (t := t + 1) hwords hscale, radix_succ, zero_add,
      ediv_pow_word _ _ ht.le, hpow, ← mul_assoc, add_comm, Int.add_mul_emod_self_right, hdiv]
  refine LibSources.roundWord_eq ?_
  rw [Decimal.RoundsUp, if_neg hdvd, hdigit, hodd, powers10]
  have hten : res.buf K / 10 ^ t % 10 < 10 := Int.emod_lt_of_pos _ (by norm_num)
  rcases roundDigit_cases mode src.sign with h | h | h <;> rw [h]
  · simp
  · simp
  · simp [hten.le]

end Decision

/-! ### The last word that is kept -/

section Rounding

variable {src res : Decimal} {scale frac0 : ℤ} {intg0 F z last t c : ℕ} {mode : RoundMode}

theorem Cut.scale_words (h : Cut src scale frac0 intg0 F z last t c) :
    (roundUp src.frac * 9 : ℕ) - scale = (t + c * 9 : ℕ) := by
  have hfrac0 := h.frac0_eq
  have hkept := h.kept
  have hdigits := h.digits
  have hwords := h.words
  omega

theorem increment_mem (d : Decimal) (scale : ℤ) (mode : RoundMode) :
    0 ≤ d.increment scale mode ∧ d.increment scale mode ≤ 1 := by
  rw [increment]
  split_ifs <;> decide

theorem Cut.roundCarry_spec (h : Cut src scale frac0 intg0 F z last t c)
    (ha : AlignedCopy src res intg0 F) (hsrc : src.WellFormed) (hscale : 0 ≤ scale + src.intg)
    (hword : 0 ≤ word ∧ word ≤ digBase) (hradix : radix digBase res.buf 0 last * digBase + word =
      (⌊src.units scale⌋ + src.increment scale mode) * 10 ^ t) :
    (roundCarry { res with buf := update res.buf last word } last intg0 frac0
      (roundUp src.frac) scale .ok).2.WellFormed ∧
    (roundCarry { res with buf := update res.buf last word } last intg0 frac0
      (roundUp src.frac) scale .ok).2.value =
        signed src.sign ((⌊src.units scale⌋ + src.increment scale mode : ℤ) / 10 ^ scale) := by
  obtain ⟨hwf, hvalue⟩ := LibSources.roundCarry_spec (h.carries ha hsrc hscale hword hradix)
  refine ⟨hwf, hvalue.trans ?_⟩
  have hnumber : radix digBase (update res.buf last word) 0 (last + 1) =
      (⌊src.units scale⌋ + src.increment scale mode) * 10 ^ t := by
    rw [radix_succ, zero_add, radix_update (.inr (by omega)), update_self, hradix]
  rw [hnumber, h.value_eq, ha.sign_eq]

variable (mode) in
theorem Cut.roundCarry_words (h : Cut src scale frac0 intg0 F z last 0 (c + 1))
    (ha : AlignedCopy src res intg0 F) (hsrc : src.WellFormed) (hscale : 0 ≤ scale + src.intg) :
    (roundCarry { res with
        buf := update res.buf last (res.buf last + src.increment scale mode) } last intg0
      frac0 (roundUp src.frac) scale .ok).2.WellFormed ∧
    (roundCarry { res with
        buf := update res.buf last (res.buf last + src.increment scale mode) } last intg0
      frac0 (roundUp src.frac) scale .ok).2.value =
        signed src.sign ((⌊src.units scale⌋ + src.increment scale mode : ℤ) / 10 ^ scale) := by
  have hwords := h.words
  have hmem := ha.range last zero_le (by omega)
  have hincrement := increment_mem src scale mode
  refine h.roundCarry_spec ha hsrc hscale (by omega) ?_
  rw [ha.floor_eq (K := last + 1) hwords h.scale_words, pow_zero, Int.ediv_one, mul_one, radix_succ,
    zero_add, add_assoc]

theorem Cut.roundCarry_inside (h : Cut src scale frac0 intg0 F z last (t + 1) c)
    (ha : AlignedCopy src res intg0 F) (hsrc : src.WellFormed) (hscale : 0 ≤ scale + src.intg) :
    (roundCarry { res with
        buf := update res.buf last
          (roundWord mode (roundDigit mode src.sign) (res.buf last) t) } last intg0
      frac0 (roundUp src.frac) scale .ok).2.WellFormed ∧
    (roundCarry { res with
        buf := update res.buf last
          (roundWord mode (roundDigit mode src.sign) (res.buf last) t) } last intg0
      frac0 (roundUp src.frac) scale .ok).2.value =
        signed src.sign ((⌊src.units scale⌋ + src.increment scale mode : ℤ) / 10 ^ scale) := by
  have hwords := h.words
  have ht := h.digits_lt
  have hmem := ha.range last zero_le (by omega)
  have hincrement := increment_mem src scale mode
  have hpow : (0 : ℤ) < 10 ^ (t + 1) := by positivity
  have hbase : digBase = 10 ^ (9 - (t + 1)) * 10 ^ (t + 1) := by
    rw [← pow_add, Nat.sub_add_cancel ht.le]
    rfl
  have hdiv : 0 ≤ res.buf last / 10 ^ (t + 1) ∧
      res.buf last / 10 ^ (t + 1) < 10 ^ (9 - (t + 1)) := by
    refine ⟨Int.ediv_nonneg hmem.1 hpow.le, Int.ediv_lt_of_lt_mul hpow ?_⟩
    rw [← hbase]
    exact hmem.2
  rw [ha.roundWord_eq hwords ht h.scale_words]
  refine h.roundCarry_spec ha hsrc hscale ⟨?_, ?_⟩ ?_
  · exact mul_nonneg hpow.le (by omega)
  · rw [hbase, mul_comm]
    exact mul_le_mul_of_nonneg_right (by omega) hpow.le
  rw [ha.floor_eq (K := last + 1) hwords h.scale_words, radix_succ, zero_add,
    ediv_pow_word _ _ ht.le]
  nth_rewrite 2 [hbase]
  ring

/-- No word is kept and none is before the point: the result is one. -/
theorem roundCarry_one {frac1 : ℕ} (hintg : res.intg = 0) (hlen : 0 < res.len)
    (hfrac1 : 0 < frac1) :
    (roundCarry { res with buf := update res.buf 0 digBase } 0 0 0 frac1 0 .ok).2.WellFormed ∧
    (roundCarry { res with buf := update res.buf 0 digBase } 0 0 0 frac1 0
      .ok).2.value = signed res.sign 1 := by
  have hclear : (0 : ℤ) < frac1 := by exact_mod_cast hfrac1
  have hfirst : fillWords 0 (update res.buf 0 digBase) 1 (res.len - 1) 0 = digBase := by
    rw [fillWords_eq, if_neg (by omega), update_self]
  have hspace : ¬ (res.len : ℤ) ≤ 0 + (0 : ℕ) := by omega
  have hstart : (if (0 : ℤ) = 0 ∧ 0 = 0 then 1 else ((0 : ℕ) + (0 : ℤ)).toNat) = 1 :=
    if_pos ⟨rfl, rfl⟩
  rw [roundCarry]
  rw [if_pos hclear, hstart, hfirst, if_pos le_rfl, carryDown]
  dsimp only
  rw [if_neg hspace]
  generalize hres : ({ res with
    buf := update (copyUp none 1 (0 + (0 : ℤ).toNat)
      (update (fillWords 0 (update res.buf 0 digBase) 1 (res.len - 1)) 0 (digBase - digBase))) 0 1
    intg := res.intg + 1 } : Decimal) = r
  have hone : r.buf 0 = 1 := by
    rw [← hres]
    dsimp only
    rw [update_self]
  have hintg' : r.intg = 1 := by rw [← hres, hintg]
  have hwords : roundUp r.intg + 0 = 1 := by
    rw [hintg']
    decide
  have hradix : radix digBase r.buf 0 1 = 1 := by rw [radix_one, hone]
  obtain ⟨hwf, hmagnitude⟩ := @finishRound_spec r 0 0 0 rfl
    (by rw [hwords]; intro i _ hi; rw [Nat.lt_one_iff.mp hi, hone]; decide)
    (by rw [hwords, hradix, hintg']; decide)
    (by rw [hwords, hradix]; decide) (by omega) (by rw [hone]; decide)
  refine ⟨hwf, ?_⟩
  rw [hwords, hradix] at hmagnitude
  rw [value_eq_signed, hmagnitude, ← hres]
  norm_num [finishRound]

/-- No word is kept and there are words before the point: the word that stands for the result
is cleared. -/
theorem roundCarry_lost {frac1 : ℕ} (hintg0 : 0 < intg0) (hlen : 0 < res.len) (hscale : scale ≤ 0)
    (hfrac0 : frac0 = -(intg0 : ℤ)) :
    (roundCarry { res with buf := update res.buf 0 digBase } 0 intg0 frac0 frac1 scale
      .ok).2.WellFormed ∧
    (roundCarry { res with buf := update res.buf 0 digBase } 0 intg0 frac0 frac1 scale
      .ok).2.value = 0 := by
  have hclear : frac0 < frac1 := by omega
  have hstart : (intg0 + frac0).toNat = 0 := by omega
  have hscale : scale.toNat = 0 := by omega
  have hfirst : fillWords 0 (update res.buf 0 digBase) 0 (res.len - 0) 0 = 0 := by
    rw [fillWords_eq, if_pos (by omega)]
  have hnot : ¬ (scale = 0 ∧ intg0 = 0) := by omega
  have hbase : ¬ digBase ≤ 0 := by decide
  rw [roundCarry]
  rw [if_pos hclear, if_neg hnot, hstart, hfirst, if_neg hbase, lastNonzero,
    if_neg (not_not.mpr hfirst)]
  generalize hres : ({ res with
    buf := fillWords 0 (fillWords 0 (update res.buf 0 digBase) 0 (res.len - 0)) 0 (frac0 + 1).toNat
    intg := 1
    frac := scale.toNat
    sign := false } : Decimal) = r
  have hzero : r.buf 0 = 0 := by
    rw [← hres]
    dsimp only
    rw [fillWords_eq]
    split_ifs
    · rfl
    · exact hfirst
  have hfrac : r.frac = 0 := by
    rw [← hres]
    exact hscale
  have hwords : r.words = 1 := by
    have hintg : r.intg = 1 := by rw [← hres]
    rw [words, hfrac, hintg]
    decide
  refine zero_of_words fun i hi => ?_
  rw [hwords] at hi
  rw [Nat.lt_one_iff.mp hi, hzero]

theorem scaleWords_spec (scale : ℤ) :
    ∃ z t : ℕ, scaleWords scale = roundUp scale.toNat - (z : ℤ) ∧
      (roundUp scale.toNat = 0 ∨ z = 0) ∧ scaleWords scale * 9 - scale = t ∧ t < 9 := by
  rw [scaleWords]
  split_ifs with hpos
  · refine ⟨0, roundUp scale.toNat * 9 - scale.toNat, by simp, .inr rfl, ?_, ?_⟩
    · have := le_roundUp_mul scale.toNat
      omega
    · rw [roundUp]
      omega
  obtain ⟨n, rfl⟩ : ∃ n : ℕ, scale = -n := ⟨(-scale).toNat, by omega⟩
  have hdiv : (-(n : ℤ)).tdiv 9 = -((n / 9 : ℕ) : ℤ) := by
    rw [Int.neg_tdiv, Int.tdiv_eq_ediv_of_nonneg (by omega)]
    norm_cast
  have hzero : (-(n : ℤ)).toNat = 0 := by omega
  refine ⟨n / 9, n % 9, ?_, ?_, ?_, ?_⟩
  · rw [hdiv, hzero, roundUp_zero]
    simp
  · rw [hzero]
    exact .inl rfl
  · rw [hdiv]
    omega
  · omega

variable (mode) in
theorem roundKept_spec (ha : AlignedCopy src res intg0 F) (hsrc : src.WellFormed)
    (hF : roundUp scale.toNat = F) (hscale : 0 ≤ scale + src.intg) (hcut : scale < src.frac) :
    (roundKept res mode (roundDigit mode src.sign) intg0 (scaleWords scale) (roundUp src.frac) scale
      .ok).2.WellFormed ∧
    (roundKept res mode (roundDigit mode src.sign) intg0 (scaleWords scale) (roundUp src.frac) scale
      .ok).2.value =
      if intg0 + scaleWords scale = 0 ∧ 0 < intg0 ∧ src.increment scale mode = 1 then 0
      else signed src.sign ((⌊src.units scale⌋ + src.increment scale mode : ℤ) / 10 ^ scale) := by
  obtain ⟨z, t, hfrac0, hone, hdigits, ht⟩ := scaleWords_spec scale
  rw [hF] at hfrac0 hone
  have hle := le_roundUp_mul src.frac
  have hintg : src.intg ≤ intg0 * 9 := by
    rw [← ha.intg_eq]
    exact ha.intg_le.trans (le_roundUp_mul res.intg)
  have hroundUp : roundUp src.frac * 9 < src.frac + 9 := by
    rw [roundUp]
    omega
  have hscaleF : scale ≤ F * 9 := by
    rw [← hF]
    have := le_roundUp_mul scale.toNat
    omega
  generalize scaleWords scale = frac0 at hfrac0 hdigits ⊢
  obtain ⟨c, hc⟩ : ∃ c : ℕ, frac0 + c = roundUp src.frac :=
    ⟨(roundUp src.frac - frac0).toNat, by omega⟩
  obtain ⟨K, hK⟩ : ∃ K : ℕ, intg0 + frac0 = K := ⟨(intg0 + frac0).toNat, by omega⟩
  rw [roundKept]
  rw [hK, Int.toNat_natCast]
  cases t with
  | zero =>
    have hwhole : scale = frac0 * 9 := by omega
    obtain ⟨c, rfl⟩ : ∃ k, c = k + 1 := ⟨c - 1, by omega⟩
    have hwords : K + (c + 1) = intg0 + roundUp src.frac := by omega
    have hscaleWords : (roundUp src.frac * 9 : ℕ) - scale = ((c + 1) * 9 : ℕ) := by omega
    have hnumber : (roundUp src.frac - frac0).toNat = c + 1 := by omega
    have hdoInc := ha.doInc_iff mode hwords hscaleWords
    have hfloor := ha.floor_eq (K := K) (t := 0) hwords (by rw [hscaleWords, zero_add])
    rw [pow_zero, Int.ediv_one] at hfloor
    rw [if_pos hwhole, hnumber]
    cases K with
    | zero =>
      rw [radix_zero] at hfloor
      rw [hfloor, zero_add, if_neg (lt_irrefl 0)]
      by_cases hup : src.RoundsUp scale mode
      · have hincrement : src.increment scale mode = 1 := if_pos hup
        rw [if_pos (hdoInc.mpr hup), hincrement]
        rcases eq_zero_or_pos intg0 with rfl | hpos
        · obtain rfl : frac0 = 0 := by omega
          obtain rfl : scale = 0 := by omega
          have hres : res.intg = 0 := by
            have := ha.intg_eq
            have := le_roundUp_mul res.intg
            omega
          have hlen : 0 < res.len := by
            have := ha.space
            omega
          rw [if_neg fun hcontra => absurd hcontra.2.1 (lt_irrefl 0), zpow_zero,
            Int.cast_one, div_one, ← ha.sign_eq]
          exact roundCarry_one hres hlen (by omega)
        · have hlen : 0 < res.len := by
            have := ha.space
            omega
          rw [if_pos ⟨rfl, hpos, rfl⟩]
          exact roundCarry_lost hpos hlen (by omega) (by omega)
      · have hincrement : src.increment scale mode = 0 := if_neg hup
        rw [if_neg fun hcontra => hup (hdoInc.mp hcontra), if_pos rfl, hincrement,
          if_neg fun hcontra => absurd hcontra.2.2 (by decide), Int.cast_zero, zero_div,
          signed_zero]
        refine ⟨res.makeZero_wellFormed, ?_⟩
        rw [value_eq_signed, magnitude_makeZero, signed_zero]
    | succ last =>
      have hcutAt : Cut src scale frac0 intg0 F z last 0 (c + 1) :=
        ⟨hfrac0, hone, hF, by omega, hdigits, ht, hwords, .inr (Nat.succ_pos c)⟩
      have hcarry := hcutAt.roundCarry_words mode ha hsrc hscale
      have hfound : ¬ (((last + 1 : ℕ) : ℤ) = 0 ∧ 0 < intg0 ∧
          src.increment scale mode = 1) := fun hcontra => absurd hcontra.1 (by omega)
      rw [if_neg hfound, if_pos (Nat.succ_pos last), if_neg (Nat.succ_ne_zero last),
        Nat.add_sub_cancel]
      by_cases hup : src.RoundsUp scale mode
      · have hincrement : src.increment scale mode = 1 := if_pos hup
        rw [if_pos (hdoInc.mpr hup)]
        rw [hincrement] at hcarry ⊢
        exact hcarry
      have hincrement : src.increment scale mode = 0 := if_neg hup
      rw [if_neg fun hcontra => hup (hdoInc.mp hcontra)]
      rw [hincrement, add_zero, update_eq_self] at hcarry
      rw [hincrement]
      exact hcarry
  | succ t =>
    have hinside : scale ≠ frac0 * 9 := by omega
    obtain ⟨last, rfl⟩ : ∃ k, K = k + 1 := ⟨K - 1, by omega⟩
    have hcutAt : Cut src scale frac0 intg0 F z last (t + 1) c :=
      ⟨hfrac0, hone, hF, by omega, hdigits, ht, by omega, .inl (Nat.succ_pos t)⟩
    have hpos : (frac0 * 9 - scale - 1).toNat = t := by omega
    rw [if_neg hinside, hpos, Nat.add_sub_cancel, if_neg fun hcontra => absurd hcontra.1 (by omega)]
    exact hcutAt.roundCarry_inside ha hsrc hscale

end Rounding

end LibSources
