import LibSources.Decimal

/-!
# Decimals and 64-Bit Integers

A model of `ull2dec`, `ulonglong2decimal`, `longlong2decimal`, `decimal2ulonglong` and
`decimal2longlong` of `strings/decimal.c`. The last two multiply in arithmetic that wraps and
find an overflow by comparing with the value before. `clampInt` says what they are for.

## Main results

* `decimal_longlong_conversions`: the five conversions.
-/

namespace LibSources

open Int Decimal Function

def toInt64 (x : ℤ) : ℤ := bmod x (2 ^ 64)

theorem toInt64_of_mem {x : ℤ} (hlo : -2 ^ 63 ≤ x) (hhi : x < 2 ^ 63) : toInt64 x = x := by
  rw [toInt64, bmod_def]
  split_ifs <;> omega

def ullWords (x : ℕ) : ℕ := if 1000000000 ≤ x then ullWords (x / 1000000000) + 1 else 1
termination_by x
decreasing_by omega

def ullStore (buf : ℕ → ℤ) : ℕ → ℕ → (ℕ → ℤ)
  | 0, _ => buf
  | n + 1, x =>
    let y := x / 1000000000
    ullStore (update buf n ((x - y * 1000000000 : ℕ) : ℤ)) n y

def ull2dec (x : ℕ) (dst : Decimal) : DecimalError × Decimal :=
  let (intg1, error) :=
    if dst.len < ullWords x then (dst.len, DecimalError.overflow) else (ullWords x, .ok)
  (error, { dst with frac := 0, intg := intg1 * 9, buf := ullStore dst.buf intg1 x })

def ulonglong2decimal (x : ℕ) (dst : Decimal) : DecimalError × Decimal :=
  ull2dec x { dst with sign := false }

/-- `longlong2decimal`. The negated number is read as a `ulonglong`. -/
def longlong2decimal (x : ℤ) (dst : Decimal) : DecimalError × Decimal :=
  if x < 0 then ull2dec (-x % 2 ^ 64).toNat { dst with sign := true }
  else ull2dec x.toNat { dst with sign := false }

/-- The loop of `decimal2ulonglong` over the words of the integer part, or `none` when it finds an
overflow. -/
def ulonglongLoop (buf : ℕ → ℤ) : ℕ → ℕ → ℤ → Option ℤ
  | 0, _, x => some x
  | n + 1, pos, y =>
    let x := (y * digBase + buf pos) % 2 ^ 64
    if (2 ^ 64 - 1) / digBase < y ∨ x < y then none else ulonglongLoop buf n (pos + 1) x

def longlongLoop (buf : ℕ → ℤ) : ℕ → ℕ → ℤ → Option ℤ
  | 0, _, x => some x
  | n + 1, pos, y =>
    let x := toInt64 (y * digBase - buf pos)
    if y < (-2 ^ 63 : ℤ).tdiv digBase ∨ y < x then none else longlongLoop buf n (pos + 1) x

/-- The loop over the words of the fraction. -/
def fracError (buf : ℕ → ℤ) : ℕ → ℕ → DecimalError
  | 0, _ => .ok
  | n + 1, pos => if buf pos ≠ 0 then .truncated else fracError buf n (pos + 1)

def decimal2ulonglong (d : Decimal) : DecimalError × ℤ :=
  if d.sign then (.overflow, 0)
  else match ulonglongLoop d.buf (roundUp d.intg) 0 0 with
    | none => (.overflow, 2 ^ 64 - 1)
    | some x => (fracError d.buf (roundUp d.frac) (roundUp d.intg), x)

def decimal2longlong (d : Decimal) : DecimalError × ℤ :=
  match longlongLoop d.buf (roundUp d.intg) 0 0 with
  | none => (.overflow, if d.sign then -2 ^ 63 else 2 ^ 63 - 1)
  | some x =>
    if d.sign = false ∧ x = -2 ^ 63 then (.overflow, 2 ^ 63 - 1)
    else (fracError d.buf (roundUp d.frac) (roundUp d.intg), if d.sign then x else toInt64 (-x))

def truncate (q : ℚ) : ℤ := if 0 ≤ q then ⌊q⌋ else ⌈q⌉

/-- The integer part of a number, or the nearest limit. -/
def clampInt (lo hi : ℤ) (q : ℚ) : DecimalError × ℤ :=
  if truncate q < lo then (.overflow, lo)
  else if hi < truncate q then (.overflow, hi)
  else (if q = truncate q then .ok else .truncated, truncate q)

theorem clampInt_intCast {lo hi v : ℤ} (hlo : lo ≤ v) (hhi : v ≤ hi) :
    clampInt lo hi v = (.ok, v) := by
  have htrunc : truncate (v : ℚ) = v := by rw [truncate, floor_intCast, ceil_intCast, ite_self]
  rw [clampInt, htrunc, if_neg (not_lt.mpr hlo), if_neg (not_lt.mpr hhi), if_pos rfl]

/-! ### The loops -/

variable {buf : ℕ → ℤ} {d : Decimal}

theorem radix_le_radix_add {n k : ℕ} (h : InRange digBase buf 0 (n + k)) :
    radix digBase buf 0 n ≤ radix digBase buf 0 (n + k) := by
  have hfront := (h.mono le_rfl (by omega) : InRange digBase buf 0 n).radix_nonneg
  have hback := (h.mono (by omega) (by omega) : InRange digBase buf (0 + n) k).radix_nonneg
  have hpow : 1 ≤ digBase ^ k := one_le_pow₀ (by decide)
  rw [radix_add]
  nlinarith

theorem radix_step {pos n : ℕ} (h : InRange digBase buf 0 (pos + 1 + n)) :
    (0 ≤ buf pos ∧ buf pos < digBase) ∧ 0 ≤ radix digBase buf 0 pos ∧
      radix digBase buf 0 (pos + 1) = radix digBase buf 0 pos * digBase + buf pos ∧
      radix digBase buf 0 (pos + 1) ≤ radix digBase buf 0 (pos + 1 + n) := by
  have hnext := radix_succ digBase buf 0 pos
  rw [zero_add] at hnext
  exact ⟨h pos zero_le (by omega), (h.mono le_rfl (by omega)).radix_nonneg, hnext,
    radix_le_radix_add h⟩

section

variable (n : ℕ) {pos : ℕ}

theorem ulonglongLoop_eq (h : InRange digBase buf 0 (pos + n))
    (hx : radix digBase buf 0 pos < 2 ^ 64) :
    ulonglongLoop buf n pos (radix digBase buf 0 pos) =
      if radix digBase buf 0 (pos + n) < 2 ^ 64 then some (radix digBase buf 0 (pos + n))
      else none := by
  induction n generalizing pos with
  | zero => exact (if_pos hx).symm
  | succ n ih =>
    rw [show pos + (n + 1) = pos + 1 + n by omega] at h ⊢
    obtain ⟨hword, hnonneg, hnext, hmono⟩ := radix_step h
    rw [ulonglongLoop, ← hnext]
    rw [digBase] at hword hnext hmono hnonneg hx ⊢
    by_cases hfits : radix 1000000000 buf 0 (pos + 1) < 2 ^ 64
    · rw [emod_eq_of_lt (by omega) hfits, if_neg (by omega)]
      exact ih h hfits
    · rw [if_pos (by omega), if_neg (by omega)]

theorem longlongLoop_eq (h : InRange digBase buf 0 (pos + n))
    (hx : radix digBase buf 0 pos ≤ 2 ^ 63) :
    longlongLoop buf n pos (-radix digBase buf 0 pos) =
      if radix digBase buf 0 (pos + n) ≤ 2 ^ 63 then some (-radix digBase buf 0 (pos + n))
      else none := by
  induction n generalizing pos with
  | zero => exact (if_pos hx).symm
  | succ n ih =>
    rw [show pos + (n + 1) = pos + 1 + n by omega] at h ⊢
    obtain ⟨hword, hnonneg, hnext, hmono⟩ := radix_step h
    have hneg : -radix digBase buf 0 pos * digBase - buf pos = -radix digBase buf 0 (pos + 1) := by
      rw [hnext]
      ring
    have hmin : (-2 ^ 63 : ℤ).tdiv digBase = -9223372036 := by decide
    rw [longlongLoop, hneg, hmin]
    rw [digBase] at hword hnext hmono hnonneg hx ⊢
    by_cases hfits : radix 1000000000 buf 0 (pos + 1) ≤ 2 ^ 63
    · rw [toInt64_of_mem (by omega) (by omega), if_neg (by omega)]
      exact ih h hfits
    rw [if_pos ?_, if_neg (by omega)]
    rw [toInt64, bmod_def]
    split_ifs <;> omega

theorem fracError_eq (h : InRange digBase buf pos n) :
    fracError buf n pos = if radix digBase buf pos n = 0 then .ok else .truncated := by
  induction n generalizing pos with
  | zero => rfl
  | succ n ih =>
    have hword := h pos le_rfl (by omega)
    have hrest := (h.mono (by omega) (by omega) : InRange digBase buf (pos + 1) n)
    have hnonneg := hrest.radix_nonneg
    have hpow : 0 < digBase ^ n := pow_pos digBase_pos n
    rw [fracError, ih hrest, radix_succ_left]
    by_cases hzero : buf pos = 0
    · rw [if_neg (not_not.mpr hzero), hzero, zero_mul, zero_add]
    rw [if_pos hzero, if_neg]
    have hpos : 0 < buf pos := lt_of_le_of_ne hword.1 (Ne.symm hzero)
    positivity

end

/-! ### From decimals -/

section

variable (h : d.WellFormed)
include h

theorem Decimal.WellFormed.floor_magnitude :
    ⌊d.magnitude⌋ = radix digBase d.buf 0 (roundUp d.intg) := by
  have hfloor := d.shifted_eq_floor 0
  rw [pow_zero, mul_one, h.shifted_of_ge zero_le, add_zero] at hfloor
  exact hfloor.symm

theorem Decimal.WellFormed.magnitude_eq_floor_iff :
    d.magnitude = ⌊d.magnitude⌋ ↔ radix digBase d.buf (roundUp d.intg) (roundUp d.frac) = 0 := by
  have hpow : (digBase : ℚ) ^ roundUp d.frac ≠ 0 :=
    pow_ne_zero _ (by exact_mod_cast digBase_pos.ne')
  rw [h.floor_magnitude, magnitude, words, radix_add, zero_add, div_eq_iff hpow]
  constructor
  · intro heq
    have hcast : (radix digBase d.buf (roundUp d.intg) (roundUp d.frac) : ℚ) = 0 := by
      push_cast at heq
      linarith
    exact_mod_cast hcast
  · intro hzero
    rw [hzero, add_zero]
    push_cast
    rfl

theorem Decimal.WellFormed.fracError_eq :
    fracError d.buf (roundUp d.frac) (roundUp d.intg) =
      if d.magnitude = ⌊d.magnitude⌋ then .ok else .truncated := by
  rw [LibSources.fracError_eq _ (h.range.mono zero_le (by rw [words]; omega))]
  exact if_congr h.magnitude_eq_floor_iff.symm rfl rfl

theorem Decimal.WellFormed.truncate_value :
    truncate d.value = if d.sign then -⌊d.magnitude⌋ else ⌊d.magnitude⌋ := by
  have hnonneg := h.magnitude_nonneg
  rw [truncate, value]
  cases d.sign with
  | false => exact if_pos hnonneg
  | true =>
    rw [if_pos rfl, if_pos rfl, ceil_neg]
    split_ifs with hneg
    · have hzero : d.magnitude = 0 := by linarith
      rw [hzero, neg_zero, floor_zero, neg_zero]
    · rfl

theorem Decimal.WellFormed.value_eq_truncate_iff :
    d.value = truncate d.value ↔ d.magnitude = ⌊d.magnitude⌋ := by
  rw [h.truncate_value, value]
  cases d.sign with
  | false => exact Iff.rfl
  | true => rw [if_pos rfl, if_pos rfl, cast_neg, neg_inj]

theorem Decimal.WellFormed.decimal2longlong :
    decimal2longlong d = clampInt (-2 ^ 63) (2 ^ 63 - 1) d.value := by
  have hrange : InRange digBase d.buf 0 (0 + roundUp d.intg) :=
    h.range.mono le_rfl (by rw [words]; omega)
  have hloop := longlongLoop_eq (roundUp d.intg) hrange (by rw [radix_zero]; decide)
  have hnonneg : 0 ≤ ⌊d.magnitude⌋ := floor_nonneg.mpr h.magnitude_nonneg
  rw [zero_add, ← h.floor_magnitude, radix_zero, neg_zero] at hloop
  rw [clampInt, LibSources.decimal2longlong, hloop, h.fracError_eq,
    if_congr h.value_eq_truncate_iff rfl rfl, h.truncate_value]
  generalize (if d.magnitude = ⌊d.magnitude⌋ then DecimalError.ok else .truncated) = error
  generalize ⌊d.magnitude⌋ = n at hnonneg ⊢
  by_cases hfits : n ≤ 2 ^ 63
  · rw [if_pos hfits]
    dsimp only
    cases d.sign with
    | true =>
      rw [if_neg (by rintro ⟨⟨⟩, -⟩), if_pos rfl, if_pos rfl, if_neg (by omega), if_neg (by omega)]
    | false =>
      rw [if_neg Bool.false_ne_true, if_neg Bool.false_ne_true,
        if_neg (show ¬ n < -2 ^ 63 by omega)]
      by_cases hlimit : n = 2 ^ 63
      · rw [if_pos ⟨rfl, by omega⟩, if_pos (by omega)]
      · rw [if_neg (by omega), if_neg (by omega), neg_neg, toInt64_of_mem (by omega) (by omega)]
  · rw [if_neg hfits]
    cases d.sign with
    | true => rw [if_pos rfl, if_pos rfl, if_pos (by omega)]
    | false =>
      rw [if_neg Bool.false_ne_true, if_neg Bool.false_ne_true, if_neg (by omega),
        if_pos (by omega)]

theorem Decimal.WellFormed.decimal2ulonglong (hsign : d.sign = false) :
    decimal2ulonglong d = clampInt 0 (2 ^ 64 - 1) d.value := by
  have hrange : InRange digBase d.buf 0 (0 + roundUp d.intg) :=
    h.range.mono le_rfl (by rw [words]; omega)
  have hloop := ulonglongLoop_eq (roundUp d.intg) hrange (by rw [radix_zero]; decide)
  have hnonneg : 0 ≤ ⌊d.magnitude⌋ := floor_nonneg.mpr h.magnitude_nonneg
  rw [zero_add, ← h.floor_magnitude, radix_zero] at hloop
  rw [clampInt, LibSources.decimal2ulonglong, hloop, h.fracError_eq,
    if_congr h.value_eq_truncate_iff rfl rfl, h.truncate_value, hsign,
    if_neg Bool.false_ne_true, if_neg Bool.false_ne_true]
  generalize (if d.magnitude = ⌊d.magnitude⌋ then DecimalError.ok else .truncated) = error
  generalize ⌊d.magnitude⌋ = n at hnonneg ⊢
  rw [if_neg (not_lt.mpr hnonneg)]
  by_cases hfits : n < 2 ^ 64
  · rw [if_pos hfits, if_neg (by omega)]
  · rw [if_neg hfits, if_pos (by omega)]

end

/-! ### To decimals -/

theorem ullWords_le_iff {x len : ℕ} : ullWords x ≤ len ↔ 0 < len ∧ x < 1000000000 ^ len := by
  induction x using ullWords.induct generalizing len with
  | case1 x hx ih =>
    rw [ullWords, if_pos hx]
    cases len with
    | zero => exact iff_of_false (Nat.not_succ_le_zero _) fun h => absurd h.1 (lt_irrefl 0)
    | succ len =>
      rw [Nat.succ_le_succ_iff, ih, Nat.div_lt_iff_lt_mul (by decide), ← pow_succ]
      refine ⟨fun h => ⟨Nat.succ_pos len, h.2⟩, fun h => ⟨pos_of_ne_zero ?_, h.2⟩⟩
      rintro rfl
      omega
  | case2 x hx =>
    rw [ullWords, if_neg hx]
    refine ⟨fun h => ⟨h, ?_⟩, fun h => h.1⟩
    calc x < 1000000000 ^ 1 := by omega
      _ ≤ 1000000000 ^ len := Nat.pow_le_pow_right (by decide) h

theorem ullStore_of_le (n : ℕ) (buf : ℕ → ℤ) (x : ℕ) {j : ℕ} (hj : n ≤ j) :
    ullStore buf n x j = buf j := by
  induction n generalizing buf x with
  | zero => rfl
  | succ n ih => rw [ullStore, ih _ _ (by omega), update_of_ne (by omega)]

theorem ullStore_spec (n : ℕ) (buf : ℕ → ℤ) {x : ℕ} (hx : x < 1000000000 ^ n) :
    InRange digBase (ullStore buf n x) 0 n ∧ radix digBase (ullStore buf n x) 0 n = x := by
  induction n generalizing buf x with
  | zero =>
    obtain rfl : x = 0 := by simpa using hx
    exact ⟨fun i _ hi => absurd hi (Nat.not_lt_zero i), rfl⟩
  | succ n ih =>
    rw [ullStore]
    have hy : x / 1000000000 < 1000000000 ^ n := by
      rwa [Nat.div_lt_iff_lt_mul (by decide), ← pow_succ]
    obtain ⟨hrange, hradix⟩ := ih (update buf n ((x - x / 1000000000 * 1000000000 : ℕ) : ℤ)) hy
    have hlast := ullStore_of_le n (update buf n ((x - x / 1000000000 * 1000000000 : ℕ) : ℤ))
      (x / 1000000000) le_rfl
    rw [update_self] at hlast
    refine ⟨hrange.succ ?_, ?_⟩
    · rw [zero_add, hlast, digBase]
      omega
    · rw [radix_succ, hradix, zero_add, hlast, digBase]
      omega

theorem ull2dec_spec {x : ℕ} {dst : Decimal} (h : ullWords x ≤ dst.len) :
    (ull2dec x dst).1 = .ok ∧ (ull2dec x dst).2.WellFormed ∧
      (ull2dec x dst).2.sign = dst.sign ∧ (ull2dec x dst).2.magnitude = x := by
  obtain ⟨hrange, hradix⟩ := ullStore_spec (ullWords x) dst.buf (ullWords_le_iff.mp le_rfl).2
  have hup : roundUp (ullWords x * 9) = ullWords x := roundUp_mul _
  rw [ull2dec, if_neg (Nat.not_lt.mpr h)]
  have hwords : words { dst with
      frac := 0, intg := ullWords x * 9, buf := ullStore dst.buf (ullWords x) x } =
      ullWords x := by
    exact (congrArg (· + roundUp 0) hup).trans (add_zero _)
  refine ⟨rfl, ⟨by rwa [hwords], fun hne => absurd (Nat.mul_mod_left _ _) hne,
    fun hne => absurd rfl hne⟩, rfl, ?_⟩
  have hfrac : (digBase : ℚ) ^ roundUp 0 = 1 := pow_zero _
  rw [magnitude, hwords, hradix, cast_natCast]
  rw [hfrac, div_one]

theorem ulonglong2decimal_spec {v : ℕ} {dst : Decimal}
    (h : 0 < dst.len ∧ v < 1000000000 ^ dst.len) :
    (ulonglong2decimal v dst).1 = .ok ∧ (ulonglong2decimal v dst).2.WellFormed ∧
      (ulonglong2decimal v dst).2.sign = false ∧ (ulonglong2decimal v dst).2.value = v := by
  obtain ⟨hok, hwell, hsign, hvalue⟩ :=
    @ull2dec_spec v { dst with sign := false } (ullWords_le_iff.mpr h)
  refine ⟨hok, hwell, hsign, ?_⟩
  rw [ulonglong2decimal, value, hsign, hvalue]
  exact if_neg Bool.false_ne_true

theorem longlong2decimal_spec {v : ℤ} {dst : Decimal} (hlo : -2 ^ 63 ≤ v)
    (h : 0 < dst.len ∧ v.natAbs < 1000000000 ^ dst.len) :
    (longlong2decimal v dst).1 = .ok ∧ (longlong2decimal v dst).2.WellFormed ∧
      (longlong2decimal v dst).2.value = v := by
  rw [longlong2decimal]
  split_ifs with hneg
  · have habs : (-v % 2 ^ 64).toNat = v.natAbs := by omega
    obtain ⟨hok, hwell, hsign, hvalue⟩ :=
      @ull2dec_spec v.natAbs { dst with sign := true } (ullWords_le_iff.mpr h)
    rw [habs]
    refine ⟨hok, hwell, ?_⟩
    have hcast : ((v.natAbs : ℤ) : ℚ) = ((-v : ℤ) : ℚ) := by
      congr 1
      omega
    rw [value, hsign, hvalue, if_pos rfl, ← cast_natCast, hcast, cast_neg, neg_neg]
  have habs : v.toNat = v.natAbs := by omega
  obtain ⟨hok, hwell, hsign, hvalue⟩ :=
    @ull2dec_spec v.natAbs { dst with sign := false } (ullWords_le_iff.mpr h)
  rw [habs]
  refine ⟨hok, hwell, ?_⟩
  have hcast : ((v.natAbs : ℤ) : ℚ) = (v : ℚ) := by
    congr 1
    omega
  rw [value, hsign, hvalue, if_neg Bool.false_ne_true, ← Int.cast_natCast, hcast]

/-- **Conversions.** A decimal becomes its integer part or the nearest limit; for `ulonglong` a
decimal with a sign becomes zero with an overflow. An integer comes back from a decimal that has
the words for it. -/
theorem decimal_longlong_conversions :
    (∀ d : Decimal, d.WellFormed → decimal2longlong d = clampInt (-2 ^ 63) (2 ^ 63 - 1) d.value ∧
      decimal2ulonglong d = if d.sign then (.overflow, 0) else clampInt 0 (2 ^ 64 - 1) d.value) ∧
    (∀ (v : ℤ) (dst : Decimal), -2 ^ 63 ≤ v → v < 2 ^ 63 → 0 < dst.len →
      v.natAbs < 1000000000 ^ dst.len → (longlong2decimal v dst).1 = .ok ∧
        decimal2longlong (longlong2decimal v dst).2 = (.ok, v)) ∧
    ∀ (v : ℕ) (dst : Decimal), v < 2 ^ 64 → 0 < dst.len → v < 1000000000 ^ dst.len →
      (ulonglong2decimal v dst).1 = .ok ∧
        decimal2ulonglong (ulonglong2decimal v dst).2 = (.ok, (v : ℤ)) := by
  refine ⟨fun d h => ⟨h.decimal2longlong, ?_⟩, fun v dst hlo hhi hlen hlt => ?_,
    fun v dst hv hlen hlt => ?_⟩
  · cases hsign : d.sign with
    | true => rw [decimal2ulonglong, hsign, if_pos rfl, if_pos rfl]
    | false => exact h.decimal2ulonglong hsign
  · obtain ⟨hok, hwell, hvalue⟩ := longlong2decimal_spec hlo ⟨hlen, hlt⟩
    exact ⟨hok, by rw [hwell.decimal2longlong, hvalue, clampInt_intCast hlo (by omega)]⟩
  · obtain ⟨hok, hwell, hsign, hvalue⟩ := ulonglong2decimal_spec ⟨hlen, hlt⟩
    rw [hwell.decimal2ulonglong hsign, hvalue, ← cast_natCast,
      clampInt_intCast (natCast_nonneg v) (by omega)]
    exact ⟨hok, rfl⟩

def wideDecimal : Decimal := ⟨27, 0, 3, false, fun _ => 0⟩

theorem decimal_longlong_conversions_min :
    decimal2longlong wideDecimal = clampInt (-2 ^ 63) (2 ^ 63 - 1) wideDecimal.value ∧
      decimal2longlong (longlong2decimal (-2 ^ 63) wideDecimal).2 = (.ok, -2 ^ 63) ∧
      decimal2ulonglong (ulonglong2decimal (2 ^ 64 - 1) wideDecimal).2 = (.ok, 2 ^ 64 - 1) :=
  ⟨(decimal_longlong_conversions.1 wideDecimal
      ⟨fun _ _ _ => ⟨le_rfl, digBase_pos⟩, by decide, by decide⟩).1,
    (decimal_longlong_conversions.2.1 _ wideDecimal le_rfl (by decide) (by decide) (by decide)).2,
    (decimal_longlong_conversions.2.2 _ wideDecimal (by decide) (by decide) (by decide)).2⟩

/-- A zero with a sign is an overflow for `decimal2ulonglong`, and a number of two words does not
come back from a decimal of one. -/
theorem decimal_longlong_conversions_fail :
    (∃ d : Decimal, d.WellFormed ∧ d.value = 0 ∧ decimal2ulonglong d = (.overflow, 0)) ∧
      ∃ dst : Decimal, (longlong2decimal 1000000000 dst).1 = .overflow ∧
        decimal2longlong (longlong2decimal 1000000000 dst).2 = (.ok, 0) := by
  refine ⟨⟨⟨1, 0, 1, true, fun _ => 0⟩,
      ⟨fun _ _ _ => ⟨le_rfl, digBase_pos⟩, by decide, by decide⟩, ?_, rfl⟩,
    ⟨9, 0, 1, false, fun _ => 0⟩, by decide +kernel, by decide +kernel⟩
  rw [value, magnitude, radix_eq_zero fun _ _ _ => rfl]
  norm_num

end LibSources
