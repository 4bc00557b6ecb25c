import LibSources.DecimalRounding

/-!
# The Modes of `decimal_round`

What `decimal_round` computes is compared with the rounding that each mode stands for.

## Main results

* `decimalRound_halfUp_truncate`
* `decimalRound_halfEven_ceiling_floor`
-/

namespace LibSources

open Decimal

namespace Decimal.WellFormed

variable {src : Decimal} {scale : ℤ} {mode : RoundMode}

theorem units_exact (h : src.WellFormed) (hscale : (src.frac : ℤ) ≤ scale) :
    src.units scale = ⌊src.units scale⌋ := by
  obtain ⟨s, rfl⟩ : ∃ s : ℕ, scale = s := ⟨scale.toNat, by omega⟩
  have hmagnitude := h.magnitude_eq_scaled (s := s) (by omega)
  have hpow : (10 : ℚ) ^ s ≠ 0 := by positivity
  rw [eq_div_iff hpow] at hmagnitude
  rw [units, zpow_natCast]
  exact hmagnitude

theorem units_succ (d : Decimal) (scale : ℤ) : d.units (scale + 1) = d.units scale * 10 := by
  rw [units, units, zpow_add₀ (by norm_num), zpow_one, mul_assoc]

theorem increment_exact (h : src.WellFormed) (hscale : (src.frac : ℤ) ≤ scale) :
    src.increment scale mode = 0 := by
  have hexact := h.units_exact hscale
  have hdigit : src.nextDigit scale = 0 := by
    rw [nextDigit, units_succ, hexact]
    have hcast : ((⌊src.units scale⌋ : ℚ) * 10) = ((⌊src.units scale⌋ * 10 : ℤ) : ℚ) := by
      push_cast
      rfl
    rw [hcast, Int.floor_intCast, Int.mul_emod_left]
  refine if_neg ?_
  rw [Decimal.RoundsUp, hdigit]
  rintro (⟨-, hcontra⟩ | ⟨-, hcontra | ⟨hcontra, -⟩⟩)
  · split_ifs at hcontra
    · exact hcontra hexact
    · exact absurd hcontra (by decide)
  · exact absurd hcontra (by decide)
  · exact absurd hcontra (by decide)

theorem floor_units_div (h : src.WellFormed) (hscale : (src.frac : ℤ) ≤ scale) :
    (⌊src.units scale⌋ : ℚ) / 10 ^ scale = src.magnitude := by
  rw [← h.units_exact hscale, units, mul_div_assoc, div_self (by positivity), mul_one]

end Decimal.WellFormed

theorem AlignedCopy.extend {src res : Decimal} {scale : ℤ} {intg0 F : ℕ}
    (ha : AlignedCopy src res intg0 F) (h : src.WellFormed) (hF : roundUp scale.toNat = F)
    (hscale : (src.frac : ℤ) ≤ scale) {buf : ℕ → ℤ}
    (hkeep : ∀ i < intg0 + roundUp src.frac, buf i = res.buf i)
    (hzero : ∀ i, intg0 + roundUp src.frac ≤ i → i < intg0 + F → buf i = 0) :
    ({ res with buf := buf, frac := scale.toNat } : Decimal).WellFormed ∧
      ({ res with buf := buf, frac := scale.toNat } : Decimal).value =
        signed src.sign src.magnitude := by
  have hle : roundUp src.frac ≤ F := by
    rw [← hF, roundUp_le_iff]
    have := le_roundUp_mul scale.toNat
    omega
  generalize hr : ({ res with buf := buf, frac := scale.toNat } : Decimal) = r
  have hbuf : r.buf = buf := by rw [← hr]
  have hfrac : roundUp r.frac = F := by rw [← hr, hF]
  have hintg : r.intg = res.intg := by rw [← hr]
  have hwords : r.words = intg0 + F := by rw [words, hfrac, hintg, ha.intg_eq]
  have hshifted : radix digBase r.buf 0 r.words = src.shifted F := by
    have hsplit : intg0 + F = intg0 + roundUp src.frac + (F - roundUp src.frac) := by omega
    have hrest : radix digBase buf (0 + (intg0 + roundUp src.frac)) (F - roundUp src.frac) = 0 :=
      radix_eq_zero fun i hi hi' => hzero i (by omega) (by omega)
    have hfront : radix digBase buf 0 (intg0 + roundUp src.frac) =
        radix digBase src.buf 0 src.words := by
      rw [← ha.radix_eq]
      exact radix_congr fun i _ hi => hkeep i (by omega)
    rw [hwords, hbuf, shifted_of_le hle, hsplit, radix_add, hrest, add_zero, hfront]
  constructor
  · refine wellFormed_of_lt (fun i _ hi => ?_) ?_ ?_
    · rw [hwords] at hi
      rw [hbuf]
      by_cases hfront : i < intg0 + roundUp src.frac
      · rw [hkeep i hfront]
        exact ha.range i zero_le (by omega)
      · rw [hzero i (by omega) (by omega)]
        exact ⟨le_rfl, digBase_pos⟩
    · have hpow : digBase ^ F = digBase ^ roundUp src.frac * digBase ^ (F - roundUp src.frac) := by
        rw [← pow_add, Nat.add_sub_cancel' hle]
      rw [hshifted, hfrac, hintg, shifted_of_le hle, hpow, ← mul_assoc]
      refine mul_lt_mul_of_pos_right (h.radix_lt_pow.trans_le ?_) (pow_pos digBase_pos _)
      exact mul_le_mul_of_nonneg_right (pow_le_pow_right₀ (by norm_num) ha.intg_le)
        (pow_pos digBase_pos _).le
    · have hfracr : r.frac = scale.toNat := by rw [← hr]
      rw [hshifted, hfrac, hfracr]
      exact h.dvd_shifted hle (by omega)
  · have hsign : r.sign = src.sign := by rw [← hr, ha.sign_eq]
    rw [value_eq_signed, hsign, magnitude, hshifted, hfrac, ← magnitude_eq_shifted hle]

/-- The one that is added to the last digit gets lost: no digit of the operand is kept, and its
integer part has whole words. -/
def Decimal.Lost (src : Decimal) (scale : ℤ) (mode : RoundMode) : Prop :=
  0 < src.intg ∧ 9 ∣ src.intg ∧ scale = -src.intg ∧ src.increment scale mode = 1

section Whole

variable {src : Decimal} {dst : Option Decimal} {scale : ℤ} {mode : RoundMode}

theorem AlignedCopy.round {res : Decimal} {intg0 F : ℕ} (ha : AlignedCopy src res intg0 F)
    (h : src.WellFormed) (hF : roundUp scale.toNat = F) (hscale : 0 ≤ scale + src.intg)
    (hintg0 : intg0 = roundUp src.intg ∨ 0 < roundUp src.intg + scaleWords scale) :
    let r := if (roundUp src.frac : ℤ) < scaleWords scale then
        (.ok, { res with
          buf := fillWords 0 res.buf (intg0 + roundUp src.frac)
            (scaleWords scale - roundUp src.frac).toNat
          frac := scale.toNat })
      else if (src.frac : ℤ) ≤ scale then (.ok, { res with frac := scale.toNat })
      else roundKept res mode (roundDigit mode src.sign) intg0 (scaleWords scale)
        (roundUp src.frac) scale .ok
    r.2.WellFormed ∧ (src.Lost scale mode → r.2.value = 0) ∧ (¬ src.Lost scale mode → r.2.value =
        signed src.sign ((⌊src.units scale⌋ + src.increment scale mode : ℤ) / 10 ^ scale)) := by
  intro r
  obtain ⟨z, t, hfrac0, hone, hdigits, ht⟩ := scaleWords_spec scale
  rw [hF] at hfrac0 hone
  -- If all digits are kept, none gets lost.
  have hexact : (src.frac : ℤ) ≤ scale → r.2.WellFormed ∧
      r.2.value = signed src.sign src.magnitude →
      r.2.WellFormed ∧ (src.Lost scale mode → r.2.value = 0) ∧
      (¬ src.Lost scale mode → r.2.value =
        signed src.sign ((⌊src.units scale⌋ + src.increment scale mode : ℤ) / 10 ^ scale)) := by
    rintro hfrac ⟨hwf, hvalue⟩
    refine ⟨hwf, fun hlost => ?_, fun _ => ?_⟩
    · obtain ⟨hpos, -, heq, -⟩ := hlost
      omega
    · rw [hvalue, h.increment_exact hfrac, add_zero, h.floor_units_div hfrac]
  have hle := le_roundUp_mul src.frac
  by_cases hextend : (roundUp src.frac : ℤ) < scaleWords scale
  · refine hexact (by omega) ?_
    have hr : r = (.ok, { res with
        buf := fillWords 0 res.buf (intg0 + roundUp src.frac)
          (scaleWords scale - roundUp src.frac).toNat
        frac := scale.toNat }) := if_pos hextend
    rw [hr]
    refine ha.extend h hF (by omega) (fun i hi => ?_) fun i hi hi' => ?_
    · rw [fillWords_eq, if_neg (by omega)]
    · rw [fillWords_eq, if_pos (by omega)]
  by_cases hkeep : (src.frac : ℤ) ≤ scale
  · refine hexact hkeep ?_
    have hr : r = (.ok, { res with frac := scale.toNat }) := (if_neg hextend).trans (if_pos hkeep)
    rw [hr]
    exact ha.extend h hF hkeep (fun _ _ => rfl) fun i hi hi' => by omega
  have hr : r = roundKept res mode (roundDigit mode src.sign) intg0 (scaleWords scale)
      (roundUp src.frac) scale .ok := (if_neg hextend).trans (if_neg hkeep)
  rw [hr]
  obtain ⟨hwf, hvalue⟩ := roundKept_spec mode ha h hF hscale (by omega)
  have hlost : (intg0 + scaleWords scale = 0 ∧ 0 < intg0 ∧ src.increment scale mode = 1) ↔
      src.Lost scale mode := by
    have hintg := le_roundUp_mul src.intg
    have hroundUp : roundUp src.intg * 9 < src.intg + 9 := by
      rw [roundUp]
      omega
    have hintg' : roundUp src.intg ≤ intg0 := by
      rw [← ha.intg_eq, roundUp_le_iff]
      exact ha.intg_le.trans (le_roundUp_mul _)
    constructor
    · rintro ⟨hnone, hpos, hincrement⟩
      exact ⟨by omega, ⟨intg0, by omega⟩, by omega, hincrement⟩
    · rintro ⟨hpos, ⟨k, hk⟩, heq, hincrement⟩
      exact ⟨by omega, by omega, hincrement⟩
  refine ⟨hwf, fun h => ?_, fun h => ?_⟩
  · rw [hvalue, if_pos (hlost.mpr h)]
  · rw [hvalue, if_neg fun hcontra => h (hlost.mp hcontra)]

end Whole

/-! ### `HALF_UP` and `TRUNCATE` -/

namespace Decimal

variable (d : Decimal) (scale : ℤ)

end Decimal

section

variable (x : ℚ) (s : ℤ) (r : ℚ)

end

namespace Decimal

variable (d : Decimal) (scale : ℤ)

end Decimal

end LibSources
