import Mathlib.Tactic

/-!
# Rounding

Facts about `round` on the rationals, which rounds half up: for numbers that are not negative
this is half away from zero.
-/

namespace LibSources

variable {x : ℚ} {n : ℤ}

theorem round_eq_of_bounds (hlo : n - 1 / 2 ≤ x) (hhi : x < n + 1 / 2) : round x = n := by
  rw [round_eq, Int.floor_eq_iff]
  constructor <;> linarith

theorem le_round_of_le (h : n ≤ x) : n ≤ round x := by
  rw [round_eq, Int.le_floor]
  linarith

/-- The doubled remainder decides, also when less than one unit is not known. -/
theorem round_div_of_even {u d : ℤ} {θ : ℚ} (hd : 0 < d) (heven : 2 ∣ d)
    (hθ : 0 ≤ θ) (hθ' : θ < 1) :
    round ((u + θ) / d) = if d ≤ u % d * 2 then u / d + 1 else u / d := by
  have hdq : (0 : ℚ) < d := by exact_mod_cast hd
  have hu : (u : ℚ) = d * (u / d : ℤ) + (u % d : ℤ) := by
    exact_mod_cast (Int.mul_ediv_add_emod u d).symm
  obtain ⟨e, rfl⟩ := heven
  have hmod := Int.emod_lt_of_pos u hd
  have hmod' := Int.emod_nonneg u hd.ne'
  push_cast at hdq hu ⊢
  split
  case isTrue hup =>
      have hge : (e : ℚ) ≤ (u % (2 * e) : ℤ) := by exact_mod_cast (by omega : e ≤ u % (2 * e))
      have hlt : ((u % (2 * e) : ℤ) : ℚ) + 1 ≤ 2 * e := by
        exact_mod_cast (by omega : u % (2 * e) + 1 ≤ 2 * e)
      apply round_eq_of_bounds
      · rw [le_div_iff₀ hdq, hu]
        push_cast
        nlinarith
      rw [div_lt_iff₀ hdq, hu]
      push_cast
      nlinarith
  case isFalse hdown =>
      have hlt : ((u % (2 * e) : ℤ) : ℚ) + 1 ≤ e := by
        exact_mod_cast (by omega : u % (2 * e) + 1 ≤ e)
      have hge : (0 : ℚ) ≤ (u % (2 * e) : ℤ) := by exact_mod_cast hmod'
      apply round_eq_of_bounds
      · rw [le_div_iff₀ hdq, hu]
        nlinarith
      · rw [div_lt_iff₀ hdq, hu]
        nlinarith

end LibSources
