import Mathlib.Tactic

/-!
# Trial Quotients

In long division a quotient digit is guessed from leading digits. The guess is good: the quotient
of the three leading digits by the two leading digits of the divisor is at most one too large,
and the quotient of both after a scaling of the divisor is at most two above it.
-/

namespace LibSources

theorem mul_add_lt_mul {a b r base : ℤ} (hab : a < b) (hr : r < base) (hbase : 0 ≤ base) :
    a * base + r < b * base :=
  calc a * base + r < a * base + base := Int.add_lt_add_left hr _
    _ = (a + 1) * base := by ring
    _ ≤ b * base := mul_le_mul_of_nonneg_right hab hbase

theorem eq_of_add_mul {P t r R : ℤ} (hr : 0 ≤ r ∧ r < P) (hR : 0 ≤ R ∧ R < P)
    (h : r = t * P + R) : R = r := by
  have ht : t = 0 := by
    by_contra hne
    rcases lt_or_gt_of_ne hne with hlt | hgt <;> nlinarith
  rw [h, ht, zero_mul, zero_add]

/-- The quotient of the leading parts of two numbers is the quotient or one more, if the
leading part of the divisor is not below the bound of the quotient. -/
theorem leading_quotient {X Y P u v base : ℤ} (hu : 0 ≤ u ∧ u < P) (hv : 0 ≤ v ∧ v < P)
    (hY : base ≤ Y) (hbase : 0 < base) (hX : 0 ≤ X) (hlt : X * P + u < base * (Y * P + v)) :
    (X * P + u) / (Y * P + v) ≤ X / Y ∧ X / Y ≤ (X * P + u) / (Y * P + v) + 1 := by
  have hP : 0 < P := hu.1.trans_lt hu.2
  have hYpos : 0 < Y := hbase.trans_le hY
  have hV : 0 < Y * P + v := by nlinarith
  set q := (X * P + u) / (Y * P + v) with hq
  have hq1 : q * (Y * P + v) ≤ X * P + u := Int.ediv_mul_le _ hV.ne'
  have hq2 : X * P + u < (q + 1) * (Y * P + v) := Int.lt_ediv_add_one_mul_self _ hV
  have hqnonneg : 0 ≤ q := Int.ediv_nonneg (by nlinarith) hV.le
  have hqlt : q < base := by
    by_contra hge
    have hge : base ≤ q := not_lt.mp hge
    nlinarith
  constructor
  · -- the quotient is one of the multiples of `Y` below `X`
    rw [Int.le_ediv_iff_mul_le hYpos]
    have hlt' : q * Y * P < (X + 1) * P := by nlinarith
    have := lt_of_mul_lt_mul_right hlt' hP.le
    omega
  by_contra hge
  have hge : q + 2 ≤ X / Y := by omega
  rw [Int.le_ediv_iff_mul_le hYpos] at hge
  have hlt' : X * P < (q + 1) * (Y + 1) * P := by nlinarith
  have := lt_of_mul_lt_mul_right hlt' hP.le
  nlinarith

theorem half_le_scaled {h v : ℤ} (hv : 1 ≤ v) (hvh : v < 2 * h) : h ≤ 2 * h / (v + 1) * v := by
  set n := 2 * h / (v + 1) with hn
  have hn1 : 2 * h < (n + 1) * (v + 1) := Int.lt_ediv_add_one_mul_self _ (by omega)
  have hn2 : 1 ≤ n := (Int.le_ediv_iff_mul_le (by omega)).mpr (by omega)
  by_contra hlt
  have hlt : n * v ≤ h - 1 := by omega
  -- then `n` is large, and so is `n * v`
  have hlarge : h - v + 1 ≤ n := by nlinarith
  have hvle : v ≤ h := by nlinarith
  nlinarith [mul_nonneg (sub_nonneg.mpr hv) (sub_nonneg.mpr hvle)]

section

variable {n U V base : ℤ} (hn : 0 < n) (hbase : 0 < base) (hU : 0 ≤ U)
  (hN : base ≤ 2 * (n * V / base))

include hn hbase hN

theorem pos_of_scaled : 0 < V := by
  have hN1 : n * V / base * base ≤ n * V := Int.ediv_mul_le _ hbase.ne'
  have hNpos : 0 < n * V / base := by omega
  exact pos_of_mul_pos_right ((mul_pos hNpos hbase).trans_le hN1) hn.le

include hU

theorem le_trialQuotient : U / V ≤ n * U / base / (n * V / base) := by
  have hV := pos_of_scaled hn hbase hN
  have hq : U / V * V ≤ U := Int.ediv_mul_le _ hV.ne'
  have hqnonneg : 0 ≤ U / V := Int.ediv_nonneg hU hV.le
  have hN1 : n * V / base * base ≤ n * V := Int.ediv_mul_le _ hbase.ne'
  rw [Int.le_ediv_iff_mul_le (by omega), Int.le_ediv_iff_mul_le hbase]
  calc U / V * (n * V / base) * base = U / V * (n * V / base * base) := by ring
    _ ≤ U / V * (n * V) := mul_le_mul_of_nonneg_left hN1 hqnonneg
    _ = n * (U / V * V) := by ring
    _ ≤ n * U := mul_le_mul_of_nonneg_left hq hn.le

/-- The scaled quotient is at most two too large, for a quotient that is a digit. -/
theorem trialQuotient_le (hq : U / V < base) : n * U / base / (n * V / base) ≤ U / V + 2 := by
  have hV := pos_of_scaled hn hbase hN
  have hq2 : U < (U / V + 1) * V := Int.lt_ediv_add_one_mul_self _ hV
  have hqnonneg : 0 ≤ U / V := Int.ediv_nonneg hU hV.le
  have hN2 : n * V < (n * V / base + 1) * base := Int.lt_ediv_add_one_mul_self _ hbase
  rw [← Int.lt_add_one_iff, Int.ediv_lt_iff_lt_mul (by omega)]
  refine Int.lt_of_le_of_lt (Int.ediv_le_ediv hbase (mul_le_mul_of_nonneg_left hq2.le hn.le)) ?_
  rw [Int.ediv_lt_iff_lt_mul hbase]
  calc n * ((U / V + 1) * V) = (U / V + 1) * (n * V) := by ring
    _ < (U / V + 1) * ((n * V / base + 1) * base) := mul_lt_mul_of_pos_left hN2 (by omega)
    _ ≤ (U / V + 2 + 1) * (n * V / base) * base := by nlinarith

end

end LibSources
