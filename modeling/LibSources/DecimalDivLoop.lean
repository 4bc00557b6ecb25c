import LibSources.DecimalDiv
import LibSources.LongDivision

/-!
# The Main Loop of the Division

One round divides the window of the running remainder and the next word by the divisor: the digit
that is stored is the quotient, and the window keeps the remainder. The guess of the digit is right
or one too large, and then the divisor is added back.
-/

namespace LibSources

open Int Function

def Digits (m : ℕ → ℤ) : Prop := ∀ i, 0 ≤ m i ∧ m i < digBase

variable {m : ℕ → ℤ} {y x carry : ℤ} {k : ℕ} {s : DivState}

theorem Digits.inRange (h : Digits m) (lo n : ℕ) : InRange digBase m lo n := fun i _ _ => h i

theorem Digits.update (h : Digits m) {i : ℕ} {w : ℤ} (hw : 0 ≤ w ∧ w < digBase) :
    Digits (update m i w) := fun j =>
  (h.inRange 0 (j + 1)).update hw j zero_le (by omega)

structure Divisor.Valid (v : Divisor) : Prop where
  range : InRange digBase v.words 0 (v.len2 + 1)
  first : 1 ≤ v.words 0

def Divisor.value (v : Divisor) : ℤ := radix digBase v.words 0 (v.len2 + 1)

namespace Divisor

variable {v : Divisor}

theorem Valid.pow_le_value (h : v.Valid) : digBase ^ v.len2 ≤ v.value := by
  have hrest := (h.range.mono zero_le (by omega) : InRange digBase v.words 1 v.len2)
  have hpow : 0 < digBase ^ v.len2 := pow_pos digBase_pos _
  rw [value, radix_succ_left]
  nlinarith [hrest.radix_nonneg, h.first]

theorem Valid.value_pos (h : v.Valid) : 0 < v.value :=
  (pow_pos digBase_pos _).trans_le h.pow_le_value

theorem Valid.normFactor_pos (h : v.Valid) : 0 < v.normFactor := by
  have hlt := (h.range 0 le_rfl (by omega)).2
  have hfirst := h.first
  have hone : 1 ≤ v.normFactor := (Int.le_ediv_iff_mul_le (by omega)).mpr (by omega)
  omega

theorem Valid.half_le_normFactor (h : v.Valid) : digBase ≤ 2 * (v.normFactor * v.words 0) := by
  have hlt := (h.range 0 le_rfl (by omega)).2
  have hbase : digBase = 2 * 500000000 := rfl
  have hhalf := half_le_scaled h.first (hbase ▸ hlt)
  rw [← hbase] at hhalf
  rw [normFactor]
  omega

theorem Valid.guess_one (h : v.Valid) (hlen : v.len2 = 0) (hy : 0 ≤ y ∧ y < digBase)
    (hlt : x < digBase * v.words 0) : v.guess x y = x / v.words 0 := by
  have hn := h.normFactor_pos
  have hfirst := h.first
  have hlow : v.normFactor * y / digBase / v.normFactor = 0 := by
    refine ediv_eq_zero_of_lt (ediv_nonneg (by nlinarith) digBase_pos.le) ?_
    rw [Int.ediv_lt_iff_lt_mul digBase_pos]
    nlinarith
  have hquotient : (v.normFactor * x + v.normFactor * y / digBase) / v.norm2 = x / v.words 0 := by
    rw [norm2, hlen, if_neg (lt_irrefl 0), add_zero, ← ediv_ediv_of_nonneg hn.le,
      mul_add_ediv_left _ _ hn.ne', hlow, add_zero]
  have hdigit : ¬ digBase ≤ x / v.words 0 := by
    rw [not_le, Int.ediv_lt_iff_lt_mul (by omega)]
    exact hlt
  simp only [guess, hquotient, if_neg hdigit, hlen, lt_irrefl, if_false]

theorem lowerGuess_eq {g : ℤ} (hY : 0 < v.words 0 * digBase + v.words 1) :
    v.lowerGuess x y g =
      if (x * digBase + y) / (v.words 0 * digBase + v.words 1) < g then g - 1 else g := by
  have hiff : (x - g * v.words 0) * digBase + y < v.words 1 * g ↔
      (x * digBase + y) / (v.words 0 * digBase + v.words 1) < g := by
    rw [Int.ediv_lt_iff_lt_mul hY]
    constructor <;> intro h <;> nlinarith
  rw [lowerGuess]
  simp only [hiff]

theorem Valid.guess_two (h : v.Valid) (hlen : 0 < v.len2) (hx : 0 ≤ x) (hy : 0 ≤ y) : v.guess x y =
      min ((x * digBase + y) / (v.words 0 * digBase + v.words 1)) (digBase - 1) := by
  have hn := h.normFactor_pos
  have hfirst := h.first
  have hsecond := (h.range 1 (by omega) (by omega)).1
  have hbase := digBase_pos
  have hU : 0 ≤ x * digBase + y := by positivity
  have hY : 0 < v.words 0 * digBase + v.words 1 := by positivity
  -- the scaled quotient
  have hscale : ∀ a b, v.normFactor * a + v.normFactor * b / digBase =
      v.normFactor * (a * digBase + b) / digBase := fun a b => by
    rw [mul_add, ← mul_assoc, add_comm, ← add_mul_ediv_right _ _ hbase.ne', add_comm]
  have hnorm : v.norm2 = v.normFactor * (v.words 0 * digBase + v.words 1) / digBase := by
    rw [norm2, if_pos hlen, hscale]
  have hN : digBase ≤ 2 * (v.normFactor * (v.words 0 * digBase + v.words 1) / digBase) := by
    have hle : v.normFactor * v.words 0 ≤ v.norm2 := by
      rw [norm2, if_pos hlen]
      exact le_add_of_nonneg_right (ediv_nonneg (by positivity) hbase.le)
    have hhalf := h.half_le_normFactor
    rw [← hnorm]
    omega
  have hge := le_trialQuotient hn hbase hU hN
  have hle := trialQuotient_le hn hbase hU hN
  simp only [guess, hscale, hnorm, if_pos hlen, lowerGuess_eq hY]
  generalize v.normFactor * (x * digBase + y) / digBase /
    (v.normFactor * (v.words 0 * digBase + v.words 1) / digBase) = g at hge hle ⊢
  generalize (x * digBase + y) / (v.words 0 * digBase + v.words 1) = q at hge hle ⊢
  split_ifs <;> omega

/-- The number that a round divides: the carry and the words below it. -/
def window (v : Divisor) (tmp1 : ℕ → ℤ) (start1 : ℕ) (dcarry : ℤ) : ℤ :=
  dcarry * digBase ^ (v.len2 + 1) + radix digBase tmp1 start1 (v.len2 + 1)

variable {tmp1 : ℕ → ℤ} {start1 : ℕ} {dcarry : ℤ}

theorem window_nonneg (ht : Digits tmp1) (hd : 0 ≤ dcarry) : 0 ≤ v.window tmp1 start1 dcarry := by
  have hwords := (ht.inRange start1 (v.len2 + 1)).radix_nonneg
  have hbase := digBase_pos
  rw [window]
  positivity

theorem Valid.guess_bounds (h : v.Valid) (ht : Digits tmp1) (hd : 0 ≤ dcarry)
    (hlt : v.window tmp1 start1 dcarry < digBase * v.value) :
    let g := v.guess (tmp1 start1 + dcarry * digBase) (tmp1 (start1 + 1))
    v.window tmp1 start1 dcarry / v.value ≤ g ∧
      g ≤ v.window tmp1 start1 dcarry / v.value + 1 ∧ 0 ≤ g ∧ g < digBase := by
  have hbase := digBase_pos
  have hvalue := h.value_pos
  have hnonneg : 0 ≤ v.window tmp1 start1 dcarry / v.value :=
    ediv_nonneg (window_nonneg ht hd) hvalue.le
  have hdigit : v.window tmp1 start1 dcarry / v.value < digBase := by
    rwa [Int.ediv_lt_iff_lt_mul hvalue]
  have hx : 0 ≤ tmp1 start1 + dcarry * digBase := by
    have := (ht start1).1
    positivity
  intro g
  rcases eq_zero_or_pos v.len2 with hlen | hlen
  · have hwindow : v.window tmp1 start1 dcarry = tmp1 start1 + dcarry * digBase := by
      rw [window, hlen, zero_add, pow_one, radix_one, add_comm]
    have hv : v.value = v.words 0 := by rw [value, hlen, zero_add, radix_one]
    rw [hwindow, hv] at hlt hnonneg hdigit ⊢
    have hg : g = _ := h.guess_one hlen (ht (start1 + 1)) hlt
    rw [← hg] at hnonneg hdigit ⊢
    omega
  -- the leading digits of the window and of the divisor
  obtain ⟨k, hk⟩ : ∃ k, v.len2 = k + 1 := ⟨v.len2 - 1, by omega⟩
  set X := (tmp1 start1 + dcarry * digBase) * digBase + tmp1 (start1 + 1) with hX
  set Y := v.words 0 * digBase + v.words 1 with hY
  have hwindow : v.window tmp1 start1 dcarry =
      X * digBase ^ k + radix digBase tmp1 (start1 + 2) k := by
    rw [window, hk, radix_succ_left, radix_succ_left]
    ring
  have hv : v.value = Y * digBase ^ k + radix digBase v.words 2 k := by
    rw [value, hk, radix_succ_left, radix_succ_left]
    ring
  have hlow := ht.inRange (start1 + 2) k
  have hvlow := (h.range.mono zero_le (by omega) : InRange digBase v.words 2 k)
  have hYge : digBase ≤ Y := by
    have := (h.range 1 (by omega) (by omega)).1
    nlinarith [h.first]
  have hXnonneg : 0 ≤ X := add_nonneg (by positivity) (ht (start1 + 1)).1
  rw [hwindow, hv] at hlt hdigit hnonneg ⊢
  obtain ⟨hle, hge⟩ := leading_quotient ⟨hlow.radix_nonneg, hlow.radix_lt⟩
    ⟨hvlow.radix_nonneg, hvlow.radix_lt⟩ hYge hbase hXnonneg hlt
  have hg : g = min (X / Y) (digBase - 1) := h.guess_two hlen hx (ht (start1 + 1)).1
  rw [hg]
  generalize X / Y = q at hle hge ⊢
  omega

end Divisor

section

variable {v : Divisor} {tmp1 : ℕ → ℤ} {start1 : ℕ}

theorem multiplySubtract_spec (start1 : ℕ) {guess : ℤ} (hv : InRange digBase v.words 0 k)
    (ht : Digits tmp1) (hg : 0 ≤ guess ∧ guess < digBase) (hc : 0 ≤ carry ∧ carry ≤ digBase) :
    let r := multiplySubtract v guess start1 k tmp1 carry
    radix digBase tmp1 start1 k - guess * radix digBase v.words 0 k - carry =
        radix digBase r.1 start1 k - r.2 * digBase ^ k ∧
      Digits r.1 ∧ ∀ i, i < start1 ∨ start1 + k ≤ i → r.1 i = tmp1 i := by
  induction k generalizing tmp1 carry with
  | zero =>
    refine ⟨?_, ht, fun _ _ => rfl⟩
    simp only [multiplySubtract, radix_zero, pow_zero]
    ring
  | succ k ih =>
    have hbase := digBase_pos
    have hword := hv k zero_le (by omega)
    -- the product of the guess and a word has two words
    have hx : 0 ≤ guess * v.words k := mul_nonneg hg.1 hword.1
    have hhi : 0 ≤ guess * v.words k / digBase := ediv_nonneg hx hbase.le
    have hhi' : guess * v.words k / digBase ≤ digBase - 2 := by
      have hprod : guess * v.words k ≤ (digBase - 1) * (digBase - 1) :=
        mul_le_mul (by omega) (by omega) hword.1 (by omega)
      have hdigit : digBase = 1000000000 := rfl
      rw [← Int.lt_add_one_iff, Int.ediv_lt_iff_lt_mul hbase]
      rw [hdigit] at hprod ⊢
      omega
    have hlo : guess * v.words k - guess * v.words k / digBase * digBase =
        guess * v.words k % digBase := by rw [emod_def]; ring
    have hsub := subWord2_spec (ht (start1 + k)) (b := guess * v.words k % digBase)
      ⟨emod_nonneg _ hbase.ne', emod_lt_of_pos _ hbase⟩ hc
    simp only [multiplySubtract, hlo]
    generalize subWord2 (tmp1 (start1 + k)) (guess * v.words k % digBase) carry = s at hsub ⊢
    obtain ⟨hword', hrange, hcarry⟩ := hsub
    obtain ⟨heq, hdigits, houtside⟩ := ih (hv.mono le_rfl (by omega)) (ht.update hrange)
      (show 0 ≤ s.2 + guess * v.words k / digBase ∧ _ ≤ digBase from ⟨by omega, by omega⟩)
    refine ⟨?_, hdigits, fun i hi => ?_⟩
    · have hlast : (multiplySubtract v guess start1 k (update tmp1 (start1 + k) s.1)
          (s.2 + guess * v.words k / digBase)).1 (start1 + k) = s.1 := by
        rw [houtside _ (.inr le_rfl), update_self]
      rw [radix_update (.inr le_rfl)] at heq
      rw [radix_succ, radix_succ, radix_succ, hlast, zero_add, pow_succ]
      linear_combination digBase * heq + hword' - hlo
    · rw [houtside i (by omega), update_of_ne (by omega)]

theorem addBack_spec (start1 : ℕ) (hv : InRange digBase v.words 0 k) (ht : Digits tmp1)
    (hc : 0 ≤ carry ∧ carry ≤ 1) :
    let r := addBack v start1 k tmp1 carry
    (∃ c, radix digBase tmp1 start1 k + radix digBase v.words 0 k + carry =
        radix digBase r start1 k + c * digBase ^ k) ∧
      Digits r ∧ ∀ i, i < start1 ∨ start1 + k ≤ i → r i = tmp1 i := by
  induction k generalizing tmp1 carry with
  | zero =>
    refine ⟨⟨carry, ?_⟩, ht, fun _ _ => rfl⟩
    simp only [addBack, radix_zero, pow_zero]
    ring
  | succ k ih =>
    have hadd := addWord_spec (ht (start1 + k)) (hv k zero_le (by omega)) hc
    simp only [addBack]
    generalize addWord (tmp1 (start1 + k)) (v.words k) carry = s at hadd ⊢
    obtain ⟨hword, hrange, hcarry⟩ := hadd
    obtain ⟨⟨c, heq⟩, hdigits, houtside⟩ := ih (hv.mono le_rfl (by omega)) (ht.update hrange) hcarry
    refine ⟨⟨c, ?_⟩, hdigits, fun i hi => ?_⟩
    · have hlast : addBack v start1 k (update tmp1 (start1 + k) s.1) s.2 (start1 + k) = s.1 := by
        rw [houtside _ (.inr le_rfl), update_self]
      rw [radix_update (.inr le_rfl)] at heq
      rw [radix_succ, radix_succ, radix_succ, hlast, zero_add, pow_succ]
      linear_combination digBase * heq + hword
    · rw [houtside i (by omega), update_of_ne (by omega)]

theorem divStep_spec {dcarry : ℤ} (hv : v.Valid) (ht : Digits tmp1) (hd : 0 ≤ dcarry)
    (hlt : v.window tmp1 start1 dcarry < digBase * v.value) :
    let r := divStep v tmp1 start1 dcarry
    r.1 = v.window tmp1 start1 dcarry / v.value ∧
      radix digBase r.2 start1 (v.len2 + 1) = v.window tmp1 start1 dcarry % v.value ∧
      Digits r.2 ∧ ∀ i, i < start1 ∨ start1 + (v.len2 + 1) ≤ i → r.2 i = tmp1 i := by
  have hbase := digBase_pos
  have hvalue := hv.value_pos
  have hvlt : v.value < digBase ^ (v.len2 + 1) := hv.range.radix_lt
  by_cases hshort : dcarry = 0 ∧ tmp1 start1 < v.words 0
  · -- the window is below the divisor
    have hwindow : v.window tmp1 start1 dcarry = radix digBase tmp1 start1 (v.len2 + 1) := by
      rw [Divisor.window, hshort.1, zero_mul, zero_add]
    have hless : v.window tmp1 start1 dcarry < v.value := by
      have hpow : 0 < digBase ^ v.len2 := pow_pos hbase _
      have hrest := (ht.inRange (start1 + 1) v.len2).radix_lt
      have hvrest := (hv.range.mono zero_le (by omega) :
        InRange digBase v.words 1 v.len2).radix_nonneg
      rw [hwindow, Divisor.value, radix_succ_left, radix_succ_left]
      nlinarith [hshort.2]
    have hnonneg : 0 ≤ v.window tmp1 start1 dcarry := Divisor.window_nonneg ht hd
    rw [divStep, if_pos hshort, ediv_eq_zero_of_lt hnonneg hless, emod_eq_of_lt hnonneg hless]
    exact ⟨rfl, hwindow.symm, ht, fun _ _ => rfl⟩
  obtain ⟨hge, hle, hg1, hg2⟩ := hv.guess_bounds ht hd hlt
  rw [divStep, if_neg hshort]
  generalize v.guess (tmp1 start1 + dcarry * digBase) (tmp1 (start1 + 1)) = g at hge hle hg1 hg2 ⊢
  obtain ⟨hsub, hdigits, houtside⟩ := multiplySubtract_spec start1 hv.range ht
    ⟨hg1, hg2⟩ ⟨le_refl (0 : ℤ), hbase.le⟩
  dsimp only
  generalize multiplySubtract v g start1 (v.len2 + 1) tmp1 0 = m at hsub hdigits houtside ⊢
  have hrange := hdigits.inRange start1 (v.len2 + 1)
  have hdiv := mul_ediv_add_emod (v.window tmp1 start1 dcarry) v.value
  have hmod := emod_nonneg (v.window tmp1 start1 dcarry) hvalue.ne'
  have hmod' := emod_lt_of_pos (v.window tmp1 start1 dcarry) hvalue
  -- what is left of the window, up to the difference of the carries
  have hleft : v.window tmp1 start1 dcarry - g * v.value =
      (dcarry - m.2) * digBase ^ (v.len2 + 1) + radix digBase m.1 start1 (v.len2 + 1) := by
    rw [Divisor.window, Divisor.value]
    linear_combination hsub
  have hremainder : 0 ≤ v.window tmp1 start1 dcarry % v.value ∧
      v.window tmp1 start1 dcarry % v.value < digBase ^ (v.len2 + 1) := ⟨hmod, hmod'.trans hvlt⟩
  have hpow : 0 < digBase ^ (v.len2 + 1) := pow_pos hbase _
  have hrest := hrange.radix_nonneg
  have hrest' := hrange.radix_lt
  by_cases hcarry : dcarry < m.2
  · -- the guess is one too large
    have hguess : g = v.window tmp1 start1 dcarry / v.value + 1 := by
      by_contra hne
      have hguess : g = v.window tmp1 start1 dcarry / v.value := by omega
      rw [hguess] at hleft
      nlinarith
    obtain ⟨⟨c, hadd⟩, hdigits', houtside'⟩ := addBack_spec start1 hv.range hdigits
      ⟨le_refl (0 : ℤ), Int.one_nonneg⟩
    have hrange' := hdigits'.inRange start1 (v.len2 + 1)
    rw [if_pos hcarry]
    refine ⟨by dsimp only; omega, ?_, hdigits', fun i hi => (houtside' i hi).trans (houtside i hi)⟩
    refine eq_of_add_mul (t := dcarry - m.2 + c) hremainder
      ⟨hrange'.radix_nonneg, hrange'.radix_lt⟩ ?_
    rw [hguess] at hleft
    rw [← Divisor.value] at hadd
    linear_combination hdiv + hleft + hadd
  · have hguess : g = v.window tmp1 start1 dcarry / v.value := by
      by_contra hne
      have hguess : g = v.window tmp1 start1 dcarry / v.value + 1 := by omega
      rw [hguess] at hleft
      nlinarith
    rw [if_neg hcarry]
    refine ⟨hguess, ?_, hdigits, houtside⟩
    refine eq_of_add_mul (t := dcarry - m.2) hremainder ⟨hrest, hrest'⟩ ?_
    rw [hguess] at hleft
    linear_combination hdiv + hleft

end

/-! ### The loop -/

/-- The running remainder: the carry and the words of the window but the last. -/
def DivState.remainder (v : Divisor) (s : DivState) : ℤ :=
  s.dcarry * digBase ^ v.len2 + radix digBase s.tmp1 s.start1 v.len2

/-- What every round keeps: the running remainder is below the divisor. -/
structure DivState.Reduced (v : Divisor) (s : DivState) : Prop where
  digits : Digits s.tmp1
  dcarry_nonneg : 0 ≤ s.dcarry
  remainder_lt : s.remainder v < v.value

theorem DivState.window_eq (v : Divisor) (s : DivState) :
    v.window s.tmp1 s.start1 s.dcarry = s.remainder v * digBase + s.tmp1 (s.start1 + v.len2) := by
  rw [Divisor.window, remainder, radix_succ]
  ring

variable {v : Divisor}

theorem DivState.Reduced.window_lt (h : s.Reduced v) :
    v.window s.tmp1 s.start1 s.dcarry < digBase * v.value := by
  have hword := (h.digits (s.start1 + v.len2)).2
  have hlt := h.remainder_lt
  have hbase := digBase_pos
  rw [s.window_eq]
  nlinarith

theorem DivState.Reduced.remainder_nonneg (h : s.Reduced v) : 0 ≤ s.remainder v := by
  have hwords := (h.digits.inRange s.start1 v.len2).radix_nonneg
  have hd := h.dcarry_nonneg
  have hbase := digBase_pos
  rw [DivState.remainder]
  positivity

theorem DivState.Reduced.next {v : Divisor} (hv : v.Valid) (h : s.Reduced v) (divMod : Bool) :
    let digit := (divStep v s.tmp1 s.start1 s.dcarry).1
    (s.next v divMod).Reduced v ∧ v.value * digit + (s.next v divMod).remainder v =
        s.remainder v * digBase + s.tmp1 (s.start1 + v.len2) ∧
      (0 ≤ digit ∧ digit < digBase) ∧
      ∀ i, s.start1 + v.len2 < i → (s.next v divMod).tmp1 i = s.tmp1 i := by
  have hvalue := hv.value_pos
  obtain ⟨hquotient, hrest, hdigits, houtside⟩ := divStep_spec hv h.digits h.dcarry_nonneg
    h.window_lt
  have hremainder : (s.next v divMod).remainder v =
      v.window s.tmp1 s.start1 s.dcarry % v.value := by
    rw [← hrest, radix_succ_left]
    rfl
  intro digit
  refine ⟨⟨hdigits, (hdigits s.start1).1, ?_⟩, ?_, ?_, fun i hi => houtside i (.inr hi)⟩
  · rw [hremainder]
    exact emod_lt_of_pos _ hvalue
  · rw [hremainder, ← s.window_eq, show digit = _ from hquotient]
    exact mul_ediv_add_emod _ _
  · rw [show digit = _ from hquotient]
    exact ⟨Int.ediv_nonneg (Divisor.window_nonneg h.digits h.dcarry_nonneg) hvalue.le, by
      rw [Int.ediv_lt_iff_lt_mul hvalue]; exact h.window_lt⟩

theorem divLoop_spec (hv : v.Valid) (h : s.Reduced v) (k : ℕ) :
    radix digBase (divLoop v true k s).buf s.buf0 k =
        (s.remainder v * digBase ^ k + radix digBase s.tmp1 (s.start1 + v.len2) k) / v.value ∧
      InRange digBase (divLoop v true k s).buf s.buf0 k ∧
      ∀ i, i < s.buf0 ∨ s.buf0 + k ≤ i → (divLoop v true k s).buf i = s.buf i := by
  induction k generalizing s with
  | zero =>
    refine ⟨?_, fun i hi hi' => by omega, fun _ _ => rfl⟩
    rw [radix_zero, radix_zero, pow_zero, mul_one, add_zero,
      ediv_eq_zero_of_lt h.remainder_nonneg h.remainder_lt]
  | succ k ih =>
    obtain ⟨hnext, hdiv, hdigit, hwords⟩ := h.next hv true
    obtain ⟨heq, hrange, hbuf⟩ := ih hnext
    have hbuf0 : (s.next v true).buf0 = s.buf0 + 1 := rfl
    have hstart1 : (s.next v true).start1 + v.len2 = s.start1 + v.len2 + 1 :=
      Nat.add_right_comm s.start1 1 v.len2
    rw [hbuf0] at heq hrange hbuf
    rw [divLoop]
    have hfirst : (divLoop v true k (s.next v true)).buf s.buf0 =
        (divStep v s.tmp1 s.start1 s.dcarry).1 :=
      (hbuf _ (.inl (lt_add_one _))).trans (update_self _ _ _)
    refine ⟨?_, fun i hi hi' => ?_, fun i hi => ?_⟩
    · have hcongr : radix digBase (s.next v true).tmp1 (s.start1 + v.len2 + 1) k =
          radix digBase s.tmp1 (s.start1 + v.len2 + 1) k :=
        radix_congr fun i hi _ => hwords i hi
      rw [radix_succ_left, hfirst, heq, hstart1, hcongr, radix_succ_left, pow_succ, add_comm,
        ← add_mul_ediv_left _ _ hv.value_pos.ne']
      congr 1
      linear_combination digBase ^ k * hdiv
    · rcases eq_or_lt_of_le hi with rfl | hi
      · rw [hfirst]
        exact hdigit
      · exact hrange i hi (by omega)
    · exact (hbuf i (by omega)).trans (update_of_ne (by omega) _ _)

end LibSources
