import LibSources.DecimalBinDecode
import LibSources.Strtoll10

/-!
# Decimals as Text

A model of `decimal2string` and `internal_str2dec` of `strings/decimal.c`.

* The text is a memory of bytes from `to` or `from` on.
* `*to_len` is at least `2 + sign`, as `decimal2string` asserts, and `fixed_precision` is not less
  than `fixed_decimals`. Then no counter becomes negative.
* `decimal_shift`, which handles an exponent, is a parameter: the text of a decimal has none.

## Main results

* `string2decimal_decimal2string`: the round trip.
-/

namespace LibSources

open Int Decimal Function

/-! ### `decimal2string` -/

def charOfDigit (y : ℤ) : UInt8 := 48 + UInt8.ofNat y.toNat

/-- The last `k` digits of a word, stored before `p` from the last one on. -/
def printDown : ℕ → (ℕ → UInt8) → ℕ → ℤ → (ℕ → UInt8)
  | 0, mem, _, _ => mem
  | k + 1, mem, p, x =>
    printDown k (update mem (p - 1) (charOfDigit (x - x / 10 * 10))) (p - 1) (x / 10)

/-- The loop over the words of the integer part, from the last one on. It runs `ROUND_UP(intg)`
times. -/
def printIntg (buf : ℕ → ℤ) (pos : ℕ) : ℕ → (ℕ → UInt8) → ℕ → ℕ → (ℕ → UInt8)
  | 0, mem, _, _ => mem
  | n + 1, mem, intg, p =>
    printIntg buf pos n (printDown (min intg 9) mem p (buf (pos + n))) (intg - 9) (p - min intg 9)

def printUp : ℕ → (ℕ → UInt8) → ℕ → ℤ → (ℕ → UInt8)
  | 0, mem, _, _ => mem
  | k + 1, mem, p, x =>
    let y := x / powers10 8
    printUp k (update mem p (charOfDigit y)) (p + 1) ((x - y * powers10 8) * 10)

/-- The loop over the words of the fraction. It runs `ROUND_UP(frac)` times. -/
def printFrac (buf : ℕ → ℤ) : ℕ → (ℕ → UInt8) → ℕ → ℕ → ℕ → (ℕ → UInt8)
  | 0, mem, _, _, _ => mem
  | n + 1, mem, pos, frac, p =>
    printFrac buf n (printUp (min frac 9) mem p (buf pos)) (pos + 1) (frac - 9) (p + min frac 9)

def textLength (sign : Bool) (intgLen frac fracLen : ℕ) : ℕ :=
  sign.toNat + intgLen + (if frac = 0 then 0 else 1) + fracLen

def limitDigits (sign : Bool) (toLen fixedPrecision fixedDecimals intg frac intgLen fracLen : ℕ) :
    DecimalError × ℕ × ℕ × ℕ :=
  let len := textLength sign intgLen frac fracLen
  if fixedPrecision ≠ 0 then
    let (error, frac) := if fixedDecimals < frac then (.truncated, fixedDecimals) else (.ok, frac)
    let fixedIntg := fixedPrecision - fixedDecimals
    if fixedIntg < intg then (.overflow, fixedIntg, frac, len) else (error, intg, frac, len)
  else if toLen - 1 < len then
    let j := len - (toLen - 1)
    let error := if frac ≠ 0 ∧ j ≤ frac + 1 then .truncated else .overflow
    let j := if frac ≠ 0 ∧ frac + 1 ≤ j then j - 1 else j
    let (intg, frac) := if frac < j then (intg - (j - frac), 0) else (intg, frac - j)
    (error, intg, frac, textLength sign intgLen frac fracLen)
  else (.ok, intg, frac, len)

def printText (mem : ℕ → UInt8) (sign : Bool) (buf : ℕ → ℤ)
    (pos intg frac intgLen fracLen len : ℕ) (filler : UInt8) : ℕ → UInt8 :=
  let mem := update mem len 0
  let mem := if sign then update mem 0 45 else mem
  let s := sign.toNat
  let mem :=
    if frac ≠ 0 then
      store (printFrac buf (roundUp frac) (update mem (s + intgLen) 46)
        (pos + roundUp intg) frac (s + intgLen + 1)) (s + intgLen + 1 + frac)
        (List.replicate (fracLen - frac) filler)
    else mem
  let fill := intgLen - intg - (if intg = 0 then 1 else 0)
  let mem := store mem s (List.replicate fill filler)
  if intg ≠ 0 then printIntg buf pos (roundUp intg) mem intg (s + fill + intg)
  else update mem (s + fill) 48

def decimal2string (d : Decimal) (mem : ℕ → UInt8) (toLen fixedPrecision fixedDecimals : ℕ)
    (filler : UInt8) : DecimalError × ℕ × (ℕ → UInt8) :=
  let (pos, intg) := removeLeadingZeroes d
  -- a zero without digits is printed with one
  let zero : Bool := intg + d.frac = 0
  let intg := if zero then 1 else intg
  let buf : ℕ → ℤ := if zero then fun _ => 0 else d.buf
  let intgLen := if fixedPrecision ≠ 0 then fixedPrecision - fixedDecimals else intg
  let intgLen := if intgLen = 0 then 1 else intgLen
  let fracLen := if fixedPrecision ≠ 0 then fixedDecimals else d.frac
  let (error, intg, frac, len) :=
    limitDigits d.sign toLen fixedPrecision fixedDecimals intg d.frac intgLen fracLen
  (error, len, printText mem d.sign buf pos intg frac intgLen fracLen len filler)

def decimalStringSize (d : Decimal) : ℕ :=
  (if d.intg = 0 then 1 else d.intg) + d.frac + (if 0 < d.frac then 1 else 0) + 2

/-! ### `internal_str2dec` -/

/-- The loop over the digits of the integer part, from the last one on. -/
def readIntg (str : ℕ → UInt8) : ℕ → ℕ → ℤ → ℕ → ℕ → (ℕ → ℤ) → (ℕ → ℤ)
  | 0, _, x, i, b, buf => if i ≠ 0 then update buf (b - 1) x else buf
  | n + 1, s, x, i, b, buf =>
    let x := x + digitAt str (s - 1) * powers10 i
    if i + 1 = 9 then readIntg str n (s - 1) 0 0 (b - 1) (update buf (b - 1) x)
    else readIntg str n (s - 1) x (i + 1) b buf

/-- The loop over the digits of the fraction. -/
def readFrac (str : ℕ → UInt8) : ℕ → ℕ → ℤ → ℕ → ℕ → (ℕ → ℤ) → (ℕ → ℤ)
  | 0, _, x, i, b, buf => if i ≠ 0 then update buf b (x * powers10 (9 - i)) else buf
  | n + 1, s, x, i, b, buf =>
    let x := digitAt str (s + 1) + x * 10
    if i + 1 = 9 then readFrac str n (s + 1) 0 0 (b + 1) (update buf b x)
    else readFrac str n (s + 1) x (i + 1) b buf

/-- The digits that are kept: the error, the digits of both parts and `intg1`. -/
def limitWords (dst : Decimal) (fixed : Bool) (intg frac : ℕ) : DecimalError × ℕ × ℕ × ℕ :=
  if fixed then
    let (error, frac) := if dst.frac < frac then (.truncated, dst.frac) else (.ok, frac)
    let (error, intg) := if dst.intg < intg then (.overflow, dst.intg) else (error, intg)
    if dst.len < roundUp intg + roundUp frac then (.oom, intg, frac, roundUp intg)
    else (error, intg, frac, roundUp intg)
  else
    let (intg1, frac1, error) := fixIntgFracError dst.len (roundUp intg) (roundUp frac)
    if error = .ok then (error, intg, frac, intg1)
    else (error, if error = .overflow then intg1 * 9 else intg, frac1 * 9, intg1)

section

variable (shift : Decimal → ℤ → DecimalError × Decimal) (str : ℕ → UInt8)

def readExponent10
    (fin endp : ℕ) (error : DecimalError) (res : Decimal) : DecimalError × Decimal × ℕ :=
  if endp + 1 < fin ∧ (str endp = 101 ∨ str endp = 69) then
    let r := myStrtoll10 (fun i => str (endp + 1 + i)) (fin - (endp + 1)) (some (fin - (endp + 1)))
    let stop := endp + 1 + r.endptr.getD 0
    let exponent := r.value.toInt
    if stop = endp + 1 then (error, res, endp)
    else if r.error = .erange ∨ r.error = .edom then (.badNum, res.makeZero, stop)
    else if (2 ^ 31 - 1) / 2 < exponent ∨ (r.error = .ok ∧ exponent < 0) then
      (.overflow, res.makeZero, stop)
    else if exponent < -2 ^ 30 ∧ error ≠ .overflow then (.truncated, res.makeZero, stop)
    else if error ≠ .overflow then
      let (error, res) := shift res exponent
      (error, res, stop)
    else (error, res, stop)
  else (error, res, endp)

variable (fin : ℕ) (dst : Decimal)

def internalStr2dec (fixed : Bool) : DecimalError × Decimal × ℕ :=
  let s := scanWhile isSpaceLatin1 str fin 0
  if s = fin then (.badNum, dst.makeZero, fin)
  else
    let sign : Bool := str s = 45
    let first := if sign ∨ str s = 43 then s + 1 else s
    let s := scanWhile (fun c => IsDigit c) str (fin - first) first
    let intg := s - first
    let point : Bool := s < fin ∧ str s = 46
    let endp := if point then scanWhile (fun c => IsDigit c) str (fin - (s + 1)) (s + 1) else s
    let frac := if point then endp - s - 1 else 0
    if frac + intg = 0 then (.badNum, dst.makeZero, endp)
    else
      let (error, intg, frac, intg1) := limitWords dst fixed intg frac
      if error = .oom then (.oom, dst.makeZero, endp)
      else
        let buf := readFrac str frac s 0 0 intg1 (readIntg str intg s 0 0 intg1 dst.buf)
        readExponent10 shift str fin endp error { dst with intg, frac, sign, buf }

def string2decimal : DecimalError × Decimal × ℕ := internalStr2dec shift str fin dst false

end

/-! ### Digits in the text -/

variable {y x w : ℤ} {p pos frac intg toLen : ℕ} {buf : ℕ → ℤ} {c : UInt8} {dst : Decimal}

theorem charOfDigit_spec (hy : 0 ≤ y ∧ y < 10) :
    IsDigit (charOfDigit y) ∧ ((charOfDigit y).toNat : ℤ) - 48 = y := by
  obtain ⟨n, rfl⟩ := eq_ofNat_of_zero_le hy.1
  have hn : n < 10 := by omega
  interval_cases n <;> decide

theorem emod_mul_eq {a b : ℤ} (ha : 0 < a) (hb : 0 < b) : x % (a * b) = x / a % b * a + x % a := by
  have hlow := emod_nonneg x ha.ne'
  have hlow' := emod_lt_of_pos x ha
  have hhigh := emod_nonneg (x / a) hb.ne'
  have hhigh' := emod_lt_of_pos (x / a) hb
  have hx := mul_ediv_add_emod x a
  have hxa := mul_ediv_add_emod (x / a) b
  have hsum : x = (x / a % b * a + x % a) + a * b * (x / a / b) := by
    linear_combination -hx - a * hxa
  have hlt : x / a % b * a + x % a < a * b := by nlinarith
  have hnonneg : 0 ≤ x / a % b * a + x % a := by positivity
  conv_lhs => rw [hsum]
  rw [add_mul_emod_self_left, emod_eq_of_lt hnonneg hlt]

structure Prints (mem mem' : ℕ → UInt8) (lo n : ℕ) (v : ℤ) : Prop where
  chars : DigitChars mem' lo n
  value : digitsValue mem' lo n = v
  frame : ∀ i, i < lo ∨ lo + n ≤ i → mem' i = mem i

section Prints

variable {mem mem₁ mem₂ : ℕ → UInt8} {lo m n : ℕ} {u v : ℤ}

theorem Prints.nil (mem : ℕ → UInt8) (lo : ℕ) : Prints mem mem lo 0 0 :=
  ⟨fun _ hp hp' => by omega, rfl, fun _ _ => rfl⟩

theorem Prints.single (mem : ℕ → UInt8) (p : ℕ) (hy : 0 ≤ y ∧ y < 10) :
    Prints mem (update mem p (charOfDigit y)) p 1 y := by
  obtain ⟨hdigit, hvalue⟩ := charOfDigit_spec hy
  refine ⟨fun i hi hi' => ?_, ?_, fun i hi => update_of_ne (by omega) _ _⟩
  · rw [show i = p by omega, update_self]
    exact hdigit
  · rw [digitsValue_one, digitAt, update_self]
    exact hvalue

theorem Prints.join (hfront : DigitChars mem₂ lo m) (hfrontValue : digitsValue mem₂ lo m = u)
    (hback : DigitChars mem₂ (lo + m) n) (hbackValue : digitsValue mem₂ (lo + m) n = v)
    (hframe : ∀ i, i < lo ∨ lo + (m + n) ≤ i → mem₂ i = mem i) :
    Prints mem mem₂ lo (m + n) (u * 10 ^ n + v) := by
  refine ⟨fun i hi hi' => ?_, ?_, hframe⟩
  · rcases lt_or_ge i (lo + m) with hlt | hge
    · exact hfront i hi hlt
    · exact hback i hge (by omega)
  · rw [digitsValue_add, hfrontValue, hbackValue]

section

variable {mem mem' : ℕ → UInt8} {lo n : ℕ}

theorem digitsValue_congr (h : ∀ i, lo ≤ i → i < lo + n → mem' i = mem i) :
    digitsValue mem' lo n = digitsValue mem lo n :=
  radix_congr fun i hi hi' => by rw [digitAt, digitAt, h i hi hi']

theorem DigitChars.congr (h : DigitChars mem lo n)
    (heq : ∀ i, lo ≤ i → i < lo + n → mem' i = mem i) : DigitChars mem' lo n :=
  fun i hi hi' => by
    rw [heq i hi hi']
    exact h i hi hi'

end

theorem Prints.before (hback : Prints mem mem₁ (lo + m) n v) (hfront : Prints mem₁ mem₂ lo m u) :
    Prints mem mem₂ lo (m + n) (u * 10 ^ n + v) := by
  have hsame : ∀ i, lo + m ≤ i → i < lo + m + n → mem₂ i = mem₁ i :=
    fun i hi _ => hfront.frame i (.inr hi)
  refine Prints.join hfront.chars hfront.value (hback.chars.congr hsame)
    ((digitsValue_congr hsame).trans hback.value) fun i hi => ?_
  rw [hfront.frame i (by omega), hback.frame i (by omega)]

theorem Prints.behind (hfront : Prints mem mem₁ lo m u) (hback : Prints mem₁ mem₂ (lo + m) n v) :
    Prints mem mem₂ lo (m + n) (u * 10 ^ n + v) := by
  have hsame : ∀ i, lo ≤ i → i < lo + m → mem₂ i = mem₁ i := fun i _ hi => hback.frame i (.inl hi)
  refine Prints.join (hfront.chars.congr hsame) ((digitsValue_congr hsame).trans hfront.value)
    hback.chars hback.value fun i hi => ?_
  rw [hback.frame i (by omega), hfront.frame i (by omega)]

end Prints

section

variable (k : ℕ) (mem : ℕ → UInt8)

theorem printDown_spec (x : ℤ) (hp : k ≤ p) :
    Prints mem (printDown k mem p x) (p - k) k (x % 10 ^ k) := by
  induction k generalizing mem p x with
  | zero =>
    rw [pow_zero, emod_one]
    exact Prints.nil mem p
  | succ k ih =>
    have hdigit : x - x / 10 * 10 = x % 10 := by omega
    have hrange : 0 ≤ x % 10 ∧ x % 10 < 10 := by omega
    have hlast := Prints.single mem (p - (k + 1) + k) hrange
    have hpos : p - (k + 1) + k = p - 1 := by omega
    have hstart : p - 1 - k = p - (k + 1) := by omega
    rw [hpos] at hlast
    have hrest := ih (update mem (p - 1) (charOfDigit (x % 10))) (x / 10) (by omega : k ≤ p - 1)
    rw [hstart] at hrest
    rw [printDown, hdigit, pow_succ', emod_mul_eq (by decide) (by positivity)]
    rw [← hpos] at hlast
    exact hlast.before (by rw [hpos]; exact hrest)

theorem printIntg_spec (n : ℕ) (mem : ℕ → UInt8) (intg : ℕ) (hn : n = roundUp intg) (hp : intg ≤ p)
    (hrange : InRange digBase buf pos n) :
    Prints mem (printIntg buf pos n mem intg p) (p - intg) intg
      (radix digBase buf pos n % 10 ^ intg) := by
  induction n generalizing mem intg p with
  | zero =>
    have hintg : intg = 0 := by
      rw [roundUp] at hn
      omega
    rw [hintg, pow_zero, emod_one]
    exact Prints.nil mem p
  | succ n ih =>
    rw [printIntg]
    rcases le_or_gt intg 9 with hle | hgt
    · -- the first word
      have hzero : n = 0 := by
        rw [roundUp] at hn
        omega
      subst hzero
      rw [min_eq_left hle, printIntg, radix_one, add_zero]
      exact printDown_spec intg mem _ hp
    obtain ⟨m, rfl⟩ : ∃ m, intg = m + 9 := ⟨intg - 9, by omega⟩
    have hword := hrange (pos + n) (by omega) (by omega)
    have hlast := printDown_spec 9 mem (p := p) (buf (pos + n)) (by omega)
    have hrest := ih (printDown 9 mem p (buf (pos + n))) m (p := p - 9)
      (by rw [roundUp] at hn ⊢; omega) (by omega) (hrange.mono le_rfl (by omega))
    have hpos : p - (m + 9) + m = p - 9 := by omega
    have hstart : p - 9 - m = p - (m + 9) := by omega
    rw [hstart] at hrest
    rw [← hpos] at hlast
    rw [min_eq_right hgt.le, Nat.add_sub_cancel, radix_succ, add_comm m 9, pow_add,
      emod_mul_eq (by positivity) (by positivity), add_comm 9 m]
    have hbase : digBase = 10 ^ 9 := rfl
    have hquotient : (radix digBase buf pos n * digBase + buf (pos + n)) / 10 ^ 9 =
        radix digBase buf pos n := by
      rw [← hbase, add_comm, add_mul_ediv_right _ _ digBase_pos.ne',
        ediv_eq_zero_of_lt hword.1 hword.2, zero_add]
    have hremainder : (radix digBase buf pos n * digBase + buf (pos + n)) % 10 ^ 9 =
        buf (pos + n) % 10 ^ 9 := by
      rw [← hbase, add_comm, add_mul_emod_self_right]
    rw [hquotient, hremainder]
    exact hlast.before hrest

theorem printUp_spec (p : ℕ) (hk : k ≤ 9) (hx : 0 ≤ x ∧ x < digBase) :
    Prints mem (printUp k mem p x) p k (x / 10 ^ (9 - k)) := by
  induction k generalizing mem p x with
  | zero =>
    have hzero : x / 10 ^ (9 - 0) = 0 := ediv_eq_zero_of_lt hx.1 hx.2
    rw [hzero]
    exact Prints.nil mem p
  | succ k ih =>
    obtain ⟨e, he⟩ : ∃ e, 8 = k + e := ⟨8 - k, by omega⟩
    have hbase : digBase = powers10 8 * 10 := rfl
    have hmask : powers10 8 = 10 ^ k * 10 ^ e := by rw [powers10, he, pow_add]
    have hpos : 0 < powers10 8 := by decide
    have hrest : x - x / powers10 8 * powers10 8 = x % powers10 8 := by rw [emod_def, mul_comm]
    have hlow := emod_nonneg x hpos.ne'
    have hlow' := emod_lt_of_pos x hpos
    have hdigit : 0 ≤ x / powers10 8 ∧ x / powers10 8 < 10 :=
      ⟨ediv_nonneg hx.1 hpos.le, Int.ediv_lt_of_lt_mul hpos (by rw [mul_comm, ← hbase]; exact hx.2)⟩
    have hfirst := Prints.single mem p hdigit
    have hbehind := ih (update mem p (charOfDigit (x / powers10 8))) (p + 1)
      (x := x % powers10 8 * 10) (by omega) ⟨by omega, by rw [hbase]; omega⟩
    have hexp : 9 - k = e + 1 := by omega
    have hexp' : 9 - (k + 1) = e := by omega
    have hvalue : x / 10 ^ e = x / powers10 8 * 10 ^ k + x % powers10 8 * 10 / 10 ^ (e + 1) := by
      have hsplit : x = x % powers10 8 + x / powers10 8 * 10 ^ k * 10 ^ e := by
        rw [mul_assoc, ← hmask, mul_comm (x / powers10 8)]
        exact (emod_add_mul_ediv x (powers10 8)).symm
      rw [pow_succ, mul_ediv_mul_of_pos_left _ _ (by decide : (0 : ℤ) < 10)]
      conv_lhs => rw [hsplit]
      rw [add_mul_ediv_right _ _ (by positivity), add_comm]
    rw [printUp, hrest, hexp', hvalue, add_comm k 1]
    rw [hexp] at hbehind
    exact hfirst.behind hbehind

end

theorem printFrac_spec (n : ℕ) (mem : ℕ → UInt8) (pos : ℕ) (p : ℕ) (hn : n = roundUp frac)
    (hrange : InRange digBase buf pos n) :
    Prints mem (printFrac buf n mem pos frac p) p frac
      (radix digBase buf pos n / 10 ^ (n * 9 - frac)) := by
  induction n generalizing mem pos frac p with
  | zero =>
    have hfrac : frac = 0 := by
      rw [roundUp] at hn
      omega
    rw [hfrac, radix_zero, zero_ediv]
    exact Prints.nil mem p
  | succ n ih =>
    have hword := hrange pos le_rfl (by omega)
    rw [printFrac]
    rcases le_or_gt frac 9 with hle | hgt
    · -- the last word
      have hzero : n = 0 := by
        rw [roundUp] at hn
        omega
      subst hzero
      rw [min_eq_left hle, printFrac, radix_one]
      exact printUp_spec frac mem p hle hword
    obtain ⟨m, rfl⟩ : ∃ m, frac = 9 + m := ⟨frac - 9, by omega⟩
    have hround : n = roundUp m := by
      rw [roundUp] at hn ⊢
      omega
    have hle : m ≤ n * 9 := by
      rw [roundUp] at hround
      omega
    have hfirst := printUp_spec 9 mem p le_rfl hword
    have hrest := ih (printUp 9 mem p (buf pos)) (pos + 1) (p + 9) hround
      (hrange.mono (by omega) (by omega))
    have hexp : (n + 1) * 9 - (9 + m) = n * 9 - m := by omega
    have hvalue : (buf pos * (10 ^ m * 10 ^ (n * 9 - m)) + radix digBase buf (pos + 1) n) /
        10 ^ (n * 9 - m) = buf pos * 10 ^ m + radix digBase buf (pos + 1) n / 10 ^ (n * 9 - m) := by
      rw [← mul_assoc, add_comm, add_mul_ediv_right _ _ (by positivity), add_comm]
    rw [min_eq_right hgt.le, add_tsub_cancel_left, radix_succ_left, hexp,
      digBase_pow_split hle, hvalue]
    rw [tsub_self, pow_zero, ediv_one] at hfirst
    exact hfirst.behind hrest

/-! ### Words from the text -/

structure ReadsWords (buf buf' : ℕ → ℤ) (lo n : ℕ) (v : ℤ) : Prop where
  range : InRange digBase buf' lo n
  value : radix digBase buf' lo n = v
  frame : ∀ i, i < lo ∨ lo + n ≤ i → buf' i = buf i

theorem ReadsWords.nil (buf : ℕ → ℤ) (lo : ℕ) : ReadsWords buf buf lo 0 0 :=
  ⟨fun _ hi hi' => by omega, rfl, fun _ _ => rfl⟩

theorem ReadsWords.single (buf : ℕ → ℤ) (b : ℕ) (hw : 0 ≤ w ∧ w < digBase) :
    ReadsWords buf (update buf b w) b 1 w := by
  refine ⟨fun i hi hi' => ?_, ?_, fun i hi => update_of_ne (by omega) _ _⟩
  · rw [show i = b by omega, update_self]
    exact hw
  · rw [radix_one, update_self]

section

variable {buf1 buf2 : ℕ → ℤ} {lo n : ℕ} {u : ℤ}

theorem ReadsWords.before
    (hlast : ReadsWords buf buf1 (lo + n) 1 w) (hfront : ReadsWords buf1 buf2 lo n u) :
    ReadsWords buf buf2 lo (n + 1) (u * digBase + w) := by
  have hsame : buf2 (lo + n) = buf1 (lo + n) := hfront.frame _ (.inr le_rfl)
  have hword : buf1 (lo + n) = w := by rw [← hlast.value, radix_one]
  refine ⟨hfront.range.succ ?_, ?_, fun i hi => ?_⟩
  · rw [hsame]
    exact hlast.range _ le_rfl (by omega)
  · rw [radix_succ, hfront.value, hsame, hword]
  · rw [hfront.frame i (by omega), hlast.frame i (by omega)]

theorem ReadsWords.behind
    (hfirst : ReadsWords buf buf1 lo 1 w) (hback : ReadsWords buf1 buf2 (lo + 1) n u) :
    ReadsWords buf buf2 lo (n + 1) (w * digBase ^ n + u) := by
  have hsame : buf2 lo = buf1 lo := hback.frame _ (.inl (lt_add_one lo))
  have hword : buf1 lo = w := by rw [← hfirst.value, radix_one]
  refine ⟨fun i hi hi' => ?_, ?_, fun i hi => ?_⟩
  · rcases hi.eq_or_lt with rfl | hlt
    · rw [hsame]
      exact hfirst.range _ le_rfl (by omega)
    · exact hback.range i hlt (by omega)
  · rw [radix_succ_left, hback.value, hsame, hword]
  · rw [hback.frame i (by omega), hfirst.frame i (by omega)]

end

section

variable {str : ℕ → UInt8} (n : ℕ) {s i b : ℕ} (buf : ℕ → ℤ)

/-- The words of the integer part: `i` digits of the current word have been read and give `x`. -/
theorem readIntg_spec (hchars : DigitChars str (s - n) n) (hs : n ≤ s) (hi : i < 9)
    (hx : 0 ≤ x ∧ x < 10 ^ i) (hb : roundUp (n + i) ≤ b) :
    ReadsWords buf (readIntg str n s x i b buf) (b - roundUp (n + i)) (roundUp (n + i))
      (digitsValue str (s - n) n * 10 ^ i + x) := by
  induction n generalizing s i b x buf with
  | zero =>
    rw [readIntg, digitsValue_zero, zero_mul, zero_add, zero_add]
    rcases eq_zero_or_pos i with rfl | hpos
    · have hzero : x = 0 := by
        rw [pow_zero] at hx
        omega
      rw [if_neg (not_not.mpr rfl), hzero, roundUp_zero]
      exact ReadsWords.nil buf b
    have hround : roundUp i = 1 := by
      rw [roundUp]
      omega
    have hlt : (10 : ℤ) ^ i ≤ digBase := pow_le_pow_right₀ (by decide) hi.le
    rw [if_pos hpos.ne', hround]
    exact ReadsWords.single buf (b - 1) ⟨hx.1, hx.2.trans_le hlt⟩
  | succ n ih =>
    have hdigit := (hchars (s - 1) (by omega) (by omega)).digitAt_range
    have hrest : DigitChars str (s - 1 - n) n := hchars.mono (by omega) (by omega)
    have hlo : s - (n + 1) = s - 1 - n := by omega
    have hplace : s - 1 - n + n = s - 1 := by omega
    have hvalue : digitsValue str (s - (n + 1)) (n + 1) =
        digitsValue str (s - 1 - n) n * 10 + digitAt str (s - 1) := by
      rw [digitsValue_add, digitsValue_one, hlo, hplace, pow_one]
    have hpow : (0 : ℤ) < 10 ^ i := by positivity
    have hx' : 0 ≤ x + digitAt str (s - 1) * 10 ^ i ∧
        x + digitAt str (s - 1) * 10 ^ i < 10 ^ (i + 1) := by
      rw [pow_succ]
      constructor <;> nlinarith
    rw [readIntg, hvalue, powers10]
    split_ifs with hfull
    · -- a word is complete
      obtain rfl : i = 8 := by omega
      have hround : roundUp (n + 1 + 8) = roundUp n + 1 := by
        rw [roundUp, roundUp]
        omega
      have hfront := ih (s := s - 1) (i := 0) (b := b - 1) (x := 0)
        (update buf (b - 1) (x + digitAt str (s - 1) * 10 ^ 8)) hrest (by omega)
        (by omega) (by norm_num) (by rw [add_zero]; omega)
      have hlast := ReadsWords.single buf (b - 1) hx'
      have hpos : b - roundUp (n + 1 + 8) + roundUp n = b - 1 := by omega
      have hstart : b - 1 - roundUp n = b - roundUp (n + 1 + 8) := by omega
      rw [add_zero, pow_zero, mul_one, add_zero, hstart] at hfront
      rw [← hpos] at hlast
      have hjoin := hlast.before (by rw [hpos]; exact hfront)
      rw [hround] at hjoin ⊢
      convert hjoin using 1
      have hbase : digBase = 10 ^ 9 := rfl
      rw [hbase]
      ring
    · have hnext := ih (s := s - 1) (i := i + 1) (b := b) buf hrest (by omega) (by omega) hx'
        (by rw [show n + (i + 1) = n + 1 + i by omega]; exact hb)
      rw [show n + (i + 1) = n + 1 + i by omega] at hnext
      convert hnext using 1
      ring

/-- The words of the fraction: `i` digits of the current word have been read and give `x`. -/
theorem readFrac_spec (hchars : DigitChars str (s + 1) n) (hi : i < 9) (hx : 0 ≤ x ∧ x < 10 ^ i) :
    ReadsWords buf (readFrac str n s x i b buf) b (roundUp (n + i))
      ((x * 10 ^ n + digitsValue str (s + 1) n) * 10 ^ (roundUp (n + i) * 9 - (n + i))) := by
  induction n generalizing s i b x buf with
  | zero =>
    rw [readFrac, digitsValue_zero, pow_zero, mul_one, add_zero, zero_add]
    rcases eq_zero_or_pos i with rfl | hpos
    · have hzero : x = 0 := by
        rw [pow_zero] at hx
        omega
      rw [if_neg (not_not.mpr rfl), hzero, zero_mul, roundUp_zero]
      exact ReadsWords.nil buf b
    have hround : roundUp i = 1 := by
      rw [roundUp]
      omega
    have hbase : digBase = 10 ^ i * 10 ^ (9 - i) := by
      rw [← pow_add, Nat.add_sub_cancel' hi.le]
      rfl
    rw [if_pos hpos.ne', hround, one_mul, powers10]
    refine ReadsWords.single buf b ⟨mul_nonneg hx.1 (by positivity), ?_⟩
    rw [hbase]
    exact mul_lt_mul_of_pos_right hx.2 (by positivity)
  | succ n ih =>
    have hdigit := (hchars (s + 1) le_rfl (by omega)).digitAt_range
    have hrest : DigitChars str (s + 1 + 1) n := hchars.mono (by omega) (by omega)
    have hvalue : digitsValue str (s + 1) (n + 1) =
        digitAt str (s + 1) * 10 ^ n + digitsValue str (s + 1 + 1) n := by
      rw [add_comm n 1, digitsValue_add, digitsValue_one]
    have hpow : (0 : ℤ) < 10 ^ i := by positivity
    have hx' : 0 ≤ digitAt str (s + 1) + x * 10 ∧ digitAt str (s + 1) + x * 10 < 10 ^ (i + 1) := by
      rw [pow_succ]
      constructor <;> omega
    rw [readFrac, hvalue]
    split_ifs with hfull
    · -- a word is complete
      obtain rfl : i = 8 := by omega
      have hround : roundUp (n + 1 + 8) = roundUp n + 1 := by
        rw [roundUp, roundUp]
        omega
      have hback := ih (s := s + 1) (i := 0) (b := b + 1) (x := 0)
        (update buf b (digitAt str (s + 1) + x * 10)) hrest (by omega) (by norm_num)
      have hjoin := (ReadsWords.single buf b hx').behind hback
      have hle : n ≤ roundUp n * 9 := le_roundUp_mul n
      have hexp : (roundUp n + 1) * 9 - (n + 1 + 8) = roundUp n * 9 - n := by omega
      rw [add_zero, zero_mul, zero_add, digBase_pow_split hle] at hjoin
      rw [hround, hexp]
      convert hjoin using 1
      ring
    · have hnext := ih (s := s + 1) (i := i + 1) (b := b) buf hrest (by omega) hx'
      rw [show n + (i + 1) = n + 1 + i by omega] at hnext
      convert hnext using 2
      ring

end

/-! ### The text of a decimal -/

theorem printText_spec (mem : ℕ → UInt8) (sign : Bool) {intgLen : ℕ} (filler : UInt8)
    (hrange : InRange digBase buf pos (roundUp intg + roundUp frac))
    (hintgLen : intgLen = if intg = 0 then 1 else intg) {out : ℕ → UInt8}
    (hout : out = printText mem sign buf pos intg frac intgLen frac
      (textLength sign intgLen frac frac) filler) :
    out (textLength sign intgLen frac frac) = 0 ∧ (sign = true → out 0 = 45) ∧
    DigitChars out sign.toNat intgLen ∧
    digitsValue out sign.toNat intgLen = radix digBase buf pos (roundUp intg) % 10 ^ intg ∧
    (frac ≠ 0 → out (sign.toNat + intgLen) = 46) ∧
    DigitChars out (sign.toNat + intgLen + 1) frac ∧
    digitsValue out (sign.toNat + intgLen + 1) frac =
      radix digBase buf (pos + roundUp intg) (roundUp frac) / 10 ^ (roundUp frac * 9 - frac) := by
  have hfill : intgLen - intg - (if intg = 0 then 1 else 0) = 0 := by
    rw [hintgLen]
    split_ifs <;> omega
  have hdigits : 0 < intgLen := by
    rw [hintgLen]
    split_ifs <;> omega
  have hlen : sign.toNat + intgLen + (if frac = 0 then 0 else 1) + frac =
    textLength sign intgLen frac frac := rfl
  rw [printText, hfill, tsub_self, List.replicate_zero, store_nil, store_nil, add_zero] at hout
  generalize textLength sign intgLen frac frac = len at *
  generalize hstart : (if sign = true then update (update mem len 0) 0 45
    else update mem len 0) = mem₁ at hout
  have hend : mem₁ len = 0 := by
    rw [← hstart]
    split_ifs
    · rw [update_of_ne (by omega), update_self]
    · rw [update_self]
  have hminus : sign = true → mem₁ 0 = 45 := by
    intro hsign
    rw [← hstart, if_pos hsign, update_self]
  -- the fraction, with the point
  obtain ⟨mem₂, hmem2⟩ : ∃ mem₂, mem₂ = if frac ≠ 0 then
      printFrac buf (roundUp frac) (update mem₁ (sign.toNat + intgLen) 46)
        (pos + roundUp intg) frac (sign.toNat + intgLen + 1) else mem₁ := ⟨_, rfl⟩
  have hprinted := printFrac_spec (roundUp frac)
    (update mem₁ (sign.toNat + intgLen) 46) (pos + roundUp intg)
    (sign.toNat + intgLen + 1) rfl (hrange.mono (by omega) (by omega))
  have hfraction : (frac ≠ 0 → mem₂ (sign.toNat + intgLen) = 46) ∧
      DigitChars mem₂ (sign.toNat + intgLen + 1) frac ∧
      digitsValue mem₂ (sign.toNat + intgLen + 1) frac =
        radix digBase buf (pos + roundUp intg) (roundUp frac) / 10 ^ (roundUp frac * 9 - frac) ∧
      ∀ i, i < sign.toNat + intgLen ∨ len ≤ i → mem₂ i = mem₁ i := by
    by_cases hfrac : frac = 0
    · subst hfrac
      rw [hmem2, if_neg (not_not.mpr rfl)]
      refine ⟨fun hcontra => absurd rfl hcontra, fun _ hp hp' => by omega, ?_, fun _ _ => rfl⟩
      rw [roundUp_zero, radix_zero, zero_ediv, digitsValue_zero]
    rw [if_neg hfrac] at hlen
    rw [hmem2, if_pos hfrac]
    refine ⟨fun _ => ?_, hprinted.chars, hprinted.value, fun i hi => ?_⟩
    · rw [hprinted.frame _ (.inl (lt_add_one _)), update_self]
    · rw [hprinted.frame i (by omega), update_of_ne (by omega)]
  rw [← hmem2] at hout
  obtain ⟨hpoint, hfracChars, hfracValue, hframe⟩ := hfraction
  -- the integer part, or a zero before the point
  have hinteger : Prints mem₂ out sign.toNat intgLen
      (radix digBase buf pos (roundUp intg) % 10 ^ intg) := by
    by_cases hintg : intg = 0
    · subst hintg
      rw [hout, if_neg (not_not.mpr rfl), hintgLen, if_pos rfl, roundUp_zero, radix_zero, zero_emod]
      exact Prints.single mem₂ sign.toNat (y := 0) (by decide)
    rw [hout, if_pos hintg, hintgLen, if_neg hintg]
    have hspec := printIntg_spec (roundUp intg) mem₂ intg (p := sign.toNat + intg) rfl
      (by omega) (hrange.mono le_rfl (by omega))
    rw [Nat.add_sub_cancel] at hspec
    exact hspec
  have hbehind : ∀ i, sign.toNat + intgLen ≤ i → out i = mem₂ i :=
    fun i hi => hinteger.frame i (.inr hi)
  refine ⟨?_, fun hsign => ?_, hinteger.chars, hinteger.value, fun hfrac => ?_,
    hfracChars.congr fun i hi _ => hbehind i (by omega),
    (digitsValue_congr fun i hi _ => hbehind i (by omega)).trans hfracValue⟩
  · rw [hbehind _ (by omega), hframe _ (.inr le_rfl), hend]
  · have hone : sign.toNat = 1 := by rw [hsign, Bool.toNat_true]
    rw [hinteger.frame 0 (by omega), hframe 0 (by omega), hminus hsign]
  · rw [hbehind _ le_rfl, hpoint hfrac]

structure Decimal.Text (d : Decimal) (mem : ℕ → UInt8) (len intgLen : ℕ) : Prop where
  length : len = textLength d.sign intgLen d.frac d.frac
  digits : 0 < intgLen
  room : roundUp intgLen ≤ max 1 (roundUp d.intg)
  terminated : mem len = 0
  minus : d.sign = true → mem 0 = 45
  intgChars : DigitChars mem d.sign.toNat intgLen
  intgValue : digitsValue mem d.sign.toNat intgLen = radix digBase d.buf 0 (roundUp d.intg)
  point : d.frac ≠ 0 → mem (d.sign.toNat + intgLen) = 46
  fracChars : DigitChars mem (d.sign.toNat + intgLen + 1) d.frac
  fracValue : digitsValue mem (d.sign.toNat + intgLen + 1) d.frac *
    10 ^ (roundUp d.frac * 9 - d.frac) = radix digBase d.buf (roundUp d.intg) (roundUp d.frac)

theorem Decimal.FirstDigits.radix_eq {d : Decimal} (h : d.FirstDigits pos intg)
    (hd : d.WellFormed) :
    radix digBase d.buf pos (roundUp intg) = radix digBase d.buf 0 (roundUp d.intg) ∧
      radix digBase d.buf pos (roundUp intg) < 10 ^ intg := by
  have hwords := h.words
  have hskip : radix digBase d.buf 0 (pos + roundUp intg) =
      radix digBase d.buf (0 + pos) (roundUp intg) :=
    radix_skip_zeros (fun i _ hi => h.zeros i (by omega)) _
  rw [hwords, zero_add] at hskip
  refine ⟨hskip.symm, ?_⟩
  -- the digits from `pos` on are a decimal of their own
  have hrange := hd.range
  rw [Decimal.words] at hrange
  have hshift : (⟨intg, 0, 0, false, fun i => d.buf (pos + i)⟩ : Decimal).WellFormed := by
    refine ⟨fun i _ hi => ?_, h.first, fun hcontra => absurd rfl hcontra⟩
    change i < 0 + (roundUp intg + roundUp 0) at hi
    rw [roundUp_zero] at hi
    exact hrange (pos + i) (by omega) (by omega)
  have hlt := hshift.radix_lt_pow
  have hradix : radix digBase (fun i => d.buf (pos + i)) 0 (roundUp intg) =
      radix digBase d.buf pos (roundUp intg) :=
    radix_shift_congr fun i _ => by rw [zero_add]
  rw [Decimal.words, roundUp_zero, pow_zero, mul_one, add_zero, hradix] at hlt
  exact hlt

theorem Decimal.WellFormed.dvd_fraction {d : Decimal} (h : d.WellFormed) :
    (10 : ℤ) ^ (roundUp d.frac * 9 - d.frac) ∣
      radix digBase d.buf (roundUp d.intg) (roundUp d.frac) := by
  have hdvd := h.dvd_radix
  rw [words, radix_add, zero_add, digBase_pow_int] at hdvd
  exact (dvd_add_right (dvd_mul_of_dvd_right (pow_dvd_pow 10 (Nat.sub_le _ _)) _)).mp hdvd

theorem limitDigits_of_le {sign : Bool} {intgLen fracLen : ℕ}
    (h : textLength sign intgLen frac fracLen < toLen) (fixedDecimals : ℕ) :
    limitDigits sign toLen 0 fixedDecimals intg frac intgLen fracLen =
      (.ok, intg, frac, textLength sign intgLen frac fracLen) := by
  rw [limitDigits, if_neg (not_not.mpr rfl), if_neg (by omega)]

theorem decimal2string_spec {d : Decimal} (h : d.WellFormed) (mem : ℕ → UInt8)
    (hlen : decimalStringSize d ≤ toLen) (fixedDecimals : ℕ) (filler : UInt8) :
    (decimal2string d mem toLen 0 fixedDecimals filler).1 = .ok ∧
    (decimal2string d mem toLen 0 fixedDecimals filler).2.1 < toLen ∧
    ∃ intgLen, d.Text (decimal2string d mem toLen 0 fixedDecimals filler).2.2
      (decimal2string d mem toLen 0 fixedDecimals filler).2.1 intgLen := by
  have hfirst := removeLeadingZeroes_spec h
  rw [decimal2string]
  generalize removeLeadingZeroes d = r at *
  obtain ⟨pos, intg⟩ := r
  have hle := hfirst.intg_le h h.magnitude_lt_pow
  obtain ⟨hradix, hlt⟩ := hfirst.radix_eq h
  have hwords := hfirst.words
  have hrange := h.range
  rw [words] at hrange
  dsimp only at *
  -- a zero without digits is printed as a word of its own
  obtain ⟨intg', hintg'⟩ : ∃ n, n = if decide (intg + d.frac = 0) = true then 1 else intg :=
    ⟨_, rfl⟩
  obtain ⟨buf, hbuf⟩ : ∃ b : ℕ → ℤ, b = if decide (intg + d.frac = 0) = true then fun _ => 0
    else d.buf := ⟨_, rfl⟩
  have hprinted : InRange digBase buf pos (roundUp intg' + roundUp d.frac) ∧
      radix digBase buf pos (roundUp intg') % 10 ^ intg' = radix digBase d.buf 0 (roundUp d.intg) ∧
      radix digBase buf (pos + roundUp intg') (roundUp d.frac) =
        radix digBase d.buf (roundUp d.intg) (roundUp d.frac) ∧
      (intg' = 1 ∨ intg' = intg) := by
    by_cases hzero : intg + d.frac = 0
    · rw [if_pos (decide_eq_true hzero)] at hintg' hbuf
      have hintg : intg = 0 := by omega
      have hfrac : d.frac = 0 := by omega
      rw [hbuf, hfrac, roundUp_zero, radix_zero, radix_zero, ← hradix, hintg, roundUp_zero,
        radix_zero, radix_eq_zero fun _ _ _ => rfl, zero_emod]
      exact ⟨fun _ _ _ => ⟨le_rfl, digBase_pos⟩, rfl, rfl, .inl hintg'⟩
    have hfalse : ¬ decide (intg + d.frac = 0) = true := by rwa [decide_eq_true_eq]
    rw [if_neg hfalse] at hintg' hbuf
    have hnonneg := (hrange.mono zero_le (by omega) :
      InRange digBase d.buf pos (roundUp intg)).radix_nonneg
    rw [hbuf, hintg', emod_eq_of_lt hnonneg hlt, hradix, hwords]
    exact ⟨hrange.mono zero_le (by omega), rfl, rfl, .inr rfl⟩
  rw [← hintg', ← hbuf]
  obtain ⟨hrange', hintgValue, hfracValue, hintg⟩ := hprinted
  obtain ⟨intgLen, hintgLen⟩ : ∃ n, n = if intg' = 0 then 1 else intg' := ⟨_, rfl⟩
  have hroom : 0 < intgLen ∧ intgLen ≤ max 1 d.intg := by
    rw [hintgLen]
    split_ifs <;> omega
  have hsize : textLength d.sign intgLen d.frac d.frac < toLen := by
    have hsign := Bool.toNat_le d.sign
    rw [decimalStringSize] at hlen
    rw [textLength]
    split_ifs at hlen ⊢ <;> omega
  simp only [ne_eq, not_true_eq_false, if_false]
  rw [← hintgLen, limitDigits_of_le hsize]
  obtain ⟨hend, hminus, hintgChars, hvalue, hpoint, hfracChars, hfraction⟩ :=
    printText_spec mem d.sign filler hrange' hintgLen rfl
  refine ⟨rfl, hsize, intgLen, rfl, hroom.1, ?_, hend, hminus, hintgChars,
    hvalue.trans hintgValue, hpoint, hfracChars, ?_⟩
  · rw [roundUp, roundUp]
    omega
  · rw [hfraction, hfracValue, Int.ediv_mul_cancel h.dvd_fraction]

/-! ### The round trip -/

theorem IsDigit.exists_eq (h : IsDigit c) : ∃ n < 10, c = 48 + UInt8.ofNat n := by
  obtain ⟨hle, hge⟩ := h
  rw [UInt8.le_iff_toNat_le] at hle hge
  simp only [UInt8.reduceToNat] at hle hge
  refine ⟨c.toNat - 48, by omega, UInt8.toNat_inj.mp ?_⟩
  rw [UInt8.toNat_add, UInt8.toNat_ofNat']
  simp only [UInt8.reduceToNat]
  omega

theorem IsDigit.not_other (h : IsDigit c) : isSpaceLatin1 c = false ∧ c ≠ 45 ∧ c ≠ 43 ∧ c ≠ 0 := by
  obtain ⟨n, hn, rfl⟩ := h.exists_eq
  interval_cases n <;> decide

namespace Decimal.Text

variable {d : Decimal} {str : ℕ → UInt8} {len intgLen : ℕ}

section

variable (ht : d.Text str len intgLen)
include ht

theorem length_eq :
    len = d.sign.toNat + intgLen + (if d.frac = 0 then 0 else 1) + d.frac := ht.length

theorem lt_length_iff : d.sign.toNat + intgLen < len ↔ d.frac ≠ 0 := by
  have hlength := ht.length_eq
  split_ifs at hlength with hzero <;> omega

theorem ne_zero (i : ℕ) (hi : i < len) : str i ≠ 0 := by
  have hlength := ht.length_eq
  rcases lt_or_ge i d.sign.toNat with hsign | hsign
  · have htrue : d.sign = true := by
      cases hd : d.sign with
      | false =>
        rw [hd, Bool.toNat_false] at hsign
        omega
      | true => rfl
    rw [htrue, Bool.toNat_true] at hsign
    rw [show i = 0 by omega, ht.minus htrue]
    decide
  · rcases lt_or_ge i (d.sign.toNat + intgLen) with hintg | hintg
    · exact (ht.intgChars i hsign hintg).not_other.2.2.2
    have hfrac := ht.lt_length_iff.mp (hintg.trans_lt hi)
    rw [if_neg hfrac] at hlength
    rcases hintg.eq_or_lt with rfl | hpoint
    · rw [ht.point hfrac]
      decide
    · exact (ht.fracChars i hpoint (by omega)).not_other.2.2.2

theorem start :
    isSpaceLatin1 (str 0) = false ∧ decide (str 0 = 45) = d.sign ∧
      (d.sign = false → str 0 ≠ 43) := by
  have hdigits := ht.digits
  cases hsign : d.sign with
  | false =>
    have hchars := ht.intgChars
    rw [hsign, Bool.toNat_false] at hchars
    obtain ⟨hspace, hminus, hplus, -⟩ := (hchars 0 le_rfl (by omega)).not_other
    exact ⟨hspace, decide_eq_false hminus, fun _ => hplus⟩
  | true =>
    rw [ht.minus hsign]
    decide

theorem first_eq : (if d.sign = true ∨ str 0 = 43 then 0 + 1 else 0) = d.sign.toNat := by
  obtain ⟨-, -, hplus⟩ := ht.start
  cases hd : d.sign with
  | false =>
    have hfalse : ¬ (false = true ∨ str 0 = 43) := by
      rintro (hcontra | hcontra)
      · exact Bool.false_ne_true hcontra
      · exact hplus hd hcontra
    rw [if_neg hfalse, Bool.toNat_false]
  | true => rw [if_pos (.inl rfl), Bool.toNat_true]

theorem scan_intg :
    scanWhile (fun c => decide (IsDigit c)) str (len - d.sign.toNat) d.sign.toNat =
      d.sign.toNat + intgLen := by
  have hlength := ht.length_eq
  refine scanWhile_eq (by omega) (fun i hi => decide_eq_true ?_) fun hlt => ?_
  · exact ht.intgChars _ (by omega) (by omega)
  · rw [ht.point (ht.lt_length_iff.mp (by omega))]
    decide

theorem point_eq :
    decide (d.sign.toNat + intgLen < len ∧ str (d.sign.toNat + intgLen) = 46) =
      decide (d.frac ≠ 0) := by
  rw [decide_eq_decide, ht.lt_length_iff]
  exact and_iff_left_of_imp ht.point

theorem scan_frac :
    (if decide (d.frac ≠ 0) = true then
      scanWhile (fun c => decide (IsDigit c)) str (len - (d.sign.toNat + intgLen + 1))
        (d.sign.toNat + intgLen + 1) else d.sign.toNat + intgLen) = len ∧
    (if decide (d.frac ≠ 0) = true then len - (d.sign.toNat + intgLen) - 1 else 0) = d.frac := by
  have hlength := ht.length_eq
  by_cases hfrac : d.frac = 0
  · have hfalse : ¬ decide (d.frac ≠ 0) = true := by simpa using hfrac
    rw [if_pos hfrac] at hlength
    rw [if_neg hfalse, if_neg hfalse]
    omega
  rw [if_neg hfrac] at hlength
  rw [if_pos (decide_eq_true hfrac), if_pos (decide_eq_true hfrac)]
  refine ⟨(scanWhile_eq (k := d.frac) (by omega) (fun i hi => decide_eq_true ?_)
    fun hlt => by omega).trans (by omega), by omega⟩
  exact ht.fracChars _ (by omega) (by omega)

theorem radix_read (buf : ℕ → ℤ) :
    radix digBase (readFrac str d.frac (d.sign.toNat + intgLen) 0 0 (roundUp intgLen)
      (readIntg str intgLen (d.sign.toNat + intgLen) 0 0 (roundUp intgLen) buf)) 0
      (roundUp intgLen + roundUp d.frac) = radix digBase d.buf 0 d.words := by
  have hchars : DigitChars str (d.sign.toNat + intgLen - intgLen) intgLen := by
    rw [Nat.add_sub_cancel]
    exact ht.intgChars
  have hintg := readIntg_spec intgLen (b := roundUp intgLen) (x := 0) (i := 0) buf hchars
    (by omega) (by omega) (by norm_num) le_rfl
  rw [add_zero, tsub_self, Nat.add_sub_cancel, pow_zero, mul_one, add_zero, ht.intgValue]
    at hintg
  generalize readIntg str intgLen (d.sign.toNat + intgLen) 0 0 (roundUp intgLen) buf = buf1 at *
  have hfrac := readFrac_spec d.frac (b := roundUp intgLen) (x := 0) (i := 0) buf1 ht.fracChars
    (by omega) (by norm_num)
  rw [add_zero, zero_mul, zero_add, ht.fracValue] at hfrac
  generalize readFrac str d.frac (d.sign.toNat + intgLen) 0 0 (roundUp intgLen) buf1 = buf2 at *
  have hsame : radix digBase buf2 0 (roundUp intgLen) = radix digBase buf1 0 (roundUp intgLen) :=
    radix_congr fun i _ hi => hfrac.frame i (.inl (by omega))
  rw [words, radix_add, radix_add, zero_add, zero_add, hfrac.value, hsame, hintg.value]

end

end Decimal.Text

theorem limitWords_of_le (h : roundUp intg + roundUp frac ≤ dst.len) :
    limitWords dst false intg frac = (.ok, intg, frac, roundUp intg) := by
  rw [limitWords, if_neg Bool.false_ne_true, fixIntgFracError, if_neg (not_lt.mpr h)]
  rfl

theorem Decimal.Text.string2decimal {d : Decimal} {str : ℕ → UInt8} {len intgLen : ℕ}
    (ht : d.Text str len intgLen) (shift : Decimal → ℤ → DecimalError × Decimal)
    (hroom : max 1 (roundUp d.intg) + roundUp d.frac ≤ dst.len) :
    (string2decimal shift str len dst).1 = .ok ∧ (string2decimal shift str len dst).2.2 = len ∧
    (string2decimal shift str len dst).2.1.value = d.value ∧
    (string2decimal shift str len dst).2.1.frac = d.frac := by
  have hlength := ht.length_eq
  have hdigits := ht.digits
  have hwords : roundUp intgLen + roundUp d.frac ≤ dst.len :=
    (Nat.add_le_add_right ht.room _).trans hroom
  obtain ⟨hspace, hsign, -⟩ := ht.start
  obtain ⟨hend, hfrac⟩ := ht.scan_frac
  have hskip : scanWhile isSpaceLatin1 str len 0 = 0 :=
    scanWhile_eq (k := 0) zero_le (fun i hi => absurd hi (Nat.not_lt_zero i))
      fun _ => hspace
  rw [LibSources.string2decimal, internalStr2dec, hskip]
  dsimp only
  rw [if_neg (by omega), hsign, ht.first_eq, ht.scan_intg, ht.point_eq, hend, hfrac,
    add_tsub_cancel_left, if_neg (by omega), limitWords_of_le hwords]
  dsimp only
  rw [if_neg (by decide), readExponent10, if_neg fun hcontra => absurd hcontra.1 (by omega)]
  refine ⟨rfl, rfl, ?_, rfl⟩
  rw [value_eq_signed, value_eq_signed, magnitude, magnitude, words]
  rw [ht.radix_read]

/-- The round trip: the text of a decimal is read back into a buffer with a word for the integer
part. -/
theorem string2decimal_decimal2string {d : Decimal} (h : d.WellFormed) (mem : ℕ → UInt8)
    {toLen : ℕ} (hlen : decimalStringSize d ≤ toLen) (fixedDecimals : ℕ) (filler : UInt8)
    (shift : Decimal → ℤ → DecimalError × Decimal) {dst : Decimal}
    (hroom : max 1 (roundUp d.intg) + roundUp d.frac ≤ dst.len) :
    let printed := decimal2string d mem toLen 0 fixedDecimals filler
    let read := string2decimal shift printed.2.2 printed.2.1 dst
    printed.1 = .ok ∧ printed.2.1 < toLen ∧ printed.2.2 printed.2.1 = 0 ∧
    (∀ i < printed.2.1, printed.2.2 i ≠ 0) ∧
    read.1 = .ok ∧ read.2.2 = printed.2.1 ∧ read.2.1.value = d.value ∧
    read.2.1.frac = d.frac := by
  obtain ⟨hok, hsize, intgLen, htext⟩ := decimal2string_spec h mem hlen fixedDecimals filler
  exact ⟨hok, hsize, htext.terminated, htext.ne_zero, htext.string2decimal shift hroom⟩

theorem string2decimal_decimal2string_word :
    (string2decimal (fun d _ => (.ok, d)) (decimal2string (.ofWord 7) (fun _ => 0) 12 0 0 32).2.2
      (decimal2string (.ofWord 7) (fun _ => 0) 12 0 0 32).2.1 (.ofWord 0)).2.1.value =
      (ofWord 7).value :=
  (string2decimal_decimal2string (ofWord_wellFormed (by decide)) (fun _ => 0)
    (by decide) 0 32 (fun d _ => (.ok, d)) (by decide)).2.2.2.2.2.2.1

/-- 0.12 has one word, and its text needs two. -/
theorem string2decimal_decimal2string_short :
    let d := fraction 2 120000000
    let printed := decimal2string d (fun _ => 0) 6 0 0 32
    d.WellFormed ∧ 0 < d.value ∧ decimalStringSize d ≤ 6 ∧ d.words = 1 ∧
    (string2decimal (fun d _ => (.ok, d)) printed.2.2 printed.2.1
      ⟨0, 0, 1, false, fun _ => 0⟩).1 = .truncated := by
  refine ⟨fraction_wellFormed (by decide) (by decide) (by decide), ?_, by decide,
    by decide, by decide +kernel⟩
  have hradix : radix digBase (fraction 2 120000000).buf 0
    (fraction 2 120000000).words = 120000000 := by decide
  rw [value_eq_signed, magnitude, hradix]
  norm_num [signed, fraction, digBase]

end LibSources
