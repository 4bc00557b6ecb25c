import LibSources.Strtoll10
import LibSources.MachineInt

/-!
# Rounded Integers from Text: `my_strntoull10rnd_8bit` of `strings/ctype-simple.c`

The digits of a number are accumulated in 64 bits up to the first digit that does not fit,
across an optional point. `shift` is the power of ten that is missing, `addon` the rounding
by the first digit that was dropped. An exponent is added to `shift`, and at the end the
accumulated number is shifted and rounded.

`int` variables wrap at 32 bits. A read outside the table `d10` has no result.
-/

namespace LibSources

def ulonglongMax : ℤ := 2 ^ 64 - 1

def cutoff : ℤ := ulonglongMax / 10

theorem ulonglongMax_eq : ulonglongMax = 18446744073709551615 := rfl

theorem cutoff_eq : cutoff = 1844674407370955161 := by decide

def cutlim : ℤ := ulonglongMax % 10

def digitsInUlonglong : ℤ := 20

def d10 (i : ℤ) : Option ℤ := if 0 ≤ i ∧ i < digitsInUlonglong then some (10 ^ i.toNat) else none

def isDigitChar (c : UInt8) : Bool := c - 48 < 10

/-! ### The exits -/

def retSign (unsignedFlag negative : Bool) (ull : ℤ) (stop : ℕ) : Conversion :=
  if !unsignedFlag then
    if negative then
      if 2 ^ 63 < ull then ⟨BitVec.ofInt 64 (-2 ^ 63), stop, .erange⟩
      else ⟨BitVec.ofInt 64 (-ull), stop, .ok⟩
    else
      if 2 ^ 63 - 1 < ull then ⟨BitVec.ofInt 64 (2 ^ 63 - 1), stop, .erange⟩
      else ⟨BitVec.ofInt 64 ull, stop, .ok⟩
  else if negative ∧ ull ≠ 0 then ⟨0, stop, .erange⟩
  else ⟨BitVec.ofInt 64 ull, stop, .ok⟩

def retTooBig (unsignedFlag negative : Bool) (stop : ℕ) : Conversion :=
  ⟨if unsignedFlag then BitVec.ofInt 64 ulonglongMax
    else if negative then BitVec.ofInt 64 (-2 ^ 63) else BitVec.ofInt 64 (2 ^ 63 - 1),
    stop, .erange⟩

def retZero (stop : ℕ) : Conversion := ⟨0, stop, .ok⟩

def retEdom (stop : ℕ) : Conversion := ⟨0, stop, .edom⟩

/-- The return for a small number without a point and an exponent. -/
def retSmall (unsignedFlag negative : Bool) (ul : ℤ) (stop : ℕ) : Conversion :=
  if negative then
    if unsignedFlag then ⟨0, stop, if ul ≠ 0 then .erange else .ok⟩
    else ⟨BitVec.ofInt 64 (-ul), stop, .ok⟩
  else ⟨BitVec.ofInt 64 ul, stop, .ok⟩

/-! ### The digits and the point -/

/-- What the digits give: the position behind them, `ull`, `digits`, `shift` and `addon`. -/
structure Mantissa where
  str : ℕ
  ull : ℤ
  digits : ℤ
  shift : ℤ
  addon : Bool

/-- The right shift for the digits behind the point. -/
def dotShift (dot : Option ℕ) (s : ℕ) : ℤ :=
  match dot with
  | some dot => toInt32 ((dot : ℤ) - s)
  | none => 0

variable (str : ℕ → UInt8)

/-- The next digit would overflow: the remaining digits are scanned. -/
def dropDigits (fin s : ℕ) (ull digits : ℤ) (dot : Option ℕ) : Mantissa :=
  let (ull, addon, s) :=
    if ull = cutoff then (ulonglongMax, true, s + 1) else (ull, decide (53 ≤ str s), s)
  match dot with
  | none =>
    let s' := scanWhile isDigitChar str (fin - s) s
    let shift := toInt32 ((s' : ℤ) - s)
    if s' < fin ∧ str s' = 46 then
      ⟨scanWhile isDigitChar str (fin - (s' + 1)) (s' + 1), ull, digits, shift, addon⟩
    else ⟨s', ull, digits, shift, addon⟩
  | some dot => ⟨scanWhile isDigitChar str (fin - s) s, ull, digits, toInt32 ((dot : ℤ) - s), addon⟩

/-- The loop over digits and point; the first argument is the number of bytes left. -/
def accumulate (str : ℕ → UInt8) (fin : ℕ) : ℕ → ℕ → ℤ → ℤ → Option ℕ → Mantissa
  | 0, s, ull, digits, dot => ⟨s, ull, digits, dotShift dot s, false⟩
  | n + 1, s, ull, digits, dot =>
    let ch := str s - 48
    if ch < 10 then
      if ull < cutoff ∨ ull = cutoff ∧ (ch.toNat : ℤ) ≤ cutlim then
        accumulate str fin n (s + 1) (ull * 10 + ch.toNat) (toInt32 (digits + 1)) dot
      else dropDigits str fin s ull digits dot
    else if str s = 46 then
      match dot with
      -- the second point: `shift` is not set
      | some _ => ⟨s, ull, digits, 0, false⟩
      | none => accumulate str fin n (s + 1) ull digits (some (s + 1))
    else ⟨s, ull, digits, dotShift dot s, false⟩

def scanExponent (str : ℕ → UInt8) : ℕ → ℕ → ℤ → ℕ × ℤ
  | 0, s, exponent => (s, exponent)
  | n + 1, s, exponent =>
    if str s - 48 < 10 then
      scanExponent str n (s + 1) (toInt32 (exponent * 10 + (str s - 48).toNat))
    else (s, exponent)

/-- What follows the mantissa: the position behind the exponent and the new `shift`, which is
`none` for the jump to `ret_sign`. -/
def readExponent (fin : ℕ) (m : Mantissa) : ℕ × Option ℤ :=
  if m.str < fin ∧ (str m.str = 101 ∨ str m.str = 69) then
    let s := m.str + 1
    if s < fin then
      let negativeExp := str s == 45
      if str s = 45 ∨ str s = 43 then
        if s + 1 = fin then (s + 1, none)
        else
          let (s, exponent) := scanExponent str (fin - (s + 1)) (s + 1) 0
          (s, some (toInt32 (m.shift + if negativeExp then toInt32 (-exponent) else exponent)))
      else
        let (s, exponent) := scanExponent str (fin - s) s 0
        (s, some (toInt32 (m.shift + if negativeExp then toInt32 (-exponent) else exponent)))
    else (s, some m.shift)
  else (m.str, some m.shift)

/-! ### Shift and rounding -/

/-- The left shift; `none` for the jump to `ret_too_big`. -/
def shiftLeft : ℕ → ℤ → Option ℤ
  | 0, ull => some ull
  | n + 1, ull => if cutoff < ull then none else shiftLeft n (ull * 10)

def finish (unsignedFlag negative : Bool) (ull : ℤ) (addon : Bool) (shift : ℤ) (stop : ℕ) :
    Option Conversion :=
  if shift = 0 then
    if addon then
      if ull = ulonglongMax then some (retTooBig unsignedFlag negative stop)
      else some (retSign unsignedFlag negative (ull + 1) stop)
    else some (retSign unsignedFlag negative ull stop)
  else if shift < 0 then
    if digitsInUlonglong ≤ toInt32 (-shift) then some (retZero stop)
    else
      match d10 (toInt32 (-shift)) with
      | none => none
      | some d =>
        let r := ull % d * 2 % 2 ^ 64
        let ull := ull / d
        some (retSign unsignedFlag negative (if d ≤ r then ull + 1 else ull) stop)
  else if digitsInUlonglong < shift then
    if ull = 0 then some (retSign unsignedFlag negative ull stop)
    else some (retTooBig unsignedFlag negative stop)
  else
    match shiftLeft shift.toNat ull with
    | none => some (retTooBig unsignedFlag negative stop)
    | some ull => some (retSign unsignedFlag negative ull stop)

def convertRounded (fin : ℕ) (unsignedFlag negative : Bool) (beg : ℕ) : Option Conversion :=
  let end9 := min (beg + 9) fin
  let (s, ul) := scanDigits str (end9 - beg) beg 0
  if fin ≤ s then some (retSmall unsignedFlag negative ul s)
  else
    let m := accumulate str fin (fin - s) s ul (toInt32 ((s : ℤ) - beg)) none
    if m.digits = 0 then some (retEdom beg)
    else
      match readExponent str fin m with
      | (s, none) => some (retSign unsignedFlag negative m.ull s)
      | (s, some shift) => finish unsignedFlag negative m.ull m.addon shift s

def myStrntoull10rnd8bit (length : ℕ) (unsignedFlag : Bool) : Option Conversion :=
  let s := scanWhile isBlank str length 0
  if length ≤ s then some (retEdom s)
  else if str s = 45 ∨ str s = 43 then
    if s + 1 = length then some (retEdom (s + 1))
    else convertRounded str length unsignedFlag (str s == 45) (s + 1)
  else convertRounded str length unsignedFlag false s

end LibSources
