import LibSources.DecimalAdd

/-!
# Multiplication of Decimals

A model of `decimal_mul` of `strings/decimal.c`: the schoolbook product, one row for
each word of the first operand. When the fraction of the product does not fit, the words that are
lost are divided among the fractions of the operands before the multiplication.

* A row before the buffer, and the search for a nonzero word in a buffer without
  words, have no result.
* The loops have the number of their rounds as an argument; a pointer into the result is the
  number of words before it.
-/

namespace LibSources

open Function

/-! ### The product -/

/-- The inner loop: `w` times the first `k` words of `m2` from `lo2` on is added to the words from
`lo0` on. The result is the memory and the carry. -/
def mulWords (w : ℤ) (m2 : ℕ → ℤ) (lo2 lo0 : ℕ) : ℕ → (ℕ → ℤ) → ℤ → (ℕ → ℤ) × ℤ
  | 0, m, carry => (m, carry)
  | k + 1, m, carry =>
    let p := w * m2 (lo2 + k)
    let hi := p / digBase
    let lo := p - hi * digBase
    let r := addWord2 (m (lo0 + k)) lo carry
    mulWords w m2 lo2 lo0 k (update m (lo0 + k) r.1) (r.2 + hi)

/-- The loop that carries into the `p` words in front. The flag says that there was no word left
for the carry. -/
def carryInto : ℕ → (ℕ → ℤ) → ℤ → (ℕ → ℤ) × Bool
  | 0, m, carry => (m, decide (carry ≠ 0))
  | p + 1, m, carry =>
    if carry = 0 then (m, false)
    else
      let r := addWord (m p) 0 carry
      carryInto p (update m p r.1) r.2

/-- The carry of a row, which may be a whole word, is added to the `p` words in front. -/
def addCarry (p : ℕ) (m : ℕ → ℤ) (carry : ℤ) : (ℕ → ℤ) × Bool :=
  if carry = 0 then (m, false)
  else
    match p with
    | 0 => (m, true)
    | p + 1 =>
      let r := addWord2 (m p) 0 carry
      carryInto p (update m p r.1) r.2

/-- The outer loop over the first `k` words of `m1` from `lo1` on. The row of the last of them
ends before position `e`. The flag is set when the routine returns `E_DEC_OVERFLOW` from
within the loop. -/
def mulRows (m1 : ℕ → ℤ) (lo1 : ℕ) (m2 : ℕ → ℤ) (lo2 n2 : ℕ) :
    ℕ → ℕ → (ℕ → ℤ) → Option ((ℕ → ℤ) × Bool)
  | 0, _, m => some (m, false)
  | k + 1, e, m =>
    if e < n2 then none
    else
      let row := mulWords (m1 (lo1 + k)) m2 lo2 (e - n2) n2 m 0
      let r := addCarry (e - n2) row.1 row.2
      if r.2 then some (r.1, true) else mulRows m1 lo1 m2 lo2 n2 k (e - 1) r.1

/-- The fraction words that are used of the two operands when `lost` words do not fit: the
shorter fraction loses half of them, and the longer one the rest. -/
def mulFracs (frac1 frac2 lost : ℕ) : ℤ × ℤ :=
  let i := lost / 2
  if frac1 ≤ frac2 then (frac1 - i, frac2 - (lost - i : ℕ))
  else (frac1 - (lost - i : ℕ), frac2 - i)

/-- The words of the operands that are used: the positions of the first ones and the numbers of
fraction words. -/
def mulSizes (ideal intg0 frac1 frac2 frac0 : ℕ) (error : DecimalError) : ℕ × ℕ × ℤ × ℤ :=
  if error = .ok then (0, 0, frac1, frac2)
  else if intg0 < ideal then
    let i := ideal - intg0
    let j := i / 2
    (j, i - j, 0, 0)
  else
    let fracs := mulFracs frac1 frac2 (frac1 + frac2 - frac0)
    (0, 0, fracs.1, fracs.2)

/-! ### Clean-up -/

/-- The loop that looks for a nonzero word among `n` words. -/
def allZero (m : ℕ → ℤ) (pos : ℕ) : ℕ → Bool
  | 0 => true
  | n + 1 => if m pos ≠ 0 then false else allZero m (pos + 1) n

/-- The check for the `-0.000` case, over `n` words. -/
def Decimal.fixNegativeZero (d : Decimal) (n : ℕ) : Option Decimal :=
  if d.sign then
    if n = 0 then none
    else if allZero d.buf 0 n then some d.makeZero
    else some d
  else some d

/-- `while (!*buf1 && to->intg > DIG_PER_DEC1)`: the position of the first word and the number
of digits that are left. -/
def skipLeading (m : ℕ → ℤ) : ℕ → ℕ → ℕ → ℕ × ℕ
  | 0, pos, intg => (pos, intg)
  | fuel + 1, pos, intg =>
    if m pos = 0 ∧ 9 < intg then skipLeading m fuel (pos + 1) (intg - 9) else (pos, intg)

def moveWords (m : ℕ → ℤ) (dst src : ℕ) : ℕ → (ℕ → ℤ)
  | 0 => m
  | k + 1 => moveWords (update m dst (m src)) (dst + 1) (src + 1) k

/-- The words of a result without the zero words in front; `intg0` is the number of its integer
words. -/
def Decimal.dropLeading (d : Decimal) (intg0 : ℕ) : Decimal :=
  let r := skipLeading d.buf d.intg 0 d.intg
  { d with
    intg := r.2
    buf := if 0 < r.1 then moveWords d.buf 0 r.1 (intg0 + roundUp d.frac - r.1) else d.buf }

def decimalMul (from1 from2 dst : Decimal) : Option (DecimalError × Decimal) :=
  let intg1 := roundUp from1.intg
  let intg2 := roundUp from2.intg
  let frac1 := roundUp from1.frac
  let frac2 := roundUp from2.frac
  let ideal := roundUp (from1.intg + from2.intg)
  let (intg0, frac0, error) := fixIntgFracError dst.len ideal (frac1 + frac2)
  let frac := from1.frac + from2.frac
  let frac := if error ≠ .ok then min frac (frac0 * 9) else frac
  let (lo1, lo2, frac1, frac2) := mulSizes ideal intg0 frac1 frac2 frac0 error
  let n1 := ((intg1 : ℤ) - lo1 + frac1).toNat
  let n2 := ((intg2 : ℤ) - lo2 + frac2).toNat
  let buf := fillWords 0 dst.buf 0 (intg0 + frac0)
  do
    let r ← mulRows from1.buf lo1 from2.buf lo2 n2 n1 (intg0 + frac0) buf
    let d : Decimal := { dst with
      sign := xor from1.sign from2.sign, frac := frac, intg := intg0 * 9, buf := r.1 }
    if r.2 then some (.overflow, d)
    else do
      let d ← d.fixNegativeZero (intg0 + frac0)
      some (error, d.dropLeading intg0)

end LibSources
