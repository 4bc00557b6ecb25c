import LibSources.Decimal
import LibSources.MachineInt

/-!
# Division of Decimals

A model of `do_div_mod`, `decimal_div` and `decimal_mod` of `strings/decimal.c`:
Knuth's Algorithm D on words of nine digits, where only the first word of the divisor is
normalised, and only for the guess of a quotient digit.

* A pointer into a buffer is its position. The copy `tmp1` of the dividend is a memory of its
  own, zero behind the dividend.
* A loop that counts words has the number of its rounds as an argument.
* The zero words before a small quotient are stored without a look at `len`, as in the
  source: `buf` is the memory, also behind the buffer.
* The sum of the scales is an `int`.
-/

namespace LibSources

open Function

/-- The loop that removes leading zero words: the position of the first word that is left and
the number of digits from there on. The word at `pos` has `i` digits. -/
def skipZeroWords (buf : ℕ → ℤ) : ℕ → ℕ → ℕ → ℕ → ℕ × ℕ
  | 0, pos, prec, _ => (pos, prec)
  | fuel + 1, pos, prec, i =>
    if 0 < prec ∧ buf pos = 0 then skipZeroWords buf fuel (pos + 1) (prec - i) 9
    else (pos, prec)

/-- The loop that does not count the leading zero digits of a word. -/
def trimDigits (word : ℤ) : ℕ → ℕ → ℕ
  | 0, prec => prec
  | i + 1, prec => if word < powers10 (i + 1) then trimDigits word i (prec - 1) else prec

/-- The position of the first nonzero word, and the number of digits from there on,
where the fraction has whole words. -/
def leadingWord (d : Decimal) : ℕ × ℕ :=
  let prec := d.intg + roundUp d.frac * 9
  let (pos, prec) := skipZeroWords d.buf prec 0 prec ((prec - 1) % 9 + 1)
  if prec = 0 then (pos, prec)
  else (pos, trimDigits (d.buf pos) ((prec - 1) % 9) prec)

/-! ### The main loop -/

/-- The divisor without leading and trailing zero words: it has `len2 + 1` words. -/
structure Divisor where
  words : ℕ → ℤ
  len2 : ℕ

def dropZeroWords (words : ℕ → ℤ) : ℕ → ℕ
  | 0 => 0
  | k + 1 => if words (k + 1) = 0 then dropZeroWords words k else k + 1

namespace Divisor

variable (v : Divisor)

def normFactor : ℤ := digBase / (v.words 0 + 1)

def norm2 : ℤ :=
  v.normFactor * v.words 0 + (if 0 < v.len2 then v.normFactor * v.words 1 / digBase else 0)

/-- A guess that the second word of the divisor shows to be too large is lowered. -/
def lowerGuess (x y guess : ℤ) : ℤ :=
  if (x - guess * v.words 0) * digBase + y < v.words 1 * guess then guess - 1 else guess

def guess (v : Divisor) (x y : ℤ) : ℤ :=
  let guess := (v.normFactor * x + v.normFactor * y / digBase) / v.norm2
  let guess := if digBase ≤ guess then digBase - 1 else guess
  if 0 < v.len2 then v.lowerGuess x y (v.lowerGuess x y guess) else guess

end Divisor

def multiplySubtract (v : Divisor) (guess : ℤ) (start1 : ℕ) :
    ℕ → (ℕ → ℤ) → ℤ → (ℕ → ℤ) × ℤ
  | 0, tmp1, carry => (tmp1, carry)
  | k + 1, tmp1, carry =>
    let x := guess * v.words k
    let hi := x / digBase
    let lo := x - hi * digBase
    let (word, carry) := subWord2 (tmp1 (start1 + k)) lo carry
    multiplySubtract v guess start1 k (update tmp1 (start1 + k) word) (carry + hi)

def addBack (v : Divisor) (start1 : ℕ) : ℕ → (ℕ → ℤ) → ℤ → (ℕ → ℤ)
  | 0, tmp1, _ => tmp1
  | k + 1, tmp1, carry =>
    let (word, carry) := addWord (tmp1 (start1 + k)) (v.words k) carry
    addBack v start1 k (update tmp1 (start1 + k) word) carry

/-- The work of one round: the quotient digit and the memory. -/
def divStep (v : Divisor) (tmp1 : ℕ → ℤ) (start1 : ℕ) (dcarry : ℤ) : ℤ × (ℕ → ℤ) :=
  if dcarry = 0 ∧ tmp1 start1 < v.words 0 then (0, tmp1)
  else
    let guess := v.guess (tmp1 start1 + dcarry * digBase) (tmp1 (start1 + 1))
    let (tmp1, carry) := multiplySubtract v guess start1 (v.len2 + 1) tmp1 0
    if dcarry < carry then (guess - 1, addBack v start1 (v.len2 + 1) tmp1 0)
    else (guess, tmp1)

structure DivState where
  tmp1 : ℕ → ℤ
  start1 : ℕ
  dcarry : ℤ
  /-- The buffer of the result and the position in it. -/
  buf : ℕ → ℤ
  buf0 : ℕ

/-- One round of the main loop. The quotient digit is only stored for a division. -/
def DivState.next (v : Divisor) (divMod : Bool) (s : DivState) : DivState :=
  let (guess, tmp1) := divStep v s.tmp1 s.start1 s.dcarry
  { tmp1 := tmp1, start1 := s.start1 + 1, dcarry := tmp1 s.start1,
    buf := if divMod then update s.buf s.buf0 guess else s.buf, buf0 := s.buf0 + 1 }

/-- The main loop, with the number of quotient digits that are left. -/
def divLoop (v : Divisor) (divMod : Bool) : ℕ → DivState → DivState
  | 0, s => s
  | k + 1, s => divLoop v divMod k (s.next v divMod)

/-! ### Division -/

def storeZeros (buf : ℕ → ℤ) (pos : ℕ) : ℕ → (ℕ → ℤ)
  | 0 => buf
  | k + 1 => storeZeros (update buf pos 0) (pos + 1) k

/-- What `do_div_mod` knows when it has removed the leading zeros of operands that are not
zero: the positions of their first words and their numbers of digits. -/
structure DivOperands where
  from1 : Decimal
  from2 : Decimal
  buf1 : ℕ
  prec1 : ℕ
  buf2 : ℕ
  prec2 : ℕ

namespace DivOperands

variable (ops : DivOperands)

def frac1 : ℕ := roundUp ops.from1.frac * 9

def frac2 : ℕ := roundUp ops.from2.frac * 9

/-- `dintg`: the number of integer digits of the quotient, up to whole words. -/
def dintg : ℤ :=
  ((ops.prec1 : ℤ) - ops.frac1) - ((ops.prec2 : ℤ) - ops.frac2) +
    (if ops.from2.buf ops.buf2 ≤ ops.from1.buf ops.buf1 then 1 else 0)

/-- `intg0`: the words of the integer part of the quotient. -/
def intg0 : ℕ := if ops.dintg < 0 then 0 else roundUp ops.dintg.toNat

/-- The number of zero words before the first quotient digit. -/
def zeroWords : ℕ := if ops.dintg < 0 then (-(ops.dintg.tdiv 9)).toNat else 0

def divisor : Divisor :=
  let words := fun i => ops.from2.buf (ops.buf2 + i)
  ⟨words, dropZeroWords words (roundUp ops.prec2 - 1)⟩

def tmp1 : ℕ → ℤ := fun i =>
  if i < roundUp ops.prec1 then ops.from1.buf (ops.buf1 + i) else 0

def start (buf : ℕ → ℤ) (buf0 : ℕ) : DivState :=
  if ops.tmp1 0 < ops.divisor.words 0 then ⟨ops.tmp1, 1, ops.tmp1 0, buf, buf0⟩
  else ⟨ops.tmp1, 0, 0, buf, buf0⟩

/-- The words of the fraction of the quotient. -/
def frac0 (scaleIncr : ℕ) : ℕ := roundUp (toInt32 (ops.frac1 + ops.frac2 + scaleIncr)).toNat

/-- The part of `do_div_mod` that stores the quotient. -/
def quotient (dst : Decimal) (frac0 : ℕ) : DecimalError × Decimal :=
  let (intg0, frac0, error) := fixIntgFracError dst.len ops.intg0 frac0
  let buf := storeZeros dst.buf 0 ops.zeroWords
  let s := divLoop ops.divisor true (intg0 + frac0 - ops.zeroWords) (ops.start buf ops.zeroWords)
  (error, { dst with
    sign := xor ops.from1.sign ops.from2.sign, intg := intg0 * 9, frac := frac0 * 9,
    buf := s.buf })

end DivOperands

def copyWords (tmp1 : ℕ → ℤ) (start1 : ℕ) (buf : ℕ → ℤ) (buf0 : ℕ) : ℕ → (ℕ → ℤ)
  | 0 => buf
  | k + 1 => copyWords tmp1 (start1 + 1) (update buf buf0 (tmp1 start1)) (buf0 + 1) k

namespace DivOperands

variable (ops : DivOperands)

/-- The part of `do_div_mod` that stores the remainder. -/
def remainder (dst : Decimal) : DecimalError × Decimal :=
  let dst := { dst with sign := ops.from1.sign, frac := max ops.from1.frac ops.from2.frac }
  let s := divLoop ops.divisor false ops.intg0 (ops.start dst.buf 0)
  -- the last carry is a word of the remainder
  let (tmp1, start1) :=
    if s.dcarry ≠ 0 then (update s.tmp1 (s.start1 - 1) s.dcarry, s.start1 - 1)
    else (s.tmp1, s.start1)
  let intg0 : ℤ := ((ops.prec1 : ℤ) - ops.frac1 + 9 - 1).tdiv 9 - start1
  let frac0 : ℤ := roundUp dst.frac
  if frac0 = 0 ∧ intg0 = 0 then (.ok, dst.makeZero)
  else if intg0 ≤ 0 then
    if dst.len ≤ -intg0 then (.truncated, dst.makeZero)
    else
      let zeros := (-intg0).toNat
      let buf := storeZeros dst.buf 0 zeros
      -- the loop over the zeros leaves `intg0` at one
      if dst.len < 1 + (frac0 + intg0) then
        let count := frac0 - (frac0 + intg0 + 1 - dst.len)
        (.truncated, { dst with
          intg := 0, frac := (dst.len - 1) * 9,
          buf := copyWords tmp1 start1 buf zeros count.toNat })
      else (.ok, { dst with
        intg := 0, buf := copyWords tmp1 start1 buf zeros frac0.toNat })
  else if dst.len < intg0 then (.overflow, dst)
  else
    let dst := { dst with intg := min (intg0.toNat * 9) ops.from2.intg }
    if dst.len < intg0 + frac0 then
      (.truncated, { dst with
        frac := (dst.len - intg0.toNat) * 9,
        buf := copyWords tmp1 start1 dst.buf 0 dst.len })
    else (.ok, { dst with buf := copyWords tmp1 start1 dst.buf 0 (intg0 + frac0).toNat })

end DivOperands

variable (from1 from2 dst : Decimal)

def doDivMod (mod : Bool) (scaleIncr : ℤ) : DecimalError × Decimal :=
  let (buf2, prec2) := leadingWord from2
  if prec2 = 0 then (.divZero, dst)
  else
    let (buf1, prec1) := leadingWord from1
    if prec1 = 0 then (.ok, dst.makeZero)
    else
      let ops : DivOperands := ⟨from1, from2, buf1, prec1, buf2, prec2⟩
      if mod then ops.remainder dst
      else
        let extra : ℤ := ((ops.frac1 : ℤ) - from1.frac) + ((ops.frac2 : ℤ) - from2.frac)
        ops.quotient dst (ops.frac0 (scaleIncr - extra).toNat)

def decimalMod : DecimalError × Decimal := doDivMod from1 from2 dst true 0

end LibSources
