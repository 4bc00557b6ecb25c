import LibSources.Decimal
import LibSources.Ripple

/-!
# Sum, Difference and Comparison of Decimals

A model of `max_decimal`, `do_add`, `do_sub`, `decimal_add`, `decimal_sub` and
`decimal_cmp` of `strings/decimal.c`.

* The result is stored through a cursor that moves down. A store before the buffer, or a
  load before the buffer of an operand, has no result: `do_sub` can come to both.
* A loop `while (buf1 > stop)` has the number of its rounds as an argument.
* `do_sub` without a result, as `decimal_cmp` calls it, is `doCmp`.
-/

namespace LibSources

open Function

def digMax : ℤ := digBase - 1

def fillWords (w : ℤ) (buf : ℕ → ℤ) (pos : ℕ) : ℕ → (ℕ → ℤ)
  | 0 => buf
  | k + 1 => fillWords w (update buf pos w) (pos + 1) k

def fracMax : List ℤ :=
  [900000000, 990000000, 999000000, 999900000, 999990000, 999999000, 999999900, 999999990]

def maxDecimal (precision frac : ℕ) (dst : Decimal) : Decimal :=
  let intpart := precision - frac
  let first := intpart % 9
  let (buf, pos) := if first ≠ 0 then (update dst.buf 0 (powers10 first - 1), 1) else (dst.buf, 0)
  let buf := fillWords digMax buf pos (intpart / 9)
  let pos := pos + intpart / 9
  let last := frac % 9
  let buf := fillWords digMax buf pos (frac / 9)
  let pos := pos + frac / 9
  let buf := if last ≠ 0 then update buf pos (fracMax.getD (last - 1) 0) else buf
  { dst with sign := false, intg := intpart, frac := frac, buf := buf }

/-! ### Loops that store downwards -/

/-- `*p` for a pointer that may lie before its buffer. -/
def load (m : ℕ → ℤ) (p : ℤ) : Option ℤ := if p < 0 then none else some (m p.toNat)

def zeroDown : ℕ → Cursor → Option Cursor
  | 0, c => some c
  | k + 1, c => do
      let c ← c.push 0
      zeroDown k c

/-- `*--buf0= *--buf1`, until `buf1` has gone down `k` words to `stop`. -/
def copyDown (m : ℕ → ℤ) (stop : ℤ) : ℕ → Cursor → Option Cursor
  | 0, c => some c
  | k + 1, c => do
      let w ← load m (stop + k)
      let c ← c.push w
      copyDown m stop k c

def addDown (m1 : ℕ → ℤ) (stop1 : ℤ) (m2 : ℕ → ℤ) (stop2 : ℤ) :
    ℕ → Cursor → ℤ → Option (Cursor × ℤ)
  | 0, c, carry => some (c, carry)
  | k + 1, c, carry => do
      let w1 ← load m1 (stop1 + k)
      let w2 ← load m2 (stop2 + k)
      let c ← c.push (addWord w1 w2 carry).1
      addDown m1 stop1 m2 stop2 k c (addWord w1 w2 carry).2

def subDown (m1 : ℕ → ℤ) (stop1 : ℤ) (m2 : ℕ → ℤ) (stop2 : ℤ) :
    ℕ → Cursor → ℤ → Option (Cursor × ℤ)
  | 0, c, carry => some (c, carry)
  | k + 1, c, carry => do
      let w1 ← load m1 (stop1 + k)
      let w2 ← load m2 (stop2 + k)
      let c ← c.push (subWord w1 w2 carry).1
      subDown m1 stop1 m2 stop2 k c (subWord w1 w2 carry).2

def borrowDown (m : ℕ → ℤ) (stop : ℤ) : ℕ → Cursor → ℤ → Option Cursor
  | 0, c, _ => some c
  | k + 1, c, carry =>
    if carry ≠ 0 then do
      let w ← load m (stop + k)
      let c ← c.push (subWord w 0 carry).1
      borrowDown m stop k c (subWord w 0 carry).2
    else copyDown m stop (k + 1) c

/-- The constant zero as an operand of a loop. -/
def noWords : ℕ → ℤ := fun _ => 0

/-! ### `do_add` -/

/-- An operand of `do_add` with the words that take part. -/
structure Addend where
  buf : ℕ → ℤ
  intg : ℕ
  frac : ℕ

/-- Parts 1 and 2 of `do_add`: the words of the longer fraction are copied, and the words that
both operands have are added. -/
def addCommon (long short : Addend) (c : Cursor) : Option (Cursor × ℤ) := do
  let common := min long.intg short.intg
  let c ← copyDown long.buf ↑(long.intg + short.frac) (long.frac - short.frac) c
  addDown long.buf ↑(long.intg - common) short.buf ↑(short.intg - common) (common + short.frac) c 0

section

variable (p q : Addend) (c : Cursor)

/-- The branch before these parts. -/
def addByFrac : Option (Cursor × ℤ) := if q.frac < p.frac then addCommon p q c else addCommon q p c

def addByIntg (carry : ℤ) : Option (Cursor × ℤ) :=
  if q.intg < p.intg then addDown p.buf 0 noWords 0 (p.intg - q.intg) c carry
  else addDown q.buf 0 noWords 0 (q.intg - p.intg) c carry

def addParts : Option Cursor := do
  let (c, carry) ← addByFrac p q c
  let (c, carry) ← addByIntg p q c carry
  if carry ≠ 0 then c.push 1 else some c

end

def doAdd (from1 from2 dst : Decimal) : Option (DecimalError × Decimal) :=
  let intg1 := roundUp from1.intg
  let intg2 := roundUp from2.intg
  let frac1 := roundUp from1.frac
  let frac2 := roundUp from2.frac
  -- is there a need for an extra word because of the carry?
  let x := if intg2 < intg1 then from1.buf 0 else if intg1 < intg2 then from2.buf 0
    else from1.buf 0 + from2.buf 0
  let extra := decide (digMax - 1 < x)
  let buf := if extra then update dst.buf 0 0 else dst.buf
  let (intg0, frac0, error) :=
    fixIntgFracError dst.len (max intg1 intg2 + (if extra then 1 else 0)) (max frac1 frac2)
  if error = .overflow then some (error, maxDecimal (dst.len * 9) 0 { dst with buf := buf })
  else do
    let frac := max from1.frac from2.frac
    let frac := if error ≠ .ok then min frac (frac0 * 9) else frac
    let limit := fun n bound : ℕ => if error ≠ .ok then min n bound else n
    let c ← addParts ⟨from1.buf, limit intg1 intg0, limit frac1 frac0⟩
      ⟨from2.buf, limit intg2 intg0, limit frac2 frac0⟩ ⟨buf, intg0 + frac0⟩
    some (error, { dst with
      sign := from1.sign, frac := frac, intg := intg0 * 9, buf := c.mem })

/-! ### Comparison -/

/-- An operand of `do_sub`: the words from `start` on, of which `intg` are before the point
and `frac` behind it. Where zero words are left out at the end of the integer part, `frac` is
negative. -/
structure Operand where
  buf : ℕ → ℤ
  start : ℕ
  intg : ℕ
  frac : ℤ

/-- `while (buf1 < stop1 && *buf1 == 0) buf1++`. -/
def skipZeros (m : ℕ → ℤ) (pos : ℕ) : ℕ → ℕ
  | 0 => pos
  | k + 1 => if m pos = 0 then skipZeros m (pos + 1) k else pos

/-- `while (buf1 <= end1 && *end1 == 0) end1--`: the number of words that are left. -/
def trimZeros (m : ℕ → ℤ) (lo : ℕ) : ℕ → ℕ
  | 0 => 0
  | n + 1 => if m (lo + n) = 0 then trimZeros m lo n else n + 1

/-- The operand without the zero words in front. The loop makes the test of the first word,
which the source has before it, once more. -/
def Decimal.operand (d : Decimal) : Operand :=
  let intg := roundUp d.intg
  let start := skipZeros d.buf 0 intg
  ⟨d.buf, start, intg - start, roundUp d.frac⟩

def Operand.trim (o : Operand) : Operand :=
  { o with frac := (trimZeros o.buf o.start (o.intg + o.frac).toNat : ℤ) - o.intg }

def Operand.words (o : Operand) : ℕ := (o.intg + o.frac).toNat

/-- The loop that looks for the first difference. The result is `none` for equal operands and
the carry otherwise, which is set when the second one is larger. -/
def compareWords (m1 m2 : ℕ → ℤ) : ℕ → ℕ → ℕ → ℕ → Option Bool
  | _, 0, _, 0 => none
  | _, 0, _, _ + 1 => some true
  | _, _ + 1, _, 0 => some false
  | buf1, n1 + 1, buf2, n2 + 1 =>
    if m1 buf1 = m2 buf2 then compareWords m1 m2 (buf1 + 1) n1 (buf2 + 1) n2
    else some (decide (m1 buf1 < m2 buf2))

/-- The first half of `do_sub`: the operands as the second half uses them, and the carry. -/
def compareOperands (p q : Operand) : Operand × Operand × Option Bool :=
  if p.intg < q.intg then (p, q, some true)
  else if q.intg = p.intg then
    (p.trim, q.trim, compareWords p.buf q.buf p.start p.trim.words q.start q.trim.words)
  else (p, q, some false)

/-- `do_sub` without a result. -/
def doCmp (from1 from2 : Decimal) : ℤ :=
  match (compareOperands from1.operand from2.operand).2.2 with
  | none => 0
  | some carry => if carry = from1.sign then 1 else -1

/-! ### `do_sub` -/

section

variable (p q : Operand) (frac0 : ℤ) (c : Cursor)

/-- Part 1 of `do_sub`: the words of the longer fraction. The result has the carry and the
pointers `buf1` and `buf2`. -/
def subFraction : Option (Cursor × ℤ × ℤ × ℤ) :=
  let stop1 : ℤ := p.start + p.intg + q.frac
  let stop2 : ℤ := q.start + q.intg + p.frac
  if q.frac < p.frac then do
    let c ← zeroDown (frac0 - p.frac).toNat c
    let c ← copyDown p.buf stop1 (p.frac - q.frac).toNat c
    some (c, 0, stop1, q.start + q.intg + q.frac)
  else do
    let c ← zeroDown (frac0 - q.frac).toNat c
    let (c, carry) ← subDown noWords 0 q.buf stop2 (q.frac - p.frac).toNat c 0
    some (c, carry, p.start + p.intg + p.frac, stop2)

/-- The loops of `do_sub`, for a first operand that is the larger one. Part 2 has the words of
the second operand, and part 3 the words of the first one before them. -/
def subParts : Option Cursor := do
  let (c, carry, buf1, buf2) ← subFraction p q frac0 c
  let k := (buf2 - q.start).toNat
  let (c, carry) ← subDown p.buf (buf1 - k) q.buf q.start k c carry
  let c ← borrowDown p.buf p.start (buf1 - k - p.start).toNat c carry
  zeroDown c.pos c

end

variable (from1 from2 dst : Decimal)

/-- The second half of `do_sub`, when the operands have been swapped if need be: `p` is the
larger one. -/
def subOrdered (sign : Bool) (p q : Operand) : Option (DecimalError × Decimal) :=
  let (intg1, frac0, error) :=
    fixIntgFracError dst.len p.intg (max (roundUp from1.frac) (roundUp from2.frac))
  let frac := max from1.frac from2.frac
  let frac := if error ≠ .ok then min frac (frac0 * 9) else frac
  let p := { p with intg := intg1 }
  let limit := fun o : Operand => if error ≠ .ok then
    { o with intg := min o.intg intg1, frac := min o.frac frac0 } else o
  do
    let c ← subParts (limit p) (limit q) frac0 ⟨dst.buf, intg1 + frac0⟩
    some (error, { dst with sign := sign, frac := frac, intg := intg1 * 9, buf := c.mem })

def doSub : Option (DecimalError × Decimal) :=
  match compareOperands from1.operand from2.operand with
  | (_, _, none) => some (.ok, dst.makeZero)
  | (p, q, some carry) =>
    if carry then subOrdered from1 from2 dst (!from1.sign) q p
    else subOrdered from1 from2 dst from1.sign p q

def decimalAdd : Option (DecimalError × Decimal) :=
  if from1.sign = from2.sign then doAdd from1 from2 dst else doSub from1 from2 dst

def decimalSub : Option (DecimalError × Decimal) :=
  if from1.sign = from2.sign then doSub from1 from2 dst else doAdd from1 from2 dst

def decimalCmp (from1 from2 : Decimal) : ℤ :=
  if from1.sign = from2.sign then doCmp from1 from2
  else if from1.sign then -1 else 1

end LibSources
