import LibSources.BigEndian
import LibSources.ByteMemory
import LibSources.DecimalAdd
import LibSources.DecimalDiv
import LibSources.MachineInt

/-!
# The Binary Format of Decimals

A model of `remove_leading_zeroes`, `decimal2bin`, `bin2decimal` and `decimal_bin_size`
of `strings/decimal.c`. The number of bytes is fixed by the precision and the scale: groups of
nine digits take four bytes, the digits before the first and behind the last full group as
many as they need. The bytes of a negative number are inverted, and so is the first bit.

* `decimal2bin` writes one byte after the other: its output is a list, and the position is the
  length of the list so far.
* `bin2decimal` reads a memory of bytes.
* `mask` is a Boolean: `x ^ mask` is `-1 - x` when it is set.
-/

namespace LibSources

open Function

def dig2bytes (i : ℕ) : ℕ := [0, 1, 1, 2, 2, 3, 3, 4, 4, 4].getD i 0

/-- The number of bytes for a number of digits on one side of the point:
`n/DIG_PER_DEC1*sizeof(dec1)+dig2bytes[n%DIG_PER_DEC1]`. -/
def digitBytes (n : ℕ) : ℕ := n / 9 * 4 + dig2bytes (n % 9)

def decimalBinSize (precision scale : ℕ) : ℕ := digitBytes (precision - scale) + digitBytes scale

/-- `remove_leading_zeroes`: the position of the first word that is left, and the number of
digits of the integer part from there on. -/
def removeLeadingZeroes (d : Decimal) : ℕ × ℕ :=
  let (pos, intg) := skipZeroWords d.buf d.intg 0 d.intg ((d.intg - 1) % 9 + 1)
  if 0 < intg then (pos, trimDigits (d.buf pos) ((intg - 1) % 9) intg) else (pos, 0)

section

variable (mask : Bool)

def xorMask (x : ℤ) : ℤ := if mask then -1 - x else x

/-! ### `decimal2bin` -/

def maskByte : UInt8 := if mask then 0xFF else 0

/-- The loop that stores `k` words in four bytes each, with `mi_int4store`. -/
def storeWords (mask : Bool) (buf : ℕ → ℤ) (pos : ℕ) : ℕ → List UInt8
  | 0 => []
  | k + 1 => toBytes 4 (xorMask mask (buf pos)) ++ storeWords mask buf (pos + 1) k

/-- The loop that takes more digits as long as they fit into `i` bytes. -/
def widenGroup (i lim : ℕ) : ℕ → ℕ → ℕ
  | 0, frac1x => frac1x
  | fuel + 1, frac1x =>
    if frac1x < lim ∧ dig2bytes frac1x = i then widenGroup i lim fuel (frac1x + 1) else frac1x

/-- The full words and the digits behind them that are stored of a fraction of `fromFrac` digits,
the size `fsize0` for the zero bytes behind it, and whether the fraction is truncated. -/
def binFraction (frac fromFrac : ℕ) : ℕ × ℕ × ℕ × Bool :=
  let frac0 := frac / 9
  let frac0x := frac % 9
  let frac1 := fromFrac / 9
  let frac1x := fromFrac % 9
  let fsize0 := digitBytes frac
  let fsize1 := digitBytes fromFrac
  if fsize0 < fsize1 then (frac0, frac0x, fsize0, true)
  else if fsize1 < fsize0 ∧ frac1x ≠ 0 then
    if frac0 = frac1 then (frac1, frac0x, fsize1, false)
    else (frac1 + 1, 0, fsize0, false)
  else (frac1, frac1x, fsize0, false)

variable (buf : ℕ → ℤ)

/-- The bytes of the first digits of the integer part, with one of `mi_int1store` to
`mi_int4store`. -/
def storeFirst (pos intg1x : ℕ) : List UInt8 :=
  if intg1x ≠ 0 then toBytes (dig2bytes intg1x) (xorMask mask (buf pos % powers10 intg1x)) else []

/-- The bytes of the last digits of the fraction, with one of `mi_int1store` to
`mi_int4store`. -/
def storeLast (pos frac1x lim : ℕ) : List UInt8 :=
  if frac1x ≠ 0 then
    let i := dig2bytes frac1x
    toBytes i (xorMask mask (buf pos / powers10 (9 - widenGroup i lim 9 frac1x)))
  else []

end

def decimal2bin (d : Decimal) (precision frac : ℕ) : DecimalError × List UInt8 :=
  let isize0 := digitBytes (precision - frac)
  let fsize1 := digitBytes d.frac
  let (pos, fromIntg) := removeLeadingZeroes d
  -- a zero without digits has no sign
  let zero : Bool := fromIntg + fsize1 = 0
  let mask := if zero then false else d.sign
  let intg := if zero then 1 else precision - frac
  let buf : ℕ → ℤ := if zero then fun _ => 0 else d.buf
  let isize1 := digitBytes fromIntg
  let (pos, intg1, lead, error) :=
    if intg < fromIntg then
      (pos + (roundUp fromIntg - roundUp (precision - frac)), precision - frac, 0,
        DecimalError.overflow)
    else (pos, fromIntg, isize0 - isize1, DecimalError.ok)
  let (frac1, frac1x, fsize0, truncated) := binFraction frac d.frac
  let first := storeFirst mask buf pos (intg1 % 9)
  let pos := if intg1 % 9 ≠ 0 then pos + 1 else pos
  let words := storeWords mask buf pos (intg1 / 9 + frac1)
  let pos := pos + (intg1 / 9 + frac1)
  let last := storeLast mask buf pos frac1x (if frac1 < frac / 9 then 9 else frac % 9)
  let out := List.replicate lead (maskByte mask) ++ first ++ words ++ last
  let trail := min (fsize0 - fsize1) (decimalBinSize precision frac - out.length)
  (if truncated then .truncated else error, flipSign (out ++ List.replicate trail (maskByte mask)))

/-! ### `bin2decimal` -/

/-- The state of the reader: the position in the bytes, the words, the position in the words and
the number of integer digits. -/
structure BinReader where
  src : ℕ
  buf : ℕ → ℤ
  dst : ℕ
  intg : ℕ

section

variable (mem : ℕ → UInt8)

def miSintKorr (src i : ℕ) : ℤ := signedOfBytes (window mem src i)

/-- A word of the integer part is stored. A zero word before the number is not kept, and
its `digits` are not counted. -/
def BinReader.keep (r : BinReader) (word : ℤ) (i digits : ℕ) : BinReader :=
  let buf := update r.buf r.dst word
  if 0 < r.dst ∨ word ≠ 0 then { r with src := r.src + i, buf := buf, dst := r.dst + 1 }
  else { r with src := r.src + i, buf := buf, intg := r.intg - digits }

/-- The first digits of the integer part. The result on an error is the memory. -/
def readFirst (mask : Bool) (intg0x : ℕ) (r : BinReader) : Except (ℕ → ℤ) BinReader :=
  if intg0x ≠ 0 then
    let i := dig2bytes intg0x
    let word := xorMask mask (miSintKorr mem r.src i)
    if powers10 (intg0x + 1) ≤ word % 2 ^ 64 then .error (update r.buf r.dst word)
    else .ok (r.keep word i intg0x)
  else .ok r

/-- The loop over the words of the integer part. -/
def readInts (mem : ℕ → UInt8) (mask : Bool) : ℕ → BinReader → Except (ℕ → ℤ) BinReader
  | 0, r => .ok r
  | k + 1, r =>
    let word := xorMask mask (miSintKorr mem r.src 4)
    if digMax < word % 2 ^ 32 then .error (update r.buf r.dst word)
    else readInts mem mask k (r.keep word 4 9)

/-- The loop over the words of the fraction. -/
def readFracs (mem : ℕ → UInt8) (mask : Bool) : ℕ → BinReader → Except (ℕ → ℤ) BinReader
  | 0, r => .ok r
  | k + 1, r =>
    let word := xorMask mask (miSintKorr mem r.src 4)
    let buf := update r.buf r.dst word
    if digMax < word % 2 ^ 32 then .error buf
    else readFracs mem mask k { r with src := r.src + 4, buf := buf, dst := r.dst + 1 }

def readLast (mask : Bool) (frac0x : ℕ) (r : BinReader) : Except (ℕ → ℤ) BinReader :=
  if frac0x ≠ 0 then
    let i := dig2bytes frac0x
    let word := toInt32 (xorMask mask (miSintKorr mem r.src i) * powers10 (9 - frac0x))
    let buf := update r.buf r.dst word
    if digMax < word % 2 ^ 32 then .error buf
    else .ok { r with src := r.src + i, buf := buf, dst := r.dst + 1 }
  else .ok r

end

/-- The words that fit: where to start in the bytes, and the words and digits to read on both
sides of the point. -/
def binFit (len precision scale : ℕ) : ℕ × (ℕ × ℕ) × (ℕ × ℕ) × DecimalError :=
  let intg := precision - scale
  let (intg1, frac1, error) := fixIntgFracError len (roundUp intg) (roundUp scale)
  if error = .ok then (0, (intg / 9, intg % 9), (scale / 9, scale % 9), error)
  else if intg1 < roundUp intg then
    (dig2bytes (intg % 9) + 4 * (intg / 9 - intg1), (intg1, 0), (0, 0), error)
  else (0, (intg / 9, intg % 9), (frac1, 0), error)

def bin2decimal (bytes : ℕ → UInt8) (dst : Decimal) (precision scale : ℕ) :
    DecimalError × Decimal :=
  let mask : Bool := (bytes 0).toNat < 128
  let mem := update bytes 0 (bytes 0 ^^^ 0x80)
  let (src, (intg0, intg0x), (frac0, frac0x), error) := binFit dst.len precision scale
  let dst := { dst with
    sign := mask, intg := intg0 * 9 + intg0x, frac := frac0 * 9 + frac0x }
  let run := do
    let r ← readFirst mem mask intg0x ⟨src, dst.buf, 0, dst.intg⟩
    let r ← readInts mem mask intg0 r
    let r ← readFracs mem mask frac0 r
    readLast mem mask frac0x r
  match run with
  | .error buf => (.badNum, { dst with buf := buf }.makeZero)
  | .ok r => (error, { dst with intg := r.intg, buf := r.buf })

end LibSources
