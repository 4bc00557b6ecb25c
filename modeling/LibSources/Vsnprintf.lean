import LibSources.ByteMemory
import LibSources.DigitRun
import LibSources.MachineInt

/-!
# The Limited `snprintf` of `strings/my_vsnprintf.c`

A model of `my_vsnprintf`, with `ll2str` and `longlong10_to_str`.

* `to` is an offset into the buffer, called `dst`, and `end` is the offset of the last byte. A
  write outside the buffer ends the run.
* The format is the list of its characters before the NUL. An argument of another type than
  `va_arg` asks for, and a step behind the NUL of the format, end the run too.
* `int` has 32 bits; `long`, `size_t` and pointers have 64. `%f` and `%g` are left out.

## Main results

* `myVsnprintf_iff`: the formats and arguments that stay in the buffer.
-/

namespace LibSources

open Nat List

variable {c : UInt8} {out : OutputBuffer}

def digVec (upcase : Bool) (digit : ℕ) : UInt8 :=
  if digit < 10 then (48 + digit).toUInt8
  else if upcase then (55 + digit).toUInt8 else (87 + digit).toUInt8

/-- The digits of `uval`, as the loops of `ll2str` and `longlong10_to_str` write them. -/
def unsignedText (uval radix : ℕ) (upcase : Bool) : List UInt8 :=
  if uval = 0 then [48] else ((digits radix uval).map (digVec upcase)).reverse

/-- `longlong10_to_str(val, dst, -10)`. -/
def signedText (val : ℤ) : List UInt8 :=
  if val < 0 then 45 :: unsignedText ((-val) % 2 ^ 64).toNat 10 true
  else unsignedText (val % 2 ^ 64).toNat 10 true

/-! ### The function -/

structure OutputBuffer where
  base : ℕ
  size : ℕ
  size_pos : 0 < size
  /-- The address behind the buffer exists. -/
  inMemory : base + size < 2 ^ 64

def OutputBuffer.last (out : OutputBuffer) : ℕ := out.size - 1

inductive VaArg where
  | int (value : ℤ)
  | longlong (value : ℤ)
  /-- A null pointer, or the bytes before a NUL. -/
  | string (par : Option (List UInt8))
  | buffer (par : ℕ → UInt8)

inductive PrintError where
  /-- A byte outside the buffer is written. -/
  | outsideWrite
  /-- An argument is missing or has another type. -/
  | argument
  /-- A character behind the NUL of the format is read. -/
  | formatEnd
  /-- `%f` or `%g`. -/
  | floating
  /-- The model stops. -/
  | fuel

def vaInt : List VaArg → Except PrintError (ℤ × List VaArg)
  | .int value :: ap => .ok (toInt32 value, ap)
  | _ => .error .argument

def toSize (value : ℤ) : ℕ := (value % 2 ^ 64).toNat

def isDigit (c : UInt8) : Bool := IsDigit c

/-- The loop over digits, with the number so far and `pre_zero`. -/
def readDigits : List UInt8 → ℕ → Bool → List UInt8 × ℕ × Bool
  | [], length, preZero => ([], length, preZero)
  | c :: fmt, length, preZero =>
    if isDigit c then
      let length := (length * 10 + (c.toNat - 48)) % 2 ^ 64
      readDigits fmt length (preZero || length = 0)
    else (c :: fmt, length, preZero)

/-- A number in the format or `*`: the number and `pre_zero`. -/
def readAmount (fmt : List UInt8) (ap : List VaArg) :
    Except PrintError ((ℕ × Bool) × List UInt8 × List VaArg) :=
  match fmt with
  | 42 :: fmt =>
    match vaInt ap with
    | .error e => .error e
    | .ok (value, ap) => .ok ((toSize value, false), fmt, ap)
  | fmt => .ok ((readDigits fmt 0 false).2, (readDigits fmt 0 false).1, ap)

structure FormatConversion where
  length : ℕ
  preZero : Bool
  width : ℕ
  haveLonglong : Bool

/-- The width behind a period, `SIZE_T_MAX` without one. -/
def readWidth (fmt : List UInt8) (ap : List VaArg) :
    Except PrintError (ℕ × List UInt8 × List VaArg) :=
  match fmt with
  | 46 :: fmt => (readAmount fmt ap).map fun r => (r.1.1, r.2)
  | fmt => .ok (2 ^ 64 - 1, fmt, ap)

def readModifier (fmt : List UInt8) : Bool × List UInt8 :=
  match fmt with
  | 108 :: 108 :: fmt => (true, fmt)
  | 108 :: fmt => (true, fmt)
  | 122 :: fmt => (true, fmt)
  | fmt => (false, fmt)

def skipMinus : List UInt8 → List UInt8
  | 45 :: fmt => fmt
  | fmt => fmt

def readConversion (fmt : List UInt8) (ap : List VaArg) :
    Except PrintError (FormatConversion × List UInt8 × List VaArg) :=
  match readAmount (skipMinus fmt) ap with
  | .error e => .error e
  | .ok ((length, preZero), fmt, ap) =>
    match readWidth fmt ap with
    | .error e => .error e
    | .ok (width, fmt, ap) =>
      .ok (⟨length, preZero, width, (readModifier fmt).1⟩, (readModifier fmt).2, ap)

/-- The state before a directive, or the `break` of the loop. -/
inductive PrintStep where
  | next (fmt : List UInt8) (ap : List VaArg) (dst : ℕ) (mem : ℕ → UInt8)
  | stop (dst : ℕ) (mem : ℕ → UInt8)

section

variable (out : OutputBuffer)

def OutputBuffer.write (dst : ℕ) (bytes : List UInt8) (mem : ℕ → UInt8) :
    Except PrintError (ℕ → UInt8) :=
  if dst + bytes.length ≤ out.size then .ok (store mem dst bytes) else .error .outsideWrite

/-- One character, if there is room for it before the NUL. -/
def printChar (c : UInt8) (fmt : List UInt8) (ap : List VaArg) (dst : ℕ)
    (mem : ℕ → UInt8) : Except PrintError PrintStep :=
  if dst = out.last then .ok (.stop dst mem)
  else (out.write dst [c] mem).map fun mem => .next fmt ap (dst + 1) mem

def nullText : List UInt8 := [40, 110, 117, 108, 108, 41]

variable (width : ℕ) (par : Option (List UInt8))

def stringText : List UInt8 := ((par.getD nullText).takeWhile (· ≠ 0)).take width

def printString (fmt : List UInt8)
    (ap : List VaArg) (dst : ℕ) (mem : ℕ → UInt8) : Except PrintError PrintStep :=
  let leftLen := out.last - dst + 1
  let plen := (stringText width par).length
  let plen := if leftLen ≤ plen then leftLen - 1 else plen
  (out.write dst ((stringText width par).take plen) mem).map fun mem =>
    .next fmt ap (dst + plen) mem

/-- `%b`. The comparison of `to + width + 1` with `end` is one of addresses. A copy up to the end
of the buffer leaves `to` behind `end`, and the NUL is then written outside. -/
def printBuffer (width : ℕ) (par : ℕ → UInt8) (fmt : List UInt8)
    (ap : List VaArg) (dst : ℕ) (mem : ℕ → UInt8) : Except PrintError PrintStep :=
  let width :=
    if out.base + out.last < (out.base + dst + width + 1) % 2 ^ 64 then
      (((out.last : ℤ) - dst - 1) % 2 ^ 64).toNat
    else width
  if dst + width ≤ out.last then
    .ok (.next fmt ap (dst + width) (store mem dst (window par 0 width)))
  else .error .outsideWrite

end

inductive IntConversion where
  | d
  | u
  | x
  | upperX
  | p
  deriving DecidableEq

def intText (conv : IntConversion) (larg : ℤ) : List UInt8 :=
  match conv with
  | .d => signedText larg
  | .u => unsignedText (larg % 2 ^ 64).toNat 10 true
  | .x => unsignedText (larg % 2 ^ 64).toNat 16 false
  | .upperX => unsignedText (larg % 2 ^ 64).toNat 16 true
  | .p => 48 :: 120 :: unsignedText (larg % 2 ^ 64).toNat 16 false

def vaLarg (conv : IntConversion) (haveLonglong : Bool) (ap : List VaArg) :
    Except PrintError (ℤ × List VaArg) :=
  match haveLonglong || conv = .p, ap with
  | true, .longlong value :: ap => .ok (Int.bmod value (2 ^ 64), ap)
  | false, .int value :: ap => .ok (if conv = .d then toInt32 value else value % 2 ^ 32, ap)
  | _, _ => .error .argument

/-- The fill characters before a number of `resLength` characters. -/
def padding (c : FormatConversion) (resLength toLength : ℕ) : List UInt8 :=
  List.replicate (min c.length toLength - resLength) (if c.preZero then 48 else 32)

section

variable (out : OutputBuffer)

/-- `%d`, `%u`, `%x`, `%X` and `%p`. The text is made in `buff` of 32 bytes, or in its place with
a NUL behind it. -/
def printInteger (conv : IntConversion) (c : FormatConversion) (larg : ℤ)
    (fmt : List UInt8) (ap : List VaArg) (dst : ℕ) (mem : ℕ → UInt8) :
    Except PrintError PrintStep :=
  let text := intText conv larg
  let toLength := out.last - dst
  if toLength < 16 ∨ c.length ≠ 0 then
    if 32 < text.length + 1 then .error .outsideWrite
    else if toLength < text.length then .ok (.stop dst mem)
    else
      (out.write dst (padding c text.length toLength ++ text) mem).map fun mem =>
        .next fmt ap (dst + (padding c text.length toLength ++ text).length) mem
  else
    (out.write dst (text ++ [0]) mem).map fun mem =>
      if toLength < text.length then .stop dst mem else .next fmt ap (dst + text.length) mem

def intConversion (k : UInt8) : Option IntConversion :=
  if k = 100 then some .d else if k = 117 then some .u else if k = 120 then some .x
  else if k = 88 then some .upperX else if k = 112 then some .p else none

def convert (fmt : List UInt8) (ap : List VaArg) (dst : ℕ)
    (mem : ℕ → UInt8) : Except PrintError PrintStep :=
  match readConversion fmt ap with
  | .error e => .error e
  | .ok (_, [], _) => .error .formatEnd
  | .ok (c, k :: fmt, ap) =>
    if k = 115 then
      match ap with
      | .string par :: ap => printString out c.width par fmt ap dst mem
      | _ => .error .argument
    else if k = 98 then
      match ap with
      | .buffer par :: ap => printBuffer out c.width par fmt ap dst mem
      | _ => .error .argument
    else if k = 102 ∨ k = 103 then .error .floating
    else
      match intConversion k with
      | some conv =>
        match vaLarg conv c.haveLonglong ap with
        | .error e => .error e
        | .ok (larg, ap) => printInteger out conv c larg fmt ap dst mem
      | none =>
        if k = 99 then
          if dst = out.last then .ok (.stop dst mem)
          else
            match vaInt ap with
            | .error e => .error e
            | .ok (larg, ap) => printChar out (larg % 256).toNat.toUInt8 fmt ap dst mem
        else printChar out 37 fmt ap dst mem

/-- One round of the loop, at the character `c` of the format. -/
def directive (c : UInt8) (fmt : List UInt8) (ap : List VaArg) (dst : ℕ)
    (mem : ℕ → UInt8) : Except PrintError PrintStep :=
  if c ≠ 37 then printChar out c fmt ap dst mem else convert out fmt ap dst mem

/-- The NUL at the end, and the length that is returned. -/
def finishPrint (dst : ℕ) (mem : ℕ → UInt8) : Except PrintError (ℕ × (ℕ → UInt8)) :=
  (out.write dst [0] mem).map fun mem => (dst, mem)

def printLoop (out : OutputBuffer) :
    ℕ → List UInt8 → List VaArg → ℕ → (ℕ → UInt8) → Except PrintError (ℕ × (ℕ → UInt8))
  | 0, _, _, _, _ => .error .fuel
  | _ + 1, [], _, dst, mem => finishPrint out dst mem
  | fuel + 1, c :: fmt, ap, dst, mem =>
    match directive out c fmt ap dst mem with
    | .error e => .error e
    | .ok (.stop dst mem) => finishPrint out dst mem
    | .ok (.next fmt ap dst mem) => printLoop out fuel fmt ap dst mem

def myVsnprintf (fmt : List UInt8) (ap : List VaArg) (mem : ℕ → UInt8) :
    Except PrintError (ℕ × (ℕ → UInt8)) :=
  printLoop out (fmt.length + 1) fmt ap 0 mem

end

/-! ### Formats -/

inductive Amount where
  | star (value : ℤ)
  | digits (ds : List (Fin 10))

inductive Modifier where
  | none
  | l
  | ll
  | z

/-- What may stand between `%` and the character of the conversion. -/
structure Flags where
  minus : Bool
  length : Amount
  precision : Option Amount
  modifier : Modifier

inductive Directive where
  | literal (c : UInt8) (h : c ≠ 0 ∧ c ≠ 37)
  | percent
  | string (flags : Flags) (par : Option (List UInt8))
  | buffer (flags : Flags) (par : ℕ → UInt8)
  | integer (flags : Flags) (conv : IntConversion) (value : ℤ)
  | character (flags : Flags) (value : ℤ)

def digitChar (d : Fin 10) : UInt8 := (48 + d.val).toUInt8

def Amount.text : Amount → List UInt8
  | .star _ => [42]
  | .digits ds => ds.map digitChar

def Amount.args : Amount → List VaArg
  | .star value => [.int value]
  | .digits _ => []

def Amount.value : Amount → ℕ × Bool
  | .star value => (toSize (toInt32 value), false)
  | .digits ds =>
    ds.foldl (fun r d => ((r.1 * 10 + d.val) % 2 ^ 64,
      r.2 || (r.1 * 10 + d.val) % 2 ^ 64 = 0)) (0, false)

def Modifier.text : Modifier → List UInt8
  | .none => []
  | .l => [108]
  | .ll => [108, 108]
  | .z => [122]

def Modifier.longlong : Modifier → Bool
  | .none => false
  | _ => true

def precisionText : Option Amount → List UInt8
  | none => []
  | some a => 46 :: a.text

def Flags.text (flags : Flags) : List UInt8 :=
  (if flags.minus then [45] else []) ++ (flags.length.text ++
    (precisionText flags.precision ++ flags.modifier.text))

def Flags.args (flags : Flags) : List VaArg :=
  flags.length.args ++ (flags.precision.map Amount.args).getD []

section

variable (flags : Flags)

/-- The precision, `SIZE_T_MAX` without one. -/
def Flags.width : ℕ := (flags.precision.map fun a => a.value.1).getD (2 ^ 64 - 1)

def Flags.conversion : FormatConversion :=
  ⟨flags.length.value.1, flags.length.value.2, flags.width, flags.modifier.longlong⟩

def IntConversion.char : IntConversion → UInt8
  | .d => 100
  | .u => 117
  | .x => 120
  | .upperX => 88
  | .p => 112

variable (conv : IntConversion)

def Flags.wide : Bool := flags.modifier.longlong || conv = .p

def Flags.larg (value : ℤ) : ℤ :=
  if flags.wide conv then Int.bmod value (2 ^ 64)
  else if conv = .d then toInt32 value else value % 2 ^ 32

end

def Directive.text : Directive → List UInt8
  | .literal c _ => [c]
  | .percent => [37, 37]
  | .string flags _ => 37 :: (flags.text ++ [115])
  | .buffer flags _ => 37 :: (flags.text ++ [98])
  | .integer flags conv _ => 37 :: (flags.text ++ [conv.char])
  | .character flags _ => 37 :: (flags.text ++ [99])

def Directive.args : Directive → List VaArg
  | .literal _ _ => []
  | .percent => []
  | .string flags par => flags.args ++ [.string par]
  | .buffer flags par => flags.args ++ [.buffer par]
  | .integer flags conv value =>
    flags.args ++ [if flags.wide conv then .longlong value else .int value]
  | .character flags value => flags.args ++ [.int value]

/-- The position behind a directive that starts at `pos`, where the NUL must stand at `last` at
the latest; `none` if the output ends here. -/
def Directive.position (last pos : ℕ) : Directive → Option ℕ
  | .literal _ _ => if pos = last then none else some (pos + 1)
  | .percent => if pos = last then none else some (pos + 1)
  | .string flags par => some (pos + min (stringText flags.width par).length (last - pos))
  | .buffer flags _ => some (pos + min flags.width (last - pos - 1))
  | .integer flags conv value =>
    let resLength := (intText conv (flags.larg conv value)).length
    if last - pos < resLength then none
    else some (pos + max resLength (min flags.length.value.1 (last - pos)))
  | .character _ _ => if pos = last then none else some (pos + 1)

/-- The directive stays in the buffer: a `%b` needs a free byte and a precision that does not
lead out of the address space, and a number without a length that finds 16 free bytes must fit
into the free bytes. -/
def Directive.Safe (out : OutputBuffer) (pos : ℕ) : Directive → Prop
  | .buffer flags _ => pos < out.last ∧ out.base + pos + flags.width + 1 < 2 ^ 64
  | .integer flags conv value =>
    flags.length.value.1 = 0 → 16 ≤ out.last - pos →
      (intText conv (flags.larg conv value)).length ≤ out.last - pos
  | _ => True

def SafeFormat (out : OutputBuffer) : List Directive → ℕ → Prop
  | [], _ => True
  | d :: ds, pos => d.Safe out pos ∧ ∀ next, d.position out.last pos = some next →
      SafeFormat out ds next

/-! ### Reading a conversion -/

theorem digitChar_spec (d : Fin 10) :
    isDigit (digitChar d) = true ∧ (digitChar d).toNat - 48 = d.val ∧ digitChar d ≠ 42 ∧
      digitChar d ≠ 45 := by
  revert d
  decide

theorem readDigits_digits (ds : List (Fin 10)) (hc : isDigit c = false) (rest : List UInt8)
    (length : ℕ) (preZero : Bool) :
    readDigits (ds.map digitChar ++ c :: rest) length preZero =
      (c :: rest, ds.foldl (fun r d => ((r.1 * 10 + d.val) % 2 ^ 64,
        r.2 || (r.1 * 10 + d.val) % 2 ^ 64 = 0)) (length, preZero)) := by
  induction ds generalizing length preZero with
  | nil => rw [map_nil, nil_append, readDigits, hc]; rfl
  | cons d ds ih =>
    obtain ⟨hdigit, hvalue, -⟩ := digitChar_spec d
    rw [map_cons, cons_append, readDigits, if_pos hdigit, hvalue, foldl_cons]
    exact ih _ _

theorem readAmount_of_ne (hc : c ≠ 42) (fmt : List UInt8) (ap : List VaArg) :
    readAmount (c :: fmt) ap =
      .ok ((readDigits (c :: fmt) 0 false).2, (readDigits (c :: fmt) 0 false).1, ap) := by
  rw [readAmount.eq_def]
  split
  case h_1 heq => exact absurd (cons.inj heq).1 hc
  case h_2 => rfl

theorem readAmount_text (a : Amount) (hdigit : isDigit c = false) (hstar : c ≠ 42)
    (rest : List UInt8) (ap : List VaArg) :
    readAmount (a.text ++ c :: rest) (a.args ++ ap) = .ok (a.value, c :: rest, ap) := by
  cases a with
  | star value => rfl
  | digits ds =>
    rw [Amount.text, Amount.args, Amount.value, nil_append]
    cases ds with
    | nil =>
      rw [map_nil, nil_append, readAmount_of_ne hstar]
      exact congrArg (fun r => Except.ok (r.2, r.1, ap)) (readDigits_digits [] hdigit rest 0 false)
    | cons d ds =>
      rw [map_cons, cons_append, readAmount_of_ne (digitChar_spec d).2.2.1]
      exact congrArg (fun r => Except.ok (r.2, r.1, ap))
        (readDigits_digits (d :: ds) hdigit rest 0 false)

def conversionChars : List UInt8 := [115, 98, 100, 117, 120, 88, 112, 99]

section

variable (modifier : Modifier) {k : UInt8}

theorem modifier_head (hk : k ∈ conversionChars) (rest : List UInt8) :
    ∃ c t, modifier.text ++ k :: rest = c :: t ∧ isDigit c = false ∧ c ≠ 42 ∧ c ≠ 45 ∧ c ≠ 46 := by
  have hchars : ∀ k ∈ conversionChars, isDigit k = false ∧ k ≠ 42 ∧ k ≠ 45 ∧ k ≠ 46 := by
    decide +kernel
  cases modifier with
  | none => exact ⟨k, rest, rfl, hchars k hk⟩
  | l => exact ⟨108, _, rfl, by decide⟩
  | ll => exact ⟨108, _, rfl, by decide⟩
  | z => exact ⟨122, _, rfl, by decide⟩

theorem readModifier_text (hk : k ∈ conversionChars) (rest : List UInt8) :
    readModifier (modifier.text ++ k :: rest) = (modifier.longlong, k :: rest) := by
  have hne : ∀ k ∈ conversionChars, k ≠ 108 ∧ k ≠ 122 := by decide +kernel
  obtain ⟨hl, hz⟩ := hne k hk
  cases modifier with
  | none =>
    rw [Modifier.text, nil_append, readModifier.eq_def]
    split
    case h_1 heq => exact absurd (cons.inj heq).1 hl
    case h_2 heq => exact absurd (cons.inj heq).1 hl
    case h_3 heq => exact absurd (cons.inj heq).1 hz
    case h_4 => rfl
  | l =>
    rw [Modifier.text, singleton_append, readModifier.eq_def]
    split
    case h_1 heq => exact absurd (cons.inj (cons.inj heq).2).1 hl
    case h_2 heq => rw [← (cons.inj heq).2]; rfl
    case h_3 heq => exact absurd (cons.inj heq).1 (by decide)
    case h_4 _ h _ => exact absurd rfl (h _)
  | ll => rfl
  | z => rfl

end

theorem readWidth_text (precision : Option Amount) (hdigit : isDigit c = false) (hstar : c ≠ 42)
    (hperiod : c ≠ 46) (rest : List UInt8) (ap : List VaArg) :
    readWidth (precisionText precision ++ c :: rest) ((precision.map Amount.args).getD [] ++ ap) =
      .ok ((precision.map fun a => a.value.1).getD (2 ^ 64 - 1), c :: rest, ap) := by
  cases precision with
  | none =>
    rw [precisionText, nil_append, readWidth.eq_def]
    split
    case h_1 heq => exact absurd (cons.inj heq).1 hperiod
    case h_2 => rfl
  | some a =>
    have hamount := readAmount_text a hdigit hstar rest ap
    exact congrArg (Except.map fun r => (r.1.1, r.2)) hamount

theorem precision_head (precision : Option Amount) (hdigit : isDigit c = false) (hstar : c ≠ 42)
    (hminus : c ≠ 45) (rest : List UInt8) :
    ∃ c' t, precisionText precision ++ c :: rest = c' :: t ∧ isDigit c' = false ∧ c' ≠ 42 ∧
      c' ≠ 45 := by
  cases precision with
  | none => exact ⟨c, rest, rfl, hdigit, hstar, hminus⟩
  | some a => exact ⟨46, _, rfl, by decide⟩

theorem skipMinus_of_ne (hc : c ≠ 45) (fmt : List UInt8) : skipMinus (c :: fmt) = c :: fmt := by
  rw [skipMinus.eq_def]
  split
  case h_1 heq => exact absurd (cons.inj heq).1 hc
  case h_2 => rfl

theorem skipMinus_text (minus : Bool) (a : Amount) (hc : c ≠ 45) (rest : List UInt8) :
    skipMinus ((if minus then [45] else []) ++ (a.text ++ c :: rest)) = a.text ++ c :: rest := by
  cases minus with
  | true => rfl
  | false =>
    rw [if_neg Bool.false_ne_true, nil_append]
    cases a with
    | star value => rfl
    | digits ds =>
      cases ds with
      | nil => exact skipMinus_of_ne hc rest
      | cons d ds => exact skipMinus_of_ne (digitChar_spec d).2.2.2 _

theorem readConversion_text (flags : Flags) {k : UInt8} (hk : k ∈ conversionChars)
    (rest : List UInt8) (ap : List VaArg) :
    readConversion (flags.text ++ k :: rest) (flags.args ++ ap) =
      .ok (flags.conversion, k :: rest, ap) := by
  obtain ⟨c, t, htext, hdigit, hstar, hminus, hperiod⟩ := modifier_head flags.modifier hk rest
  obtain ⟨c', t', htext', hdigit', hstar', hminus'⟩ :=
    precision_head flags.precision hdigit hstar hminus t
  have hwhole : flags.text ++ k :: rest =
      (if flags.minus then [45] else []) ++ (flags.length.text ++ c' :: t') := by
    rw [← htext', ← htext, Flags.text]
    simp only [append_assoc]
  rw [readConversion, hwhole, skipMinus_text _ _ hminus', Flags.args, append_assoc,
    readAmount_text _ hdigit' hstar']
  dsimp only
  rw [← htext', readWidth_text _ hdigit hstar hperiod]
  dsimp only
  rw [← htext, readModifier_text _ hk]
  rfl

theorem Amount.value_lt (a : Amount) : a.value.1 < 2 ^ 64 := by
  cases a with
  | star value =>
    rw [Amount.value, toSize]
    omega
  | digits ds =>
    rw [Amount.value]
    cases ds using List.reverseRecOn with
    | nil => exact Nat.two_pow_pos 64
    | append_singleton ds d =>
      rw [foldl_append]
      exact Nat.mod_lt _ (Nat.two_pow_pos 64)

theorem Flags.width_lt (flags : Flags) : flags.width < 2 ^ 64 := by
  rw [Flags.width]
  cases flags.precision with
  | none => exact Nat.sub_lt (Nat.two_pow_pos 64) one_pos
  | some a => exact a.value_lt

theorem length_unsignedText (radix : ℕ) {uval : ℕ} (upcase : Bool) (huval : uval < 2 ^ 64)
    (hradix : 10 ≤ radix) : (unsignedText uval radix upcase).length ≤ 20 := by
  rw [unsignedText]
  split
  case isTrue => decide
  case isFalse =>
    rw [length_reverse, length_map, digits_length_le_iff (by omega)]
    calc uval < 10 ^ 20 := huval.trans (by norm_num)
      _ ≤ radix ^ 20 := Nat.pow_le_pow_left hradix 20

theorem length_intText (conv : IntConversion) (larg : ℤ) : (intText conv larg).length ≤ 22 := by
  have hmod : ∀ x : ℤ, (x % 2 ^ 64).toNat < 2 ^ 64 := fun x => by omega
  have hdec := fun x upcase => length_unsignedText 10 upcase (hmod x) le_rfl
  have hhex := fun x upcase => length_unsignedText 16 upcase (hmod x) (by norm_num)
  cases conv with
  | d =>
    rw [intText, signedText]
    split
    case isTrue =>
      rw [length_cons]
      have := hdec (-larg) true
      omega
    case isFalse =>
      have := hdec larg true
      omega
  | u => exact (hdec larg true).trans (by norm_num)
  | x => exact (hhex larg false).trans (by norm_num)
  | upperX => exact (hhex larg true).trans (by norm_num)
  | p =>
    rw [intText, length_cons, length_cons]
    have := hhex larg false
    omega

/-! ### One directive -/

def OutputBuffer.Keeps (out : OutputBuffer) (mem mem' : ℕ → UInt8) : Prop :=
  ∀ j, out.size ≤ j → mem' j = mem j

section

variable {out : OutputBuffer} {fmt : List UInt8} {ap : List VaArg} {dst : ℕ} {mem : ℕ → UInt8}

section

variable (out : OutputBuffer)

theorem OutputBuffer.last_lt : out.last < out.size := sub_lt out.size_pos one_pos

theorem OutputBuffer.write_eq (mem : ℕ → UInt8) {dst : ℕ}
    {bytes : List UInt8} (h : dst + bytes.length ≤ out.size) :
    out.write dst bytes mem = .ok (store mem dst bytes) ∧ out.Keeps mem (store mem dst bytes) :=
  ⟨if_pos h, fun _ hj => store_of_ge mem bytes (h.trans hj)⟩

def Proceeds (fmt : List UInt8) (ap : List VaArg) (dst : ℕ)
    (mem : ℕ → UInt8) (next : Option ℕ) (r : Except PrintError PrintStep) : Prop :=
  match next with
  | some next => next ≤ out.last ∧ ∃ mem', r = .ok (.next fmt ap next mem') ∧ out.Keeps mem mem'
  | none => ∃ mem', r = .ok (.stop dst mem') ∧ out.Keeps mem mem'

end

theorem printChar_proceeds (hdst : dst ≤ out.last) (c : UInt8) :
    Proceeds out fmt ap dst mem (if dst = out.last then none else some (dst + 1))
      (printChar out c fmt ap dst mem) := by
  rw [printChar]
  by_cases hlast : dst = out.last
  · rw [if_pos hlast, if_pos hlast]
    exact ⟨mem, rfl, fun _ _ => rfl⟩
  have hlt := out.last_lt
  have hroom : dst + [c].length ≤ out.size := by
    rw [length_singleton]
    omega
  obtain ⟨hwrite, hkeeps⟩ := out.write_eq mem hroom
  rw [if_neg hlast, if_neg hlast, hwrite]
  exact ⟨by omega, _, rfl, hkeeps⟩

theorem printString_proceeds (hdst : dst ≤ out.last) (width : ℕ) (par : Option (List UInt8)) :
    Proceeds out fmt ap dst mem (some (dst + min (stringText width par).length (out.last - dst)))
      (printString out width par fmt ap dst mem) := by
  have hlt := out.last_lt
  have hplen : (if out.last - dst + 1 ≤ (stringText width par).length then
      out.last - dst + 1 - 1 else (stringText width par).length) =
        min (stringText width par).length (out.last - dst) := by
    split <;> omega
  rw [printString]
  rw [hplen]
  have hroom : dst + ((stringText width par).take
      (min (stringText width par).length (out.last - dst))).length ≤ out.size := by
    rw [length_take]
    omega
  obtain ⟨hwrite, hkeeps⟩ := out.write_eq mem hroom
  rw [hwrite]
  exact ⟨by omega, _, rfl, hkeeps⟩

theorem printBuffer_proceeds (width : ℕ) (par : ℕ → UInt8)
    (hsafe : dst < out.last ∧ out.base + dst + width + 1 < 2 ^ 64) :
    Proceeds out fmt ap dst mem (some (dst + min width (out.last - dst - 1)))
      (printBuffer out width par fmt ap dst mem) := by
  obtain ⟨hroom, haddr⟩ := hsafe
  have hlt := out.last_lt
  have hmem := out.inMemory
  have hwidth : (if out.base + out.last < (out.base + dst + width + 1) % 2 ^ 64 then
      (((out.last : ℤ) - dst - 1) % 2 ^ 64).toNat else width) = min width (out.last - dst - 1) := by
    rw [mod_eq_of_lt haddr]
    split <;> omega
  rw [printBuffer]
  rw [hwidth, if_pos (by omega)]
  refine ⟨by omega, _, rfl, fun j hj => store_of_ge mem _ ?_⟩
  rw [length_window]
  omega

theorem printBuffer_outside (hdst : dst ≤ out.last) {width : ℕ} (hwidth : width < 2 ^ 64)
    (par : ℕ → UInt8) (houtside : ¬ (dst < out.last ∧ out.base + dst + width + 1 < 2 ^ 64)) :
    printBuffer out width par fmt ap dst mem = .error .outsideWrite := by
  have hlt := out.last_lt
  have hmem := out.inMemory
  rw [printBuffer]
  rw [if_neg]
  split <;> omega

theorem printInteger_proceeds (hdst : dst ≤ out.last) (conv : IntConversion) (c : FormatConversion)
    (larg : ℤ)
    (hsafe : c.length = 0 → 16 ≤ out.last - dst → (intText conv larg).length ≤ out.last - dst) :
    Proceeds out fmt ap dst mem (if out.last - dst < (intText conv larg).length then none
        else some (dst + max (intText conv larg).length (min c.length (out.last - dst))))
      (printInteger out conv c larg fmt ap dst mem) := by
  have hlt := out.last_lt
  have hlength := length_intText conv larg
  rw [printInteger]
  by_cases hbuff : out.last - dst < 16 ∨ c.length ≠ 0
  · have hsmall : ¬ 32 < (intText conv larg).length + 1 := by omega
    rw [if_pos hbuff, if_neg hsmall]
    by_cases hlong : out.last - dst < (intText conv larg).length
    · rw [if_pos hlong, if_pos hlong]
      exact ⟨mem, rfl, fun _ _ => rfl⟩
    have hpadded : (padding c (intText conv larg).length (out.last - dst) ++
        intText conv larg).length =
          max (intText conv larg).length (min c.length (out.last - dst)) := by
      rw [length_append, padding, length_replicate]
      omega
    have hroom : dst + (padding c (intText conv larg).length (out.last - dst) ++
        intText conv larg).length ≤ out.size := by
      rw [hpadded]
      omega
    obtain ⟨hwrite, hkeeps⟩ := out.write_eq mem hroom
    rw [if_neg hlong, if_neg hlong, hwrite, hpadded]
    exact ⟨by omega, _, rfl, hkeeps⟩
  · have hfits := hsafe (by omega) (by omega)
    have hroom : dst + (intText conv larg ++ [0]).length ≤ out.size := by
      rw [length_append, length_singleton]
      omega
    obtain ⟨hwrite, hkeeps⟩ := out.write_eq mem hroom
    have hnext : max (intText conv larg).length (min c.length (out.last - dst)) =
        (intText conv larg).length := by omega
    have hshort : ¬ out.last - dst < (intText conv larg).length := by omega
    rw [if_neg hbuff, if_neg hshort, hwrite, hnext]
    refine ⟨by omega, _, ?_, hkeeps⟩
    rw [Except.map, if_neg hshort]

theorem printInteger_outside (hdst : dst ≤ out.last) (conv : IntConversion) (c : FormatConversion)
    (larg : ℤ) (houtside : ¬ (c.length = 0 → 16 ≤ out.last - dst →
      (intText conv larg).length ≤ out.last - dst)) :
    printInteger out conv c larg fmt ap dst mem = .error .outsideWrite := by
  have hlt := out.last_lt
  rw [Classical.not_imp, Classical.not_imp] at houtside
  have hbuff : ¬ (out.last - dst < 16 ∨ c.length ≠ 0) := by omega
  rw [printInteger, if_neg hbuff, OutputBuffer.write, if_neg]
  · rfl
  rw [length_append, length_singleton]
  have hlast : out.last = out.size - 1 := rfl
  omega

end

theorem intConversion_char (conv : IntConversion) :
    intConversion conv.char = some conv ∧ conv.char ∈ conversionChars ∧ conv.char ≠ 115 ∧
      conv.char ≠ 98 ∧ ¬ (conv.char = 102 ∨ conv.char = 103) := by
  cases conv <;> decide

theorem vaLarg_wide (flags : Flags) (conv : IntConversion) (value : ℤ) (ap : List VaArg) :
    vaLarg conv flags.modifier.longlong
        ((if flags.wide conv then .longlong value else .int value) :: ap) =
      .ok (flags.larg conv value, ap) := by
  rw [vaLarg.eq_def, Flags.larg, Flags.wide]
  cases flags.modifier.longlong || decide (conv = .p) <;> rfl

theorem exists_directive {P : Except PrintError PrintStep → Prop} (flags : Flags) (k : UInt8)
    (arg : VaArg) {rest : List UInt8} {ap : List VaArg} {dst : ℕ} {mem : ℕ → UInt8}
    (h : P (convert out (flags.text ++ k :: rest) (flags.args ++ arg :: ap) dst mem)) :
    ∃ c fmt, 37 :: (flags.text ++ [k]) ++ rest = c :: fmt ∧
      P (directive out c fmt (flags.args ++ [arg] ++ ap) dst mem) := by
  refine ⟨37, flags.text ++ k :: rest, ?_, ?_⟩
  · rw [cons_append, append_assoc, singleton_append]
  · rw [directive, if_neg (by decide), append_assoc]
    exact h

theorem Directive.proceeds (d : Directive) {dst : ℕ} (hdst : dst ≤ out.last)
    (hsafe : d.Safe out dst) (rest : List UInt8) (ap : List VaArg) (mem : ℕ → UInt8) :
    ∃ c fmt, d.text ++ rest = c :: fmt ∧ Proceeds out rest ap dst mem (d.position out.last dst)
        (directive out c fmt (d.args ++ ap) dst mem) := by
  cases d with
  | literal c h =>
    refine ⟨c, rest, rfl, ?_⟩
    rw [directive, if_pos h.2]
    exact printChar_proceeds hdst c
  | percent =>
    refine ⟨37, 37 :: rest, rfl, ?_⟩
    exact printChar_proceeds hdst 37
  | string flags par =>
    refine exists_directive flags 115 (.string par) ?_
    rw [convert, readConversion_text flags (by decide)]
    exact printString_proceeds hdst _ par
  | buffer flags par =>
    refine exists_directive flags 98 (.buffer par) ?_
    rw [convert, readConversion_text flags (by decide)]
    exact printBuffer_proceeds _ par hsafe
  | integer flags conv value =>
    obtain ⟨hconv, hmem, hs, hb, hf⟩ := intConversion_char conv
    refine exists_directive flags conv.char _ ?_
    rw [convert, readConversion_text flags hmem]
    dsimp only
    rw [if_neg hs, if_neg hb, if_neg hf, hconv]
    dsimp only
    rw [Flags.conversion, vaLarg_wide]
    exact printInteger_proceeds hdst conv flags.conversion _ hsafe
  | character flags value =>
    refine exists_directive flags 99 (.int value) ?_
    rw [convert, readConversion_text flags (by decide)]
    change Proceeds out rest ap dst mem (if dst = out.last then none else some (dst + 1))
      (if dst = out.last then .ok (.stop dst mem)
        else printChar out (toInt32 value % 256).toNat.toUInt8 rest ap dst mem)
    by_cases hlast : dst = out.last
    · rw [if_pos hlast, if_pos hlast]
      exact ⟨mem, rfl, fun _ _ => rfl⟩
    · nth_rewrite 2 [if_neg hlast]
      exact printChar_proceeds hdst _

theorem Directive.outside (d : Directive) {dst : ℕ} (hdst : dst ≤ out.last)
    (houtside : ¬ d.Safe out dst) (rest : List UInt8) (ap : List VaArg) (mem : ℕ → UInt8) :
    ∃ c fmt, d.text ++ rest = c :: fmt ∧
      directive out c fmt (d.args ++ ap) dst mem = .error .outsideWrite := by
  cases d with
  | literal c h => exact absurd trivial houtside
  | percent => exact absurd trivial houtside
  | string flags par => exact absurd trivial houtside
  | buffer flags par =>
    refine @exists_directive _ (· = .error .outsideWrite) flags 98 (.buffer par) _ _ _ _ ?_
    rw [convert, readConversion_text flags (by decide)]
    exact printBuffer_outside hdst flags.width_lt par houtside
  | integer flags conv value =>
    obtain ⟨hconv, hmem, hs, hb, hf⟩ := intConversion_char conv
    refine @exists_directive _ (· = .error .outsideWrite) flags conv.char _ _ _ _ _ ?_
    rw [convert, readConversion_text flags hmem]
    dsimp only
    rw [if_neg hs, if_neg hb, if_neg hf, hconv]
    dsimp only
    rw [Flags.conversion, vaLarg_wide]
    exact printInteger_outside hdst conv flags.conversion _ houtside
  | character flags value => exact absurd trivial houtside

/-! ### The whole format -/

theorem finishPrint_eq {dst : ℕ} (hdst : dst ≤ out.last) (mem : ℕ → UInt8) :
    ∃ mem', finishPrint out dst mem = .ok (dst, mem') ∧ mem' dst = 0 ∧ out.Keeps mem mem' := by
  have hlt := out.last_lt
  have hroom : dst + [(0 : UInt8)].length ≤ out.size := by
    rw [length_singleton]
    omega
  obtain ⟨hwrite, hkeeps⟩ := out.write_eq mem hroom
  refine ⟨_, by rw [finishPrint, hwrite]; rfl, ?_, hkeeps⟩
  have hself := window_store_self mem dst [0]
  exact (cons.inj hself).1

/-- The text stays in the buffer and ends with a NUL at the length that is returned. -/
def StaysInside (out : OutputBuffer) (mem : ℕ → UInt8)
    (r : Except PrintError (ℕ × (ℕ → UInt8))) : Prop :=
  ∃ length mem', r = .ok (length, mem') ∧ length < out.size ∧ mem' length = 0 ∧ out.Keeps mem mem'

theorem StaysInside.of_keeps {mem mem' : ℕ → UInt8} {r : Except PrintError (ℕ × (ℕ → UInt8))}
    (hkeeps : out.Keeps mem mem') : StaysInside out mem' r ↔ StaysInside out mem r := by
  refine ⟨fun ⟨length, mem'', hr, hlt, hnul, h⟩ => ?_, fun ⟨length, mem'', hr, hlt, hnul, h⟩ => ?_⟩
  · exact ⟨length, mem'', hr, hlt, hnul, fun j hj => (h j hj).trans (hkeeps j hj)⟩
  · exact ⟨length, mem'', hr, hlt, hnul, fun j hj => (h j hj).trans (hkeeps j hj).symm⟩

theorem finishPrint_staysInside {dst : ℕ} (hdst : dst ≤ out.last) (mem : ℕ → UInt8) :
    StaysInside out mem (finishPrint out dst mem) := by
  obtain ⟨mem', heq, hnul, hkeeps⟩ := finishPrint_eq hdst mem
  exact ⟨dst, mem', heq, hdst.trans_lt out.last_lt, hnul, hkeeps⟩

variable (out : OutputBuffer) (ds : List Directive)

theorem printLoop_staysInside_iff {fuel dst : ℕ}
    (mem : ℕ → UInt8) (hdst : dst ≤ out.last) (hfuel : (ds.map Directive.text).flatten.length < fuel) :
    StaysInside out mem (printLoop out fuel (ds.map Directive.text).flatten
      (ds.map Directive.args).flatten dst mem) ↔ SafeFormat out ds dst := by
  induction ds generalizing fuel dst mem with
  | nil =>
    obtain ⟨fuel, rfl⟩ : ∃ k, fuel = k + 1 := ⟨fuel - 1, by omega⟩
    exact iff_of_true (finishPrint_staysInside hdst mem) trivial
  | cons d ds ih =>
    obtain ⟨fuel, rfl⟩ : ∃ k, fuel = k + 1 := ⟨fuel - 1, by omega⟩
    rw [map_cons, flatten_cons, map_cons, flatten_cons, SafeFormat]
    rw [map_cons, flatten_cons, length_append] at hfuel
    by_cases hsafe : d.Safe out dst
    · rw [and_iff_right hsafe]
      obtain ⟨c, fmt, htext, hproceeds⟩ := d.proceeds hdst hsafe
        (ds.map Directive.text).flatten (ds.map Directive.args).flatten mem
      have hpos : 0 < d.text.length := by cases d <;> exact succ_pos _
      rw [htext, printLoop]
      cases hposition : d.position out.last dst with
      | none =>
        rw [hposition] at hproceeds
        obtain ⟨mem', heq, hkeeps⟩ := hproceeds
        rw [heq, ← StaysInside.of_keeps hkeeps]
        exact iff_of_true (finishPrint_staysInside hdst mem') fun _ hcontra => nomatch hcontra
      | some next =>
        rw [hposition] at hproceeds
        obtain ⟨hnext, mem', heq, hkeeps⟩ := hproceeds
        rw [heq, ← StaysInside.of_keeps hkeeps]
        refine (ih mem' hnext (by omega)).trans ⟨fun h _ hsome => ?_, fun h => h next rfl⟩
        cases hsome
        exact h
    · obtain ⟨c, fmt, htext, herror⟩ := d.outside hdst hsafe
        (ds.map Directive.text).flatten (ds.map Directive.args).flatten mem
      rw [htext, printLoop, herror]
      exact iff_of_false (fun ⟨_, _, hcontra, _⟩ => nomatch hcontra) fun h => hsafe h.1

/-- `my_vsnprintf` stays in its buffer iff every directive that it reaches does. -/
theorem myVsnprintf_iff (mem : ℕ → UInt8) :
    StaysInside out mem (myVsnprintf out (ds.map Directive.text).flatten
      (ds.map Directive.args).flatten mem) ↔ SafeFormat out ds 0 :=
  printLoop_staysInside_iff out ds mem (zero_le _) (lt_succ_self _)

/-- `%lld` with the smallest `longlong` in a buffer of 17 bytes: the 20 characters and a NUL are
written to it. -/
theorem myVsnprintf_longlong :
    myVsnprintf ⟨4096, 17, by decide, by decide⟩ [37, 108, 108, 100]
      [.longlong (-9223372036854775808)] (fun _ => 0) = .error .outsideWrite := by
  have hdigits : (digits 10 9223372036854775808).length = 19 := by norm_num
  have hlength : (intText .d (-9223372036854775808)).length = 20 := by
    rw [intText, signedText, if_pos (by decide), length_cons, unsignedText,
      if_neg (by decide), length_reverse, length_map]
    exact congrArg (· + 1) hdigits
  have houtside : ¬ Directive.Safe ⟨4096, 17, by decide, by decide⟩ 0
      (.integer ⟨false, .digits [], none, .ll⟩ .d (-9223372036854775808)) := by
    intro hsafe
    have hle : (intText .d (-9223372036854775808)).length ≤ 16 := hsafe rfl (by decide)
    omega
  obtain ⟨c, fmt, htext, herror⟩ := Directive.outside _ (zero_le _) houtside [] [] (fun _ => 0)
  obtain ⟨rfl, rfl⟩ := cons.inj htext
  have hround : directive ⟨4096, 17, by decide, by decide⟩ 37 [108, 108, 100]
      [.longlong (-9223372036854775808)] 0 (fun _ => 0) = .error .outsideWrite := herror
  rw [myVsnprintf, length_cons, printLoop, hround]

end LibSources
