import LibSources.Strtoll10
import LibSources.Vsnprintf

/-!
# Integers to Text: `strings/longlong2str.c`

A model of `ll2str` and `longlong10_to_str`. One loop divides a `ulonglong` while it is
greater than `LONG_MAX`, the other divides the `long` that is left. Both write from the end of a
buffer, which is a list here: `p` is what stands behind the pointer. `LONG_MAX` is a parameter.
The text is without its zero byte.

## Main results

* `ll2str_myStrtoll10`: numbers are read back.
-/

namespace LibSources

open Nat List

def uvalLoop (longMax : ℕ) (vec : ℕ → UInt8) (radix : ℕ) (hradix : 1 < radix) (uval : ℕ)
    (p : List UInt8) : ℕ × List UInt8 :=
  if longMax < uval then
    let quo := uval / radix
    uvalLoop longMax vec radix hradix quo (vec (uval - quo * radix) :: p)
  else (uval, p)
termination_by uval
decreasing_by exact div_lt_self (by omega) hradix

def longValLoop (vec : ℕ → UInt8) (radix : ℕ) (hradix : 1 < radix) (longVal : ℕ)
    (p : List UInt8) : List UInt8 :=
  if longVal ≠ 0 then
    let quo := longVal / radix
    longValLoop vec radix hradix quo (vec (longVal - quo * radix) :: p)
  else p
termination_by longVal
decreasing_by exact div_lt_self (by omega) hradix

/-- What both functions write behind the sign. -/
def uvalText (longMax : ℕ) (vec : ℕ → UInt8) (radix : ℕ) (hradix : 1 < radix) (uval : ℕ) :
    List UInt8 :=
  if uval = 0 then [48]
  else
    let (longVal, p) := uvalLoop longMax vec radix hradix uval []
    longValLoop vec radix hradix longVal p

section

variable (longMax : ℕ) (val : BitVec 64) (radix : ℤ)

def ll2str (upcase : Bool) : Option (List UInt8) :=
  if radix < 0 then
    if h : radix < -36 ∨ -2 < radix then none
    else if val.toInt < 0 then
      some (45 :: uvalText longMax (digVec upcase) (-radix).toNat (by omega) (0 - val).toNat)
    else some (uvalText longMax (digVec upcase) (-radix).toNat (by omega) val.toNat)
  else if h : 36 < radix ∨ radix < 2 then none
  else some (uvalText longMax (digVec upcase) radix.toNat (by omega) val.toNat)

def longlong10ToStr : List UInt8 :=
  if radix < 0 ∧ val.toInt < 0 then
    45 :: uvalText longMax (digVec true) 10 (by decide) (0 - val).toNat
  else uvalText longMax (digVec true) 10 (by decide) val.toNat

end

section

variable {vec : ℕ → UInt8} {radix : ℕ} (hradix : 1 < radix)

theorem longValLoop_eq (n : ℕ) (p : List UInt8) :
    longValLoop vec radix hradix n p = ((digits radix n).map vec).reverse ++ p := by
  induction n using Nat.strong_induction_on generalizing p with
  | _ n ih =>
    rw [longValLoop]
    by_cases hn : n = 0
    · rw [if_neg (not_not.mpr hn), hn, digits_zero, map_nil, reverse_nil, nil_append]
    rw [if_pos hn, ih _ (div_lt_self (pos_of_ne_zero hn) hradix),
      digits_def' hradix (pos_of_ne_zero hn), mod_eq_sub_div_mul, map_cons,
      reverse_cons, append_assoc, singleton_append]

theorem longValLoop_uvalLoop (longMax n : ℕ) (p : List UInt8) :
    longValLoop vec radix hradix (uvalLoop longMax vec radix hradix n p).1
      (uvalLoop longMax vec radix hradix n p).2 = longValLoop vec radix hradix n p := by
  induction n using Nat.strong_induction_on generalizing p with
  | _ n ih =>
    rw [uvalLoop]
    split_ifs with hn
    · rw [ih _ (div_lt_self (by omega) hradix)]
      conv_rhs => rw [longValLoop, if_pos (by omega)]
    · rfl

theorem uvalText_eq (longMax : ℕ) (upcase : Bool) (n : ℕ) :
    uvalText longMax (digVec upcase) radix hradix n = unsignedText n radix upcase := by
  rw [uvalText, unsignedText]
  split_ifs with hn
  · rfl
  · exact (longValLoop_uvalLoop hradix longMax n []).trans
      ((longValLoop_eq hradix n []).trans (append_nil _))

end

theorem unsignedText_ten (n : ℕ) (upcase : Bool) :
    unsignedText n 10 upcase = unsignedText n 10 true := by
  have hvec : (digits 10 n).map (digVec upcase) = (digits 10 n).map (digVec true) :=
    map_congr_left fun digit hmem => by
      have hlt := digits_lt_base (by decide) hmem
      rw [digVec, digVec, if_pos hlt, if_pos hlt]
  rw [unsignedText, unsignedText, hvec]

/-! ### The text is read back -/

theorem exists_digits (n : ℕ) : ∃ L : List ℕ,
    unsignedText n 10 true = (L.map (digVec true)).reverse ∧ L ≠ [] ∧ (∀ digit ∈ L, digit < 10) ∧
    ofDigits 10 L = n ∧ (n < 2 ^ 64 → L.length ≤ 20) := by
  by_cases hn : n = 0
  · subst hn
    exact ⟨[0], rfl, cons_ne_nil _ _, by decide, rfl, fun _ => by decide⟩
  refine ⟨digits 10 n, if_neg hn, digits_ne_nil_iff_ne_zero.mpr hn,
    fun digit hmem => digits_lt_base (by decide) hmem, ofDigits_digits 10 n, fun hlt => ?_⟩
  rw [digits_length_le_iff (by decide)]
  omega

theorem isDigit_digVec {digit : ℕ} (h : digit < 10) : IsDigit (digVec true digit) := by
  revert h
  revert digit
  decide

theorem digVec_toNat {digit : ℕ} (h : digit < 10) :
    ((digVec true digit).toNat : ℤ) - 48 = digit := by
  revert h
  revert digit
  decide

theorem textMemory_append_right (front back : List UInt8) {i : ℕ} (hi : front.length ≤ i) :
    textMemory (front ++ back) i = textMemory back (i - front.length) := by
  rw [textMemory, textMemory, getD_append_right _ _ _ _ hi]

theorem digitsValue_textMemory (front : List UInt8) {L : List ℕ} (h : ∀ digit ∈ L, digit < 10)
    (back : List UInt8) :
    digitsValue (textMemory (front ++ ((L.map (digVec true)).reverse ++ back))) front.length
      L.length = (ofDigits 10 L : ℕ) := by
  induction L generalizing back with
  | nil => rfl
  | cons digit L ih =>
    have hfront : ((L.map (digVec true)).reverse).length = L.length := by
      rw [length_reverse, length_map]
    have hlast : digitAt (textMemory (front ++ ((L.map (digVec true)).reverse ++
        digVec true digit :: back))) (front.length + L.length) = digit := by
      rw [digitAt, textMemory_append_right _ _ (Nat.le_add_right _ _), Nat.add_sub_cancel_left,
        textMemory_append_right _ _ hfront.le, hfront, tsub_self]
      exact digVec_toNat (h digit mem_cons_self)
    rw [map_cons, reverse_cons, append_assoc, singleton_append,
      length_cons, digitsValue_add, ih (fun d hd => h d (mem_cons_of_mem _ hd)),
      digitsValue_one, hlast, ofDigits_cons]
    push_cast
    ring

def NumberSign.text : NumberSign → List UInt8
  | none => []
  | plus => [43]
  | minus => [45]

theorem integerText_textMemory (sign : NumberSign) {digits : List UInt8}
    (hdigits : ∀ c ∈ digits, IsDigit c) (hne : digits ≠ []) :
    IntegerText (textMemory (sign.text ++ digits)) (sign.text ++ digits).length 0 sign
      digits.length := by
  have hsign : sign.length = sign.text.length := by cases sign <;> rfl
  have hat : ∀ i, sign.text.length ≤ i → i < (sign.text ++ digits).length →
      IsDigit (textMemory (sign.text ++ digits) i) := by
    intro i hlo hhi
    rw [length_append] at hhi
    rw [textMemory_append_right _ _ hlo, textMemory, getD_eq_getElem _ _ (by omega)]
    exact hdigits _ (getElem_mem _)
  refine ⟨fun i hi hzero => ?_, getD_eq_default _ _ le_rfl,
    fun i hi => absurd hi (not_lt_zero i), ?_, length_pos_iff.mpr hne,
    ⟨fun i hlo hhi => hat i (by omega) ?_, ?_, fun h => ?_⟩⟩
  · by_cases hlo : sign.text.length ≤ i
    · have hdigit := hat i hlo hi
      rw [hzero] at hdigit
      exact absurd hdigit (by decide)
    cases sign with
    | none => exact hlo (zero_le i)
    | plus | minus =>
      obtain rfl : i = 0 := Nat.lt_one_iff.mp (Nat.lt_of_not_le hlo)
      exact absurd hzero (of_decide_eq_false rfl)
  · cases sign with
    | none => trivial
    | plus | minus => rfl
  · rw [length_append]
    omega
  · rw [length_append]
    omega
  · rw [length_append] at h
    omega

theorem myStrtoll10_unsignedText (sign : NumberSign) {n : ℕ}
    (hn : (n : ℤ) ≤ maxNumber sign.negative) (hasEnd : Bool) :
    myStrtoll10 (textMemory (sign.text ++ unsignedText n 10 true))
        (sign.text ++ unsignedText n 10 true).length
        (if hasEnd then some (sign.text ++ unsignedText n 10 true).length else none) =
      ⟨signValue sign.negative n,
        if hasEnd then some (sign.text ++ unsignedText n 10 true).length else none,
        signError sign.negative⟩ := by
  obtain ⟨L, htext, hne, hdigits, hvalue, hlength⟩ := exists_digits n
  have hmax : maxNumber sign.negative < 2 ^ 64 := by cases sign <;> decide
  have hcount : ((L.map (digVec true)).reverse).length = L.length := by
    rw [length_reverse, length_map]
  have hsign : sign.length = sign.text.length := by cases sign <;> rfl
  have hshort : sign.length ≤ 1 := by cases sign <;> decide
  have hread := digitsValue_textMemory sign.text hdigits []
  rw [append_nil, hvalue] at hread
  have hL := hlength (by omega)
  rw [htext]
  have hchars : ∀ c ∈ (L.map (digVec true)).reverse, IsDigit c := by
    intro c hc
    rw [mem_reverse, List.mem_map] at hc
    obtain ⟨digit, hmem, rfl⟩ := hc
    exact isDigit_digVec (hdigits digit hmem)
  have htextInt := integerText_textMemory sign hchars
    (by rwa [Ne, reverse_eq_nil_iff, map_eq_nil_iff])
  generalize hfull : sign.text ++ (L.map (digVec true)).reverse = text at *
  have htotal : text.length = sign.length + L.length := by
    rw [← hfull, length_append, hsign, hcount]
  have hrun := htextInt.run_digitsRead hasEnd
  have hall : digitsRead hasEnd sign (L.map (digVec true)).reverse.length = L.length := by
    rw [digitsRead, hcount]
    split_ifs <;> omega
  have hstart : 0 + sign.length = sign.text.length := (zero_add _).trans hsign
  rw [hall] at hrun
  have hexact := (convertDigits_exact_iff sign.negative hrun (length_pos_iff.mpr hne)).mpr
    fun hmissed => by
      have hlt := hmissed.maxNumber_lt
      rw [hstart, hread] at hlt
      omega
  rw [hstart, hread, Conversion.Exact, if_pos hn] at hexact
  rw [htextInt.myStrtoll10_eq hasEnd, hstart, hexact, htotal, hsign]

/-! ### Both directions -/

theorem toNat_zero_sub {val : BitVec 64} (h : val.toInt < 0) :
    (0 - val).toNat = val.toInt.natAbs := by
  rw [BitVec.toInt_eq_toNat_cond] at h ⊢
  rw [BitVec.toNat_sub, show (0 : BitVec 64).toNat = 0 from rfl]
  have hlt := val.isLt
  split_ifs at h ⊢ <;> omega

theorem toNat_of_toInt_nonneg {val : BitVec 64} (h : ¬ val.toInt < 0) :
    val.toNat = val.toInt.natAbs := by
  rw [BitVec.toInt_eq_toNat_cond] at h ⊢
  have hlt := val.isLt
  split_ifs at h ⊢ <;> omega

def printedSign (val : BitVec 64) : NumberSign := if val.toInt < 0 then .minus else .none

def canonicalText (val : BitVec 64) (radix : ℕ) (upcase : Bool) : List UInt8 :=
  (printedSign val).text ++ unsignedText val.toInt.natAbs radix upcase

variable (longMax : ℕ) (val : BitVec 64)

theorem ll2str_unsigned {radix : ℕ} (hlo : 2 ≤ radix) (hhi : radix ≤ 36) (upcase : Bool) :
    ll2str longMax val radix upcase = some (unsignedText val.toNat radix upcase) := by
  rw [ll2str, if_neg (by omega), dif_neg (by omega), uvalText_eq, Int.toNat_natCast]

theorem ll2str_signed {radix : ℕ} (hlo : 2 ≤ radix) (hhi : radix ≤ 36) (upcase : Bool) :
    ll2str longMax val (-radix) upcase = some (canonicalText val radix upcase) := by
  rw [ll2str, if_pos (by omega), dif_neg (by omega), canonicalText, printedSign]
  split_ifs with hneg
  · rw [uvalText_eq, neg_neg, Int.toNat_natCast, toNat_zero_sub hneg]
    rfl
  · rw [uvalText_eq, neg_neg, Int.toNat_natCast, toNat_of_toInt_nonneg hneg]
    rfl

theorem longlong10ToStr_unsigned :
    longlong10ToStr longMax val 10 = unsignedText val.toNat 10 true := by
  rw [longlong10ToStr, if_neg (by omega), uvalText_eq]

theorem longlong10ToStr_signed : longlong10ToStr longMax val (-10) = canonicalText val 10 true := by
  rw [longlong10ToStr, canonicalText, printedSign]
  by_cases hneg : val.toInt < 0
  · rw [if_pos ⟨by decide, hneg⟩, if_pos hneg, uvalText_eq, toNat_zero_sub hneg]
    rfl
  · rw [if_neg fun h => hneg h.2, if_neg hneg, uvalText_eq, toNat_of_toInt_nonneg hneg]
    rfl

/-- **Printing and parsing.** `ll2str` writes the digits of the number, `longlong10_to_str` writes
the same text, and `my_strtoll10` reads it back. -/
theorem ll2str_myStrtoll10 : (∀ radix : ℕ, 2 ≤ radix → radix ≤ 36 → ∀ upcase,
      ll2str longMax val radix upcase = some (unsignedText val.toNat radix upcase) ∧
      ll2str longMax val (-radix) upcase = some (canonicalText val radix upcase)) ∧
    (∀ upcase, ll2str longMax val 10 upcase = some (longlong10ToStr longMax val 10) ∧
      ll2str longMax val (-10) upcase = some (longlong10ToStr longMax val (-10))) ∧
    ∀ hasEnd : Bool, let text := longlong10ToStr longMax val 10
      let signed := longlong10ToStr longMax val (-10)
      myStrtoll10 (textMemory text) text.length (if hasEnd then some text.length else none) =
        ⟨val, if hasEnd then some text.length else none, .ok⟩ ∧
      myStrtoll10 (textMemory signed) signed.length (if hasEnd then some signed.length else none) =
        ⟨val, if hasEnd then some signed.length else none, signError (val.toInt < 0)⟩ := by
  have hlt := val.isLt
  refine ⟨fun radix hlo hhi upcase => ⟨ll2str_unsigned longMax val hlo hhi upcase,
    ll2str_signed longMax val hlo hhi upcase⟩, fun upcase => ⟨?_, ?_⟩, fun hasEnd => ⟨?_, ?_⟩⟩
  · rw [longlong10ToStr_unsigned, ← unsignedText_ten _ upcase]
    exact ll2str_unsigned longMax val (by decide) (by decide) upcase
  · rw [longlong10ToStr_signed, canonicalText, ← unsignedText_ten _ upcase]
    exact ll2str_signed longMax val (by decide) (by decide) upcase
  · rw [longlong10ToStr_unsigned]
    have hread := @myStrtoll10_unsignedText .none val.toNat
      (by rw [maxNumber, if_neg (by decide)]; omega) hasEnd
    have hvalue : signValue false val.toNat = val := by
      rw [signValue, if_neg Bool.false_ne_true, BitVec.ofInt_natCast, BitVec.ofNat_toNat,
        BitVec.setWidth_eq]
    rw [show NumberSign.none.negative = false from rfl, hvalue] at hread
    exact hread
  rw [longlong10ToStr_signed, canonicalText]
  have hmin := BitVec.le_toInt val
  have hmax := @BitVec.toInt_lt _ val
  have hnegative : (printedSign val).negative = decide (val.toInt < 0) := by
    rw [printedSign]
    split_ifs with hneg
    · exact (decide_eq_true hneg).symm
    · exact (decide_eq_false hneg).symm
  have hread := @myStrtoll10_unsignedText (printedSign val) val.toInt.natAbs
    (by rw [hnegative, maxNumber]; split_ifs <;> omega) hasEnd
  have hvalue : signValue (printedSign val).negative val.toInt.natAbs = val := by
    rw [signValue, hnegative]
    have hint : (if decide (val.toInt < 0) = true then -(val.toInt.natAbs : ℤ)
        else val.toInt.natAbs) = val.toInt := by
      simp only [decide_eq_true_eq]
      split_ifs <;> omega
    rw [hint, BitVec.ofInt_toInt]
  rw [hvalue, hnegative] at hread
  exact hread

theorem ll2str_myStrtoll10_min :
    ll2str (2 ^ 63 - 1) (BitVec.ofInt 64 (-2 ^ 63)) (-(16 : ℕ)) true =
      some (canonicalText (BitVec.ofInt 64 (-2 ^ 63)) 16 true) :=
  ((ll2str_myStrtoll10 _ _).1 16 (by decide) (by decide) true).2

end LibSources
