import LibSources.ByteMemory
import LibSources.DigitRun
import LibSources.MachineInt

/-!
# Base64 of `mysys/base64.c`

The encoder writes four characters for three bytes and a line break before a group when a line
has 76 characters. The decoder skips white space before every character.

* The text to decode is a memory `src` with a size. A read behind the size has no result.
* `strchr` returns `NULL` for a character that is not in the table; `junk` is its distance from
  the table.
* `unsigned` numbers wrap. A shift by six bits is a product with `64`.

## Main results

* `base64Encode_roundTrip_iff`: decoding undoes encoding.
* `base64Decode_rejects_iff`: only valid texts are treated as they should.
* `base64Decode_fits`: the buffer of the decoder is large enough.
-/

namespace LibSources

open Nat UInt8 List Option

def base64Table : List UInt8 :=
  (range 26).map (fun k => ofNat (65 + k)) ++ (range 26).map (fun k => ofNat (97 + k)) ++
    (range 10).map (fun k => ofNat (48 + k)) ++ [43, 47]

def base64Char (k : ℕ) : UInt8 := base64Table.getD k 0

/-- `pos`. The table ends with a zero byte, which `strchr` finds. -/
def base64Pos (junk : ℕ) (c : UInt8) : ℕ :=
  if c = 0 then 64 else if c ∈ base64Table then base64Table.idxOf c else junk

def base64NeededEncodedLength (lengthOfData : ℤ) : ℤ :=
  let nb := toInt32 ((toInt32 (lengthOfData + 2)).tdiv 3 * 4)
  toInt32 (toInt32 (nb + (toInt32 (nb - 1)).tdiv 76) + 1)

def base64NeededDecodedLength (lengthOfEncodedData : ℤ) : ℤ :=
  (toInt32 (lengthOfEncodedData * 3)).tdiv 4

/-! ### `my_base64_encode` -/

section

variable (s : List UInt8)

def encodeGroup (i : ℕ) : List UInt8 :=
  let c := (s.getD i 0).toNat * 2 ^ 8
  let c := (if i + 1 < s.length then c + (s.getD (i + 1) 0).toNat else c) * 2 ^ 8
  let c := if i + 2 < s.length then c + (s.getD (i + 2) 0).toNat else c
  [base64Char (c / 2 ^ 18 % 64), base64Char (c / 2 ^ 12 % 64),
    if s.length + 1 < i + 3 then 61 else base64Char (c / 2 ^ 6 % 64),
    if s.length < i + 3 then 61 else base64Char (c % 64)]

def encodeLoop (s : List UInt8) : ℕ → ℕ → ℕ → List UInt8
  | 0, _, _ => []
  | fuel + 1, i, len =>
    if i < s.length then
      if len = 76 then 10 :: (encodeGroup s i ++ encodeLoop s fuel (i + 3) 4)
      else encodeGroup s i ++ encodeLoop s fuel (i + 3) (len + 4)
    else []

/-- The text without the zero byte at the end. -/
def base64Text : List UInt8 := encodeLoop s s.length 0 0

def base64Encode : List UInt8 := base64Text s ++ [0]

end

/-! ### `my_base64_decode` -/

def readByte (src : ℕ → UInt8) (len p : ℕ) : Option UInt8 := if p < len then some (src p) else none

def skipSpace (src : ℕ → UInt8) (len : ℕ) : ℕ → ℕ → ℕ → Option (ℕ × ℕ)
  | 0, i, p => some (i, p)
  | fuel + 1, i, p =>
    if i < len then do
      let ch ← readByte src len p
      if isSpaceLatin1 ch then skipSpace src len fuel (i + 1) (p + 1) else some (i, p)
    else some (i, p)

def addPos (junk c : ℕ) (ch : UInt8) : ℕ := (c + base64Pos junk ch) % 2 ^ 32

def shift6 (c : ℕ) : ℕ := c * 64 % 2 ^ 32

/-- A pass of the loop ends at the `break` of `SKIP_SPACE`, or with a group of bytes. -/
inductive GroupEnd
  | stop (i p : ℕ)
  | group (i p c mark : ℕ)

/-- A pass of the loop, up to the label `end`. -/
def decodeGroup (junk : ℕ) (src : ℕ → UInt8) (len i p : ℕ) : Option GroupEnd := do
  let (i, p) ← skipSpace src len len i p
  if i = len then return .stop i p
  let ch ← readByte src len p
  let c := shift6 (addPos junk 0 ch)
  let (i, p) ← skipSpace src len len (i + 1) (p + 1)
  if i = len then return .stop i p
  let ch ← readByte src len p
  let c := shift6 (addPos junk c ch)
  let (i, p) ← skipSpace src len len (i + 1) (p + 1)
  if i = len then return .stop i p
  let ch ← readByte src len p
  if ch = 61 then return .group len (p + 2) (shift6 c) 2
  let c := shift6 (addPos junk c ch)
  let (i, p) ← skipSpace src len len (i + 1) (p + 1)
  if i = len then return .stop i p
  let ch ← readByte src len p
  if ch = 61 then return .group len (p + 1) c 1
  return .group (i + 1) (p + 1) (addPos junk c ch) 0

def groupBytes (c mark : ℕ) : List UInt8 :=
  ([c / 2 ^ 16 % 256, c / 2 ^ 8 % 256, c % 256].take (3 - mark)).map ofNat

def decodeLoop (junk : ℕ) (src : ℕ → UInt8) (len : ℕ) :
    ℕ → ℕ → ℕ → List UInt8 → Option (ℕ × ℕ × List UInt8)
  | 0, i, p, d => some (i, p, d)
  | fuel + 1, i, p, d =>
    if i < len then do
      match ← decodeGroup junk src len i p with
      | .stop i p => some (i, p, d)
      | .group i p c mark => decodeLoop junk src len fuel i p (d ++ groupBytes c mark)
    else some (i, p, d)

structure Base64Decoded where
  result : ℤ
  endPtr : ℕ
  bytes : List UInt8
deriving DecidableEq

def base64Decode (junk : ℕ) (src : ℕ → UInt8) (len : ℕ) : Option Base64Decoded := do
  let (i, p, d) ← decodeLoop junk src len len 0 0 []
  return ⟨if i ≠ len then -1 else toInt32 d.length, p, d⟩

/-! ### The characters -/

def nonSpace (src : ℕ → UInt8) (len i : ℕ) : List UInt8 :=
  (window src i (len - i)).filter fun ch => !isSpaceLatin1 ch

/-- The bytes for a text without white space, as the decoder writes them. -/
def decodeText (junk : ℕ) : List UInt8 → List UInt8
  | a :: b :: c :: t =>
    let x := shift6 (addPos junk (shift6 (addPos junk 0 a)) b)
    if c = 61 then groupBytes (shift6 x) 2
    else
      match t with
      | [] => []
      | d :: t =>
        let x := shift6 (addPos junk x c)
        if d = 61 then groupBytes x 1 else groupBytes (addPos junk x d) 0 ++ decodeText junk t
  | _ => []

/-- Groups of four characters of the table, with padding at most at the end. -/
def validText : List UInt8 → Bool
  | [] => true
  | a :: b :: c :: d :: t =>
    a ∈ base64Table ∧ b ∈ base64Table ∧ if d = 61 then (c ∈ base64Table ∨ c = 61) ∧ t = []
      else c ∈ base64Table ∧ d ∈ base64Table ∧ validText t
  | _ => false

section

variable {junk : ℕ} {src : ℕ → UInt8} {len : ℕ}

theorem nonSpace_len (src : ℕ → UInt8) (len : ℕ) : nonSpace src len len = [] := by
  rw [nonSpace, tsub_self, window_zero, filter_nil]

theorem nonSpace_of_lt {i : ℕ} (h : i < len) :
    nonSpace src len i = if isSpaceLatin1 (src i) then nonSpace src len (i + 1)
      else src i :: nonSpace src len (i + 1) := by
  have hsplit : len - i = (len - (i + 1)) + 1 := by omega
  rw [nonSpace, hsplit, window_succ, filter_cons, nonSpace]
  cases isSpaceLatin1 (src i) <;> rfl

theorem skipSpace_spec (src : ℕ → UInt8) (fuel : ℕ) {i : ℕ} (hi : i ≤ len)
    (hfuel : len ≤ i + fuel) :
    ∃ j, skipSpace src len fuel i i = some (j, j) ∧ i ≤ j ∧ j ≤ len ∧
      (j = len ∧ nonSpace src len i = [] ∨
        j < len ∧ nonSpace src len i = src j :: nonSpace src len (j + 1)) := by
  induction fuel generalizing i with
  | zero =>
    have hend : i = len := by omega
    subst hend
    exact ⟨i, rfl, le_rfl, le_rfl, .inl ⟨rfl, nonSpace_len src i⟩⟩
  | succ fuel ih =>
    rw [skipSpace]
    split_ifs with hlt
    · rw [readByte, if_pos hlt, bind_eq_bind, bind_some]
      rw [nonSpace_of_lt hlt]
      split_ifs with hspace
      · obtain ⟨j, hskip, hij, hj, hnext⟩ := ih (i := i + 1) hlt (by omega)
        exact ⟨j, hskip, by omega, hj, hnext⟩
      · exact ⟨i, rfl, le_rfl, hi, .inr ⟨hlt, rfl⟩⟩
    · have hend : i = len := by omega
      subst hend
      exact ⟨i, rfl, le_rfl, le_rfl, .inl ⟨rfl, nonSpace_len src i⟩⟩

/-- What a pass of the loop does. The offset is `i` until padding is read. -/
structure GroupSpec (junk : ℕ) (src : ℕ → UInt8) (len i j p c mark : ℕ) : Prop where
  bytes : decodeText junk (nonSpace src len i) = groupBytes c mark ++
    if mark = 0 then decodeText junk (nonSpace src len j) else []
  padding : mark ≠ 0 → j = len ∧ (validText (nonSpace src len i) = true → p ≤ len)
  noPadding : mark = 0 → p = j ∧ i < j ∧ j ≤ len ∧
    (validText (nonSpace src len i) = true → validText (nonSpace src len j) = true)

theorem decodeText_nil (junk : ℕ) : decodeText junk [] = [] := rfl

theorem decodeText_padding (junk : ℕ) (a b : UInt8) (t : List UInt8) :
    decodeText junk (a :: b :: 61 :: t) =
      groupBytes (shift6 (shift6 (addPos junk (shift6 (addPos junk 0 a)) b))) 2 := by
  unfold decodeText
  exact if_pos rfl

theorem decodeText_four {c : UInt8} (hc : c ≠ 61) (junk : ℕ) (a b d : UInt8) (t : List UInt8) :
    decodeText junk (a :: b :: c :: d :: t) = if d = 61 then
        groupBytes (shift6 (addPos junk (shift6 (addPos junk (shift6 (addPos junk 0 a)) b)) c)) 1
      else
        groupBytes (addPos junk
          (shift6 (addPos junk (shift6 (addPos junk (shift6 (addPos junk 0 a)) b)) c)) d) 0 ++
          decodeText junk t := by
  rw [decodeText]
  exact if_neg hc

theorem readByte_of_lt {p : ℕ} (h : p < len) : readByte src len p = some (src p) := if_pos h

theorem decodeGroup_spec (junk : ℕ) (src : ℕ → UInt8) {i : ℕ} (hi : i ≤ len) :
    (decodeGroup junk src len i i = some (.stop len len) ∧
      decodeText junk (nonSpace src len i) = []) ∨
    ∃ j p c mark, decodeGroup junk src len i i = some (.group j p c mark) ∧
      GroupSpec junk src len i j p c mark := by
  -- `hrun` is what is left of the pass: it is run one character at a time
  generalize hrun : decodeGroup junk src len i i = r
  rw [decodeGroup] at hrun
  obtain ⟨j1, hskip1, hle1, -, ⟨rfl, hnext1⟩ | ⟨hlt1, hnext1⟩⟩ :=
    skipSpace_spec src len hi (by omega)
  · simp only [hskip1, bind_eq_bind, bind_some, if_pos, Option.pure_def] at hrun
    rw [hnext1]
    exact .inl ⟨hrun.symm, rfl⟩
  simp only [hskip1, bind_eq_bind, bind_some, if_neg hlt1.ne, readByte_of_lt hlt1] at hrun
  obtain ⟨j2, hskip2, hle2, -, ⟨rfl, hnext2⟩ | ⟨hlt2, hnext2⟩⟩ :=
    skipSpace_spec src len (i := j1 + 1) hlt1 (by omega)
  · simp only [hskip2, bind_some, if_pos, Option.pure_def] at hrun
    rw [hnext1, hnext2]
    exact .inl ⟨hrun.symm, rfl⟩
  simp only [hskip2, bind_some, if_neg hlt2.ne, readByte_of_lt hlt2] at hrun
  obtain ⟨j3, hskip3, hle3, -, ⟨rfl, hnext3⟩ | ⟨hlt3, hnext3⟩⟩ :=
    skipSpace_spec src len (i := j2 + 1) hlt2 (by omega)
  · simp only [hskip3, bind_some, if_pos, Option.pure_def] at hrun
    rw [hnext1, hnext2, hnext3]
    exact .inl ⟨hrun.symm, rfl⟩
  simp only [hskip3, bind_some, if_neg hlt3.ne, readByte_of_lt hlt3] at hrun
  by_cases hpad : src j3 = 61
  · rw [if_pos hpad] at hrun
    refine .inr ⟨_, _, _, _, hrun.symm, ?_, fun _ => ⟨rfl, fun hvalid => ?_⟩,
      fun h => absurd h (by omega)⟩
    · rw [hnext1, hnext2, hnext3, hpad, decodeText_padding, if_neg (by omega), append_nil]
    rw [hnext1, hnext2, hnext3, hpad] at hvalid
    by_contra hend
    have hlast : j3 + 1 = len := by omega
    rw [hlast, nonSpace_len] at hvalid
    exact absurd hvalid Bool.false_ne_true
  rw [if_neg hpad] at hrun
  obtain ⟨j4, hskip4, hle4, -, ⟨rfl, hnext4⟩ | ⟨hlt4, hnext4⟩⟩ :=
    skipSpace_spec src len (i := j3 + 1) hlt3 (by omega)
  · simp only [hskip4, bind_some, if_pos, Option.pure_def] at hrun
    rw [hnext1, hnext2, hnext3, hnext4, decodeText]
    exact .inl ⟨hrun.symm, if_neg hpad⟩
  simp only [hskip4, bind_some, if_neg hlt4.ne, readByte_of_lt hlt4] at hrun
  right
  by_cases hpad' : src j4 = 61
  · rw [if_pos hpad'] at hrun
    refine ⟨_, _, _, _, hrun.symm, ?_, fun _ => ⟨rfl, fun _ => hlt4⟩, fun h => absurd h (by omega)⟩
    rw [hnext1, hnext2, hnext3, hnext4, decodeText_four hpad, if_pos hpad', if_neg (by omega),
      append_nil]
  rw [if_neg hpad'] at hrun
  refine ⟨_, _, _, _, hrun.symm, ?_, fun h => absurd rfl h,
    fun _ => ⟨rfl, by omega, hlt4, fun hvalid => ?_⟩⟩
  · rw [hnext1, hnext2, hnext3, hnext4, decodeText_four hpad, if_neg hpad', if_pos rfl]
  rw [hnext1, hnext2, hnext3, hnext4] at hvalid
  rw [validText, decide_eq_true_eq, if_neg hpad'] at hvalid
  exact hvalid.2.2.2.2

theorem decodeLoop_len (fuel p : ℕ) (d : List UInt8) :
    decodeLoop junk src len fuel len p d = some (len, p, d) := by
  cases fuel with
  | zero => rfl
  | succ fuel => rw [decodeLoop, if_neg (lt_irrefl len)]

section

variable (junk : ℕ) (src : ℕ → UInt8)

/-- The decoder ends behind the text. It writes the bytes for the characters that are no white
space, and a valid text does not lead it behind the end. -/
theorem decodeLoop_spec (fuel : ℕ) {i : ℕ} (hi : i ≤ len)
    (hfuel : len ≤ i + fuel) (d : List UInt8) :
    ∃ p, decodeLoop junk src len fuel i i d =
        some (len, p, d ++ decodeText junk (nonSpace src len i)) ∧
      (validText (nonSpace src len i) = true → p ≤ len) := by
  induction fuel generalizing i d with
  | zero =>
    have hend : i = len := by omega
    subst hend
    exact ⟨i, by rw [nonSpace_len, decodeText_nil, append_nil, decodeLoop_len], fun _ => le_rfl⟩
  | succ fuel ih =>
    rw [decodeLoop]
    split_ifs with hlt
    · rcases decodeGroup_spec junk src hi with ⟨hstop, hnone⟩ | ⟨j, p, c, mark, hgroup, hspec⟩
      · rw [hstop, hnone, append_nil]
        exact ⟨len, rfl, fun _ => le_rfl⟩
      rw [hgroup, hspec.bytes]
      by_cases hmark : mark = 0
      · subst hmark
        obtain ⟨rfl, hij, hj, hvalid⟩ := hspec.noPadding rfl
        obtain ⟨p', hrun, hp⟩ := ih hj (by omega) (d ++ groupBytes c 0)
        rw [if_pos rfl, ← append_assoc]
        exact ⟨p', hrun, fun h => hp (hvalid h)⟩
      · obtain ⟨rfl, hvalid⟩ := hspec.padding hmark
        rw [if_neg hmark, append_nil]
        exact ⟨p, decodeLoop_len fuel p _, hvalid⟩
    · have hend : i = len := by omega
      subst hend
      exact ⟨i, by rw [nonSpace_len, decodeText_nil, append_nil], fun _ => le_rfl⟩

theorem base64Decode_spec (len : ℕ) : ∃ p, base64Decode junk src len =
        some ⟨toInt32 (decodeText junk (nonSpace src len 0)).length, p,
          decodeText junk (nonSpace src len 0)⟩ ∧
      (validText (nonSpace src len 0) = true → p ≤ len) := by
  obtain ⟨p, hrun, hp⟩ := decodeLoop_spec junk src len (zero_le len) (by omega) []
  refine ⟨p, ?_, hp⟩
  rw [base64Decode, hrun, nil_append]
  simp

theorem length_nonSpace (len : ℕ) : (nonSpace src len 0).length ≤ len :=
  (length_filter_le _ _).trans_eq (length_window _ _ _)

theorem length_decodeText (t : List UInt8) : 4 * (decodeText junk t).length ≤ 3 * t.length := by
  fun_induction decodeText junk t <;> simp [groupBytes] <;> omega

/-- A buffer of `my_base64_needed_decoded_length` bytes is enough for any text, valid or not, unless
that length overflows. No failure is reported. -/
theorem base64Decode_fits (h : len * 3 < 2 ^ 31) :
    ∃ r, base64Decode junk src len = some r ∧ r.result = r.bytes.length ∧
      r.result ≤ base64NeededDecodedLength len := by
  obtain ⟨p, hrun, -⟩ := base64Decode_spec junk src len
  have htext := length_decodeText junk (nonSpace src len 0)
  have hchars := length_nonSpace src len
  rw [toInt32_of_mem (by omega) (by omega)] at hrun
  refine ⟨_, hrun, rfl, ?_⟩
  rw [base64NeededDecodedLength, toInt32_of_mem (by omega) (by omega),
    Int.tdiv_eq_ediv_of_nonneg (by omega)]
  dsimp only
  omega

theorem base64Decode_fits_short :
    ∃ r, base64Decode 0 (fun i => [65, 66, 61].getD i 0) 3 = some r ∧
      r.result = r.bytes.length ∧ r.result ≤ base64NeededDecodedLength (3 : ℕ) :=
  base64Decode_fits _ _ (by decide)

/-- `my_base64_decode` reads nothing behind the text. It rejects what is not base64 and stays
before the end iff the text is valid: the result is never `-1` for a text of less than `2 ^ 32`
characters. -/
theorem base64Decode_rejects_iff (len : ℕ)
    (h : len < 2 ^ 32 ∨ validText (nonSpace src len 0) = true) :
    (∃ r, base64Decode junk src len = some r ∧
      (validText (nonSpace src len 0) = false → r.result = -1) ∧ r.endPtr ≤ len) ↔
    validText (nonSpace src len 0) = true := by
  obtain ⟨p, hrun, hp⟩ := base64Decode_spec junk src len
  rw [hrun]
  simp only [some.injEq, exists_eq_left']
  constructor
  · rintro ⟨hreject, -⟩
    by_contra hinvalid
    have hlen := h.resolve_right hinvalid
    have hminus := hreject (Bool.eq_false_iff.mpr hinvalid)
    have htext := length_decodeText junk (nonSpace src len 0)
    have hchars := length_nonSpace src len
    rw [toInt32, Int.bmod_def] at hminus
    split_ifs at hminus <;> omega
  · exact fun hvalid => ⟨fun hinvalid => absurd (hvalid.symm.trans hinvalid) (by decide), hp hvalid⟩

end

theorem base64Decode_rejects_iff_group :
    ∃ r, base64Decode 0 (fun i => [65, 32, 66, 67, 61].getD i 0) 5 = some r ∧
      (validText (nonSpace (fun i => [65, 32, 66, 67, 61].getD i 0) 5 0) = false →
        r.result = -1) ∧ r.endPtr ≤ 5 :=
  (base64Decode_rejects_iff _ _ 5 (.inl (by decide))).mpr (by decide)

/-- The text `AB=` has no complete group. It is decoded to one byte, and `*end_ptr` is behind the
end. -/
theorem base64Decode_short_group :
    base64Decode 0 (fun i => [65, 66, 61].getD i 0) 3 = some ⟨1, 4, [0]⟩ ∧
      validText (nonSpace (fun i => [65, 66, 61].getD i 0) 3 0) = false := by
  decide

/-! ### The encoder -/

/-- The characters without the line breaks. -/
def encodeChars (s : List UInt8) : ℕ → ℕ → List UInt8
  | 0, _ => []
  | fuel + 1, i => if i < s.length then encodeGroup s i ++ encodeChars s fuel (i + 3) else []

variable {k i : ℕ} {ch : UInt8} {s : List UInt8}

theorem base64Char_spec (hk : k < 64) :
    base64Char k ≠ 0 ∧ base64Char k ∈ base64Table ∧ base64Table.idxOf (base64Char k) = k ∧
      isSpaceLatin1 (base64Char k) = false ∧ base64Char k ≠ 61 := by
  have hall : ∀ k : Fin 64, base64Char k ≠ 0 ∧ base64Char k ∈ base64Table ∧
      base64Table.idxOf (base64Char k) = k ∧ isSpaceLatin1 (base64Char k) = false ∧
        base64Char k ≠ 61 := by decide
  exact hall ⟨k, hk⟩

variable (junk : ℕ)

theorem base64Pos_char (hk : k < 64) : base64Pos junk (base64Char k) = k := by
  obtain ⟨hzero, hmem, hidx, -⟩ := base64Char_spec hk
  rw [base64Pos, if_neg hzero, if_pos hmem, hidx]

theorem isSpace_encodeGroup (h : ch ∈ encodeGroup s i) : isSpaceLatin1 ch = false := by
  have hchar : ∀ x, isSpaceLatin1 (base64Char (x % 64)) = false := fun x =>
    (base64Char_spec (mod_lt x (by omega))).2.2.2.1
  have hpad : ∀ (P : Prop) [Decidable P] (x : ℕ),
      isSpaceLatin1 (if P then 61 else base64Char (x % 64)) = false := by
    intro P _ x
    split_ifs
    · decide
    · exact hchar x
  simp only [encodeGroup, mem_cons, not_mem_nil, or_false] at h
  rcases h with rfl | rfl | rfl | rfl
  · exact hchar _
  · exact hchar _
  · exact hpad _ _
  · exact hpad _ _

section

variable (s : List UInt8)

theorem filter_encodeGroup (i : ℕ) :
    ((encodeGroup s i).filter fun ch => !isSpaceLatin1 ch) = encodeGroup s i :=
  filter_eq_self.mpr fun ch hch => by rw [isSpace_encodeGroup hch, Bool.not_false]

theorem length_encodeGroup (i : ℕ) : (encodeGroup s i).length = 4 := rfl

theorem filter_encodeLoop (fuel i n : ℕ) :
    ((encodeLoop s fuel i n).filter fun ch => !isSpaceLatin1 ch) = encodeChars s fuel i := by
  induction fuel generalizing i n with
  | zero => rfl
  | succ fuel ih =>
    rw [encodeLoop, encodeChars]
    split_ifs
    · rw [filter_cons_of_neg (by decide), filter_append, filter_encodeGroup, ih]
    · rw [filter_append, filter_encodeGroup, ih]
    · rfl

/-- A line break comes before a group when the line has 76 characters. -/
theorem length_encodeLoop (fuel : ℕ) {n : ℕ} (hn : n ≤ 76) (hdvd : n % 4 = 0)
    (hfuel : s.length ≤ i + fuel) :
    (encodeLoop s fuel i n).length = 4 * ((s.length - i + 2) / 3) +
      if i < s.length then (n / 4 + (s.length - i + 2) / 3 - 1) / 19 else 0 := by
  induction fuel generalizing i n with
  | zero =>
    rw [encodeLoop, if_neg (by omega), length_nil]
    omega
  | succ fuel ih =>
    rw [encodeLoop]
    split_ifs with hlt hline
    · rw [length_cons, length_append, length_encodeGroup, ih (by omega) (by omega) (by omega)]
      split_ifs <;> omega
    · rw [length_append, length_encodeGroup, ih (by omega) (by omega) (by omega)]
      split_ifs <;> omega
    · rw [length_nil]
      omega

end

theorem newline_group {rest : List UInt8} {o : ℕ} (ho : o % 77 ≤ 72)
    (hrest : ∀ k, rest[k]? = some ch → (ch = 10 ↔ (o + 4 + k) % 77 = 76))
    (h : (encodeGroup s i ++ rest)[k]? = some ch) : ch = 10 ↔ (o + k) % 77 = 76 := by
  rcases lt_or_ge k 4 with hlt | hge
  · rw [getElem?_append_left (by rw [length_encodeGroup]; exact hlt)] at h
    have hne : ch ≠ 10 := by
      rintro rfl
      exact absurd (isSpace_encodeGroup (mem_of_getElem? h)) (by decide)
    exact ⟨fun heq => absurd heq hne, fun heq => by omega⟩
  · rw [getElem?_append_right (by rw [length_encodeGroup]; exact hge), length_encodeGroup] at h
    have hiff := hrest (k - 4) h
    rwa [Nat.add_assoc, Nat.add_sub_cancel' hge] at hiff

theorem encodeLoop_newline (s : List UInt8) (fuel i : ℕ) {n o : ℕ} (hn : n ≤ 76) (hdvd : n % 4 = 0)
    (ho : o % 77 = n) (h : (encodeLoop s fuel i n)[k]? = some ch) :
    ch = 10 ↔ (o + k) % 77 = 76 := by
  induction fuel generalizing i n o k with
  | zero => exact absurd h (by simp [encodeLoop])
  | succ fuel ih =>
    rw [encodeLoop] at h
    split_ifs at h with hlt hline
    · cases k with
      | zero =>
        rw [getElem?_cons_zero, some.injEq] at h
        exact ⟨fun _ => by omega, fun _ => h.symm⟩
      | succ k =>
        rw [getElem?_cons_succ] at h
        have hiff := newline_group (o := o + 1) (by omega)
          (fun k hk => ih (i + 3) (n := 4) (by omega) (by omega) (by omega) hk) h
        rwa [add_assoc, add_comm 1 k] at hiff
    · exact newline_group (by omega)
        (fun k hk => ih (i + 3) (n := n + 4) (by omega) (by omega) (by omega) hk) h
    · exact absurd h (by simp)

/-! ### The round trip -/

theorem addPos_char (junk x : ℕ) (hk : k < 64) :
    addPos junk x (base64Char k) = (x + k) % 2 ^ 32 := by
  rw [addPos, base64Pos_char junk hk]

theorem decodeText_encodeGroup (hi : i < s.length) (rest : List UInt8) :
    decodeText junk (encodeGroup s i ++ rest) =
      (s.drop i).take 3 ++ if i + 3 ≤ s.length then decodeText junk rest else [] := by
  have hbyte : ∀ j, (s.getD j 0).toNat < 256 := fun j => (s.getD j 0).toNat_lt
  have hdrop : ∀ j, j < s.length → s.drop j = s.getD j 0 :: s.drop (j + 1) := fun j hj => by
    rw [drop_eq_getElem_cons hj, getD_eq_getElem _ _ hj]
  have hofNat : ∀ {x : ℕ} {u : UInt8}, x = u.toNat → ofNat x = u := by
    rintro x u rfl
    exact UInt8.ofNat_toNat
  have h0 := hbyte i
  have h1 := hbyte (i + 1)
  have h2 := hbyte (i + 2)
  have hmod : ∀ x, x % 64 < 64 := fun x => mod_lt x (by omega)
  have hne : ∀ x, base64Char (x % 64) ≠ 61 := fun x => (base64Char_spec (hmod x)).2.2.2.2
  rcases lt_or_ge (i + 2) s.length with hthree | htwo
  · rw [encodeGroup, if_pos (by omega : i + 1 < s.length), if_pos hthree,
      if_neg (by omega), if_neg (by omega), cons_append, cons_append, cons_append,
      singleton_append, decodeText_four (hne _), if_neg (hne _), if_pos (by omega),
      addPos_char _ _ (hmod _), addPos_char _ _ (hmod _), addPos_char _ _ (hmod _),
      addPos_char _ _ (hmod _), hdrop i hi, hdrop (i + 1) (by omega),
      hdrop (i + 2) hthree]
    refine congrArg (· ++ _) ?_
    simp only [groupBytes, shift6, take, map_cons, map_nil]
    rw [hofNat (u := s.getD i 0) (by omega), hofNat (u := s.getD (i + 1) 0) (by omega),
      hofNat (u := s.getD (i + 2) 0) (by omega)]
  rw [if_neg (by omega : ¬ i + 3 ≤ s.length), append_nil, hdrop i hi]
  rcases lt_or_ge (i + 1) s.length with hlt | hge
  · have hend : s.drop (i + 2) = [] := drop_eq_nil_of_le htwo
    rw [encodeGroup, if_pos hlt, if_neg (by omega), if_neg (by omega), if_pos (by omega),
      cons_append, cons_append, cons_append, singleton_append,
      decodeText_four (hne _), if_pos rfl, addPos_char _ _ (hmod _), addPos_char _ _ (hmod _),
      addPos_char _ _ (hmod _), hdrop (i + 1) hlt, hend]
    simp only [groupBytes, shift6, take, map_cons, map_nil]
    rw [hofNat (u := s.getD i 0) (by omega), hofNat (u := s.getD (i + 1) 0) (by omega)]
  · have hend : s.drop (i + 1) = [] := drop_eq_nil_of_le hge
    rw [encodeGroup, if_neg (by omega), if_neg (by omega), if_pos (by omega), if_pos (by omega),
      cons_append, cons_append, cons_append, singleton_append,
      decodeText_padding, addPos_char _ _ (hmod _), addPos_char _ _ (hmod _), hend]
    simp only [groupBytes, shift6, take, map_cons, map_nil]
    rw [hofNat (u := s.getD i 0) (by omega)]

variable (s : List UInt8)

theorem decodeText_encodeChars (fuel : ℕ)
    (hfuel : s.length ≤ i + fuel) : decodeText junk (encodeChars s fuel i) = s.drop i := by
  induction fuel generalizing i with
  | zero => rw [drop_eq_nil_of_le (by omega), encodeChars, decodeText_nil]
  | succ fuel ih =>
    rw [encodeChars]
    split_ifs with hlt
    · rw [decodeText_encodeGroup junk hlt, ih (by omega)]
      split_ifs with hmore
      · rw [← drop_drop, take_append_drop]
      · rw [append_nil, take_of_length_le (by rw [length_drop]; omega)]
    · rw [drop_eq_nil_of_le (by omega), decodeText_nil]

theorem length_base64Encode : (base64Encode s).length =
      4 * ((s.length + 2) / 3) + (4 * ((s.length + 2) / 3) - 1) / 76 + 1 := by
  rw [base64Encode, length_append, length_singleton, base64Text,
    length_encodeLoop s s.length (by omega) (by omega) (by omega)]
  split_ifs <;> omega

theorem base64NeededEncodedLength_iff (n : ℕ) :
    base64NeededEncodedLength (toInt32 n) =
      ((4 * ((n + 2) / 3) + (4 * ((n + 2) / 3) - 1) / 76 + 1 : ℕ) : ℤ) ↔ n ≤ 1589695686 := by
  constructor
  · intro h
    have hint := (toInt32_mem (toInt32 (toInt32 ((toInt32 (toInt32 n + 2)).tdiv 3 * 4) +
      (toInt32 (toInt32 ((toInt32 (toInt32 n + 2)).tdiv 3 * 4) - 1)).tdiv 76) + 1)).2
    rw [base64NeededEncodedLength] at h
    omega
  intro h
  have h0 : toInt32 n = n := toInt32_of_mem (by omega) (by omega)
  have h1 : toInt32 ((n : ℤ) + 2) = n + 2 := toInt32_of_mem (by omega) (by omega)
  have hdiv : ((n : ℤ) + 2).tdiv 3 = ((n + 2) / 3 : ℕ) := by
    rw [Int.tdiv_eq_ediv_of_nonneg (by omega)]
    omega
  have hgroups : (n + 2) / 3 ≤ 529898562 := by omega
  rw [base64NeededEncodedLength, h0, h1, hdiv]
  generalize (n + 2) / 3 = g at hgroups ⊢
  have h2 : toInt32 ((g : ℤ) * 4) = g * 4 := toInt32_of_mem (by omega) (by omega)
  have h3 : toInt32 ((g : ℤ) * 4 - 1) = g * 4 - 1 := toInt32_of_mem (by omega) (by omega)
  have hlines : ((g : ℤ) * 4 - 1).tdiv 76 = ((4 * g - 1) / 76 : ℕ) := by
    rcases Nat.eq_zero_or_pos g with rfl | hpos
    · rfl
    · rw [Int.tdiv_eq_ediv_of_nonneg (by omega)]
      omega
  rw [h2, h3, hlines]
  have hbound : (4 * g - 1) / 76 ≤ 27889397 := by omega
  generalize (4 * g - 1) / 76 = l at hbound ⊢
  have hint : (g : ℤ) * 4 + l + 1 < 2 ^ 31 := by omega
  rw [toInt32_toInt32_add, toInt32_of_mem (by omega) hint]
  omega

def encodedMemory (i : ℕ) : UInt8 := (base64Encode s).getD i 0

theorem nonSpace_encodedMemory :
    nonSpace (encodedMemory s) (base64Text s).length 0 = encodeChars s s.length 0 := by
  have htext : window (encodedMemory s) 0 (base64Text s).length = base64Text s := by
    refine ext_getElem (length_window _ _ _) fun k _ hk => ?_
    simp only [window, getElem_map, getElem_range, zero_add, encodedMemory]
    rw [base64Encode, getD_append _ _ _ _ hk, getD_eq_getElem _ _ hk]
  rw [nonSpace, tsub_zero, htext, base64Text, filter_encodeLoop]

/-- The text has the length that `my_base64_needed_encoded_length` returns, its lines have 76
characters, and it is decoded to the bytes that it was made of, unless the length is no `int`. -/
theorem base64Encode_roundTrip_iff :
    (((base64Encode s).length : ℤ) = base64NeededEncodedLength (toInt32 s.length) ∧
      (∀ (k : ℕ) (ch : UInt8), (base64Text s)[k]? = some ch → (ch = 10 ↔ k % 77 = 76)) ∧
      ∃ p, base64Decode junk (encodedMemory s) (base64Text s).length = some ⟨s.length, p, s⟩) ↔
    s.length ≤ 1589695686 := by
  rw [length_base64Encode, eq_comm, base64NeededEncodedLength_iff]
  refine ⟨fun h => h.1, fun h => ⟨h, fun k ch hk => ?_, ?_⟩⟩
  · have hline := encodeLoop_newline s s.length 0 (n := 0) (o := 0) (by omega) rfl rfl hk
    rwa [zero_add] at hline
  obtain ⟨p, hrun, -⟩ := base64Decode_spec junk (encodedMemory s) (base64Text s).length
  have hlength : toInt32 s.length = s.length := toInt32_of_mem (by omega) (by omega)
  rw [nonSpace_encodedMemory, decodeText_encodeChars junk s s.length (by omega),
    drop_zero, hlength] at hrun
  exact ⟨p, hrun⟩

end

/-- The length of the text for 1589695687 bytes is `2 ^ 31 + 3`, with the zero byte at the end. -/
theorem base64Encode_too_long :
    ((base64Encode (replicate 1589695687 0)).length : ℤ) ≠
      base64NeededEncodedLength 1589695687 := by
  rw [length_base64Encode, length_replicate]
  decide

end LibSources
