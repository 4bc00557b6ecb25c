import Mathlib.Tactic

/-!
# `escape_string_for_mysql` of `mysys/charset.c`

A backslash is put before the bytes that end or damage a quoted string. In a multibyte character
set a backslash can be the second byte of a character, so a byte that only looks like the start
of a character is escaped as well: otherwise the backslash behind it could complete the character
and leave the byte after it bare.

The character set is arbitrary. The output is read as a quoted string is: a multibyte character
as a whole, a backslash together with the byte after it (`tokens`).

## Main results

* `Charset.Classifies.escapeStringForMysql_safe`: no quote is left bare.
-/

namespace LibSources

open Nat List

variable {b : UInt8}

/-! ### Character sets -/

/-- The members of `MY_CHARSET_HANDLER` that are used. `ismbchar` gets the bytes from a position
to the end of the string and may be `NULL`; `mbcharlen` takes a `uint`, and its result is read
as an `int`. -/
structure Charset where
  ismbchar : Option (List UInt8 → ℕ)
  mbcharlen : UInt32 → ℤ

def Charset.useMb (cs : Charset) : Bool := cs.ismbchar.isSome

/-- `use_mb_flag && my_ismbchar(..)`: the length of the multibyte character at the front. -/
def Charset.charLength (cs : Charset) (s : List UInt8) : ℕ :=
  match cs.ismbchar with
  | none => 0
  | some f => f s

/-- The conversion of a `char` to `uint`; whether `char` is signed depends on the machine. -/
def charToUint (signedChar : Bool) (b : UInt8) : UInt32 :=
  if signedChar && 128 ≤ b then b.toUInt32 - 256 else b.toUInt32

section

variable (cs : Charset) (signedChar : Bool) (b : UInt8)

def Charset.looksMultibyte : Bool := cs.useMb && decide (1 < cs.mbcharlen (charToUint signedChar b))

/-! ### The function -/

/-- The `switch` of the loop: the letter to put behind the backslash, or zero. -/
def escapeLetter (b : UInt8) : UInt8 :=
  if b = 0 then 48
  else if b = 10 then 110
  else if b = 13 then 114
  else if b = 92 then 92
  else if b = 39 then 39
  else if b = 34 then 34
  else if b = 26 then 90
  else 0

def Charset.escape : UInt8 := if cs.looksMultibyte signedChar b then b else escapeLetter b

end

/-- The loop, from the input that is left and `room = to_end - to`: the bytes it writes and
`overflow`. Every round takes a byte at least, so the length of the input is fuel enough. -/
def Charset.escapeLoop (cs : Charset) (signedChar : Bool) :
    ℕ → List UInt8 → ℕ → List UInt8 × Bool
  | 0, _, _ => ([], false)
  | _ + 1, [], _ => ([], false)
  | fuel + 1, b :: rest, room =>
    let tmpLength := cs.charLength (b :: rest)
    if tmpLength ≠ 0 then
      if room < tmpLength then ([], true)
      else
        let r := cs.escapeLoop signedChar fuel ((b :: rest).drop tmpLength) (room - tmpLength)
        ((b :: rest).take tmpLength ++ r.1, r.2)
    else if cs.escape signedChar b ≠ 0 then
      if room < 2 then ([], true)
      else
        let r := cs.escapeLoop signedChar fuel rest (room - 2)
        (92 :: cs.escape signedChar b :: r.1, r.2)
    else
      if room < 1 then ([], true)
      else
        let r := cs.escapeLoop signedChar fuel rest (room - 1)
        (b :: r.1, r.2)

/-- What the function returns, where `none` is `(size_t) -1`, and what it has stored from `to` on
before it puts the NUL. -/
structure Escaped where
  result : Option ℕ
  text : List UInt8

/-- All bytes that are stored, the NUL included. -/
def Escaped.written (e : Escaped) : List UInt8 := e.text ++ [0]

def Charset.escapeStringForMysql (cs : Charset) (signedChar : Bool) (toLength : ℕ)
    (from' : List UInt8) : Escaped :=
  let room := if toLength ≠ 0 then toLength - 1 else 2 * from'.length
  let r := cs.escapeLoop signedChar from'.length from' room
  { result := if r.2 then none else some r.1.length, text := r.1 }

/-! ### Reading the output -/

/-- What a reader of a quoted string takes at once. -/
inductive Token
  | multibyte (bytes : List UInt8)
  | escaped (b : UInt8)
  | unpaired
  | plain (b : UInt8)
deriving DecidableEq

/-- A quoted string read from left to right. -/
def Charset.tokens (cs : Charset) : ℕ → List UInt8 → List Token
  | 0, _ => []
  | _ + 1, [] => []
  | fuel + 1, b :: rest =>
    let n := cs.charLength (b :: rest)
    if n ≠ 0 then .multibyte ((b :: rest).take n) :: cs.tokens fuel ((b :: rest).drop n)
    else if b = 92 then
      match rest with
      | [] => [.unpaired]
      | c :: rest => .escaped c :: cs.tokens fuel rest
    else .plain b :: cs.tokens fuel rest

def Charset.read (cs : Charset) (s : List UInt8) : List Token := cs.tokens s.length s

/-- The bytes that must not stand bare: quote, double quote, NUL, newline, carriage return
and `^Z`. -/
def specialBytes : List UInt8 := [39, 34, 0, 10, 13, 26]

/-- A token that neither is a bare special byte nor a backslash with nothing behind it. -/
def Token.Safe : Token → Prop
  | .multibyte _ => True
  | .escaped _ => True
  | .unpaired => False
  | .plain b => b ∉ specialBytes

instance (t : Token) : Decidable t.Safe := by
  cases t <;> unfold Token.Safe <;> infer_instance

def unescapeLetter (b : UInt8) : UInt8 :=
  if b = 48 then 0
  else if b = 110 then 10
  else if b = 114 then 13
  else if b = 90 then 26
  else b

def Token.meaning : Token → List UInt8
  | .multibyte bytes => bytes
  | .escaped b => [unescapeLetter b]
  | .unpaired => [92]
  | .plain b => [b]

def Charset.unescape (cs : Charset) (s : List UInt8) : List UInt8 :=
  (cs.read s).flatMap Token.meaning

/-! ### What is asked of a character set -/

/-- `ismbchar` finds characters of the string and looks at their own bytes only, their first
bytes are those of which `mbcharlen` is above one, and the backslash is none of them. -/
structure Charset.Classifies (cs : Charset) (signedChar : Bool) : Prop where
  inside : ∀ s, cs.charLength s ≤ s.length
  own_bytes : ∀ s t, cs.charLength s ≠ 0 →
    t.take (cs.charLength s) = s.take (cs.charLength s) → cs.charLength t = cs.charLength s
  first : ∀ b s, cs.charLength (b :: s) ≠ 0 → 1 < cs.mbcharlen (charToUint signedChar b)
  backslash : ∀ s, cs.charLength (92 :: s) = 0

/-- NUL and the letters that have a meaning of their own behind a backslash. -/
def letterBytes : List UInt8 := [0, 48, 110, 114, 90]

section Reading

variable {cs : Charset} {signedChar : Bool} (h : cs.Classifies signedChar)
include h

theorem Charset.Classifies.charLength_eq_zero
    (hb : cs.looksMultibyte signedChar b = false) (s : List UInt8) :
    cs.charLength (b :: s) = 0 := by
  by_contra hne
  have hlen := h.first b s hne
  have hmb : cs.useMb = true := by
    cases hf : cs.ismbchar with
    | none => simp [Charset.charLength, hf] at hne
    | some f => simp [Charset.useMb, hf]
  simp [Charset.looksMultibyte, hmb, hlen] at hb

theorem Charset.Classifies.tokens_multibyte {s : List UInt8}
    (hs : cs.charLength s ≠ 0) (out : List UInt8) (fuel : ℕ) :
    cs.tokens (fuel + 1) (s.take (cs.charLength s) ++ out) =
      .multibyte (s.take (cs.charLength s)) :: cs.tokens fuel out := by
  have hin := h.inside s
  have hlen : (s.take (cs.charLength s)).length = cs.charLength s := by rw [length_take]; omega
  have htake : (s.take (cs.charLength s) ++ out).take (cs.charLength s) =
      s.take (cs.charLength s) := take_left' hlen
  have hdrop : (s.take (cs.charLength s) ++ out).drop (cs.charLength s) = out := drop_left' hlen
  have hown := h.own_bytes s _ hs htake
  cases hout : s.take (cs.charLength s) ++ out with
  | nil =>
    rw [append_eq_nil_iff] at hout
    rw [hout.1] at hlen
    exact absurd hlen.symm hs
  | cons b rest =>
    rw [hout] at htake hdrop hown
    rw [Charset.tokens.eq_def]
    dsimp only
    rw [hown, if_pos hs, htake, hdrop]

/-- A backslash is read together with the byte after it. -/
theorem Charset.Classifies.tokens_escaped (c : UInt8) (out : List UInt8) (fuel : ℕ) :
    cs.tokens (fuel + 1) (92 :: c :: out) = .escaped c :: cs.tokens fuel out := by
  rw [Charset.tokens.eq_def]
  dsimp only
  rw [h.backslash, if_neg (not_not.mpr rfl), if_pos rfl]

theorem Charset.Classifies.tokens_plain
    (hb : cs.looksMultibyte signedChar b = false) (hne : b ≠ 92) (out : List UInt8) (fuel : ℕ) :
    cs.tokens (fuel + 1) (b :: out) = .plain b :: cs.tokens fuel out := by
  rw [Charset.tokens.eq_def]
  dsimp only
  rw [h.charLength_eq_zero hb, if_neg (not_not.mpr rfl), if_neg hne]

end Reading

/-! ### One byte -/

theorem escapeLetter_eq_zero (h : escapeLetter b = 0) : b ∉ specialBytes ∧ b ≠ 92 := by
  unfold escapeLetter at h
  split_ifs at h <;> simp_all [specialBytes]

theorem unescapeLetter_escapeLetter (h : escapeLetter b ≠ 0) :
    unescapeLetter (escapeLetter b) = b := by
  unfold escapeLetter at h ⊢
  split_ifs at h ⊢ <;> first | (subst b; rfl) | exact absurd rfl h

theorem unescapeLetter_of_not_mem (h : b ∉ letterBytes) : unescapeLetter b = b := by
  simp only [letterBytes, mem_cons, not_mem_nil, or_false, not_or] at h
  rw [unescapeLetter, if_neg h.2.1, if_neg h.2.2.1, if_neg h.2.2.2.1, if_neg h.2.2.2.2]

section OneByte

variable {cs : Charset} {signedChar : Bool}
  (hletters : ∀ b ∈ letterBytes, cs.mbcharlen (charToUint signedChar b) ≤ 1)
include hletters

theorem not_mem_letterBytes (hb : cs.looksMultibyte signedChar b = true) : b ∉ letterBytes := by
  intro hmem
  have hle := hletters b hmem
  simp only [Charset.looksMultibyte, Bool.and_eq_true, decide_eq_true_eq] at hb
  omega

/-- What is put behind the backslash stands for the byte. -/
theorem unescapeLetter_escape (h : cs.escape signedChar b ≠ 0) :
    unescapeLetter (cs.escape signedChar b) = b := by
  rw [Charset.escape] at h ⊢
  split at h
  · rename_i hb
    rw [if_pos hb]
    exact unescapeLetter_of_not_mem (not_mem_letterBytes hletters hb)
  rename_i hb
  rw [if_neg hb]
  exact unescapeLetter_escapeLetter h

theorem escape_eq_zero (h : cs.escape signedChar b = 0) :
    cs.looksMultibyte signedChar b = false ∧ b ∉ specialBytes ∧ b ≠ 92 := by
  rw [Charset.escape] at h
  split at h
  · rename_i hb
    -- the byte would be NUL, which does not look like a first byte
    exact absurd (by rw [h]; decide) (not_mem_letterBytes hletters hb)
  · rename_i hb
    exact ⟨Bool.not_eq_true _ ▸ hb, escapeLetter_eq_zero h⟩

end OneByte

theorem Charset.escapeLoop_length_le (cs : Charset) (signedChar : Bool) (fuel : ℕ)
    (s : List UInt8) (room : ℕ) :
    (cs.escapeLoop signedChar fuel s room).1.length ≤ room := by
  induction fuel generalizing s room with
  | zero => simp [Charset.escapeLoop]
  | succ fuel ih =>
    cases s with
    | nil => simp [Charset.escapeLoop]
    | cons b rest =>
      rw [Charset.escapeLoop]
      split_ifs with hmb hroom hesc hroom hroom
      · simp
      · have := ih ((b :: rest).drop (cs.charLength (b :: rest))) (room - cs.charLength (b :: rest))
        rw [length_append, length_take]
        omega
      · simp
      · have := ih rest (room - 2)
        simp only [length_cons]
        omega
      · simp
      · have := ih rest (room - 1)
        simp only [length_cons]
        omega

section

variable {cs : Charset} {signedChar : Bool}

/-- If the loop comes to its end, the reader finds the pieces it wrote, and nothing else: each of
them is safe, and together they stand for the input. -/
theorem Charset.Classifies.tokens_escapeLoop (h : cs.Classifies signedChar)
    (hletters : ∀ b ∈ letterBytes, cs.mbcharlen (charToUint signedChar b) ≤ 1)
    (fuel : ℕ) (s : List UInt8) (room : ℕ) (hfuel : s.length ≤ fuel)
    (hend : (cs.escapeLoop signedChar fuel s room).2 = false) (fuel' : ℕ)
    (hfuel' : (cs.escapeLoop signedChar fuel s room).1.length ≤ fuel') :
    (∀ t ∈ cs.tokens fuel' (cs.escapeLoop signedChar fuel s room).1, t.Safe) ∧
      (cs.tokens fuel' (cs.escapeLoop signedChar fuel s room).1).flatMap Token.meaning = s := by
  induction fuel generalizing s room fuel' with
  | zero =>
    obtain rfl := length_eq_zero_iff.mp (Nat.le_zero.mp hfuel)
    cases fuel' <;> simp [Charset.escapeLoop, Charset.tokens]
  | succ fuel ih =>
    cases s with
    | nil => cases fuel' <;> simp [Charset.escapeLoop, Charset.tokens]
    | cons b rest =>
      rw [length_cons] at hfuel
      rw [Charset.escapeLoop] at hend hfuel' ⊢
      split_ifs at hend hfuel' ⊢ with hmb hroom hesc hroom hroom
      · -- a multibyte character, copied as a whole
        have hin := h.inside (b :: rest)
        rw [length_cons] at hin
        rw [length_append, length_take, length_cons] at hfuel'
        obtain ⟨fuel', rfl⟩ := exists_eq_succ_of_ne_zero (show fuel' ≠ 0 by omega)
        rw [succ_eq_add_one, h.tokens_multibyte hmb]
        have hdrop : ((b :: rest).drop (cs.charLength (b :: rest))).length ≤ fuel := by
          rw [length_drop, length_cons]; omega
        obtain ⟨hsafe, hmeaning⟩ := ih _ _ hdrop hend fuel' (by omega)
        refine ⟨forall_mem_cons.mpr ⟨trivial, hsafe⟩, ?_⟩
        rw [flatMap_cons, hmeaning]
        exact take_append_drop _ _
      · -- a backslash and a letter
        rw [length_cons, length_cons] at hfuel'
        obtain ⟨fuel', rfl⟩ := exists_eq_succ_of_ne_zero (show fuel' ≠ 0 by omega)
        rw [succ_eq_add_one, h.tokens_escaped]
        obtain ⟨hsafe, hmeaning⟩ := ih _ _ (by omega) hend fuel' (by omega)
        refine ⟨forall_mem_cons.mpr ⟨trivial, hsafe⟩, ?_⟩
        rw [flatMap_cons, hmeaning, Token.meaning, unescapeLetter_escape hletters hesc]
        rfl
      · -- a byte as it is
        obtain ⟨hlooks, hspecial, hne⟩ := escape_eq_zero hletters (not_not.mp hesc)
        rw [length_cons] at hfuel'
        obtain ⟨fuel', rfl⟩ := exists_eq_succ_of_ne_zero (show fuel' ≠ 0 by omega)
        rw [succ_eq_add_one, h.tokens_plain hlooks hne]
        obtain ⟨hsafe, hmeaning⟩ := ih _ _ (by omega) hend fuel' (by omega)
        refine ⟨forall_mem_cons.mpr ⟨hspecial, hsafe⟩, ?_⟩
        rw [flatMap_cons, hmeaning]
        rfl

/-- **Escaping is safe and can be undone.** Let `ismbchar` look at the bytes of its character
only, let `mbcharlen`, asked as the function asks it, be above one for the first byte of every
character and not for NUL and the letters `0`, `n`, `r` and `Z`, and let no character start with
a backslash. Then what is written has room in the buffer, and unless `(size_t) -1` is returned,
it has no bare special byte, no backslash without its byte, and stands for the input. -/
theorem Charset.Classifies.escapeStringForMysql_safe (h : cs.Classifies signedChar)
    (hletters : ∀ b ∈ letterBytes, cs.mbcharlen (charToUint signedChar b) ≤ 1)
    (toLength : ℕ) (from' : List UInt8) :
    (cs.escapeStringForMysql signedChar toLength from').written.length ≤
        (if toLength = 0 then 2 * from'.length + 1 else toLength) ∧
      ((cs.escapeStringForMysql signedChar toLength from').result ≠ none →
        (cs.escapeStringForMysql signedChar toLength from').result =
            some (cs.escapeStringForMysql signedChar toLength from').text.length ∧
          (∀ t ∈ cs.read (cs.escapeStringForMysql signedChar toLength from').text, t.Safe) ∧
          cs.unescape (cs.escapeStringForMysql signedChar toLength from').text = from') := by
  rw [Charset.escapeStringForMysql]
  constructor
  · have hlen := cs.escapeLoop_length_le signedChar from'.length from'
      (if toLength ≠ 0 then toLength - 1 else 2 * from'.length)
    rw [Escaped.written, length_append, length_singleton]
    dsimp only
    by_cases hz : toLength = 0
    · rw [if_neg (not_not.mpr hz)] at hlen
      rw [if_neg (not_not.mpr hz), if_pos hz]
      omega
    rw [if_pos hz] at hlen
    rw [if_pos hz, if_neg hz]
    omega
  · intro hresult
    have hend : (cs.escapeLoop signedChar from'.length from'
        (if toLength ≠ 0 then toLength - 1 else 2 * from'.length)).2 = false := by
      by_contra hover
      exact hresult (if_pos (Bool.not_eq_false _ ▸ hover))
    obtain ⟨hsafe, hmeaning⟩ :=
      h.tokens_escapeLoop hletters from'.length from' _ le_rfl hend _ le_rfl
    exact ⟨if_neg (by rw [hend]; exact Bool.false_ne_true), hsafe, hmeaning⟩

end

/-! ### Character sets that keep the contract, and some that do not -/

def isgbkhead (c : UInt8) : Bool := 0x81 ≤ c && c ≤ 0xfe

def isgbktail (c : UInt8) : Bool := (0x40 ≤ c && c ≤ 0x7e) || (0x80 ≤ c && c ≤ 0xfe)

def ismbcharGbk : List UInt8 → ℕ
  | p :: q :: _ => if isgbkhead p && isgbktail q then 2 else 0
  | _ => 0

/-- The character set `gbk` of `strings/ctype-gbk.c`. -/
def gbk : Charset where
  ismbchar := some ismbcharGbk
  mbcharlen c := if isgbkhead c.toUInt8 then 2 else 1

variable (signedChar : Bool)

theorem toUInt8_charToUint (b : UInt8) : (charToUint signedChar b).toUInt8 = b := by
  have hb := b.toNat_lt
  apply UInt8.toNat_inj.mp
  rw [charToUint]
  split_ifs
  · rw [UInt32.toNat_toUInt8, UInt32.toNat_sub, UInt8.toNat_toUInt32]
    have : UInt32.toNat 256 = 256 := rfl
    omega
  · rw [UInt32.toNat_toUInt8, UInt8.toNat_toUInt32]
    omega

theorem gbk_classifies : gbk.Classifies signedChar where
  inside s := by
    change ismbcharGbk s ≤ s.length
    rcases s with _ | ⟨p, _ | ⟨q, s⟩⟩
    · simp [ismbcharGbk]
    · simp [ismbcharGbk]
    · rw [ismbcharGbk, length_cons, length_cons]
      split_ifs <;> omega
  own_bytes s t hs ht := by
    change t.take (ismbcharGbk s) = s.take (ismbcharGbk s) at ht
    change ismbcharGbk t = ismbcharGbk s
    rcases s with _ | ⟨p, _ | ⟨q, s⟩⟩
    · exact absurd rfl hs
    · exact absurd rfl hs
    by_cases hpq : (isgbkhead p && isgbktail q) = true
    swap
    · exact absurd (if_neg hpq) hs
    rw [ismbcharGbk, if_pos hpq] at ht ⊢
    rcases t with _ | ⟨p', _ | ⟨q', t⟩⟩
    · simp at ht
    · simp at ht
    · simp only [take_succ_cons, take_zero, cons.injEq, and_true] at ht
      rw [ismbcharGbk, ht.1, ht.2, if_pos hpq]
  first b s hs := by
    change ismbcharGbk (b :: s) ≠ 0 at hs
    change 1 < (if isgbkhead (charToUint signedChar b).toUInt8 then (2 : ℤ) else 1)
    rw [toUInt8_charToUint]
    rcases s with _ | ⟨q, s⟩
    · exact absurd rfl hs
    by_cases hbq : (isgbkhead b && isgbktail q) = true
    · rw [if_pos (Bool.and_eq_true _ _ ▸ hbq).1]
      norm_num
    · exact absurd (if_neg hbq) hs
  backslash s := by
    change ismbcharGbk (92 :: s) = 0
    rcases s with _ | ⟨q, s⟩
    · rfl
    rw [ismbcharGbk, if_neg]
    rw [show isgbkhead 92 = false from rfl, Bool.false_and]
    exact Bool.false_ne_true

/-- The string `0xbf27` of the comment in the source, with signed `char`: the byte `0xbf`, which
a backslash would complete, is escaped itself. -/
theorem escapeStringForMysql_safe_gbk :
    (gbk.escapeStringForMysql true 0 [0xbf, 0x27]).text = [0x5c, 0xbf, 0x5c, 0x27] ∧
      (∀ t ∈ gbk.read (gbk.escapeStringForMysql true 0 [0xbf, 0x27]).text, t.Safe) ∧
      gbk.unescape (gbk.escapeStringForMysql true 0 [0xbf, 0x27]).text = [0xbf, 0x27] := by
  refine ⟨by decide +kernel, ?_⟩
  exact (((gbk_classifies true).escapeStringForMysql_safe (by decide +kernel) 0
    [0xbf, 0x27]).2 (by decide +kernel)).2

/-- A set without any multibyte character whose `mbcharlen` is two for every byte. -/
def everyByteLooksFirst : Charset where
  ismbchar := some fun _ => 0
  mbcharlen _ := 2

/-- A set with the one multibyte character `0xbf5c`, whose `mbcharlen` compares all of its
argument. -/
def oneCharacter : Charset where
  ismbchar := some fun s => if s.take 2 = [0xbf, 0x5c] then 2 else 0
  mbcharlen c := if c = 0xbf then 2 else 1

theorem everyByteLooksFirst_classifies : everyByteLooksFirst.Classifies signedChar where
  inside _ := Nat.zero_le _
  own_bytes _ _ hs _ := absurd rfl hs
  first _ _ hs := absurd rfl hs
  backslash _ := rfl

theorem oneCharacter_classifies : oneCharacter.Classifies false where
  inside s := by
    change (if s.take 2 = [0xbf, 0x5c] then 2 else 0) ≤ s.length
    split_ifs with hs
    · have := congrArg List.length hs
      rw [length_take, length_cons, length_singleton] at this
      omega
    · exact Nat.zero_le _
  own_bytes s t hs ht := by
    have hs2 : s.take 2 = [0xbf, 0x5c] := by
      by_contra hne
      exact hs (if_neg hne)
    have hlen : oneCharacter.charLength s = 2 := if_pos hs2
    rw [hlen] at ht ⊢
    exact if_pos (ht.trans hs2)
  first b s hs := by
    change (if (b :: s).take 2 = [0xbf, 0x5c] then 2 else 0) ≠ 0 at hs
    by_cases hbs : (b :: s).take 2 = [0xbf, 0x5c]
    · obtain rfl : b = 0xbf := (cons.inj hbs).1
      decide
    · exact absurd (if_neg hbs) hs
  backslash s := by
    change (if (92 :: s).take 2 = [0xbf, 0x5c] then 2 else 0) = 0
    refine if_neg fun hs => ?_
    exact absurd (cons.inj hs).1 (by decide)

/-- What goes wrong without the two provisos. Where `mbcharlen` is above one for the letter `n`,
`n` comes back as a newline; where it is above one for NUL, NUL stays bare. Where `char` is
signed and `mbcharlen` does not cut its argument, it is not asked about the byte `0xbf`, and the
quote behind it becomes bare. -/
theorem escapeStringForMysql_bare :
    everyByteLooksFirst.Classifies true ∧ everyByteLooksFirst.unescape
        (everyByteLooksFirst.escapeStringForMysql true 0 [110]).text = [10] ∧
      (everyByteLooksFirst.escapeStringForMysql true 0 [0]).result = some 1 ∧
      everyByteLooksFirst.read (everyByteLooksFirst.escapeStringForMysql true 0 [0]).text =
        [.plain 0] ∧
      oneCharacter.Classifies false ∧
      (oneCharacter.escapeStringForMysql true 0 [0xbf, 0x27]).result = some 3 ∧
      oneCharacter.read (oneCharacter.escapeStringForMysql true 0 [0xbf, 0x27]).text =
        [.multibyte [0xbf, 0x5c], .plain 0x27] :=
  ⟨everyByteLooksFirst_classifies true, by decide +kernel, by decide +kernel, by decide +kernel,
    oneCharacter_classifies, by decide +kernel, by decide +kernel⟩

end LibSources
