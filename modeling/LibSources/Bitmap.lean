import Mathlib.Tactic

/-!
# `MY_BITMAP` of `mysys/my_bitmap.c`

A bitmap is an array of words of 32 bits. `last_word_mask` has the bits of the last word that do
not belong to it. Some functions set or clear them before they look at the words.

* The machine is little-endian: bit `i` is bit `i % 32` of word `i / 32`, and also bit `i % 8` of
  byte `i / 8`.
* Words are counted from the start of the buffer, and there are places before it as well. The
  sizes are of type `uint` and wrap.
-/

namespace LibSources

open Nat Function List

structure MyBitmap where
  bitmap : ℤ → BitVec 32
  nBits : ℕ
  lastWordMask : BitVec 32
  lastWordPtr : ℤ

namespace MyBitmap

def noBytesInMap (nBits : ℕ) : ℕ := (nBits + 7) % 2 ^ 32 / 8

def noWordsInMap (nBits : ℕ) : ℕ := (nBits + 31) % 2 ^ 32 / 32

def wordOfBytes (b₀ b₁ b₂ b₃ : BitVec 8) : BitVec 32 := b₃ ++ b₂ ++ b₁ ++ b₀

def createLastWordMask (nBits : ℕ) : BitVec 32 :=
  let used := 1 + (nBits + (2 ^ 32 - 1)) % 2 ^ 32 % 8
  let mask : BitVec 8 := ~~~BitVec.ofNat 8 (2 ^ used - 1)
  if noBytesInMap nBits % 4 = 1 then wordOfBytes mask 255 255 255
  else if noBytesInMap nBits % 4 = 2 then wordOfBytes 0 mask 255 255
  else if noBytesInMap nBits % 4 = 3 then wordOfBytes 0 0 mask 255
  else wordOfBytes 0 0 0 mask

section

variable (m : MyBitmap)

def fillWords (v : BitVec 32) : MyBitmap :=
  { m with bitmap := fun w => if 0 ≤ w ∧ w < noWordsInMap m.nBits then v else m.bitmap w }

def clearAll : MyBitmap := m.fillWords 0

def setAll : MyBitmap := m.fillWords (BitVec.allOnes 32)

def bitmapInit (buf : ℤ → BitVec 32) (nBits : ℕ) : MyBitmap :=
  clearAll
    { bitmap := buf
      nBits := nBits
      lastWordMask := createLastWordMask nBits
      lastWordPtr := (noWordsInMap nBits : ℤ) - 1 }

def updateWord (w : ℤ) (v : BitVec 32) : MyBitmap := { m with bitmap := update m.bitmap w v }

def clearPadding : MyBitmap :=
  m.updateWord m.lastWordPtr (m.bitmap m.lastWordPtr &&& ~~~m.lastWordMask)

def setPadding : MyBitmap := m.updateWord m.lastWordPtr (m.bitmap m.lastWordPtr ||| m.lastWordMask)

section

variable (i : ℕ)

def byteMask : BitVec 32 := ((1#8 <<< (i % 8)).setWidth 32) <<< (8 * (i / 8 % 4))

def setBit : MyBitmap := m.updateWord (i / 32 : ℕ) (m.bitmap (i / 32 : ℕ) ||| byteMask i)

def flipBit : MyBitmap := m.updateWord (i / 32 : ℕ) (m.bitmap (i / 32 : ℕ) ^^^ byteMask i)

def clearBit : MyBitmap := m.updateWord (i / 32 : ℕ) (m.bitmap (i / 32 : ℕ) &&& ~~~byteMask i)

def isSet : Bool := m.bitmap (i / 32 : ℕ) &&& byteMask i ≠ 0

end

def combine (op : BitVec 32 → BitVec 32 → BitVec 32) (m m₂ : MyBitmap) : MyBitmap :=
  { m with bitmap := fun w =>
      if 0 ≤ w ∧ w ≤ m.lastWordPtr then op (m.bitmap w) (m₂.bitmap w) else m.bitmap w }

section

variable (m m₂ : MyBitmap)

def subtract : MyBitmap := combine (fun x y => x &&& ~~~y) m m₂

def union : MyBitmap := combine (fun x y => x ||| y) m m₂

def xor : MyBitmap := combine (fun x y => x ^^^ y) m m₂

def copy : MyBitmap := combine (fun _ y => y) m m₂

end

def invert : MyBitmap := combine (fun x _ => x ^^^ BitVec.allOnes 32) m m

/-- `bitmap_intersect`, when the last bits of `map2` are cleared. The lengths may differ. -/
def intersect (m m₂ : MyBitmap) : MyBitmap :=
  { m with bitmap := fun w =>
      if 0 ≤ w ∧ w < min (noWordsInMap m.nBits : ℤ) (noWordsInMap m₂.nBits) then
        m.bitmap w &&& m₂.bitmap w
      else if (noWordsInMap m₂.nBits : ℤ) ≤ w ∧ w < noWordsInMap m.nBits then 0
      else m.bitmap w }

def words : ℕ := (m.lastWordPtr + 1).toNat

def isSetAll : Bool := (List.range m.words).all fun w => m.bitmap w = BitVec.allOnes 32

def isClearAll : Bool :=
  m.bitmap m.lastWordPtr &&& ~~~m.lastWordMask = 0 ∧
    (List.range m.lastWordPtr.toNat).all fun w => m.bitmap w = 0

def isSubset (m₁ m₂ : MyBitmap) : Bool :=
  (List.range m₁.words).all fun w => m₁.bitmap w &&& ~~~m₂.bitmap w = 0

variable (m₁ m₂ : MyBitmap)

def isOverlapping : Bool := (List.range m₁.words).any fun w => m₁.bitmap w &&& m₂.bitmap w ≠ 0

def cmp : Bool := (List.range (noWordsInMap m₁.nBits)).all fun w => m₁.bitmap w = m₂.bitmap w

def byteAt (p : ℕ) : BitVec 8 := (m.bitmap (p / 4 : ℕ)).extractLsb' (8 * (p % 4)) 8

def myBitsNbits : List ℕ :=
  [0, 1, 1, 2, 1, 2, 2, 3, 1, 2, 2, 3, 2, 3, 3, 4, 1, 2, 2, 3, 2, 3, 3, 4, 2, 3, 3, 4, 3, 4, 4, 5,
    1, 2, 2, 3, 2, 3, 3, 4, 2, 3, 3, 4, 3, 4, 4, 5,
    2, 3, 3, 4, 3, 4, 4, 5, 3, 4, 4, 5, 4, 5, 5, 6,
    1, 2, 2, 3, 2, 3, 3, 4, 2, 3, 3, 4, 3, 4, 4, 5,
    2, 3, 3, 4, 3, 4, 4, 5, 3, 4, 4, 5, 4, 5, 5, 6,
    2, 3, 3, 4, 3, 4, 4, 5, 3, 4, 4, 5, 4, 5, 5, 6,
    3, 4, 4, 5, 4, 5, 5, 6, 4, 5, 5, 6, 5, 6, 6, 7,
    1, 2, 2, 3, 2, 3, 3, 4, 2, 3, 3, 4, 3, 4, 4, 5,
    2, 3, 3, 4, 3, 4, 4, 5, 3, 4, 4, 5, 4, 5, 5, 6,
    2, 3, 3, 4, 3, 4, 4, 5, 3, 4, 4, 5, 4, 5, 5, 6,
    3, 4, 4, 5, 4, 5, 5, 6, 4, 5, 5, 6, 5, 6, 6, 7,
    2, 3, 3, 4, 3, 4, 4, 5, 3, 4, 4, 5, 4, 5, 5, 6,
    3, 4, 4, 5, 4, 5, 5, 6, 4, 5, 5, 6, 5, 6, 6, 7,
    3, 4, 4, 5, 4, 5, 5, 6, 4, 5, 5, 6, 5, 6, 6, 7,
    4, 5, 5, 6, 5, 6, 6, 7, 5, 6, 6, 7, 6, 7, 7, 8]

/-- The loop of `bitmap_bits_set` over the first bytes. -/
def countBits (m : MyBitmap) : ℕ → ℕ
  | 0 => 0
  | p + 1 => (countBits m p + myBitsNbits.getD (m.byteAt p).toNat 0) % 2 ^ 32

def bitsSet : ℕ := m.countBits (noBytesInMap m.nBits)

def myBitNone : ℕ := 2 ^ 32 - 1

variable (v : Bool)

/-- The two inner loops of `bitmap_get_first_set` and `bitmap_get_first`: the first byte with a
bit of the value `v`, and the first such bit in it. -/
def firstInWord (x : BitVec 32) : ℕ :=
  let j := (List.range 4).findIdx fun j =>
    x.extractLsb' (8 * j) 8 ≠ if v then 0 else BitVec.allOnes 8
  let k := (List.range 8).findIdx fun k => (x.extractLsb' (8 * j) 8).getLsbD k = v
  j * 8 + k

def wordHas (m : MyBitmap) (w : ℕ) : Bool := m.bitmap w ≠ if v then 0 else BitVec.allOnes 32

/-- The loop over the words of both functions. -/
def firstWith (m : MyBitmap) : ℕ :=
  let i := (List.range m.words).findIdx (wordHas v m)
  if i < m.words then i * 32 + firstInWord v (m.bitmap i) else myBitNone

def getFirstSet : ℕ := firstWith true m

def getFirst : ℕ := firstWith false m

def setNext : MyBitmap × ℕ :=
  (if m.getFirst ≠ myBitNone then m.setBit m.getFirst else m, m.getFirst)

/-! ### Bits -/

def bit (i : ℕ) : Bool := (m.bitmap (i / 32 : ℕ)).getLsbD (i % 32)

def contents : Finset ℕ := (Finset.range m.nBits).filter fun i => m.bit i

end

/-- The fields that `bitmap_init` sets, for a size whose number of words is a `uint`. -/
structure WellFormed (m : MyBitmap) : Prop where
  pos : 1 ≤ m.nBits
  small : m.nBits ≤ 2 ^ 32 - 32
  mask : m.lastWordMask = createLastWordMask m.nBits
  last : m.lastWordPtr = (noWordsInMap m.nBits : ℤ) - 1

variable {n j i k : ℕ} {v : Bool}

theorem wellFormed_bitmapInit (buf : ℤ → BitVec 32) (hpos : 1 ≤ n) (hsmall : n ≤ 2 ^ 32 - 32) :
    WellFormed (bitmapInit buf n) :=
  ⟨hpos, hsmall, rfl, rfl⟩

theorem getLsbD_byteMask (i : ℕ) (hj : j < 32) : (byteMask i).getLsbD j = decide (j = i % 32) := by
  have hall : ∀ (a : Fin 8) (b : Fin 4) (j : Fin 32),
      (((1#8 <<< (a : ℕ)).setWidth 32) <<< (8 * (b : ℕ))).getLsbD j =
        decide ((j : ℕ) = 8 * b + a) := by decide
  have hbit := hall ⟨i % 8, by omega⟩ ⟨i / 8 % 4, by omega⟩ ⟨j, hj⟩
  rw [byteMask, hbit]
  exact decide_eq_decide.mpr (by dsimp only; omega)

theorem getLsbD_createLastWordMask (hpos : 1 ≤ n) (hsmall : n ≤ 2 ^ 32 - 32) (hj : j < 32) :
    (createLastWordMask n).getLsbD j = decide ((n - 1) % 32 < j) := by
  have hall : ∀ r j : Fin 32,
      (createLastWordMask (r + 1)).getLsbD j = decide ((r : ℕ) < j) := by decide +kernel
  have hbytes : noBytesInMap n % 4 = noBytesInMap ((n - 1) % 32 + 1) % 4 := by
    rw [noBytesInMap, noBytesInMap]
    omega
  have hused : (n + (2 ^ 32 - 1)) % 2 ^ 32 % 8 =
      ((n - 1) % 32 + 1 + (2 ^ 32 - 1)) % 2 ^ 32 % 8 := by omega
  have hsame : createLastWordMask n = createLastWordMask ((n - 1) % 32 + 1) := by
    rw [createLastWordMask, createLastWordMask, hbytes, hused]
  rw [hsame]
  exact hall ⟨(n - 1) % 32, by omega⟩ ⟨j, hj⟩

section

variable {m m₁ m₂ : MyBitmap}

theorem mem_contents : i ∈ m.contents ↔ i < m.nBits ∧ m.bit i = true := by
  rw [contents, Finset.mem_filter, Finset.mem_range]

theorem noWordsInMap_eq (hsmall : n ≤ 2 ^ 32 - 32) : noWordsInMap n = (n + 31) / 32 := by
  rw [noWordsInMap, mod_eq_of_lt (by omega)]

theorem WellFormed.words_eq (h : WellFormed m) : m.words = (m.nBits + 31) / 32 := by
  rw [words, h.last, noWordsInMap_eq h.small]
  omega

theorem WellFormed.last_eq (h : WellFormed m) : m.lastWordPtr = ((m.nBits - 1) / 32 : ℕ) := by
  have := h.pos
  rw [h.last, noWordsInMap_eq h.small]
  omega

theorem bit_updateWord (m : MyBitmap) (w : ℕ) (v : BitVec 32) (i : ℕ) :
    (m.updateWord w v).bit i = if i / 32 = w then v.getLsbD (i % 32) else m.bit i := by
  rw [bit, updateWord]
  dsimp only
  split_ifs with hw
  · rw [hw, update_self]
  · rw [update_of_ne (by exact_mod_cast hw), bit]

theorem bit_clearPadding (h : WellFormed m) (hi : i < 32 * m.words) :
    m.clearPadding.bit i = (m.bit i && decide (i < m.nBits)) := by
  have hwords := h.words_eq
  have hpos := h.pos
  rw [clearPadding, h.last_eq, bit_updateWord, h.mask]
  split_ifs with hw
  · have hiff : ¬ (m.nBits - 1) % 32 < i % 32 ↔ i < m.nBits := by omega
    rw [BitVec.getLsbD_and, BitVec.getLsbD_not, getLsbD_createLastWordMask hpos h.small (by omega),
      bit, hw, ← decide_not, decide_eq_decide.mpr hiff, decide_eq_true (by omega : i % 32 < 32),
      Bool.true_and]
  · rw [decide_eq_true (by omega), Bool.and_true]

theorem bit_setPadding (h : WellFormed m) (hi : i < 32 * m.words) :
    m.setPadding.bit i = (m.bit i || decide (m.nBits ≤ i)) := by
  have hwords := h.words_eq
  have hpos := h.pos
  rw [setPadding, h.last_eq, bit_updateWord, h.mask]
  split_ifs with hw
  · have hiff : (m.nBits - 1) % 32 < i % 32 ↔ m.nBits ≤ i := by omega
    rw [BitVec.getLsbD_or, getLsbD_createLastWordMask hpos h.small (by omega), bit, hw,
      decide_eq_decide.mpr hiff]
  · rw [decide_eq_false (by omega), Bool.or_false]

section

variable (m : MyBitmap)

theorem bit_word (w : ℕ) (hj : j < 32) : m.bit (32 * w + j) = (m.bitmap w).getLsbD j := by
  rw [bit, mul_add_div (by omega), div_eq_of_lt hj, mul_add_mod, mod_eq_of_lt hj, add_zero]

theorem words_eq_iff {Q : ℕ → Prop} (f g : ℕ → BitVec 32)
    (h : ∀ w j, j < 32 → ((f w).getLsbD j = (g w).getLsbD j ↔ Q (32 * w + j))) :
    (∀ w < n, decide (f w = g w) = true) ↔ ∀ i < 32 * n, Q i := by
  constructor
  · intro hall i hi
    have hword := of_decide_eq_true (hall (i / 32) (by omega))
    have hbit := (h (i / 32) (i % 32) (by omega)).mp (by rw [hword])
    rwa [div_add_mod] at hbit
  · intro hall w hw
    exact decide_eq_true (BitVec.eq_of_getLsbD_eq fun j hj => (h w j hj).mpr (hall _ (by omega)))

theorem word_eq_iff {x y : BitVec 32} : x = y ↔ ∀ j < 32, x.getLsbD j = y.getLsbD j :=
  ⟨fun h j _ => by rw [h], fun h => BitVec.eq_of_getLsbD_eq h⟩

/-! ### The search for a bit -/

theorem findIdx_range (p : ℕ → Bool) (n : ℕ) :
    (∀ t < (List.range n).findIdx p, p t = false) ∧
      ((List.range n).findIdx p < n → p ((List.range n).findIdx p) = true) ∧
      ((∃ t < n, p t = true) → (List.range n).findIdx p < n) := by
  have hlength : (List.range n).length = n := length_range
  refine ⟨fun t ht => ?_, fun hlt => ?_, fun ⟨t, ht, hp⟩ => ?_⟩
  · have hle : (List.range n).findIdx p ≤ (List.range n).length := findIdx_le_length
    have hnot := not_of_lt_findIdx ht
    rw [getElem_range] at hnot
    simpa using hnot
  · have hlt' : (List.range n).findIdx p < (List.range n).length := hlt.trans_eq hlength.symm
    have hfound := findIdx_getElem (w := hlt')
    rwa [getElem_range] at hfound
  · have hmem : (List.range n).findIdx p < (List.range n).length :=
      findIdx_lt_length_of_exists ⟨t, mem_range.mpr ht, hp⟩
    rwa [hlength] at hmem

theorem getLsbD_extract (x : BitVec 32) (j : ℕ) (hk : k < 8) :
    (x.extractLsb' (8 * j) 8).getLsbD k = x.getLsbD (8 * j + k) := by
  rw [BitVec.getLsbD_extractLsb', decide_eq_true hk, Bool.true_and]

theorem eq_full_iff (v : Bool) (x : BitVec n) :
    (x = if v then 0 else BitVec.allOnes n) ↔ ∀ j < n, x.getLsbD j = !v := by
  constructor
  · rintro rfl j hj
    cases v <;> simp [hj]
  intro h
  refine BitVec.eq_of_getLsbD_eq fun j hj => ?_
  rw [h j hj]
  cases v <;> simp [hj]

theorem exists_of_ne_full {x : BitVec n} (h : x ≠ if v then 0 else BitVec.allOnes n) :
    ∃ j < n, x.getLsbD j = v := by
  by_contra hnone
  refine h ((eq_full_iff v x).mpr fun j hj => ?_)
  have hne : x.getLsbD j ≠ v := fun heq => hnone ⟨j, hj, heq⟩
  exact Bool.eq_not_of_ne hne

theorem firstInWord_spec {x : BitVec 32} (h : x ≠ if v then 0 else BitVec.allOnes 32) :
    firstInWord v x < 32 ∧ x.getLsbD (firstInWord v x) = v ∧
      ∀ t < firstInWord v x, x.getLsbD t = !v := by
  obtain ⟨hbytes, hbyte, hfound⟩ := findIdx_range
    (fun j => x.extractLsb' (8 * j) 8 ≠ if v then 0 else BitVec.allOnes 8) 4
  rw [firstInWord]
  generalize (range 4).findIdx
    (fun j => x.extractLsb' (8 * j) 8 ≠ if v then 0 else BitVec.allOnes 8) = j at *
  obtain ⟨hbits, hbit, hfound'⟩ := findIdx_range
    (fun k => (x.extractLsb' (8 * j) 8).getLsbD k = v) 8
  generalize (range 8).findIdx (fun k => decide ((x.extractLsb' (8 * j) 8).getLsbD k = v)) = k at *
  have hj : j < 4 := by
    obtain ⟨t, ht, hv⟩ := exists_of_ne_full h
    refine hfound ⟨t / 8, by omega, decide_eq_true fun hfull => ?_⟩
    have hsame := (eq_full_iff v _).mp hfull (t % 8) (by omega)
    rw [getLsbD_extract _ _ (by omega), div_add_mod, hv] at hsame
    exact absurd hsame (by cases v <;> decide)
  have hk : k < 8 := by
    obtain ⟨t, ht, hv⟩ := exists_of_ne_full (of_decide_eq_true (hbyte hj))
    exact hfound' ⟨t, ht, decide_eq_true hv⟩
  refine ⟨by omega, ?_, fun t ht => ?_⟩
  · have hv := of_decide_eq_true (hbit hk)
    rwa [getLsbD_extract _ _ hk, mul_comm] at hv
  rcases lt_or_ge (t / 8) j with hlt | hge
  · have hfull := of_decide_eq_false (hbytes _ hlt)
    have hsame := (eq_full_iff v _).mp (not_not.mp hfull) (t % 8) (by omega)
    rwa [getLsbD_extract _ _ (by omega), div_add_mod] at hsame
  have hne := of_decide_eq_false (hbits (t % 8) (by omega))
  rw [getLsbD_extract _ _ (by omega)] at hne
  have hplace : 8 * j + t % 8 = t := by omega
  rw [hplace] at hne
  exact Bool.eq_not_of_ne hne

theorem firstWith_spec (v : Bool) (m : MyBitmap) :
    ((∃ i < 32 * m.words, m.bit i = v) → firstWith v m < 32 * m.words ∧ m.bit (firstWith v m) = v ∧
        ∀ t < firstWith v m, m.bit t = !v) ∧
    ((∀ i < 32 * m.words, m.bit i = !v) → firstWith v m = myBitNone) := by
  obtain ⟨hwords, hword, hfound⟩ := findIdx_range (wordHas v m) m.words
  rw [firstWith]
  generalize (range m.words).findIdx (wordHas v m) = i at *
  refine ⟨fun ⟨t, ht, hv⟩ => ?_, fun hnone => ?_⟩
  · have hi : i < m.words := by
      refine hfound ⟨t / 32, by omega, decide_eq_true fun hfull => ?_⟩
      have hsame := (eq_full_iff v _).mp hfull (t % 32) (by omega)
      rw [← bit_word _ _ (by omega), div_add_mod, hv] at hsame
      exact absurd hsame (by cases v <;> decide)
    obtain ⟨hlt, hbit, hbits⟩ := firstInWord_spec (of_decide_eq_true (hword hi))
    rw [if_pos hi]
    refine ⟨by omega, ?_, fun s hs => ?_⟩
    · rw [mul_comm i, bit_word _ _ hlt]
      exact hbit
    rcases lt_or_ge (s / 32) i with hlt' | hge
    · have hfull := of_decide_eq_false (hwords _ hlt')
      have hsame := (eq_full_iff v _).mp (not_not.mp hfull) (s % 32) (by omega)
      rwa [← bit_word _ _ (by omega), div_add_mod] at hsame
    have hplace : s = 32 * i + s % 32 := by omega
    rw [hplace, bit_word _ _ (by omega)]
    exact hbits _ (by omega)
  · rw [if_neg]
    intro hi
    obtain ⟨hlt, hbit, -⟩ := firstInWord_spec (of_decide_eq_true (hword hi))
    rw [← bit_word _ _ hlt, hnone _ (by omega)] at hbit
    exact absurd hbit (by cases v <;> decide)

theorem myBitsNbits_eq (b : BitVec 8) :
    myBitsNbits.getD b.toNat 0 = Nat.count (fun k => b.getLsbD k = true) 8 := by
  have hall : ∀ x : Fin 256, myBitsNbits.getD x 0 =
      Nat.count (fun k => (BitVec.ofNat 8 x).getLsbD k = true) 8 := by decide +kernel
  have hb := hall ⟨b.toNat, b.isLt⟩
  rwa [BitVec.ofNat_toNat, BitVec.setWidth_eq] at hb

theorem getLsbD_byteAt (p : ℕ) (hk : k < 8) : (m.byteAt p).getLsbD k = m.bit (8 * p + k) := by
  have hword : (8 * p + k) / 32 = p / 4 := by omega
  have hbit : (8 * p + k) % 32 = 8 * (p % 4) + k := by omega
  rw [byteAt, getLsbD_extract _ _ hk, bit, hword, hbit]

theorem countBits_spec (n : ℕ) (hn : 8 * n < 2 ^ 32) :
    m.countBits n = count (fun i => m.bit i = true) (8 * n) := by
  induction n with
  | zero => rfl
  | succ n ih =>
    have hbyte : count (fun k => (m.byteAt n).getLsbD k = true) 8 =
        count (fun k => m.bit (8 * n + k) = true) 8 := by
      rw [count_eq_card_filter_range, count_eq_card_filter_range]
      refine congrArg Finset.card (Finset.filter_congr fun k hk => ?_)
      rw [getLsbD_byteAt m n (Finset.mem_range.mp hk)]
    rw [countBits, ih (by omega), myBitsNbits_eq, hbyte, Nat.mul_succ, Nat.count_add,
      Nat.mod_eq_of_lt]
    have hle := count_le (p := fun i => m.bit i = true) (n := 8 * n)
    have hle' := count_le (p := fun k => m.bit (8 * n + k) = true) (n := 8)
    omega

/-! ### Sets -/

def Cleared : Prop := ∀ i, m.nBits ≤ i → i < 32 * m.words → m.bit i = false

def Filled : Prop := ∀ i, m.nBits ≤ i → i < 32 * m.words → m.bit i = true

end

theorem contents_eq_of_bit (hn : m₁.nBits = m₂.nBits)
    (h : ∀ i < m₂.nBits, m₁.bit i = m₂.bit i) : m₁.contents = m₂.contents := by
  ext i
  rw [mem_contents, mem_contents, hn]
  exact and_congr_right fun hi => by rw [h i hi]

theorem WellFormed.lt_words (h : WellFormed m) (hi : i < m.nBits) : i < 32 * m.words := by
  rw [h.words_eq]
  omega

theorem contents_clearPadding (h : WellFormed m) : m.clearPadding.contents = m.contents :=
  contents_eq_of_bit rfl fun i hi => by
    rw [bit_clearPadding h (h.lt_words hi), decide_eq_true hi, Bool.and_true]

theorem contents_setPadding (h : WellFormed m) : m.setPadding.contents = m.contents :=
  contents_eq_of_bit rfl fun i hi => by
    rw [bit_setPadding h (h.lt_words hi), decide_eq_false (by omega), Bool.or_false]

theorem cleared_clearPadding (h : WellFormed m) : m.clearPadding.Cleared := by
  intro i hn hi
  have hn' : m.nBits ≤ i := hn
  rw [bit_clearPadding h hi, decide_eq_false (by omega), Bool.and_false]

theorem filled_setPadding (h : WellFormed m) : m.setPadding.Filled := by
  intro i hn hi
  have hn' : m.nBits ≤ i := hn
  rw [bit_setPadding h hi, decide_eq_true hn', Bool.or_true]

theorem Cleared.bit_iff (hc : m.Cleared) (hi : i < 32 * m.words) :
    m.bit i = true ↔ i ∈ m.contents := by
  rw [mem_contents]
  refine ⟨fun hbit => ⟨?_, hbit⟩, fun h => h.2⟩
  by_contra hge
  exact absurd (hbit.symm.trans (hc i (by omega) hi)) (by decide)

theorem Filled.bit_iff (hf : m.Filled) (hi : i < 32 * m.words) :
    m.bit i = false ↔ i < m.nBits ∧ i ∉ m.contents := by
  rw [mem_contents]
  constructor
  · intro hbit
    have hlt : i < m.nBits := by
      by_contra hge
      exact absurd (hbit.symm.trans (hf i (by omega) hi)) (by decide)
    exact ⟨hlt, fun hmem => absurd (hbit.symm.trans hmem.2) (by decide)⟩
  · rintro ⟨hlt, hnot⟩
    exact Bool.eq_false_of_not_eq_true fun hbit => hnot ⟨hlt, hbit⟩

theorem isSet_eq (m : MyBitmap) (i : ℕ) : m.isSet i = m.bit i := by
  rw [isSet, Bool.eq_iff_iff, decide_eq_true_iff, ne_eq, word_eq_iff]
  constructor
  · intro h
    by_contra hbit
    refine h fun j hj => ?_
    rw [BitVec.getLsbD_and, getLsbD_byteMask i hj]
    by_cases hsame : j = i % 32
    · rw [hsame, ← bit, Bool.eq_false_of_not_eq_true hbit, Bool.false_and]
      simp
    · rw [decide_eq_false hsame, Bool.and_false]
      simp
  · intro h hzero
    have hbit := hzero (i % 32) (by omega)
    rw [BitVec.getLsbD_and, getLsbD_byteMask i (by omega), decide_eq_true rfl, ← bit, h] at hbit
    exact absurd hbit (by simp)

section

variable (m : MyBitmap) (k i : ℕ)

theorem bit_setBit : (m.setBit k).bit i = (m.bit i || decide (i = k)) := by
  rw [setBit, bit_updateWord]
  split_ifs with hw
  · have hiff : i % 32 = k % 32 ↔ i = k := by omega
    rw [BitVec.getLsbD_or, getLsbD_byteMask k (by omega), decide_eq_decide.mpr hiff, bit, hw]
  · rw [decide_eq_false (by rintro rfl; exact hw rfl), Bool.or_false]

theorem bit_clearBit : (m.clearBit k).bit i = (m.bit i && !decide (i = k)) := by
  rw [clearBit, bit_updateWord]
  split_ifs with hw
  · have hiff : i % 32 = k % 32 ↔ i = k := by omega
    rw [BitVec.getLsbD_and, BitVec.getLsbD_not, getLsbD_byteMask k (by omega),
      decide_eq_decide.mpr hiff, bit, hw, decide_eq_true (by omega : i % 32 < 32), Bool.true_and]
  · rw [decide_eq_false (by rintro rfl; exact hw rfl), Bool.not_false, Bool.and_true]

theorem bit_flipBit : (m.flipBit k).bit i = (m.bit i ^^ decide (i = k)) := by
  rw [flipBit, bit_updateWord]
  split_ifs with hw
  · have hiff : i % 32 = k % 32 ↔ i = k := by omega
    rw [BitVec.getLsbD_xor, getLsbD_byteMask k (by omega), decide_eq_decide.mpr hiff, bit, hw]
  · rw [decide_eq_false (by rintro rfl; exact hw rfl), Bool.xor_false]

end

theorem contents_setBit (hk : k < m.nBits) : (m.setBit k).contents = insert k m.contents := by
  ext i
  rw [Finset.mem_insert, mem_contents, mem_contents, bit_setBit, Bool.or_eq_true,
    decide_eq_true_iff]
  have hn : (m.setBit k).nBits = m.nBits := rfl
  rw [hn]
  constructor
  · rintro ⟨hi, hbit | rfl⟩
    · exact .inr ⟨hi, hbit⟩
    · exact .inl rfl
  rintro (rfl | ⟨hi, hbit⟩)
  · exact ⟨hk, .inr rfl⟩
  · exact ⟨hi, .inl hbit⟩

theorem contents_clearBit (m : MyBitmap) (k : ℕ) :
    (m.clearBit k).contents = m.contents.erase k := by
  ext i
  rw [Finset.mem_erase, mem_contents, mem_contents, bit_clearBit, Bool.and_eq_true,
    Bool.not_eq_true', decide_eq_false_iff_not]
  have hn : (m.clearBit k).nBits = m.nBits := rfl
  rw [hn]
  exact ⟨fun ⟨hi, hbit, hne⟩ => ⟨hne, hi, hbit⟩, fun ⟨hne, hi, hbit⟩ => ⟨hi, hbit, hne⟩⟩

theorem contents_flipBit (hk : k < m.nBits) : (m.flipBit k).contents = symmDiff m.contents {k} := by
  ext i
  have hn : (m.flipBit k).nBits = m.nBits := rfl
  rw [Finset.mem_symmDiff, Finset.mem_singleton, mem_contents, mem_contents, bit_flipBit, hn]
  by_cases hik : i = k
  · subst hik
    cases m.bit i <;> simp [hk]
  · simp [hik]

theorem contents_fill (h : WellFormed m) (v : BitVec 32) (hi : i < m.nBits) :
    (m.fillWords v).bit i = v.getLsbD (i % 32) := by
  have hwords : i / 32 < noWordsInMap m.nBits := by
    rw [noWordsInMap_eq h.small]
    omega
  rw [bit, fillWords]
  dsimp only
  rw [if_pos ⟨Int.natCast_nonneg _, by exact_mod_cast hwords⟩]

theorem contents_setAll (h : WellFormed m) : m.setAll.contents = Finset.range m.nBits := by
  ext i
  have hn : m.setAll.nBits = m.nBits := rfl
  rw [mem_contents, Finset.mem_range, hn]
  refine ⟨fun hmem => hmem.1, fun hi => ⟨hi, ?_⟩⟩
  rw [setAll, contents_fill h _ hi, BitVec.getLsbD_allOnes, decide_eq_true (by omega)]

theorem contents_clearAll (h : WellFormed m) : m.clearAll.contents = ∅ := by
  ext i
  have hn : m.clearAll.nBits = m.nBits := rfl
  rw [mem_contents, hn]
  refine ⟨fun ⟨hi, hbit⟩ => ?_, fun hmem => absurd hmem (Finset.notMem_empty i)⟩
  rw [clearAll, contents_fill h _ hi] at hbit
  exact absurd hbit (by simp)

theorem bit_combine (h : WellFormed m) (op : BitVec 32 → BitVec 32 → BitVec 32) (m₂ : MyBitmap)
    (hi : i < m.nBits) :
    (combine op m m₂).bit i =
      (op (m.bitmap (i / 32 : ℕ)) (m₂.bitmap (i / 32 : ℕ))).getLsbD (i % 32) := by
  have hlast := h.last_eq
  rw [bit, combine]
  dsimp only
  rw [if_pos ⟨Int.natCast_nonneg _, by rw [hlast]; omega⟩]

theorem mem_contents_combine (h : WellFormed m) (op : BitVec 32 → BitVec 32 → BitVec 32)
    (hn : m.nBits = m₂.nBits) {b : Bool → Bool → Bool}
    (hop : ∀ (x y : BitVec 32) (j : ℕ), j < 32 →
      (op x y).getLsbD j = b (x.getLsbD j) (y.getLsbD j)) :
    i ∈ (combine op m m₂).contents ↔
      i < m.nBits ∧ b (decide (i ∈ m.contents)) (decide (i ∈ m₂.contents)) = true := by
  have hn' : (combine op m m₂).nBits = m.nBits := rfl
  rw [mem_contents, hn']
  refine and_congr_right fun hi => ?_
  have h₁ : decide (i ∈ m.contents) = m.bit i := by
    rw [Bool.eq_iff_iff, decide_eq_true_iff, mem_contents]
    exact ⟨fun hmem => hmem.2, fun hbit => ⟨hi, hbit⟩⟩
  have h₂ : decide (i ∈ m₂.contents) = m₂.bit i := by
    rw [Bool.eq_iff_iff, decide_eq_true_iff, mem_contents, ← hn]
    exact ⟨fun hmem => hmem.2, fun hbit => ⟨hi, hbit⟩⟩
  rw [bit_combine h op m₂ hi, hop _ _ _ (by omega), h₁, h₂, bit, bit]

theorem lt_of_mem_contents (h : i ∈ m.contents) : i < m.nBits := (mem_contents.mp h).1

section

variable (h : WellFormed m) (hn : m.nBits = m₂.nBits)
include h hn

theorem contents_subtract : (m.subtract m₂).contents = m.contents \ m₂.contents := by
  ext i
  have hop : ∀ (x y : BitVec 32) (j : ℕ), j < 32 →
      (x &&& ~~~y).getLsbD j = (x.getLsbD j && !y.getLsbD j) := by
    intro x y j hj
    rw [BitVec.getLsbD_and, BitVec.getLsbD_not, decide_eq_true hj, Bool.true_and]
  rw [subtract, mem_contents_combine h _ hn (b := fun x y => x && !y) hop, Finset.mem_sdiff]
  simp only [Bool.and_eq_true, decide_eq_true_eq, Bool.not_eq_true', decide_eq_false_iff_not]
  exact ⟨fun hi => hi.2, fun hi => ⟨lt_of_mem_contents hi.1, hi⟩⟩

theorem contents_union : (m.union m₂).contents = m.contents ∪ m₂.contents := by
  ext i
  rw [union, mem_contents_combine h _ hn (b := fun x y => x || y)
    (fun x y j _ => BitVec.getLsbD_or), Finset.mem_union]
  simp only [Bool.or_eq_true, decide_eq_true_eq]
  refine ⟨fun hi => hi.2, fun hi => ⟨?_, hi⟩⟩
  rcases hi with hi | hi
  · exact lt_of_mem_contents hi
  · exact hn ▸ lt_of_mem_contents hi

theorem contents_xor : (m.xor m₂).contents = symmDiff m.contents m₂.contents := by
  ext i
  rw [xor, mem_contents_combine h _ hn (b := fun x y => x ^^ y)
    (fun x y j _ => BitVec.getLsbD_xor), Finset.mem_symmDiff]
  by_cases h₁ : i ∈ m.contents
  · by_cases h₂ : i ∈ m₂.contents <;> simp [h₁, h₂, lt_of_mem_contents h₁]
  by_cases h₂ : i ∈ m₂.contents
  · simp [h₁, h₂, hn ▸ lt_of_mem_contents h₂]
  · simp [h₁, h₂]

theorem contents_copy : (m.copy m₂).contents = m₂.contents := by
  ext i
  rw [copy, mem_contents_combine h _ hn (b := fun _ y => y) (fun _ _ _ _ => rfl),
    decide_eq_true_iff]
  exact ⟨fun hi => hi.2, fun hi => ⟨hn ▸ lt_of_mem_contents hi, hi⟩⟩

end

theorem contents_invert (h : WellFormed m) :
    m.invert.contents = Finset.range m.nBits \ m.contents := by
  ext i
  have hop : ∀ (x y : BitVec 32) (j : ℕ), j < 32 →
      (x ^^^ BitVec.allOnes 32).getLsbD j = !x.getLsbD j := by
    intro x y j hj
    rw [BitVec.getLsbD_xor, BitVec.getLsbD_allOnes, decide_eq_true hj, Bool.xor_true]
  rw [invert, mem_contents_combine h _ rfl (b := fun x _ => !x) hop, Finset.mem_sdiff,
    Finset.mem_range, Bool.not_eq_true', decide_eq_false_iff_not]

theorem contents_intersect (h : WellFormed m) (h₂ : WellFormed m₂) (hc : m₂.Cleared) :
    (m.intersect m₂).contents = m.contents ∩ m₂.contents := by
  ext i
  have hn : (m.intersect m₂).nBits = m.nBits := rfl
  rw [Finset.mem_inter, mem_contents, hn, mem_contents, and_assoc]
  refine and_congr_right fun hi => ?_
  have hwords : i / 32 < noWordsInMap m.nBits := by
    rw [noWordsInMap_eq h.small]
    omega
  have hwords2 : m₂.words = noWordsInMap m₂.nBits := by rw [h₂.words_eq, noWordsInMap_eq h₂.small]
  rw [bit, intersect]
  dsimp only
  by_cases hshort : i / 32 < noWordsInMap m₂.nBits
  · have hmin : ((i / 32 : ℕ) : ℤ) < min (noWordsInMap m.nBits : ℤ) (noWordsInMap m₂.nBits) :=
      lt_min (by exact_mod_cast hwords) (by exact_mod_cast hshort)
    rw [if_pos ⟨Int.natCast_nonneg _, hmin⟩, BitVec.getLsbD_and, Bool.and_eq_true,
      ← hc.bit_iff (by omega), bit, bit]
  rw [if_neg (by rw [lt_min_iff]; omega), if_pos (by omega)]
  constructor
  · intro hbit
    exact absurd hbit (by simp)
  rintro ⟨-, hmem⟩
  have hlt := h₂.lt_words (lt_of_mem_contents hmem)
  omega

/-! ### Questions -/

theorem all_words_iff (f : ℕ → Bool) : (range n).all f = true ↔ ∀ w < n, f w = true := by
  rw [all_eq_true]
  exact forall_congr' fun w => by rw [mem_range]

theorem isSetAll_spec (h : WellFormed m) (hf : m.Filled) :
    m.isSetAll = decide (m.contents = Finset.range m.nBits) := by
  rw [Bool.eq_iff_iff, decide_eq_true_iff, isSetAll, all_words_iff]
  have hwords : (∀ w < m.words, decide (m.bitmap w = BitVec.allOnes 32) = true) ↔
      ∀ i < 32 * m.words, m.bit i = true := by
    refine words_eq_iff (m.bitmap ·) (fun _ => BitVec.allOnes 32) fun w j hj => ?_
    rw [bit_word m w hj, BitVec.getLsbD_allOnes, decide_eq_true hj]
  rw [hwords]
  constructor
  · intro hall
    ext i
    rw [mem_contents, Finset.mem_range]
    exact ⟨fun hi => hi.1, fun hi => ⟨hi, hall i (h.lt_words hi)⟩⟩
  intro hall i hi
  by_contra hbit
  obtain ⟨hlt, hnot⟩ := (hf.bit_iff hi).mp (Bool.eq_false_of_not_eq_true hbit)
  rw [hall, Finset.mem_range] at hnot
  exact hnot hlt

section

variable (h₁ : WellFormed m₁) (h₂ : WellFormed m₂) (hn : m₁.nBits = m₂.nBits)
include h₁ h₂ hn

theorem isSubset_spec (hc₁ : m₁.Cleared) (hc₂ : m₂.Cleared) :
    m₁.isSubset m₂ = decide (m₁.contents ⊆ m₂.contents) := by
  have hsame : m₂.words = m₁.words := by rw [h₁.words_eq, h₂.words_eq, hn]
  rw [Bool.eq_iff_iff, decide_eq_true_iff, isSubset, all_words_iff]
  have hwords : (∀ w < m₁.words, decide (m₁.bitmap w &&& ~~~m₂.bitmap w = 0) = true) ↔
      ∀ i < 32 * m₁.words, m₁.bit i = true → m₂.bit i = true := by
    refine words_eq_iff (fun w => m₁.bitmap w &&& ~~~m₂.bitmap w) (fun _ => 0) fun w j hj => ?_
    rw [bit_word m₁ w hj, bit_word m₂ w hj, BitVec.getLsbD_and, BitVec.getLsbD_not,
      decide_eq_true hj]
    cases (m₁.bitmap w).getLsbD j <;> cases (m₂.bitmap w).getLsbD j <;> simp
  rw [hwords]
  constructor
  · intro hall i hi
    have hlt := h₁.lt_words (lt_of_mem_contents hi)
    exact (hc₂.bit_iff (by omega)).mp (hall i hlt ((hc₁.bit_iff hlt).mpr hi))
  · intro hsub i hi hbit
    exact (hc₂.bit_iff (by omega)).mpr (hsub ((hc₁.bit_iff hi).mp hbit))

theorem isOverlapping_spec (hc₁ : m₁.Cleared) (hc₂ : m₂.Cleared) :
    m₁.isOverlapping m₂ = decide (m₁.contents ∩ m₂.contents).Nonempty := by
  have hsame : m₂.words = m₁.words := by rw [h₁.words_eq, h₂.words_eq, hn]
  have hnot : (m₁.isOverlapping m₂ = false) ↔ ∀ w < m₁.words,
      decide (m₁.bitmap w &&& m₂.bitmap w = 0) = true := by
    rw [isOverlapping, any_eq_false]
    refine forall_congr' fun w => ?_
    rw [mem_range, decide_eq_true_iff, decide_eq_true_iff, not_ne_iff]
  have hwords : (∀ w < m₁.words, decide (m₁.bitmap w &&& m₂.bitmap w = 0) = true) ↔
      ∀ i < 32 * m₁.words, m₁.bit i = true → m₂.bit i = false := by
    refine words_eq_iff (fun w => m₁.bitmap w &&& m₂.bitmap w) (fun _ => 0) fun w j hj => ?_
    rw [bit_word m₁ w hj, bit_word m₂ w hj, BitVec.getLsbD_and]
    cases (m₁.bitmap w).getLsbD j <;> cases (m₂.bitmap w).getLsbD j <;> simp
  rw [← Bool.not_inj_iff, Bool.eq_iff_iff, Bool.not_eq_true', Bool.not_eq_true',
    decide_eq_false_iff_not, hnot, hwords, Finset.not_nonempty_iff_eq_empty,
    ← Finset.disjoint_iff_inter_eq_empty, Finset.disjoint_left]
  constructor
  · intro hall i hi hi₂
    have hlt := h₁.lt_words (lt_of_mem_contents hi)
    have hfalse := hall i hlt ((hc₁.bit_iff hlt).mpr hi)
    exact absurd (hfalse.symm.trans ((hc₂.bit_iff (by omega)).mpr hi₂)) (by decide)
  · intro hall i hi hbit
    exact Bool.eq_false_of_not_eq_true fun hbit₂ =>
      hall ((hc₁.bit_iff hi).mp hbit) ((hc₂.bit_iff (by omega)).mp hbit₂)

theorem cmp_spec (hf₁ : m₁.Filled) (hf₂ : m₂.Filled) :
    m₁.cmp m₂ = decide (m₁.contents = m₂.contents) := by
  have hsame : m₂.words = m₁.words := by rw [h₁.words_eq, h₂.words_eq, hn]
  have hcount : noWordsInMap m₁.nBits = m₁.words := by rw [h₁.words_eq, noWordsInMap_eq h₁.small]
  rw [Bool.eq_iff_iff, decide_eq_true_iff, cmp, all_words_iff, hcount]
  have hwords : (∀ w < m₁.words, decide (m₁.bitmap w = m₂.bitmap w) = true) ↔
      ∀ i < 32 * m₁.words, m₁.bit i = m₂.bit i := by
    refine words_eq_iff (m₁.bitmap ·) (m₂.bitmap ·) fun w j hj => ?_
    rw [bit_word m₁ w hj, bit_word m₂ w hj]
  rw [hwords]
  constructor
  · intro hall
    exact contents_eq_of_bit hn fun i hi => hall i (h₁.lt_words (hn ▸ hi))
  intro heq i hi
  have hiff : m₁.bit i = false ↔ m₂.bit i = false := by
    rw [hf₁.bit_iff hi, hf₂.bit_iff (by omega), heq, hn]
  cases hb : m₂.bit i
  · exact hiff.mpr hb
  · exact Bool.eq_true_of_not_eq_false fun hfalse =>
      absurd (hb.symm.trans (hiff.mp hfalse)) (by decide)

end

theorem isClearAll_spec (h : WellFormed m) : m.isClearAll = decide (m.contents = ∅) := by
  have hlast := h.last_eq
  have hwords := h.words_eq
  have hpos := h.pos
  have hclear := cleared_clearPadding h
  have hall : (m.isClearAll = true) ↔
      ∀ w < m.words, decide (m.clearPadding.bitmap w = 0) = true := by
    rw [isClearAll, decide_eq_true_iff, all_words_iff, hlast, Int.toNat_natCast]
    have hother : ∀ w : ℕ, w < (m.nBits - 1) / 32 → m.clearPadding.bitmap w = m.bitmap w := by
      intro w hw
      rw [clearPadding, updateWord, hlast]
      exact update_of_ne (by omega) _ _
    have hself : m.clearPadding.bitmap ((m.nBits - 1) / 32 : ℕ) =
        m.bitmap ((m.nBits - 1) / 32 : ℕ) &&& ~~~m.lastWordMask := by
      rw [clearPadding, updateWord, hlast]
      exact update_self ..
    rw [← hself]
    constructor
    · rintro ⟨hzero, hzeros⟩ w hw
      rcases lt_or_ge w ((m.nBits - 1) / 32) with hlt | hge
      · rw [hother w hlt]
        exact hzeros w hlt
      have heq : w = (m.nBits - 1) / 32 := by omega
      rw [heq]
      exact decide_eq_true hzero
    · intro hzeros
      refine ⟨of_decide_eq_true (hzeros _ (by omega)), fun w hw => ?_⟩
      rw [← hother w hw]
      exact hzeros w (by omega)
  have hbits : (∀ w < m.words, decide (m.clearPadding.bitmap w = 0) = true) ↔
      ∀ i < 32 * m.words, m.clearPadding.bit i = false := by
    refine words_eq_iff (m.clearPadding.bitmap ·) (fun _ => 0) fun w j hj => ?_
    rw [bit_word _ w hj]
    simp
  rw [Bool.eq_iff_iff, decide_eq_true_iff, hall, hbits, ← contents_clearPadding h,
    Finset.eq_empty_iff_forall_notMem]
  constructor
  · intro hnone i hi
    have hlt : i < 32 * m.words := h.lt_words (lt_of_mem_contents (m := m.clearPadding) hi)
    exact absurd ((hnone i hlt).symm.trans ((hclear.bit_iff hlt).mpr hi)) (by decide)
  · intro hnone i hi
    exact Bool.eq_false_of_not_eq_true fun hbit => hnone i ((hclear.bit_iff hi).mp hbit)

theorem bitsSet_spec (h : WellFormed m) (hc : m.Cleared) : m.bitsSet = m.contents.card := by
  have hsmall := h.small
  have hbytes : noBytesInMap m.nBits = (m.nBits + 7) / 8 := by
    rw [noBytesInMap, mod_eq_of_lt (by omega)]
  rw [bitsSet, hbytes, countBits_spec m _ (by omega), count_eq_card_filter_range]
  refine congrArg Finset.card (Finset.ext fun i => ?_)
  rw [Finset.mem_filter, Finset.mem_range, mem_contents]
  refine ⟨fun ⟨hi, hbit⟩ => ?_, fun ⟨hi, hbit⟩ => ⟨by omega, hbit⟩⟩
  have hlt : i < 32 * m.words := by
    rw [h.words_eq]
    omega
  exact mem_contents.mp ((hc.bit_iff hlt).mp hbit)

def leastBit (s : Finset ℕ) : ℕ := if h : s.Nonempty then s.min' h else myBitNone

theorem eq_leastBit {s : Finset ℕ} (hi : i ∈ s) (hmin : ∀ t < i, t ∉ s) : i = leastBit s := by
  rw [leastBit, dif_pos ⟨i, hi⟩]
  refine le_antisymm ?_ (s.min'_le i hi)
  by_contra hlt
  exact hmin _ (not_le.mp hlt) (s.min'_mem _)

theorem getFirstSet_spec (h : WellFormed m) (hc : m.Cleared) :
    m.getFirstSet = leastBit m.contents := by
  obtain ⟨hfound, hnone⟩ := firstWith_spec true m
  by_cases hempty : m.contents.Nonempty
  · obtain ⟨i, hi⟩ := hempty
    have hlt := h.lt_words (lt_of_mem_contents hi)
    obtain ⟨hfirst, hbit, hbefore⟩ := hfound ⟨i, hlt, (hc.bit_iff hlt).mpr hi⟩
    refine eq_leastBit ((hc.bit_iff hfirst).mp hbit) fun t ht hmem => ?_
    exact absurd ((hbefore t ht).symm.trans (mem_contents.mp hmem).2) (by decide)
  · rw [leastBit, dif_neg hempty]
    refine hnone fun i hi => Bool.eq_false_of_not_eq_true fun hbit => hempty ⟨i, ?_⟩
    exact (hc.bit_iff hi).mp hbit

theorem getFirst_spec (h : WellFormed m) (hf : m.Filled) :
    m.getFirst = leastBit (Finset.range m.nBits \ m.contents) := by
  obtain ⟨hfound, hnone⟩ := firstWith_spec false m
  have hmem : ∀ i < 32 * m.words,
      (m.bit i = false ↔ i ∈ Finset.range m.nBits \ m.contents) := fun i hi => by
    rw [hf.bit_iff hi, Finset.mem_sdiff, Finset.mem_range]
  by_cases hempty : (Finset.range m.nBits \ m.contents).Nonempty
  · obtain ⟨i, hi⟩ := hempty
    have hlt := h.lt_words (Finset.mem_range.mp (Finset.mem_sdiff.mp hi).1)
    obtain ⟨hfirst, hbit, hbefore⟩ := hfound ⟨i, hlt, (hmem i hlt).mpr hi⟩
    refine eq_leastBit ((hmem _ hfirst).mp hbit) fun t ht hmem' => ?_
    exact absurd ((hbefore t ht).symm.trans ((hmem t (ht.trans hfirst)).mpr hmem')) (by decide)
  · rw [leastBit, dif_neg hempty]
    refine hnone fun i hi => Bool.eq_true_of_not_eq_false fun hbit => hempty ⟨i, ?_⟩
    exact (hmem i hi).mp hbit

end

end MyBitmap

end LibSources
