import LibSources.BinaryTime

/-!
# `packfrm` and `unpackfrm` of `mysys/my_compress.c`

The allocations succeed. The blob has the length of the data and that of what is stored, but
nothing that says whether they were compressed.

* A `size_t` has `w` bits: `include/my_config.h` has 32.
* `compress` fails when its output does not fit the buffer, and leaves the size of the buffer in
  `complen`: `my_compress` then reports success with the plain data.

## Main results

* `unpackfrm_packfrm_iff`: the data that come back.
-/

namespace LibSources

open List

variable (w : ℕ) (codec : Codec) (data : List UInt8)

/-- The size of the buffer that `my_compress_alloc` gives to `compress`. -/
def compressBuffer (len : ℕ) : ℕ := (len * 120 % 2 ^ w / 100 + 12) % 2 ^ w

/-- What `my_compress` leaves in `packet`. It returns 1 when the data did not get shorter. -/
def packedData : Option (List UInt8) :=
  if data.length < 50 then some data
  else if compressBuffer w data.length < (codec.compress data).length then some data
  else if data.length ≤ (codec.compress data).length then none
  else some (codec.compress data)

def packfrm : Option (List UInt8) :=
  (packedData w codec data).map fun packed =>
    int4store 1 ++ (int4store data.length ++ (int4store packed.length ++ packed))

/-- The memory for the data is `fresh`. -/
def unpackfrm (fresh packData : ℕ → UInt8) : Option (List UInt8) :=
  let orglen := uint4korr packData 4
  let complen := uint4korr packData 8
  if uint4korr packData 0 ≠ 1 then none
  else
    (myUncompress codec (store fresh 0 (window packData 12 complen)) 0 complen orglen).map
      fun (data, orglen) => window data 0 orglen

variable {w codec} {packed : List UInt8}

theorem unpackfrm_eq {data : List UInt8} (hdata : data.length < 2 ^ 32)
    (hpacked : packed.length ≤ data.length) {packData : ℕ → UInt8} (h : BytesAt packData 0
      (int4store 1 ++ (int4store data.length ++ (int4store packed.length ++ packed))))
    (fresh : ℕ → UInt8) : unpackfrm codec fresh packData =
      if data.length = 0 then some packed else codec.uncompress packed data.length := by
  obtain ⟨hver, h⟩ := h.uint4korr
  obtain ⟨horg, h⟩ := h.uint4korr
  obtain ⟨hcomp, h⟩ := h.uint4korr
  rw [Nat.mod_eq_of_lt (by omega)] at horg hcomp
  change window packData 12 packed.length = packed at h
  have hself := window_store_self fresh 0 packed
  rw [unpackfrm, horg, hcomp, hver, if_neg (by decide), h, myUncompress]
  by_cases hzero : data.length = 0
  · rw [if_neg (not_not.mpr hzero), if_pos hzero]
    exact congrArg some hself
  rw [if_pos hzero, if_neg hzero, hself]
  cases codec.uncompress packed data.length with
  | none => rfl
  | some block => exact congrArg some (window_store_self _ 0 block)

/-- `unpackfrm` gives back what `packfrm` was given, unless it was not compressed: then the data
are stored as they are, and `unpackfrm` takes them for compressed ones. -/
theorem unpackfrm_packfrm_iff (w : ℕ) (codec : Codec)
    (hinvert : ∀ data, codec.uncompress (codec.compress data) data.length = some data)
    (hreject : ∀ data n block, codec.uncompress data n = some block → data = codec.compress block)
    (data blob : List UInt8) (hdata : data.length < 2 ^ 31)
    (hpack : packfrm w codec data = some blob)
    (fresh packData : ℕ → UInt8) (hblob : BytesAt packData 0 blob) :
    unpackfrm codec fresh packData = some data ↔ data = [] ∨ codec.compress data = data ∨
      50 ≤ data.length ∧ (codec.compress data).length ≤ compressBuffer w data.length := by
  have hplain : codec.uncompress data data.length = some data ↔ codec.compress data = data := by
    refine ⟨fun h => (hreject _ _ _ h).symm, fun h => ?_⟩
    have hsame := hinvert data
    rw [h] at hsame
    exact hsame
  obtain ⟨packed, hpacked, rfl⟩ := Option.map_eq_some_iff.mp hpack
  rw [packedData] at hpacked
  split_ifs at hpacked with hshort hfails hlong
  · obtain rfl := Option.some.inj hpacked
    rw [unpackfrm_eq (by omega) le_rfl hblob]
    by_cases hnil : data = []
    · rw [if_pos (length_eq_zero_iff.mpr hnil)]
      exact iff_of_true rfl (.inl hnil)
    rw [if_neg (mt length_eq_zero_iff.mp hnil), hplain, or_iff_right hnil,
      or_iff_left (by omega)]
  · obtain rfl := Option.some.inj hpacked
    have hnil : data ≠ [] := ne_nil_of_length_pos (by omega)
    rw [unpackfrm_eq (by omega) le_rfl hblob, if_neg (by omega), hplain, or_iff_right hnil,
      or_iff_left (by omega)]
  · obtain rfl := Option.some.inj hpacked
    rw [unpackfrm_eq (by omega) (by omega) hblob, if_neg (by omega), hinvert]
    exact iff_of_true rfl (.inr (.inr (by omega)))

/-- The codec that has a code of one byte for sixty bytes, and puts a zero in front of others. -/
def runCodec : Codec where
  compress data := if data = replicate 60 7 then [1] else 0 :: data
  uncompress data _ :=
    match data with
    | [1] => some (replicate 60 7)
    | 0 :: data => if data = replicate 60 7 then none else some data
    | _ => none

theorem runCodec_invert (data : List UInt8) :
    runCodec.uncompress (runCodec.compress data) data.length = some data := by
  by_cases h : data = replicate 60 7
  · rw [h]
    rfl
  · simp only [runCodec, if_neg h]

theorem runCodec_reject (data : List UInt8) (n : ℕ) (block : List UInt8)
    (h : runCodec.uncompress data n = some block) : data = runCodec.compress block := by
  simp only [runCodec] at h ⊢
  split at h
  · rw [← Option.some.inj h, if_pos rfl]
  · split_ifs at h with hrun
    rw [← Option.some.inj h, if_neg hrun]
  · cases h

theorem unpackfrm_packfrm_run :
    packfrm 32 runCodec (replicate 60 7) = some [1, 0, 0, 0, 60, 0, 0, 0, 1, 0, 0, 0, 1] ∧
      unpackfrm runCodec (fun _ => 0)
        (([1, 0, 0, 0, 60, 0, 0, 0, 1, 0, 0, 0, 1] : List UInt8).getD · 0) =
          some (replicate 60 7) :=
  ⟨by decide, (unpackfrm_packfrm_iff 32 runCodec runCodec_invert runCodec_reject
    (replicate 60 7) [1, 0, 0, 0, 60, 0, 0, 0, 1, 0, 0, 0, 1] (by decide) (by decide) _
    (([1, 0, 0, 0, 60, 0, 0, 0, 1, 0, 0, 0, 1] : List UInt8).getD · 0) rfl).mpr
      (.inr (.inr (by decide)))⟩

/-- A blob of one byte. -/
theorem unpackfrm_fails :
    packfrm 64 runCodec [7] = some [1, 0, 0, 0, 1, 0, 0, 0, 1, 0, 0, 0, 7] ∧
    unpackfrm runCodec (fun _ => 0)
      (([1, 0, 0, 0, 1, 0, 0, 0, 1, 0, 0, 0, 7] : List UInt8).getD · 0) = none := by
  decide

end LibSources
