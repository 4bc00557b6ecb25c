import LibSources.HashSplit

/-!
# Insertion Into the Table

After the split one slot is free. `my_hash_insert` puts the record into it when that is its place,
before its chain otherwise, and where a record of another chain occupies the place, that
record moves to the free slot first.
-/

namespace LibSources

open Finset Function Option

variable {R : Type}

/-- Putting the record into its place, with slot `empty` free. -/
theorem insertAt_spec (info : Hash R) (mem : R → List UInt8) (record : R)
    {data : ℕ → HashLink R} {empty : ℕ} (hlen : LengthOk info.records info.blength)
    (hempty : empty < info.records + 1)
    (C : Chained (recHashnr info mem) info.blength (info.records + 1)
      (fun i => i < info.records + 1 ∧ i ≠ empty) data) :
    ∃ array, insertAt info mem record data empty = some array ∧
      Chained (recHashnr info mem) info.blength (info.records + 1) (· < info.records + 1) array ∧
      contents (range (info.records + 1)) array =
        record ::ₘ contents ((range (info.records + 1)).erase empty) data := by
  set n := info.records
  set b := info.blength
  set hf := recHashnr info mem
  set pos := myHashMask (hf record) b (n + 1) with hpos
  have hposlt : pos < n + 1 := by
    rw [hpos, ← myHashMask_growLength hlen]
    exact myHashMask_lt hlen.grow (Nat.succ_pos n) _
  by_cases hpe : pos = empty
  · -- the free slot is the place of the record
    refine ⟨update data pos ⟨none, record⟩, ?_, ?_, ?_⟩
    · rw [insertAt, if_pos hpe]
    · refine C.insertOnly (h := pos) record (fun h => h.2 hpe) hpos.symm (by intro i; omega) ?_
        (update_self _ _ _)
      rintro i ⟨-, hi⟩
      exact update_of_ne (fun h => hi (h.trans hpe)) _ _
    · rw [contents_replace (s := pos) data (mem_range.mpr hposlt), update_self, hpe]
      intro i _ hi
      rw [update_of_ne hi]
  have hd1 : update data empty (data pos) pos = data pos := update_of_ne hpe _ _
  have hslot : pos < n + 1 ∧ pos ≠ empty := ⟨hposlt, hpe⟩
  by_cases hg : homeOf hf b (n + 1) data pos = pos
  · -- the occupant moves to the free slot and becomes second in the chain
    refine ⟨update (update data empty (data pos)) pos ⟨some empty, record⟩, ?_, ?_, ?_⟩
    · rw [insertAt, if_neg hpe]
      rw [if_pos]
      exact hg.symm.trans (congrArg (fun d => myHashRecMask info mem d b (n + 1)) hd1.symm)
    · obtain ⟨chain, F⟩ := C
      obtain ⟨r, hr⟩ := F.chain_eq_cons hslot hg
      refine ⟨_, F.insertSecond (e := empty) (fun h => h.2 rfl) hr ?_ ?_ ?_ ?_ ?_ ?_⟩
      · intro i
        omega
      · rintro i ⟨-, hi⟩
        unfold homeOf
        by_cases hip : i = pos
        · rw [hip, update_self]
          exact hg.symm
        · rw [update_of_ne hip, update_of_ne hi]
      · unfold homeOf
        rw [update_of_ne (Ne.symm hpe), update_self]
        exact hg
      · rintro i ⟨-, hi⟩ hip
        unfold nextOf
        rw [update_of_ne hip, update_of_ne hi]
      · unfold nextOf
        rw [update_self]
      · unfold nextOf
        rw [update_of_ne (Ne.symm hpe), update_self]
    · rw [contents_move data (mem_range.mpr hposlt) (mem_range.mpr hempty) hpe, update_self]
      · rw [update_of_ne (Ne.symm hpe), update_self]
      · intro i _ hi hie
        rw [update_of_ne hi, update_of_ne hie]
  -- the occupant belongs elsewhere: it moves to the free slot within its own chain
  set data2 := update (update data empty (data pos)) pos (⟨none, record⟩ : HashLink R) with hdata2
  obtain ⟨a, ⟨-, hae⟩, hap, -, hmove, C'⟩ := C.relocate (m := n + 1)
    (fun i => i < n + 1 ∧ i ≠ pos) data2 hslot (e := empty)
    (fun h => h.2 rfl) hg (fun i hi => hi.1) (by intro i; omega)
    (by
      rintro i ⟨-, hi⟩ hip
      rw [hdata2, update_of_ne hip, update_of_ne hi])
  refine ⟨update data2 a { data a with next := some empty }, ?_, ?_, ?_⟩
  · rw [insertAt, if_neg hpe]
    dsimp only
    rw [if_neg]
    · rw [← hmove]
      exact congrArg (fun d => movelink (some pos) (some empty) (n + 1) data2
        (myHashRecMask info mem d b (n + 1))) hd1
    · intro h
      exact hg (h.trans (congrArg (fun d => myHashRecMask info mem d b (n + 1)) hd1)).symm
  · refine C'.insertOnly (h := pos) record (fun h => h.2 rfl) hpos.symm (by intro i; omega) ?_ ?_
    · rintro i ⟨-, hi⟩
      by_cases hia : i = a
      · rw [hia, update_self, update_self]
      · rw [update_of_ne hia, update_of_ne hia, hdata2, update_of_ne hi]
    · rw [update_of_ne (Ne.symm hap), hdata2, update_self]
  · rw [contents_move data (mem_range.mpr hposlt)
      (mem_range.mpr hempty) hpe, update_of_ne (Ne.symm hap), hdata2,
      update_self]
    · rw [update_of_ne (Ne.symm hae), hdata2, update_of_ne (Ne.symm hpe), update_self]
    intro i _ hi hie
    by_cases hia : i = a
    · rw [hia, update_self]
    · rw [update_of_ne hia, hdata2, update_of_ne hi, update_of_ne hie]

structure HashInv (hash : Hash R) (mem : R → List UInt8) (stored : Multiset R) : Prop where
  length : LengthOk hash.records hash.blength
  elements_eq : hash.elements = hash.records
  chained : Chained (recHashnr hash mem) hash.blength hash.records (· < hash.records) hash.array
  stored_eq : contents (range hash.records) hash.array = stored

theorem hashInv_myHashInit (keyOffset keyLength : ℕ) (unique : Bool)
    (getKey : Option (List UInt8 → Bool → List UInt8 × ℕ)) (charset : Collation)
    (array : ℕ → HashLink R) (mem : R → List UInt8) :
    HashInv (myHashInit keyOffset keyLength unique getKey charset array) mem 0 where
  length := lengthOk_zero
  elements_eq := rfl
  chained := by
    refine ⟨fun _ => [], fun _ => trivial, fun _ => List.nodup_nil, fun h i => ?_, ?_⟩
    · simp [myHashInit]
    · intro h i l hl
      exact absurd hl.symm (List.cons_ne_nil i l)
  stored_eq := rfl

/-- The search for the first record with a key ends at a slot in use, if at any. The
memory may have changed since the table was built. -/
theorem HashInv.myHashFirst_total {hash : Hash R} {mem : R → List UInt8} {stored : Multiset R}
    (I : HashInv hash mem stored) (mem' : R → List UInt8) (key : List UInt8) (length : ℕ) :
    ∃ res, myHashFirst hash mem' key length = some res ∧ ∀ j, res = some j → j < hash.records := by
  unfold myHashFirst
  split
  · exact ⟨none, rfl, by simp⟩
  rename_i hn
  have hlt := myHashMask_lt I.length (pos_of_ne_zero hn)
    (calcHash hash key (if length ≠ 0 then length else hash.keyLength))
  obtain ⟨l, hseg, hl, hmem⟩ := I.chained.exists_walk_lt hlt
  obtain ⟨res, hres, hin⟩ := myHashFirstLoop_total hash mem' key length (hash.records + 1) true hseg
    (Nat.lt_succ_of_lt hl)
  exact ⟨res, hres, fun j hj => (hmem j (hin j hj)).1⟩

/-- `my_hash_insert` returns on every valid table. It reports a duplicate and changes
nothing, or it adds the record. -/
theorem HashInv.myHashInsert {hash : Hash R} {mem : R → List UInt8} {stored : Multiset R}
    (I : HashInv hash mem stored) (record : R) :
    myHashInsert hash mem record = some (hash, true) ∨
    ∃ hash', myHashInsert hash mem record = some (hash', false) ∧
      HashInv hash' mem (record ::ₘ stored) := by
  obtain ⟨dup, hdup⟩ : ∃ dup, insertDuplicate hash mem record = some dup := by
    obtain ⟨res, hres, -⟩ := I.myHashFirst_total mem (myHashKey hash mem record true).1
      (myHashKey hash mem record true).2
    simp only [insertDuplicate, hres]
    split
    · exact ⟨res.isSome, rfl⟩
    · exact ⟨false, rfl⟩
  unfold LibSources.myHashInsert
  simp only [hdup, bind_eq_bind, bind_some]
  cases dup with
  | true => exact .inl rfl
  | false =>
    obtain ⟨data, empty, hsplit, hempty, C, hcont⟩ :=
      splitChain_spec hash mem record I.length I.elements_eq I.chained
    obtain ⟨array, hins, C', hcont'⟩ := insertAt_spec hash mem record I.length hempty C
    refine .inr ⟨_, by simp only [hsplit, hins, bind_some]; rfl, ?_⟩
    exact {
      length := I.length.grow
      elements_eq := congrArg (· + 1) I.elements_eq
      chained := by
        obtain ⟨chain, F⟩ := C'
        refine ⟨chain, F.congr (fun _ => Iff.rfl) (fun i _ => ?_) (fun _ _ => rfl)⟩
        exact myHashMask_growLength I.length _
      stored_eq := by
        rw [← I.stored_eq, ← hcont]
        exact hcont' }

end LibSources
