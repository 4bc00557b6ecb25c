import LibSources.HashDelete

/-!
# Updating a Record of the Table

When the key of a stored record has changed, `my_hash_update` takes the record out of the chain of
its old key and links it at the position of its new key. The slot that becomes free on the way is
used again, so the size stays the same.
-/

namespace LibSources

open Finset Function Option

variable {R : Type}

theorem duplicateLoop_total [DecidableEq R] (hash : Hash R) (mem : R → List UInt8) (record : R)
    (key : List UInt8) (length : ℕ) {l : List ℕ} {i fuel : ℕ}
    (hseg : Segment (nextOf hash.array) (i :: l) none) (hlen : l.length ≤ hash.records)
    (hfuel : l.length < fuel) :
    ∃ res, duplicateLoop hash mem record key length fuel (some i) = some res := by
  induction fuel generalizing i l with
  | zero => omega
  | succ fuel ih =>
    rw [duplicateLoop]
    split
    · exact ⟨true, rfl⟩
    have hnext : (hash.array i).next = l.head? := by simpa [nextOf] using hseg.1
    obtain ⟨res, hres, hmem⟩ := myHashNextLoop_total hash mem key length
      (hash.records + 1) hseg.2 (by omega)
    rw [← hnext] at hres
    simp only [myHashNext, hres, bind_eq_bind, bind_some]
    cases res with
    | none => exact ⟨false, by cases fuel <;> rw [duplicateLoop]⟩
    | some j =>
      obtain ⟨l1, l2, rfl⟩ := List.append_of_mem (hmem j rfl)
      simp only [List.length_append, List.length_cons] at hlen hfuel
      exact ih ((segment_append _ _ _ _).mp hseg.2).2 (by omega) (by omega)

variable {stored : Multiset R} {mem mem' : R → List UInt8} {hash : Hash R} {record : R}

/-- The duplicate test of an update ends on every valid table, whatever has happened to
the memory since the table was built. -/
theorem HashInv.updateDuplicate_total [DecidableEq R] (I : HashInv hash mem stored)
    (mem' : R → List UInt8) (record : R) : ∃ res, updateDuplicate hash mem' record = some res := by
  obtain ⟨found, hfound, hlt⟩ := I.myHashFirst_total mem' (myHashKey hash mem' record true).1
    (myHashKey hash mem' record true).2
  simp only [updateDuplicate, hfound, bind_eq_bind, bind_some]
  split
  · cases found with
    | none => exact ⟨false, by rw [duplicateLoop]⟩
    | some i =>
      obtain ⟨l, hseg, hlen, -⟩ := I.chained.exists_walk_lt (hlt i rfl)
      exact duplicateLoop_total hash mem' record _ _ hseg (by omega) (by omega)
  · exact ⟨false, rfl⟩

theorem relinkAt_spec (hash : Hash R) (mem : R → List UInt8) {data : ℕ → HashLink R}
    (orgLink : HashLink R) (idx : ℕ) {empty newIndex : ℕ} (hempty : empty < hash.records)
    (hnew : newIndex < hash.records)
    (hpos : myHashMask (recHashnr hash mem orgLink.data) hash.blength hash.records = newIndex)
    (hidx : empty = idx → (data empty).data = orgLink.data)
    (C : Chained (recHashnr hash mem) hash.blength hash.records
      (fun i => i < hash.records ∧ i ≠ empty) data) :
    ∃ array, relinkAt hash mem data orgLink idx empty newIndex = some array ∧
      Chained (recHashnr hash mem) hash.blength hash.records (· < hash.records) array ∧
      contents (range hash.records) array =
        orgLink.data ::ₘ contents ((range hash.records).erase empty) data := by
  set n := hash.records
  set b := hash.blength
  set hf := recHashnr hash mem
  by_cases hne : newIndex = empty
  · -- the free slot is the new position
    obtain ⟨array, harray, hat, hout⟩ : ∃ array : ℕ → HashLink R,
        relinkAt hash mem data orgLink idx empty newIndex = some array ∧
        array empty = ⟨none, orgLink.data⟩ ∧ ∀ i, i ≠ empty → array i = data i := by
      rw [relinkAt, if_pos hne]
      refine ⟨_, rfl, ?_, ?_⟩
      · rw [update_self]
        split
        · rw [update_self]
        · exact congrArg (HashLink.mk none) (hidx (not_not.mp ‹_›))
      intro i hi
      rw [update_of_ne hi]
      split
      · exact update_of_ne hi _ _
      · rfl
    refine ⟨array, harray, ?_, ?_⟩
    · refine C.insertOnly (h := empty) orgLink.data (fun h => h.2 rfl) (hpos.trans hne) (by intro i; omega)
        ?_ hat
      rintro i ⟨-, hi⟩
      exact hout i hi
    · rw [contents_replace data (mem_range.mpr hempty), hat]
      intro i _ hi
      rw [hout i hi]
  have hslot : newIndex < n ∧ newIndex ≠ empty := ⟨hnew, hne⟩
  by_cases hhome : homeOf hf b n data newIndex = newIndex
  · -- link in the chain at the right position
    set data1 := update data empty { orgLink with next := (data newIndex).next } with hdata1
    refine ⟨update data1 newIndex { data1 newIndex with next := some empty }, ?_, ?_, ?_⟩
    · rw [relinkAt, if_neg hne]
      exact if_neg (not_not.mpr hhome.symm)
    · obtain ⟨chain, F⟩ := C
      obtain ⟨r, hr⟩ := F.chain_eq_cons hslot hhome
      refine ⟨_, F.insertSecond (e := empty) (fun h => h.2 rfl) hr (by intro i; omega)
        ?_ ?_ ?_ ?_ ?_⟩
      · rintro i ⟨-, hi⟩
        rw [homeOf, update_next_data, hdata1, update_of_ne hi, homeOf]
      · rw [homeOf, update_next_data, hdata1, update_self]
        exact hpos
      · rintro i ⟨-, hi⟩ hin
        rw [nextOf, update_of_ne hin, hdata1, update_of_ne hi, nextOf]
      · rw [nextOf, update_self]
      · rw [nextOf, update_of_ne (Ne.symm hne), hdata1, update_self, nextOf]
    · rw [contents_replace data (s := empty) (mem_range.mpr hempty),
        update_next_data, hdata1, update_self]
      intro i _ hi
      rw [update_next_data, hdata1, update_of_ne hi]
  -- another record is in the wrong position there
  obtain ⟨a, ⟨-, hae⟩, han, -, hmove, C'⟩ := C.relocate (m := n + 1)
    (fun i => i < n ∧ i ≠ newIndex) (update data empty (data newIndex)) hslot (e := empty)
    (fun h => h.2 rfl) hhome (fun i hi => by omega) (by intro i; omega)
    (by
      rintro i ⟨-, hi⟩ -
      exact update_of_ne hi _ _)
  set data2 := update (update data empty (data newIndex)) a
    { data a with next := some empty } with hdata2
  refine ⟨update data2 newIndex { orgLink with next := none }, ?_, ?_, ?_⟩
  · rw [relinkAt, if_neg hne]
    refine (if_pos (Ne.symm hhome)).trans ?_
    exact congrArg (Option.bind · _) hmove
  · refine C'.insertOnly (h := newIndex) orgLink.data (fun h => h.2 rfl) hpos
      (by intro i; omega) ?_ (update_self _ _ _)
    rintro i ⟨-, hi⟩
    exact update_of_ne hi _ _
  rw [contents_move data (s := newIndex) (mem_range.mpr hnew)
    (mem_range.mpr hempty) hne, update_self]
  · rw [update_of_ne (Ne.symm hne), hdata2, update_of_ne hae.symm, update_self]
  intro i _ hin hie
  rw [update_of_ne hin, hdata2]
  by_cases hia : i = a
  · rw [hia, update_self]
  · rw [update_of_ne hia, update_of_ne hie]

theorem recHashnr_congr (hash : Hash R) (h : mem' record = mem record) :
    recHashnr hash mem' record = recHashnr hash mem record := by
  have hkey : myHashKey hash mem' record false = myHashKey hash mem record false := by
    rw [myHashKey, h, myHashKey]
  rw [recHashnr, hkey, recHashnr]

/-- `my_hash_update` on a nonempty valid table, for a record stored at most once whose
memory has just changed. It fails and changes nothing, or it leaves a table with the same
records that is valid for the changed memory. -/
theorem HashInv.myHashUpdate [DecidableEq R] (I : HashInv hash mem stored)
    (hmem : ∀ r, r ≠ record → mem' r = mem r) (hcount : stored.count record ≤ 1)
    (hn : 0 < hash.records) {oldKey : List UInt8} {oldKeyLength : ℕ}
    (hold : calcHash hash oldKey (if oldKeyLength ≠ 0 then oldKeyLength else hash.keyLength) =
      recHashnr hash mem record) :
    myHashUpdate hash mem' record oldKey oldKeyLength = some (hash, true) ∨
    ∃ hash', myHashUpdate hash mem' record oldKey oldKeyLength = some (hash', false) ∧
      HashInv hash' mem' stored := by
  obtain ⟨dup, hdup⟩ := I.updateDuplicate_total mem' record
  unfold LibSources.myHashUpdate
  simp only [hdup, hold, bind_eq_bind, bind_some]
  cases dup with
  | true => exact .inl rfl
  | false =>
    rw [if_neg Bool.false_ne_true]
    set idx := myHashMask (recHashnr hash mem record) hash.blength hash.records with hidx
    set newIndex := myHashMask (recHashnr hash mem' record) hash.blength hash.records with hnewIndex
    have hlt : idx < hash.records := myHashMask_lt I.length hn _
    have hlt' : newIndex < hash.records := myHashMask_lt I.length hn _
    by_cases hsame : idx = newIndex
    · -- the position is still right
      rw [if_pos hsame]
      refine .inr ⟨hash, rfl, I.length, I.elements_eq, ?_, I.stored_eq⟩
      obtain ⟨chain, F⟩ := I.chained
      refine ⟨chain, F.congr (fun _ => Iff.rfl) (fun i _ => ?_) fun _ _ => rfl⟩
      by_cases hrec : (hash.array i).data = record
      · rw [homeOf, homeOf, hrec]
        exact hsame.symm
      · rw [homeOf, recHashnr_congr hash (hmem _ hrec), homeOf]
    rw [if_neg hsame]
    rcases I.chained.findRecord hidx.symm hlt with
      ⟨chain, ls, p, r, F, hc, hp, hfind⟩ | ⟨-, hfind⟩
    · obtain ⟨data, empty, hunlink, hempty, C, hcont, hkeep⟩ := F.unlink hc
      -- the record is stored nowhere else, so no other position has changed
      have hnone : record ∉ contents ((range hash.records).erase empty) data := by
        rw [← I.stored_eq, hcont, hp, Multiset.count_cons_self] at hcount
        exact Multiset.count_eq_zero.mp (by omega)
      have C' : Chained (recHashnr hash mem') hash.blength hash.records
          (fun i => i < hash.records ∧ i ≠ empty) data := by
        obtain ⟨chain, F⟩ := C
        refine ⟨chain, F.congr (fun _ => Iff.rfl) (fun i hi => ?_) fun _ _ => rfl⟩
        have hrec : (data i).data ≠ record := by
          rintro hrec
          refine hnone (mem_contents.mpr ⟨i, mem_erase.mpr ⟨hi.2, ?_⟩, hrec⟩)
          exact mem_range.mpr hi.1
        rw [homeOf, recHashnr_congr hash (hmem _ hrec), homeOf]
      obtain ⟨array, hlink, C'', hcont'⟩ := relinkAt_spec hash mem' (hash.array p)
        p hempty hlt' (by rw [hp]) (fun h => by rw [h, hkeep h]) C'
      refine .inr ⟨{ hash with array := array }, ?_, I.length, I.elements_eq, C'', ?_⟩
      · simp only [hfind, hunlink, hlink, bind_some]
        rfl
      · rw [← I.stored_eq, hcont]
        exact hcont'
    · refine .inl ?_
      simp only [hfind, bind_some]
      rfl

end LibSources
