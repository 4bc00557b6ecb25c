import LibSources.HashRun

/-!
# Lookups and Unique Keys

The records with a key are found by `my_hash_first` and then `my_hash_next` until it returns 0.
Both compare keys along one chain, so they rely on the chains of `HashInv` and on a collation that
hashes equal keys equally.

## Main results

* `HashState.run_lookup`: lookups find the records of a key.
* `HashState.run_unique`: unique keys stay unique.
-/

namespace LibSources

open Prod Function List Option

variable {R : Type} {hash : Hash R} {mem : R → List UInt8} {record : R} {stored : Multiset R}

/-- Calls of `my_hash_next` until it returns 0, from the slot found last. -/
def lookupNext (hash : Hash R) (mem : R → List UInt8) (key : List UInt8) (length : ℕ) :
    ℕ → Option ℕ → Option (List ℕ)
  | _, none => some []
  | 0, some _ => none
  | fuel + 1, some idx => do
      let next ← myHashNext hash mem key length (some idx)
      let slots ← lookupNext hash mem key length fuel next
      pure (idx :: slots)

section

variable (hash : Hash R) (mem : R → List UInt8) (key : List UInt8) (length : ℕ)

/-- `my_hash_first`, followed by `my_hash_next` until it returns 0: the slots found. -/
def myHashLookup : Option (List ℕ) := do
  let found ← myHashFirst hash mem key length
  lookupNext hash mem key length (hash.records + 1) found

def HasKey (record : R) : Prop :=
  (myHashKey hash mem record true).2 = length ∧
    hash.charset.strnncoll ((myHashKey hash mem record true).1.take length) (key.take length) = 0

end

instance (hash : Hash R) (mem : R → List UInt8) (key : List UInt8) (length : ℕ) :
    DecidablePred (HasKey hash mem key length) := fun _ =>
  inferInstanceAs (Decidable (_ ∧ _))

/-- Keys that compare equal hash equally, and the key function gives a record one key. -/
structure KeysAgree (charset : Collation)
    (getKey : Option (List UInt8 → Bool → List UInt8 × ℕ)) : Prop where
  hash_eq : ∀ a b, charset.strnncoll a b = 0 → charset.hashSort a = charset.hashSort b
  first_eq : ∀ f ∈ getKey, ∀ m, f m true = f m false

/-! ### Keys -/

theorem KeysAgree.myHashKey_eq (A : KeysAgree hash.charset hash.getKey) (mem : R → List UInt8)
    (record : R) : myHashKey hash mem record true = myHashKey hash mem record false := by
  rw [myHashKey, myHashKey]
  cases hf : hash.getKey with
  | none => rfl
  | some f => exact A.first_eq f hf _

theorem HasKey.recHashnr_eq {key : List UInt8} {length : ℕ}
    (h : HasKey hash mem key length record) (A : KeysAgree hash.charset hash.getKey) :
    recHashnr hash mem record = calcHash hash key length := by
  obtain ⟨hlen, hcmp⟩ := h
  rw [recHashnr]
  dsimp only
  rw [← A.myHashKey_eq, hlen, calcHash, A.hash_eq _ _ hcmp, calcHash]

variable {pos : HashLink R} {mem' : R → List UInt8} {fuel i : ℕ} {l : List ℕ} {r : R}
  {hash' : Hash R} {error : Bool} {oldKey : List UInt8} {s' s : HashState R} {op : HashOp R}
  {ops : List (HashOp R)}

section

variable {key : List UInt8} {length : ℕ}

theorem HasKey.hashcmp_eq
    (h : HasKey hash mem key length pos.data) : hashcmp hash mem pos key length = false := by
  obtain ⟨hlen, hcmp⟩ := h
  rw [hashcmp]
  dsimp only
  rw [hlen, hcmp]
  simp

theorem hashcmp_eq_false_iff (hlen : length ≠ 0 ∨ hash.getKey = none) (pos : HashLink R) :
    hashcmp hash mem pos key length = false ↔
      HasKey hash mem key (if length ≠ 0 then length else hash.keyLength) pos.data := by
  rw [hashcmp, HasKey]
  dsimp only
  by_cases h0 : length = 0
  · have hkey : (myHashKey hash mem pos.data true).2 = hash.keyLength := by
      rw [myHashKey, hlen.resolve_left (not_not.mpr h0)]
    rw [if_neg (not_not.mpr h0), hkey, h0]
    simp
  rw [if_pos h0]
  by_cases heq : (myHashKey hash mem pos.data true).2 = length
  · rw [heq]
    simp
  · have hne : length ≠ (myHashKey hash mem pos.data true).2 := fun h => heq h.symm
    simp [h0, heq, hne]

end

theorem hashcmp_congr (hash : Hash R) {mem : R → List UInt8} (h : mem' pos.data = mem pos.data)
    (key : List UInt8) (length : ℕ) :
    hashcmp hash mem' pos key length = hashcmp hash mem pos key length := by
  have hkey : myHashKey hash mem' pos.data true = myHashKey hash mem pos.data true := by
    rw [myHashKey, h, myHashKey]
  rw [hashcmp, hkey, hashcmp]

/-! ### The searches on linked slots -/

section Search

variable (hash : Hash R) (mem : R → List UInt8) (key : List UInt8) (length : ℕ)

def slotMatches (i : ℕ) : Bool := !hashcmp hash mem (hash.array i) key length

theorem slotMatches_iff (i : ℕ) :
    slotMatches hash mem key length i = true ↔
      hashcmp hash mem (hash.array i) key length = false := by
  rw [slotMatches, Bool.not_eq_true']

variable {hash mem key length} in
theorem slotMatches_eq_false {i : ℕ} (h : ¬ hashcmp hash mem (hash.array i) key length = false) :
    slotMatches hash mem key length i = false := by
  rw [slotMatches]
  simpa using h

theorem myHashNextLoop_eq (hseg : Segment (nextOf hash.array) l none) (hfuel : l.length ≤ fuel) :
    myHashNextLoop hash mem key length fuel l.head? =
      some (l.find? (slotMatches hash mem key length)) := by
  induction l generalizing fuel with
  | nil => rw [head?_nil, myHashNextLoop, find?_nil]
  | cons i l ih =>
    rw [length_cons] at hfuel
    obtain ⟨fuel, rfl⟩ : ∃ f, fuel = f + 1 := ⟨fuel - 1, by omega⟩
    have hnext : (hash.array i).next = l.head? := by simpa [nextOf] using hseg.1
    rw [head?_cons, myHashNextLoop, hnext, find?_cons]
    by_cases hcmp : hashcmp hash mem (hash.array i) key length = false
    · rw [if_pos hcmp, (slotMatches_iff hash mem key length i).mpr hcmp]
    · rw [if_neg hcmp, slotMatches_eq_false hcmp, ih hseg.2 (by omega)]

theorem myHashFirstLoop_eq {flag : Bool} (hseg : Segment (nextOf hash.array) (i :: l) none)
    (hflag : flag = true → slotMatches hash mem key length i = false →
      myHashRecMask hash mem (hash.array i) hash.blength hash.records = i)
    (hfuel : l.length < fuel) :
    myHashFirstLoop hash mem key length fuel flag i =
      some ((i :: l).find? (slotMatches hash mem key length)) := by
  induction l generalizing i fuel flag with
  | nil =>
    obtain ⟨fuel, rfl⟩ : ∃ f, fuel = f + 1 := ⟨fuel - 1, by omega⟩
    have hnext : (hash.array i).next = none := by simpa [nextOf] using hseg
    rw [myHashFirstLoop, hnext, find?_cons, find?_nil]
    by_cases hcmp : hashcmp hash mem (hash.array i) key length = false
    · rw [if_pos hcmp, (slotMatches_iff hash mem key length i).mpr hcmp]
    · rw [if_neg hcmp, slotMatches_eq_false hcmp]
      exact ite_self _
  | cons j l ih =>
    rw [length_cons] at hfuel
    obtain ⟨fuel, rfl⟩ : ∃ f, fuel = f + 1 := ⟨fuel - 1, by omega⟩
    have hnext : (hash.array i).next = some j := by simpa [nextOf] using hseg.1
    rw [myHashFirstLoop, hnext, find?_cons]
    by_cases hcmp : hashcmp hash mem (hash.array i) key length = false
    · rw [if_pos hcmp, (slotMatches_iff hash mem key length i).mpr hcmp]
    have hfalse := slotMatches_eq_false hcmp
    have hgo : ¬ (flag && myHashRecMask hash mem (hash.array i) hash.blength hash.records
        != i) = true := by
      cases flag with
      | false => simp
      | true => simpa using hflag rfl hfalse
    rw [if_neg hcmp, if_neg hgo, hfalse]
    exact ih hseg.2 (fun h => absurd h Bool.false_ne_true) (by omega)

theorem lookupNext_eq (hseg : Segment (nextOf hash.array) l none)
    (hlen : l.length ≤ hash.records + 1) (hfuel : l.length ≤ fuel) :
    lookupNext hash mem key length fuel (l.find? (slotMatches hash mem key length)) =
      some (l.filter (slotMatches hash mem key length)) := by
  induction fuel generalizing l with
  | zero =>
    obtain rfl : l = [] := length_eq_zero_iff.mp (by omega)
    rfl
  | succ fuel ih =>
    cases hfind : l.find? (slotMatches hash mem key length) with
    | none => rw [lookupNext, filter_eq_nil_iff.mpr (find?_eq_none.mp hfind)]
    | some i =>
      obtain ⟨hi, l1, l2, rfl, hno⟩ := List.find?_eq_some_iff_append.mp hfind
      have hseg2 := ((segment_append _ _ _ _).mp hseg).2
      have hnext : (hash.array i).next = l2.head? := by simpa [nextOf] using hseg2.1
      have hl1 : l1.filter (slotMatches hash mem key length) = [] :=
        filter_eq_nil_iff.mpr fun x hx => by simpa using hno x hx
      rw [length_append, length_cons] at hlen hfuel
      rw [lookupNext, myHashNext, hnext,
        myHashNextLoop_eq hash mem key length hseg2.2 (by omega), bind_eq_bind,
        bind_some, ih hseg2.2 (by omega) (by omega), filter_append, hl1,
        filter_cons_of_pos hi]
      rfl

theorem duplicateLoop_eq [DecidableEq R] (record : R) (hseg : Segment (nextOf hash.array) l none)
    (hlen : l.length ≤ hash.records + 1) (hfuel : l.length ≤ fuel) :
    duplicateLoop hash mem record key length fuel (l.find? (slotMatches hash mem key length)) =
      some (decide (∃ i ∈ l, slotMatches hash mem key length i = true ∧
        (hash.array i).data ≠ record)) := by
  induction fuel generalizing l with
  | zero =>
    obtain rfl : l = [] := length_eq_zero_iff.mp (by omega)
    rw [find?_nil, duplicateLoop]
    simp
  | succ fuel ih =>
    cases hfind : l.find? (slotMatches hash mem key length) with
    | none =>
      have hno := find?_eq_none.mp hfind
      rw [duplicateLoop, decide_eq_false]
      rintro ⟨i, hi, hmatch, -⟩
      exact hno i hi hmatch
    | some i =>
      obtain ⟨hi, l1, l2, rfl, hno⟩ := List.find?_eq_some_iff_append.mp hfind
      have hseg2 := ((segment_append _ _ _ _).mp hseg).2
      have hnext : (hash.array i).next = l2.head? := by simpa [nextOf] using hseg2.1
      rw [length_append, length_cons] at hlen hfuel
      rw [duplicateLoop]
      by_cases hrec : (hash.array i).data = record
      · rw [if_neg (not_not.mpr hrec), myHashNext, hnext,
          myHashNextLoop_eq hash mem key length hseg2.2 (by omega), bind_eq_bind,
          bind_some, ih hseg2.2 (by omega) (by omega)]
        congr 1
        rw [decide_eq_decide]
        constructor
        · rintro ⟨j, hj, hrest⟩
          exact ⟨j, mem_append_right l1 (mem_cons_of_mem i hj), hrest⟩
        rintro ⟨j, hj, hmatch, hne⟩
        rcases mem_append.mp hj with hj | hj
        · have := hno j hj
          rw [hmatch] at this
          exact absurd this (by decide)
        rcases mem_cons.mp hj with rfl | hj
        · exact absurd hrec hne
        · exact ⟨j, hj, hmatch, hne⟩
      · rw [if_pos hrec, decide_eq_true]
        exact ⟨i, mem_append_right l1 mem_cons_self, hi, hrec⟩

end Search

/-! ### Lookups in a valid table -/

/-- The slots that a search walks: they hold every record of `P`, whose position is that of
the key, and the search finds the first slot that matches. The memory may differ from the one
of the table at records that are `changed` to the position of the key. -/
theorem HashInv.exists_search (I : HashInv hash mem stored) (mem' : R → List UInt8)
    (key : List UInt8) (length : ℕ) (changed P : R → Prop)
    (hmem : ∀ r, ¬ changed r → mem' r = mem r)
    (hhash : ∀ r, changed r ∨ P r → recHashnr hash mem' r =
      calcHash hash key (if length ≠ 0 then length else hash.keyLength)) :
    ∃ l : List ℕ, l.length ≤ hash.records + 1 ∧ l.Nodup ∧ (∀ i ∈ l, i < hash.records) ∧
      Segment (nextOf hash.array) l none ∧
      myHashFirst hash mem' key length = some (l.find? (slotMatches hash mem' key length)) ∧
      ∀ i < hash.records, ¬ changed (hash.array i).data → P (hash.array i).data → i ∈ l := by
  rw [myHashFirst]
  by_cases hn : hash.records = 0
  · rw [if_pos hn]
    exact ⟨[], Nat.zero_le _, nodup_nil, nofun, trivial, rfl, fun i hi => by omega⟩
  rw [if_neg hn]
  set idx := myHashMask (calcHash hash key (if length ≠ 0 then length else hash.keyLength))
    hash.blength hash.records with hidx
  have hlt : idx < hash.records := myHashMask_lt I.length (pos_of_ne_zero hn) _
  obtain ⟨l, hseg, hnd, hl⟩ := I.chained.exists_walk hlt
  have hlen : (idx :: l).length ≤ hash.records := length_le_of_nodup_lt hnd fun x hx => (hl x hx).1
  rw [length_cons] at hlen
  obtain ⟨chain, F⟩ := I.chained
  have hchain : ∀ i < hash.records, ¬ changed (hash.array i).data → P (hash.array i).data →
      i ∈ chain idx := by
    intro i hi hkeep hP
    have hrec := hhash _ (.inr hP)
    rw [recHashnr_congr hash (hmem _ hkeep)] at hrec
    exact (F.mem_iff idx i).mpr ⟨hi, by rw [homeOf, hrec]⟩
  by_cases hown : homeOf (recHashnr hash mem) hash.blength hash.records hash.array idx = idx ∨
      changed (hash.array idx).data ∨ slotMatches hash mem' key length idx = true
  · refine ⟨idx :: l, by rw [length_cons]; omega, hnd, fun i hi => (hl i hi).1, hseg,
      myHashFirstLoop_eq hash mem' key length hseg (fun _ hfalse => ?_) (by omega), ?_⟩
    · rw [myHashRecMask]
      by_cases hch : changed (hash.array idx).data
      · rw [hhash _ (.inl hch)]
      · rw [recHashnr_congr hash (hmem _ hch)]
        exact hown.resolve_right fun h => h.elim hch fun h => by simp [h] at hfalse
    intro i hi hkeep hP
    have hmemc := hchain i hi hkeep hP
    by_cases hh : homeOf (recHashnr hash mem) hash.blength hash.records hash.array idx = idx
    · obtain ⟨l', hl'⟩ := F.chain_eq_cons hlt hh
      have hseg' := F.seg idx
      rw [hl'] at hmemc hseg'
      rwa [hseg.unique hseg']
    · rw [F.chain_eq_nil fun h => hh h.2] at hmemc
      exact absurd hmemc not_mem_nil
  · -- the slot is occupied by a record of another chain
    obtain ⟨hne, hch, hmatch⟩ := not_or.mp hown |>.imp_right not_or.mp
    refine ⟨[], Nat.zero_le _, nodup_nil, nofun, trivial, ?_, fun i hi hkeep hP => ?_⟩
    · have hcmp : ¬ hashcmp hash mem' (hash.array idx) key length = false := fun h =>
        hmatch ((slotMatches_iff hash mem' key length idx).mpr h)
      have hmask : myHashRecMask hash mem' (hash.array idx) hash.blength hash.records ≠ idx := by
        rw [myHashRecMask, recHashnr_congr hash (hmem _ hch)]
        exact hne
      rw [myHashFirstLoop, if_neg hcmp, if_pos (by simpa using hmask), find?_nil]
    · have hmemc := hchain i hi hkeep hP
      rwa [F.chain_eq_nil fun h => hne h.2] at hmemc

/-- A lookup finds exactly the stored records with the key, each as often as it is stored. A
length of 0 stands for the key length of the table. -/
theorem HashInv.myHashLookup_eq (I : HashInv hash mem stored)
    (A : KeysAgree hash.charset hash.getKey) (key : List UInt8) {length : ℕ}
    (hlen : length ≠ 0 ∨ hash.getKey = none) :
    ∃ slots, myHashLookup hash mem key length = some slots ∧
      (slots.map fun i => (hash.array i).data : Multiset R) =
        stored.filter (HasKey hash mem key (if length ≠ 0 then length else hash.keyLength)) := by
  obtain ⟨l, hl, hnd, hlt, hseg, hfirst, hall⟩ := I.exists_search mem key length (fun _ => False)
    (HasKey hash mem key (if length ≠ 0 then length else hash.keyLength)) (fun _ _ => rfl)
    fun r hr => (hr.resolve_left id).recHashnr_eq A
  refine ⟨l.filter (slotMatches hash mem key length), ?_, ?_⟩
  · rw [myHashLookup, hfirst, bind_eq_bind, bind_some, lookupNext_eq hash mem key length hseg hl hl]
  have hiff : ∀ i, slotMatches hash mem key length i = true ↔
      HasKey hash mem key (if length ≠ 0 then length else hash.keyLength)
        (hash.array i).data := fun i =>
    (slotMatches_iff hash mem key length i).trans (hashcmp_eq_false_iff hlen _)
  have hslots : (l.filter (slotMatches hash mem key length) : Multiset ℕ) =
      (Finset.range hash.records).val.filter fun i =>
        HasKey hash mem key (if length ≠ 0 then length else hash.keyLength)
          (hash.array i).data := by
    rw [Multiset.Nodup.ext (Multiset.coe_nodup.mpr (hnd.filter _))
      (Multiset.Nodup.filter _ (Finset.range hash.records).nodup)]
    intro i
    rw [Multiset.mem_coe, mem_filter, Multiset.mem_filter, Finset.mem_val, Finset.mem_range, ← hiff]
    exact ⟨fun h => ⟨hlt i h.1, h.2⟩, fun h => ⟨hall i h.1 id ((hiff i).mp h.2), h.2⟩⟩
  rw [← I.stored_eq, contents, Multiset.filter_map, ← Multiset.map_coe, hslots]
  rfl

theorem searchLength_eq (hkey : hash.getKey = none ∨ hash.keyLength = 0) (mem : R → List UInt8)
    (record : R) :
    (if (myHashKey hash mem record true).2 ≠ 0 then (myHashKey hash mem record true).2
      else hash.keyLength) = (myHashKey hash mem record true).2 := by
  by_cases h0 : (myHashKey hash mem record true).2 = 0
  · rw [if_neg (not_not.mpr h0), h0]
    rcases hkey with hnone | hlen
    · rw [myHashKey, hnone] at h0
      exact h0
    · exact hlen
  · exact if_pos h0

def SameKey (hash : Hash R) (mem : R → List UInt8) (r record : R) : Prop :=
  HasKey hash mem (myHashKey hash mem record true).1 (myHashKey hash mem record true).2 r

instance (hash : Hash R) (mem : R → List UInt8) (r record : R) :
    Decidable (SameKey hash mem r record) :=
  inferInstanceAs (Decidable (HasKey _ _ _ _ _))

theorem SameKey.symm {record : R} (h : SameKey hash mem r record)
    (hsymm : ∀ a b, hash.charset.strnncoll a b = 0 → hash.charset.strnncoll b a = 0) :
    SameKey hash mem record r := by
  obtain ⟨hlen, hcmp⟩ := h
  refine ⟨hlen.symm, hsymm _ _ ?_⟩
  rw [hlen]
  exact hcmp

theorem sameKey_congr (hash : Hash R) {mem : R → List UInt8} {record : R} (h : mem' r = mem r)
    (h' : mem' record = mem record) : SameKey hash mem' r record ↔ SameKey hash mem r record := by
  have hkey : ∀ {r}, mem' r = mem r → myHashKey hash mem' r true = myHashKey hash mem r true := by
    intro r h
    rw [myHashKey, h, myHashKey]
  rw [SameKey, SameKey, HasKey, HasKey, hkey h, hkey h']

theorem HashInv.exists_slot (I : HashInv hash mem stored) (hr : r ∈ stored) :
    ∃ i < hash.records, (hash.array i).data = r := by
  rw [← I.stored_eq, mem_contents] at hr
  obtain ⟨i, hi, hdata⟩ := hr
  exact ⟨i, Finset.mem_range.mp hi, hdata⟩

theorem HashInv.not_sameKey_of_insert (I : HashInv hash mem stored)
    (A : KeysAgree hash.charset hash.getKey) (hkey : hash.getKey = none ∨ hash.keyLength = 0)
    (hunique : hash.unique = true) (h : insertDuplicate hash mem record = some false)
    (hr : r ∈ stored) : ¬ SameKey hash mem r record := by
  intro hsame
  have hlength := searchLength_eq hkey mem record
  obtain ⟨l, -, -, -, -, hfirst, hall⟩ := I.exists_search mem
    (myHashKey hash mem record true).1 (myHashKey hash mem record true).2 (fun _ => False)
    (fun r => SameKey hash mem r record) (fun _ _ => rfl) fun r hr => by
      rw [hlength]
      exact (hr.resolve_left id).recHashnr_eq A
  obtain ⟨i, hi, rfl⟩ := I.exists_slot hr
  have hnone : l.find? (slotMatches hash mem (myHashKey hash mem record true).1
      (myHashKey hash mem record true).2) = none := by
    rw [insertDuplicate] at h
    simpa [hunique, hfirst] using h
  exact find?_eq_none.mp hnone i (hall i hi id hsame)
    ((slotMatches_iff _ _ _ _ i).mpr hsame.hashcmp_eq)

/-- An update that passes the test has a new key that no other record has. The table is still
that of the old key. -/
theorem HashInv.not_sameKey_of_update [DecidableEq R] {mem : R → List UInt8}
    (I : HashInv hash mem stored) (A : KeysAgree hash.charset hash.getKey)
    (hkey : hash.getKey = none ∨ hash.keyLength = 0) (hunique : hash.unique = true)
    (hmem : ∀ r, r ≠ record → mem' r = mem r) (h : updateDuplicate hash mem' record = some false)
    (hr : r ∈ stored) (hne : r ≠ record) : ¬ SameKey hash mem' r record := by
  intro hsame
  have hlength := searchLength_eq hkey mem' record
  have hhash : ∀ r, r = record ∨ SameKey hash mem' r record → recHashnr hash mem' r =
      calcHash hash (myHashKey hash mem' record true).1
        (if (myHashKey hash mem' record true).2 ≠ 0 then (myHashKey hash mem' record true).2
          else hash.keyLength) := by
    rintro r (rfl | hr)
    · rw [hlength, A.myHashKey_eq]
      rfl
    · rw [hlength]
      exact hr.recHashnr_eq A
  obtain ⟨l, hlen, -, -, hseg, hfirst, hall⟩ := I.exists_search mem'
    (myHashKey hash mem' record true).1 (myHashKey hash mem' record true).2 (· = record)
    (fun r => SameKey hash mem' r record) hmem hhash
  obtain ⟨i, hi, rfl⟩ := I.exists_slot hr
  have hdup := duplicateLoop_eq hash mem' (myHashKey hash mem' record true).1
    (myHashKey hash mem' record true).2 record hseg hlen hlen
  rw [updateDuplicate] at h
  simp only [hunique, if_true, hfirst, bind_eq_bind, bind_some, hdup,
    some.injEq, decide_eq_false_iff_not] at h
  exact h ⟨i, hall i hi hne hsame, (slotMatches_iff _ _ _ _ i).mpr hsame.hashcmp_eq, hne⟩

/-! ### Lookups do not see the memory of other records -/

section

variable {mem : R → List UInt8}
  (hmem : ∀ i < hash.records, mem' (hash.array i).data = mem (hash.array i).data)
  (hnext : ∀ i < hash.records, ∀ j, (hash.array i).next = some j → j < hash.records)
  (key : List UInt8) (length fuel : ℕ)
include hmem hnext

variable {pos : Option ℕ}

/-- The walks of the searches stay within the slots in use. -/
theorem myHashNextLoop_congr (hpos : ∀ i ∈ pos, i < hash.records) :
    myHashNextLoop hash mem' key length fuel pos = myHashNextLoop hash mem key length fuel pos ∧
      ∀ found ∈ myHashNextLoop hash mem key length fuel pos, ∀ i ∈ found, i < hash.records := by
  induction fuel generalizing pos with
  | zero =>
    cases pos with
    | none => exact ⟨by rw [myHashNextLoop, myHashNextLoop], by simp [myHashNextLoop]⟩
    | some i => exact ⟨by rw [myHashNextLoop, myHashNextLoop], by simp [myHashNextLoop]⟩
  | succ fuel ih =>
    cases pos with
    | none => exact ⟨by rw [myHashNextLoop, myHashNextLoop], by simp [myHashNextLoop]⟩
    | some i =>
      have hi := hpos i rfl
      obtain ⟨heq, hlt⟩ := ih (hnext i hi)
      rw [myHashNextLoop, myHashNextLoop, hashcmp_congr hash (hmem i hi), heq]
      refine ⟨rfl, fun found hfound j hj => ?_⟩
      split at hfound
      · obtain rfl := some.inj hfound
        obtain rfl := some.inj hj
        exact hi
      · exact hlt found hfound j hj

theorem myHashFirstLoop_congr (flag : Bool) (hi : i < hash.records) :
    myHashFirstLoop hash mem' key length fuel flag i =
        myHashFirstLoop hash mem key length fuel flag i ∧
      ∀ found ∈ myHashFirstLoop hash mem key length fuel flag i, ∀ j ∈ found, j < hash.records := by
  induction fuel generalizing flag i with
  | zero => exact ⟨by rw [myHashFirstLoop, myHashFirstLoop], by simp [myHashFirstLoop]⟩
  | succ fuel ih =>
    have hmask : myHashRecMask hash mem' (hash.array i) hash.blength hash.records =
        myHashRecMask hash mem (hash.array i) hash.blength hash.records := by
      rw [myHashRecMask, recHashnr_congr hash (hmem i hi), myHashRecMask]
    rw [myHashFirstLoop, myHashFirstLoop, hashcmp_congr hash (hmem i hi), hmask]
    cases hn : (hash.array i).next with
    | none =>
      refine ⟨rfl, fun found hfound j hj => ?_⟩
      split_ifs at hfound
      · obtain rfl := some.inj hfound
        obtain rfl := some.inj hj
        exact hi
      · obtain rfl := some.inj hfound
        exact absurd hj (by simp)
      · obtain rfl := some.inj hfound
        exact absurd hj (by simp)
    | some next =>
      obtain ⟨heq, hlt⟩ := ih false (hnext i hi next hn)
      dsimp only
      rw [heq]
      refine ⟨rfl, fun found hfound j hj => ?_⟩
      split_ifs at hfound
      · obtain rfl := some.inj hfound
        obtain rfl := some.inj hj
        exact hi
      · obtain rfl := some.inj hfound
        exact absurd hj (by simp)
      · exact hlt found hfound j hj

theorem lookupNext_congr (hpos : ∀ i ∈ pos, i < hash.records) :
    lookupNext hash mem' key length fuel pos = lookupNext hash mem key length fuel pos := by
  induction fuel generalizing pos with
  | zero => cases pos <;> rw [lookupNext, lookupNext]
  | succ fuel ih =>
    cases pos with
    | none => rw [lookupNext, lookupNext]
    | some i =>
      obtain ⟨heq, hlt⟩ := myHashNextLoop_congr hmem hnext key length (hash.records + 1)
        (hnext i (hpos i rfl))
      rw [lookupNext, lookupNext, myHashNext, myHashNext, heq]
      cases hloop : myHashNextLoop hash mem key length (hash.records + 1) (hash.array i).next with
      | none => rfl
      | some found =>
        simp only [bind_eq_bind, bind_some]
        rw [ih (hlt found hloop)]

end

theorem HashInv.myHashLookup_congr {mem : R → List UInt8} (I : HashInv hash mem stored)
    (hmem : ∀ r ∈ stored, mem' r = mem r) (key : List UInt8) (length : ℕ) :
    myHashLookup hash mem' key length = myHashLookup hash mem key length := by
  have hdata : ∀ i < hash.records, mem' (hash.array i).data = mem (hash.array i).data := by
    intro i hi
    refine hmem _ ?_
    rw [← I.stored_eq]
    exact mem_contents.mpr ⟨i, Finset.mem_range.mpr hi, rfl⟩
  have hnext : ∀ i < hash.records, ∀ j, (hash.array i).next = some j → j < hash.records :=
    fun i hi j hj => I.next_lt hi hj
  rw [myHashLookup, myHashLookup, myHashFirst, myHashFirst]
  by_cases hn : hash.records = 0
  · rw [if_pos hn, if_pos hn]
    exact lookupNext_congr hdata hnext key length _ (by simp)
  obtain ⟨heq, hlt⟩ := myHashFirstLoop_congr hdata hnext key length (hash.records + 1) true
    (myHashMask_lt I.length (pos_of_ne_zero hn)
      (calcHash hash key (if length ≠ 0 then length else hash.keyLength)))
  rw [if_neg hn, if_neg hn, heq]
  cases hloop : myHashFirstLoop hash mem key length (hash.records + 1) true
      (myHashMask (calcHash hash key (if length ≠ 0 then length else hash.keyLength))
        hash.blength hash.records) with
  | none => rfl
  | some found => exact lookupNext_congr hdata hnext key length _ (hlt found hloop)

/-! ### Lookups after runs -/

/-- What `_my_hash_init` sets and no call changes. -/
def Hash.setup (hash : Hash R) :
    ℕ × ℕ × Bool × Option (List UInt8 → Bool → List UInt8 × ℕ) × Collation :=
  (hash.keyOffset, hash.keyLength, hash.unique, hash.getKey, hash.charset)

section

variable {hash : Hash R}

theorem myHashInsert_setup
    (h : myHashInsert hash mem record = some (hash', error)) : hash'.setup = hash.setup := by
  rw [myHashInsert] at h
  simp only [bind_eq_bind, bind_eq_some_iff] at h
  obtain ⟨duplicate, -, h⟩ := h
  split at h
  · obtain ⟨rfl, -⟩ := mk.inj (some.inj h)
    rfl
  simp only [bind_eq_some_iff] at h
  obtain ⟨split, -, array, -, h⟩ := h
  obtain ⟨rfl, -⟩ := mk.inj (some.inj h)
  rfl

theorem insertDuplicate_of_insert (h : myHashInsert hash mem record = some (hash', false)) :
    insertDuplicate hash mem record = some false := by
  rw [myHashInsert] at h
  simp only [bind_eq_bind, bind_eq_some_iff] at h
  obtain ⟨duplicate, hdup, h⟩ := h
  cases duplicate with
  | true => exact absurd h (by simp)
  | false => exact hdup

theorem sameKey_of_setup (h : hash'.setup = hash.setup) (mem : R → List UInt8)
    (r r' : R) : SameKey hash' mem r r' ↔ SameKey hash mem r r' := by
  simp only [Hash.setup, mk.injEq] at h
  obtain ⟨hoffset, hlength, -, hget, hcharset⟩ := h
  have hkey : ∀ r, myHashKey hash' mem r true = myHashKey hash mem r true := by
    intro r
    rw [myHashKey, myHashKey, hget, hoffset, hlength]
  rw [SameKey, SameKey, HasKey, HasKey, hkey, hkey, hcharset]

end

/-- What unique keys rely on: equal keys compare equal in both orders and hash equally, and a
table with a key function has no fixed key length. -/
structure KeysLawful (hash : Hash R) : Prop where
  agree : KeysAgree hash.charset hash.getKey
  symm : ∀ a b, hash.charset.strnncoll a b = 0 → hash.charset.strnncoll b a = 0
  length : hash.getKey = none ∨ hash.keyLength = 0
  unique : hash.unique = true

theorem KeysLawful.of_setup {hash : Hash R} (h : KeysLawful hash)
    (hsetup : hash'.setup = hash.setup) : KeysLawful hash' := by
  simp only [Hash.setup, mk.injEq] at hsetup
  obtain ⟨-, hlength, hunique, hget, hcharset⟩ := hsetup
  exact ⟨by rw [hcharset, hget]; exact h.agree, by rw [hcharset]; exact h.symm,
    by rw [hget, hlength]; exact h.length, by rw [hunique]; exact h.unique⟩

section

variable [DecidableEq R]

theorem myHashDelete_setup {hash : Hash R}
    (h : myHashDelete hash mem record = some (hash', error)) : hash'.setup = hash.setup := by
  rw [myHashDelete] at h
  split at h
  · obtain ⟨rfl, -⟩ := mk.inj (some.inj h)
    rfl
  simp only [bind_eq_bind, bind_eq_some_iff] at h
  obtain ⟨found, -, h⟩ := h
  cases found with
  | none =>
    obtain ⟨rfl, -⟩ := mk.inj (some.inj h)
    rfl
  | some found =>
    simp only [bind_eq_some_iff] at h
    obtain ⟨array, -, h⟩ := h
    obtain ⟨rfl, -⟩ := mk.inj (some.inj h)
    rfl

theorem myHashUpdate_setup {hash : Hash R} {oldKeyLength : ℕ}
    (h : myHashUpdate hash mem record oldKey oldKeyLength = some (hash', error)) :
    hash'.setup = hash.setup ∧ (error = true ∨ updateDuplicate hash mem record = some false) := by
  rw [myHashUpdate] at h
  simp only [bind_eq_bind, bind_eq_some_iff] at h
  obtain ⟨duplicate, hdup, h⟩ := h
  cases duplicate with
  | true =>
    obtain ⟨rfl, rfl⟩ := mk.inj (some.inj h)
    exact ⟨rfl, .inl rfl⟩
  | false =>
    refine ⟨?_, .inr hdup⟩
    rw [if_neg Bool.false_ne_true] at h
    generalize (if oldKeyLength ≠ 0 then oldKeyLength else hash.keyLength) = length at h
    split at h
    · obtain ⟨rfl, -⟩ := mk.inj (some.inj h)
      rfl
    simp only [bind_eq_some_iff] at h
    obtain ⟨found, -, h⟩ := h
    cases found with
    | none =>
      obtain ⟨rfl, -⟩ := mk.inj (some.inj h)
      rfl
    | some found =>
      simp only [bind_eq_some_iff] at h
      obtain ⟨array, -, h⟩ := h
      obtain ⟨rfl, -⟩ := mk.inj (some.inj h)
      rfl

namespace HashState

theorem step_setup (h : s.step op = some s') : s'.hash.setup = s.hash.setup := by
  cases op with
  | insert record =>
    simp only [step, bind_eq_bind, bind_eq_some_iff] at h
    obtain ⟨⟨hash, error⟩, hop, h⟩ := h
    obtain rfl := some.inj h
    exact myHashInsert_setup hop
  | delete record =>
    simp only [step, bind_eq_bind, bind_eq_some_iff] at h
    obtain ⟨⟨hash, error⟩, hop, h⟩ := h
    obtain rfl := some.inj h
    exact myHashDelete_setup hop
  | update record contents oldKey undo =>
    simp only [step, bind_eq_bind, bind_eq_some_iff] at h
    obtain ⟨⟨hash, error⟩, hop, h⟩ := h
    obtain rfl := some.inj h
    exact (myHashUpdate_setup hop).1
  | write record contents =>
    obtain rfl := some.inj h
    rfl

theorem run_setup (h : s.run ops = some s') : s'.hash.setup = s.hash.setup := by
  induction ops generalizing s with
  | nil =>
    obtain rfl := some.inj h
    rfl
  | cons op ops ih =>
    rw [run, bind_eq_bind, bind_eq_some_iff] at h
    obtain ⟨s1, hstep, hrun⟩ := h
    rw [ih hrun, step_setup hstep]

variable (keyOffset keyLength : ℕ)

/-- After every run whose updates keep the rules of `HashOp.Ok`, when keys that compare equal
hash equally: a lookup yields the stored records whose key equals the searched one, each once
for every time it is stored, and no other record. The length 0 stands for the fixed key length
and is no key length of its own. -/
theorem run_lookup (unique : Bool) (getKey : Option (List UInt8 → Bool → List UInt8 × ℕ))
    (charset : Collation) (array : ℕ → HashLink R) (mem : R → List UInt8) (ops : List (HashOp R))
    (hops : (init keyOffset keyLength unique getKey charset array mem).RunKeeps HashOp.Ok ops)
    (hkeys : KeysAgree charset getKey) :
    ∃ s, (init keyOffset keyLength unique getKey charset array mem).run ops = some s ∧
      ∀ key length, length ≠ 0 ∨ getKey = none →
        ∃ slots, myHashLookup s.hash s.mem key length = some slots ∧
          (slots.map fun i => (s.hash.array i).data : Multiset R) = s.stored.filter
            (HasKey s.hash s.mem key (if length ≠ 0 then length else keyLength)) := by
  have hinit : (init keyOffset keyLength unique getKey charset array mem).Valid :=
    hashInv_myHashInit keyOffset keyLength unique getKey charset array mem
  obtain ⟨s, hrun, hs⟩ := hinit.run hops
  have hsetup : s.hash.setup = (keyOffset, keyLength, unique, getKey, charset) := run_setup hrun
  simp only [Hash.setup, Prod.mk.injEq] at hsetup
  obtain ⟨-, hlength, -, hget, hcharset⟩ := hsetup
  refine ⟨s, hrun, fun key length hkey => ?_⟩
  have hlookup := HashInv.myHashLookup_eq hs (by rw [hcharset, hget]; exact hkeys) key
    (by rw [hget]; exact hkey)
  rwa [hlength] at hlookup

/-! ### Unique keys -/

def UniqueKeys (s : HashState R) : Prop :=
  ∀ r ∈ s.stored, ∀ r' ∈ s.stored.erase r, ¬ SameKey s.hash s.mem r r'

theorem UniqueKeys.step (hu : s.UniqueKeys) (hs : s.Valid) (hl : KeysLawful s.hash) (hop : op.Ok s)
    (hstep : s.step op = some s') : s'.UniqueKeys := by
  have hsetup := step_setup hstep
  cases op with
  | insert record =>
    simp only [step, bind_eq_bind, bind_eq_some_iff] at hstep
    obtain ⟨⟨hash, error⟩, hins, hstep⟩ := hstep
    obtain rfl := some.inj hstep
    cases error with
    | true =>
      intro r hr r' hr' hsame
      exact hu r hr r' hr' ((sameKey_of_setup hsetup s.mem r r').mp hsame)
    | false =>
      have hnew : ∀ r ∈ s.stored, ¬ SameKey s.hash s.mem r record := fun r hr =>
        HashInv.not_sameKey_of_insert hs hl.agree hl.length hl.unique
          (insertDuplicate_of_insert hins) hr
      intro r hr r' hr' hsame
      replace hsame := (sameKey_of_setup hsetup s.mem r r').mp hsame
      change r' ∈ (record ::ₘ s.stored).erase r at hr'
      by_cases hrec : r = record
      · rw [hrec, Multiset.erase_cons_head] at hr'
        rw [hrec] at hsame
        exact hnew r' hr' (hsame.symm hl.symm)
      replace hr := (Multiset.mem_cons.mp hr).resolve_left hrec
      rw [Multiset.erase_cons_tail _ (Ne.symm hrec)] at hr'
      rcases Multiset.mem_cons.mp hr' with rfl | hr'
      · exact hnew r hr hsame
      · exact hu r hr r' hr' hsame
  | delete record =>
    simp only [step, bind_eq_bind, bind_eq_some_iff] at hstep
    obtain ⟨⟨hash, error⟩, hdel, hstep⟩ := hstep
    obtain rfl := some.inj hstep
    have hle : (if error = true then s.stored else s.stored.erase record) ≤ s.stored := by
      split
      · exact le_rfl
      · exact Multiset.erase_le record s.stored
    intro r hr r' hr' hsame
    exact hu r (Multiset.mem_of_le hle hr) r'
      (Multiset.mem_of_le (Multiset.erase_le_erase r hle) hr')
      ((sameKey_of_setup hsetup s.mem r r').mp hsame)
  | update record contents oldKey undo =>
    obtain ⟨-, -, hcount, -, hundo⟩ := hop
    have hmem : ∀ r, r ≠ record → update s.mem record contents r = s.mem r :=
      fun r hr => update_of_ne hr _ _
    have hother : ∀ r ∈ s.stored, ∀ r' ∈ s.stored.erase r, r ≠ record → r' ≠ record →
        ¬ SameKey s.hash (update s.mem record contents) r r' := by
      intro r hr r' hr' hne hne' hsame
      exact hu r hr r' hr' ((sameKey_congr s.hash (hmem r hne) (hmem r' hne')).mp hsame)
    simp only [step, bind_eq_bind, bind_eq_some_iff] at hstep
    obtain ⟨⟨hash, error⟩, hupd, hstep⟩ := hstep
    obtain rfl := some.inj hstep
    have hdup := (myHashUpdate_setup hupd).2
    intro r hr r' hr' hsame
    replace hsame := (sameKey_of_setup hsetup _ r r').mp hsame
    change r' ∈ s.stored.erase r at hr'
    have hr'' : r' ∈ s.stored := Multiset.mem_of_mem_erase hr'
    by_cases hrejected : error = true
    · subst hrejected
      cases undo with
      | true => exact hu r hr r' hr' hsame
      | false =>
        have hnot := hundo.resolve_left Bool.false_ne_true
        exact hother r hr r' hr' (fun h => hnot (h ▸ hr)) (fun h => hnot (h ▸ hr'')) hsame
    have hpass := hdup.resolve_left hrejected
    have hfalse : error = false := by simpa using hrejected
    subst hfalse
    have hnew : ∀ r ∈ s.stored, r ≠ record →
        ¬ SameKey s.hash (update s.mem record contents) r record :=
      fun r hr hne => HashInv.not_sameKey_of_update hs hl.agree hl.length hl.unique hmem
        hpass hr hne
    by_cases hrec : r = record
    · -- the record is stored once, so the other one is another record
      have hne : r' ≠ record := by
        rintro rfl
        rw [hrec] at hr'
        have := Multiset.count_pos.mpr hr'
        rw [Multiset.count_erase_self] at this
        omega
      rw [hrec] at hsame
      exact hnew r' hr'' hne (hsame.symm hl.symm)
    · by_cases hrec' : r' = record
      · rw [hrec'] at hsame
        exact hnew r hr hrec hsame
      · exact hother r hr r' hr' hrec hrec' hsame
  | write record contents =>
    obtain rfl := some.inj hstep
    have hmem : ∀ r ∈ s.stored, update s.mem record contents r = s.mem r := by
      intro r hr
      refine update_of_ne ?_ _ _
      rintro rfl
      exact hop hr
    intro r hr r' hr' hsame
    exact hu r hr r' hr' ((sameKey_congr s.hash (hmem r hr)
      (hmem r' (Multiset.mem_of_mem_erase hr'))).mp hsame)

theorem UniqueKeys.run (hu : s.UniqueKeys) (hs : s.Valid) (hl : KeysLawful s.hash)
    (hops : s.RunKeeps HashOp.Ok ops) :
    ∃ s', s.run ops = some s' ∧ s'.Valid ∧ s'.UniqueKeys ∧ KeysLawful s'.hash := by
  induction ops generalizing s with
  | nil => exact ⟨s, rfl, hs, hu, hl⟩
  | cons op ops ih =>
    obtain ⟨hop, hrest⟩ := hops
    obtain ⟨s1, hstep, hs1⟩ := hs.step hop
    obtain ⟨s', hrun, h'⟩ := ih (hu.step hs hl hop hstep) hs1 (hl.of_setup (step_setup hstep))
      (hrest s1 hstep)
    exact ⟨s', by rw [run, hstep]; exact hrun, h'⟩

theorem Valid.step_of_duplicate (hs : s.Valid) {contents : List UInt8} {undo : Bool}
    (hop : (HashOp.update record contents oldKey undo).Ok s)
    (hdup : updateDuplicate s.hash (update s.mem record contents) record = some true) :
    ∃ s', s.step (.update record contents oldKey undo) = some s' ∧ s'.hash = s.hash ∧
      s'.stored = s.stored ∧ ∀ key length,
        myHashLookup s'.hash s'.mem key length = myHashLookup s.hash s.mem key length := by
  have hupd : ∀ length, myHashUpdate s.hash (update s.mem record contents) record oldKey
      length = some (s.hash, true) := by
    intro length
    rw [myHashUpdate, hdup]
    rfl
  refine ⟨{ s with mem := if (true && undo) = true then s.mem else
    Function.update s.mem record contents }, by simp only [HashState.step, hupd]; rfl, rfl, rfl,
    fun key length => ?_⟩
  cases undo with
  | true => rfl
  | false =>
    have hnot := hop.2.2.2.2.resolve_left Bool.false_ne_true
    refine HashInv.myHashLookup_congr hs (fun r hr => update_of_ne ?_ _ _) key length
    rintro rfl
    exact hnot hr

/-- With `HASH_UNIQUE`, after every run whose updates keep the rules of `HashOp.Ok`, no two
stored records have equal keys. An insertion or an update that is rejected because of a
duplicate leaves the table and every lookup as they are. -/
theorem run_unique (getKey : Option (List UInt8 → Bool → List UInt8 × ℕ)) (charset : Collation)
    (array : ℕ → HashLink R) (mem : R → List UInt8) (ops : List (HashOp R))
    (hops : (init keyOffset keyLength true getKey charset array mem).RunKeeps HashOp.Ok ops)
    (hkeys : KeysAgree charset getKey)
    (hsymm : ∀ a b, charset.strnncoll a b = 0 → charset.strnncoll b a = 0)
    (hlength : getKey = none ∨ keyLength = 0) :
    ∃ s, (init keyOffset keyLength true getKey charset array mem).run ops = some s ∧ s.UniqueKeys ∧
      (∀ record, insertDuplicate s.hash s.mem record = some true →
        s.step (.insert record) = some s) ∧
      ∀ record contents oldKey undo, (HashOp.update record contents oldKey undo).Ok s →
        updateDuplicate s.hash (update s.mem record contents) record = some true →
        ∃ s', s.step (.update record contents oldKey undo) = some s' ∧ s'.hash = s.hash ∧
          s'.stored = s.stored ∧ ∀ key length,
            myHashLookup s'.hash s'.mem key length = myHashLookup s.hash s.mem key length := by
  have hinit : (init keyOffset keyLength true getKey charset array mem).Valid :=
    hashInv_myHashInit keyOffset keyLength true getKey charset array mem
  have hempty : (init keyOffset keyLength true getKey charset array mem).UniqueKeys :=
    fun r hr => absurd hr (Multiset.notMem_zero r)
  obtain ⟨s, hrun, hs, hu, -⟩ := hempty.run hinit ⟨hkeys, hsymm, hlength, rfl⟩ hops
  refine ⟨s, hrun, hu, fun record hdup => ?_, fun record contents oldKey undo hop hdup =>
    hs.step_of_duplicate hop hdup⟩
  have hins : myHashInsert s.hash s.mem record = some (s.hash, true) := by
    rw [myHashInsert, hdup]
    rfl
  simp only [step, hins]
  rfl

end HashState

end

/-! ### The rules are needed -/

theorem firstByteCollation_keysAgree : KeysAgree firstByteCollation none where
  hash_eq a b h := by
    have hab : a = b := by
      by_contra hne
      exact absurd h (by simp [firstByteCollation, hne])
    rw [hab]
  first_eq := nofun

/-- `HashState.run_lookup` after a split, an update that moves a record and a deletion. -/
theorem HashState.run_lookup_ofBytes :
    ∃ s, (ofBytes false none).run [.insert 1, .insert 2, .insert 3, .insert 4,
        .update 1 [6] [1] true, .update 2 [3] [2] true, .delete 4] = some s ∧
      ∀ key length, length ≠ 0 ∨ (none : Option (List UInt8 → Bool → List UInt8 × ℕ)) = none →
        ∃ slots, myHashLookup s.hash s.mem key length = some slots ∧
          (slots.map fun i => (s.hash.array i).data : Multiset ℕ) = s.stored.filter
            (HasKey s.hash s.mem key (if length ≠ 0 then length else 1)) :=
  run_lookup 0 1 false none firstByteCollation _ _ _ (by decide)
    firstByteCollation_keysAgree

/-- A record that is stored twice and updated once is found once under its new key. A key of
length 0 in a table with a key function finds a record whose key is not empty. -/
theorem HashState.lookup_fails :
    ((ofBytes false none).RunKeeps HashOp.AsCallers
        [.insert 1, .insert 1, .update 1 [2] [1] true] ∧
      ((ofBytes false none).run [.insert 1, .insert 1, .update 1 [2] [1] true]).map
        (fun s => ((myHashLookup s.hash s.mem [2] 1).map List.length,
          (s.stored.filter (HasKey s.hash s.mem [2] 1)).card)) = some (some 1, 2)) ∧
    ((init 0 0 false (some fun mem _ => (mem, mem.length)) firstByteCollation
        (fun i => ⟨some (i + 1), 0⟩) fun record : ℕ => [record.toUInt8]).run [.insert 1]).map
      (fun s => ((myHashLookup s.hash s.mem [1] 0).map List.length,
        (s.stored.filter (HasKey s.hash s.mem [1] 0)).card)) = some (some 1, 0) := by
  decide

/-- `HashState.run_unique` at a run with a rejected insertion and a rejected update. -/
theorem HashState.run_unique_ofBytes :
    ∃ s, (ofBytes true none).run [.insert 1, .insert 2, .insert 1,
        .update 1 [2] [1] true, .update 1 [6] [1] true] = some s ∧ s.UniqueKeys ∧
      (∀ record, insertDuplicate s.hash s.mem record = some true →
        s.step (.insert record) = some s) ∧
      ∀ record contents oldKey undo, (HashOp.update record contents oldKey undo).Ok s →
        updateDuplicate s.hash (update s.mem record contents) record = some true →
        ∃ s', s.step (.update record contents oldKey undo) = some s' ∧ s'.hash = s.hash ∧
          s'.stored = s.stored ∧ ∀ key length,
            myHashLookup s'.hash s'.mem key length = myHashLookup s.hash s.mem key length :=
  run_unique 0 1 none firstByteCollation _ _ _ (by decide) firstByteCollation_keysAgree
    (fun a b h => by
      by_contra hne
      have hab : a ≠ b := by
        rintro rfl
        exact hne h
      exact absurd h (by simp [firstByteCollation, hab])) (.inl rfl)

/-- When the new key of a rejected update is left in place, a table with `HASH_UNIQUE` holds two
records with equal keys. -/
theorem HashState.update_leaves_duplicate :
    (ofBytes true none).RunKeeps HashOp.AsCallers
        [.insert 1, .insert 2, .update 1 [2] [1] false] ∧
      ((ofBytes true none).run [.insert 1, .insert 2, .update 1 [2] [1] false]).map
        (fun s => (decide (1 ∈ s.stored), decide (2 ∈ s.stored.erase 1),
          decide (SameKey s.hash s.mem 1 2))) = some (true, true, true) := by
  decide

end LibSources
