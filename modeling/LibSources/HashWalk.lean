import LibSources.LinkedChains
import LibSources.HashMask

/-!
# Walks Along the Links of the Table

The slot array is read as a family of linked chains (`Chained`), and every loop of `mysys/hash.c`
that follows links is described on a linked list of slots: `movelink` redirects one link,
`findRecord` finds the first slot with the record, and the searches end.
-/

namespace LibSources

open Function List

variable {R : Type}

def nextOf (data : ℕ → HashLink R) (i : ℕ) : Option ℕ := (data i).next

/-- The position of the record of each slot, for the hash numbers `hf`. -/
def homeOf (hf : R → ℕ) (b n : ℕ) (data : ℕ → HashLink R) (i : ℕ) : ℕ :=
  myHashMask (hf (data i).data) b n

/-- The slots in use form chains, each starting at the position of its records. -/
def Chained (hf : R → ℕ) (b n : ℕ) (slots : ℕ → Prop) (data : ℕ → HashLink R) : Prop :=
  ∃ chain, ChainFamily slots (homeOf hf b n data) (nextOf data) chain

def contents (S : Finset ℕ) (data : ℕ → HashLink R) : Multiset R := S.val.map fun i => (data i).data

variable {S : Finset ℕ} {data data' : ℕ → HashLink R} {e s i n b : ℕ} {find : Option ℕ} {l : List ℕ}
  {slots : ℕ → Prop} {hf : R → ℕ}

theorem mem_contents {record : R} : record ∈ contents S data ↔ ∃ i ∈ S, (data i).data = record :=
  Multiset.mem_map

theorem contents_congr (h : ∀ i ∈ S, (data' i).data = (data i).data) :
    contents S data' = contents S data :=
  Multiset.map_congr rfl h

theorem contents_insert (he : e ∉ S) (data : ℕ → HashLink R) :
    contents (insert e S) data = (data e).data ::ₘ contents S data := by
  unfold contents
  rw [Finset.insert_val_of_notMem he, Multiset.map_cons]

theorem contents_erase (hs : s ∈ S) (data : ℕ → HashLink R) :
    contents S data = (data s).data ::ₘ contents (S.erase s) data := by
  rw [← contents_insert (Finset.notMem_erase s S), Finset.insert_erase hs]

theorem contents_move (data : ℕ → HashLink R) (hs : s ∈ S) (he : e ∈ S) (hne : s ≠ e)
    (hdata : (data' e).data = (data s).data)
    (hkeep : ∀ i ∈ S, i ≠ s → i ≠ e → (data' i).data = (data i).data) :
    contents S data' = (data' s).data ::ₘ contents (S.erase e) data := by
  have hes : e ∈ S.erase s := Finset.mem_erase.mpr ⟨hne.symm, he⟩
  have hse : s ∈ S.erase e := Finset.mem_erase.mpr ⟨hne, hs⟩
  rw [contents_erase hs, contents_erase hes, contents_erase hse, hdata, Finset.erase_right_comm]
  refine congrArg _ (congrArg _ (contents_congr fun i hi => ?_))
  simp only [Finset.mem_erase] at hi
  exact hkeep i hi.2.2 hi.1 hi.2.1

theorem contents_replace (data : ℕ → HashLink R) (hs : s ∈ S)
    (hkeep : ∀ i ∈ S, i ≠ s → (data' i).data = (data i).data) :
    contents S data' = (data' s).data ::ₘ contents (S.erase s) data := by
  rw [contents_erase hs]
  refine congrArg _ (contents_congr fun i hi => ?_)
  exact hkeep i (Finset.mem_of_mem_erase hi) (Finset.ne_of_mem_erase hi)

/-- `movelink`, started at the first of the linked slots `l ++ [a]` whose last one points
to `find`, redirects that last slot. -/
theorem movelink_eq {a g fuel : ℕ} (newlink : Option ℕ)
    (hseg : Segment (nextOf data) (l ++ [a]) find) (hfind : ∀ x ∈ l ++ [a], find ≠ some x)
    (hhead : (l ++ [a]).head? = some g) (hfuel : l.length < fuel) :
    movelink find newlink fuel data g = some (update data a { data a with next := newlink }) := by
  induction l generalizing g fuel with
  | nil =>
    obtain ⟨fuel, rfl⟩ : ∃ f, fuel = f + 1 := ⟨fuel - 1, by simp at hfuel; omega⟩
    obtain rfl : a = g := by simpa using hhead
    have hnext : (data a).next = find := by simpa [nextOf] using hseg
    rw [movelink, if_pos hnext]
  | cons c l ih =>
    obtain ⟨fuel, rfl⟩ : ∃ f, fuel = f + 1 := ⟨fuel - 1, by simp at hfuel; omega⟩
    obtain rfl : c = g := by simpa using hhead
    obtain ⟨hnext, hrest⟩ := hseg
    obtain ⟨d, hd⟩ : ∃ d, (l ++ [a]).head? = some d := by
      cases l <;> simp
    have hmem : d ∈ l ++ [a] := mem_of_mem_head? hd
    change (data c).next = (l ++ [a]).head?.or find at hnext
    rw [hd, Option.some_or] at hnext
    have hne : (data c).next ≠ find := by
      rw [hnext]
      exact (hfind d (mem_cons_of_mem c hmem)).symm
    rw [movelink, if_neg hne, hnext]
    exact ih hrest (fun x hx => hfind x (mem_cons_of_mem c hx)) hd (by simpa using hfuel)

/-- `movelink` over a whole linked list of slots gives the list a new end and changes
nothing else. -/
theorem movelink_segment (fuel : ℕ) {w : List ℕ} {g : ℕ} (newlink : Option ℕ)
    (hseg : Segment (nextOf data) w find) (hnd : w.Nodup) (hfind : ∀ x ∈ w, find ≠ some x)
    (hhead : w.head? = some g) (hfuel : w.length ≤ fuel) :
    ∃ data', movelink find newlink fuel data g = some data' ∧
      Segment (nextOf data') w newlink ∧ (∀ i, i ∉ w → data' i = data i) ∧
      ∀ i, (data' i).data = (data i).data := by
  rcases eq_nil_or_concat w with rfl | ⟨l, a, rfl⟩
  · simp at hhead
  rw [concat_eq_append] at *
  have ha : a ∉ l := by grind
  refine ⟨_, movelink_eq newlink hseg hfind hhead (by simpa using hfuel), ?_, ?_, ?_⟩
  · have hnext : nextOf (update data a { data a with next := newlink }) =
        update (nextOf data) a newlink := by
      funext i
      by_cases hi : i = a
      · rw [hi, nextOf, update_self, update_self]
      · rw [nextOf, update_of_ne hi, update_of_ne hi, nextOf]
    rw [hnext]
    exact hseg.redirect_last ha
  · intro i hi
    refine update_of_ne ?_ _ _
    rintro rfl
    simp at hi
  · intro i
    by_cases hi : i = a
    · rw [hi, update_self]
    · rw [update_of_ne hi]

/-- The search for a record along the linked slots `l` that follow the slots `g`: it
stops at the first slot with the record, or fails when no slot of `l` has it. -/
theorem findRecord_eq [DecidableEq R] (record : R) (fuel : ℕ) (g : Option ℕ)
    (hseg : Segment (nextOf data) (i :: l) none) (hfuel : l.length < fuel) :
    (∃ ls p r, i :: l = ls ++ p :: r ∧ (data p).data = record ∧
      findRecord data record fuel i g = some (some (p, ls.getLast?.or g))) ∨
    ((∀ x ∈ i :: l, (data x).data ≠ record) ∧ findRecord data record fuel i g = some none) := by
  induction l generalizing i fuel g with
  | nil =>
    obtain ⟨fuel, rfl⟩ : ∃ f, fuel = f + 1 := ⟨fuel - 1, by simp at hfuel; omega⟩
    have hnext : (data i).next = none := by simpa [nextOf] using hseg
    by_cases hr : (data i).data = record
    · exact .inl ⟨[], i, [], rfl, hr, by rw [findRecord, if_pos hr]; simp⟩
    · refine .inr ⟨by simpa using hr, ?_⟩
      rw [findRecord, if_neg hr, hnext]
  | cons j l ih =>
    obtain ⟨fuel, rfl⟩ : ∃ f, fuel = f + 1 := ⟨fuel - 1, by simp at hfuel; omega⟩
    obtain ⟨hnext, hrest⟩ := hseg
    replace hnext : (data i).next = some j := by simpa [nextOf] using hnext
    by_cases hr : (data i).data = record
    · exact .inl ⟨[], i, j :: l, rfl, hr, by rw [findRecord, if_pos hr]; simp⟩
    rw [findRecord, if_neg hr, hnext]
    rcases ih fuel (some i) hrest (by simpa using hfuel) with ⟨ls, p, r, hl, hp, heq⟩ | ⟨hno, heq⟩
    · refine .inl ⟨i :: ls, p, r, by rw [hl]; rfl, hp, ?_⟩
      simp only [heq]
      cases hlast : ls.getLast? <;> simp [List.getLast?_cons, hlast]
    refine .inr ⟨?_, heq⟩
    intro x hx
    rcases mem_cons.mp hx with rfl | hx
    · exact hr
    · exact hno x hx

/-! ### Walks in a chained table -/

theorem length_le_of_nodup_lt (hnd : l.Nodup) (hlt : ∀ x ∈ l, x < n) : l.length ≤ n := by
  have hsub : l ⊆ List.range n := fun x hx => mem_range.mpr (hlt x hx)
  simpa using (subperm_of_subset hnd hsub).length_le

/-- From every slot in use the links lead through slots in use of the same chain, each
met once. -/
theorem Chained.exists_walk (C : Chained hf b n slots data) (hi : slots i) :
    ∃ l, Segment (nextOf data) (i :: l) none ∧ (i :: l).Nodup ∧
      ∀ x ∈ i :: l, slots x ∧ homeOf hf b n data x = homeOf hf b n data i := by
  obtain ⟨chain, F⟩ := C
  obtain ⟨l, r, hl⟩ := F.exists_suffix hi
  have hseg := F.seg (homeOf hf b n data i)
  have hnd := F.nodup (homeOf hf b n data i)
  rw [hl] at hseg hnd
  refine ⟨r, ((segment_append _ _ _ _).mp hseg).2, (List.nodup_append.mp hnd).2.1, ?_⟩
  intro x hx
  refine (F.mem_iff _ _).mp ?_
  rw [hl]
  exact mem_append_right l hx

theorem Chained.exists_walk_lt (C : Chained hf b n (· < n) data) (hi : i < n) :
    ∃ l, Segment (nextOf data) (i :: l) none ∧ l.length < n ∧
      ∀ x ∈ i :: l, x < n ∧ homeOf hf b n data x = homeOf hf b n data i := by
  obtain ⟨l, hseg, hnd, hl⟩ := C.exists_walk hi
  have hlen := length_le_of_nodup_lt hnd fun x hx => (hl x hx).1
  exact ⟨l, hseg, by simpa using hlen, hl⟩

/-- `movelink` moves the occupant of slot `s`, which belongs to a chain that starts
elsewhere, to the free slot `e`. The array `data'` it runs on may already have other
contents in the slots `s` and `e`. -/
theorem Chained.relocate {m : ℕ} (C : Chained hf b n slots data) (slots' : ℕ → Prop)
    (data' : ℕ → HashLink R) (hs : slots s) (he : ¬ slots e) (hhome : homeOf hf b n data s ≠ s)
    (hm : ∀ i, slots i → i < m) (hslots : ∀ i, slots' i ↔ (slots i ∧ i ≠ s) ∨ i = e)
    (hdata : ∀ i, slots i → i ≠ s → data' i = data i) :
    ∃ a, slots a ∧ a ≠ s ∧ homeOf hf b n data a = homeOf hf b n data s ∧
      movelink (some s) (some e) m data' (homeOf hf b n data s) =
        some (update data' a { data a with next := some e }) ∧
      Chained hf b n slots' (update (update data e (data s)) a { data a with next := some e }) := by
  obtain ⟨chain, F⟩ := C
  obtain ⟨l, a, r, hc, hhead⟩ := F.exists_pred hs hhome
  have hmem : ∀ i, i ∈ l ++ a :: s :: r ↔ slots i ∧ homeOf hf b n data i = homeOf hf b n data s := by
    intro i
    rw [← hc]
    exact F.mem_iff _ _
  have hnd := F.nodup (homeOf hf b n data s)
  have hseg := F.seg (homeOf hf b n data s)
  rw [hc] at hnd hseg
  have hpre : ∀ i ∈ l ++ [a], slots i ∧ i ≠ s := by
    intro i hi
    refine ⟨((hmem i).mp (by grind)).1, ?_⟩
    rintro rfl
    grind
  have hsa : slots a := (hpre a (by simp)).1
  have has : a ≠ s := (hpre a (by simp)).2
  have hae : a ≠ e := fun h => he (h ▸ hsa)
  refine ⟨a, hsa, has, ((hmem a).mp (by simp)).2, ?_, ?_⟩
  · have hseg' : Segment (nextOf data') (l ++ [a]) (some s) := by
      have : l ++ a :: s :: r = (l ++ [a]) ++ s :: r := by simp
      rw [this, segment_append] at hseg
      refine hseg.1.congr fun i hi => ?_
      unfold nextOf
      rw [hdata i (hpre i hi).1 (hpre i hi).2]
    rw [movelink_eq (some e) hseg' ?_ hhead ?_, hdata a hsa has]
    · intro i hi h
      exact (hpre i hi).2 (Option.some.inj h).symm
    have := length_le_of_nodup_lt hnd fun i hi => hm i ((hmem i).mp hi).1
    simp only [length_append, length_cons] at this
    omega
  have hout : ∀ i, slots i → i ≠ s → i ≠ a →
      update (update data e (data s)) a { data a with next := some e } i = data i := by
    intro i hi _ hia
    have hie : i ≠ e := fun h => he (h ▸ hi)
    rw [update_of_ne hia, update_of_ne hie]
  refine ⟨_, F.relocate hs he hc hslots ?_ ?_ ?_ ?_ ?_⟩
  · intro i hi his
    unfold homeOf
    by_cases hia : i = a
    · rw [hia, update_self]
    · rw [hout i hi his hia]
  · unfold homeOf
    rw [update_of_ne hae.symm, update_self]
  · intro i hi his hia
    unfold nextOf
    rw [hout i hi his hia]
  · unfold nextOf
    rw [update_self]
  · unfold nextOf
    rw [update_of_ne hae.symm, update_self]

/-- A record whose position is the free slot `h` starts its chain there. -/
theorem Chained.insertOnly {slots' : ℕ → Prop} (C : Chained hf b n slots data) {h : ℕ} (record : R)
    (hh : ¬ slots h) (hrec : myHashMask (hf record) b n = h)
    (hslots : ∀ i, slots' i ↔ slots i ∨ i = h) (hkeep : ∀ i, slots i → data' i = data i)
    (hnew : data' h = ⟨none, record⟩) : Chained hf b n slots' data' := by
  obtain ⟨chain, F⟩ := C
  refine ⟨_, F.insertOnly hh hslots ?_ ?_ ?_ ?_⟩
  · intro i hi
    rw [homeOf, hkeep i hi, homeOf]
  · rw [homeOf, hnew, hrec]
  · intro i hi
    rw [nextOf, hkeep i hi, nextOf]
  · rw [nextOf, hnew]

variable (hash : Hash R) (mem : R → List UInt8) (key : List UInt8) (length : ℕ) (fuel : ℕ)

/-- The loop of `my_hash_first` ends on linked slots, with a slot of the list if any. -/
theorem myHashFirstLoop_total (flag : Bool) (hseg : Segment (nextOf hash.array) (i :: l) none)
    (hfuel : l.length < fuel) :
    ∃ res, myHashFirstLoop hash mem key length fuel flag i = some res ∧
      ∀ j, res = some j → j ∈ i :: l := by
  induction l generalizing i fuel flag with
  | nil =>
    obtain ⟨fuel, rfl⟩ : ∃ f, fuel = f + 1 := ⟨fuel - 1, by simp at hfuel; omega⟩
    have hnext : (hash.array i).next = none := by simpa [nextOf] using hseg
    rw [myHashFirstLoop, hnext]
    split_ifs <;> simp
  | cons j l ih =>
    obtain ⟨fuel, rfl⟩ : ∃ f, fuel = f + 1 := ⟨fuel - 1, by simp at hfuel; omega⟩
    obtain ⟨hnext, hrest⟩ := hseg
    replace hnext : (hash.array i).next = some j := by simpa [nextOf] using hnext
    rw [myHashFirstLoop, hnext]
    obtain ⟨res, hres, hmem⟩ := ih fuel false hrest (by simpa using hfuel)
    split_ifs
    · simp
    · simp
    · exact ⟨res, hres, fun k hk => mem_cons_of_mem i (hmem k hk)⟩

/-- The loop of `my_hash_next` ends on linked slots, with a slot of the list if any. -/
theorem myHashNextLoop_total (hseg : Segment (nextOf hash.array) l none) (hfuel : l.length ≤ fuel) :
    ∃ res, myHashNextLoop hash mem key length fuel l.head? = some res ∧
      ∀ j, res = some j → j ∈ l := by
  induction l generalizing fuel with
  | nil => exact ⟨none, by rw [head?_nil, myHashNextLoop], by simp⟩
  | cons i l ih =>
    obtain ⟨fuel, rfl⟩ : ∃ f, fuel = f + 1 := ⟨fuel - 1, by simp at hfuel; omega⟩
    obtain ⟨hnext, hrest⟩ := hseg
    replace hnext : (hash.array i).next = l.head? := by simpa [nextOf] using hnext
    rw [head?_cons, myHashNextLoop, hnext]
    obtain ⟨res, hres, hmem⟩ := ih fuel hrest (by simpa using hfuel)
    split_ifs
    · simp
    · exact ⟨res, hres, fun k hk => mem_cons_of_mem i (hmem k hk)⟩

end LibSources
