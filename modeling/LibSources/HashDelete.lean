import LibSources.HashInsert

/-!
# Deletion From the Table

`my_hash_delete` takes the record out of its chain, which frees one slot, and then moves
the contents of the last slot so that the table can be cut by one. The positions of the
smaller table merge the chain of the last slot into another chain.
-/

namespace LibSources

open Function List Option

variable {R : Type}

/-- The search for a record from its position finds a slot that stores it, on the chain
that starts there, and fails only when no slot stores it. -/
theorem Chained.findRecord [DecidableEq R] {hf : R → ℕ} {b n h : ℕ} {data : ℕ → HashLink R}
    (C : Chained hf b n (· < n) data) {record : R} (hpos : myHashMask (hf record) b n = h)
    (hlt : h < n) :
    (∃ chain ls p r, ChainFamily (· < n) (homeOf hf b n data) (nextOf data) chain ∧
      chain h = ls ++ p :: r ∧ (data p).data = record ∧
      findRecord data record (n + 1) h none = some (some (p, ls.getLast?))) ∨
    ((∀ i < n, (data i).data ≠ record) ∧ findRecord data record (n + 1) h none = some none) := by
  obtain ⟨l, hseg, hlen, hl⟩ := C.exists_walk_lt hlt
  obtain ⟨chain, F⟩ := C
  have hstored : ∀ i, (data i).data = record → homeOf hf b n data i = h := by
    intro i hi
    rw [homeOf, hi, hpos]
  by_cases hh : homeOf hf b n data h = h
  · -- the slot heads the chain of the record
    obtain ⟨r, hr⟩ := F.chain_eq_cons hlt hh
    have hseg' := F.seg h
    have hnd := F.nodup h
    rw [hr] at hseg' hnd
    have hmem : ∀ x ∈ h :: r, x < n := by
      intro x hx
      rw [← hr] at hx
      exact ((F.mem_iff _ _).mp hx).1
    have hlen' := length_le_of_nodup_lt hnd hmem
    rcases findRecord_eq record (n + 1) none hseg' (by simp at hlen'; omega) with
      ⟨ls, p, r', hsplit, hp, heq⟩ | ⟨hno, heq⟩
    · refine .inl ⟨chain, ls, p, r', F, hr.trans hsplit, hp, ?_⟩
      rw [heq, or_none]
    refine .inr ⟨fun i hi hrec => ?_, heq⟩
    have : i ∈ chain h := (F.mem_iff _ _).mpr ⟨hi, hstored i hrec⟩
    rw [hr] at this
    exact hno i this hrec
  · -- a slot of another chain: no record has this position
    have hnone : ∀ i < n, (data i).data ≠ record := by
      intro i hi hrec
      have := (F.home_home hi).2
      rw [hstored i hrec] at this
      exact hh this
    rcases findRecord_eq record (n + 1) none hseg (by omega) with
      ⟨ls, p, r, hsplit, hp, -⟩ | ⟨-, heq⟩
    · exact absurd hp (hnone p (hl p (by rw [hsplit]; simp)).1)
    · exact .inr ⟨hnone, heq⟩

/-- Taking the slot `p` out of its chain leaves one slot free and keeps the other
records. -/
theorem ChainFamily.unlink {hf : R → ℕ} {b n h : ℕ} {array : ℕ → HashLink R}
    {chain : ℕ → List ℕ} (F : ChainFamily (· < n) (homeOf hf b n array) (nextOf array) chain)
    {ls r : List ℕ} {p : ℕ} (hc : chain h = ls ++ p :: r) :
    ∃ data empty, LibSources.unlink array p ls.getLast? = (data, empty) ∧ empty < n ∧
      Chained hf b n (fun i => i < n ∧ i ≠ empty) data ∧
      contents (Finset.range n) array =
        (array p).data ::ₘ contents ((Finset.range n).erase empty) data ∧
      (empty = p → data p = array p) := by
  have hmem : ∀ i, i ∈ ls ++ p :: r ↔ i < n ∧ homeOf hf b n array i = h := by
    intro i
    rw [← hc]
    exact F.mem_iff _ _
  have hnd := F.nodup h
  have hseg := F.seg h
  rw [hc] at hnd hseg
  obtain ⟨hpn, hph⟩ := (hmem p).mp (by simp)
  rcases eq_nil_or_concat ls with rfl | ⟨l, g, rfl⟩
  · obtain rfl : p = h := F.head_eq _ _ _ hc
    cases r with
    | nil =>
      -- the only record of its chain
      have hnext : (array p).next = none := by simpa [nextOf] using hseg
      refine ⟨array, p, by simp [LibSources.unlink, hnext], hpn, ⟨_, F.eraseOnly hc
        (fun _ => Iff.rfl) (fun _ _ _ => rfl) (fun _ _ _ => rfl)⟩, ?_, fun _ => rfl⟩
      exact contents_erase (Finset.mem_range.mpr hpn) array
    | cons e r =>
      -- a head with a successor: the successor takes its place
      have hnext : (array p).next = some e := by simpa [nextOf] using hseg.1
      obtain ⟨hen, heh⟩ := (hmem e).mp (by simp)
      have hpe : p ≠ e := by
        rintro rfl
        simp at hnd
      have hc' : chain (homeOf hf b n array e) = [] ++ p :: e :: r := by rw [heh, hc, nil_append]
      refine ⟨update array p (array e), e, by simp [LibSources.unlink, hnext], hen,
        ⟨_, F.eraseTail hc' (fun _ => Iff.rfl) ?_ ?_ ?_⟩, ?_, fun h => absurd h.symm hpe⟩
      · intro i _ _
        by_cases hip : i = p
        · rw [hip, homeOf, update_self, hph]
          exact heh
        · rw [homeOf, update_of_ne hip, homeOf]
      · intro i _ _ hip
        rw [nextOf, update_of_ne hip, nextOf]
      · rw [nextOf, update_self, nextOf]
      · refine contents_move _ (Finset.mem_range.mpr hpn) (Finset.mem_range.mpr hen) hpe ?_ ?_
        · rw [update_self]
        · intro i _ hip _
          rw [update_of_ne hip]
  · -- a record with a predecessor
    have hgp : g ≠ p := by grind
    have hc' : chain (homeOf hf b n array p) = l ++ g :: p :: r := by
      rw [hph, hc]
      simp
    refine ⟨update array g { array g with next := (array p).next }, p,
      by simp [LibSources.unlink], hpn,
      ⟨_, F.eraseTail hc' (fun _ => Iff.rfl) ?_ ?_ ?_⟩, ?_, fun _ => ?_⟩
    · intro i _ _
      by_cases hig : i = g
      · rw [hig, homeOf, update_self, homeOf]
      · rw [homeOf, update_of_ne hig, homeOf]
    · intro i _ _ hig
      rw [nextOf, update_of_ne hig, nextOf]
    · rw [nextOf, update_self, nextOf]
    · rw [contents_erase (Finset.mem_range.mpr hpn)]
      refine congrArg _ (contents_congr fun i _ => ?_)
      by_cases hig : i = g
      · rw [hig, update_self]
      · rw [update_of_ne hig]
    · exact update_of_ne hgp.symm _ _

/-! ### Positions of the shorter table -/

theorem update_next_data (data : ℕ → HashLink R) (t i : ℕ) (next : Option ℕ) :
    (update data t { data t with next := next } i).data = (data i).data := by
  by_cases h : i = t
  · rw [h, update_self]
  · rw [update_of_ne h]

section Shrink

variable {hf : R → ℕ} {b b' n : ℕ} {data data' : ℕ → HashLink R} {slots slots' : ℕ → Prop}

/-- Records outside the chain of the last slot keep their position. -/
theorem homeOf_shrink_of_ne (hlen : LengthOk n b') (hb : growLength n b' = b) {i : ℕ}
    (hi : homeOf hf b (n + 1) data i ≠ n) :
    homeOf hf b' n data i = homeOf hf b (n + 1) data i := by
  unfold homeOf at hi ⊢
  rw [← hb, myHashMask_grow hlen] at hi ⊢
  split at hi
  · exact absurd rfl hi
  · rw [if_neg ‹_›]

/-- The records of the chain of the last slot all get the same position. -/
theorem homeOf_shrink_of_eq (hlen : LengthOk n b') (hb : growLength n b' = b) (hn : 0 < n)
    {i : ℕ} (hi : homeOf hf b (n + 1) data i = n) : homeOf hf b' n data i = n - b' / 2 := by
  unfold homeOf at hi ⊢
  rw [← hb, myHashMask_grow hlen] at hi
  split at hi
  · exact myHashMask_of_split hlen hn ‹_›
  · exact absurd hi (myHashMask_lt hlen hn _).ne

theorem Chained.shrink (C : Chained hf b (n + 1) slots data) (hlen : LengthOk n b')
    (hb : growLength n b' = b) (hslots : ∀ i, slots' i ↔ slots i)
    (hno : ¬ (slots n ∧ homeOf hf b (n + 1) data n = n)) : Chained hf b' n slots' data := by
  obtain ⟨chain, F⟩ := C
  refine ⟨chain, F.congr hslots (fun i hi => homeOf_shrink_of_ne hlen hb fun h => ?_)
    fun _ _ => rfl⟩
  have hhome := F.home_home hi
  rw [h] at hhome
  exact hno hhome

/-- The position of the records of two chains in the shorter table, as the merge rules of
chain families state it. -/
theorem homeOf_shrink (hlen : LengthOk n b') (hb : growLength n b' = b) (hn : 0 < n)
    (hhome : homeOf hf b (n + 1) data n = n) {t : ℕ} (ht : homeOf hf b' n data n = t) {i : ℕ}
    (hi : (data' i).data = (data i).data) :
    homeOf hf b' n data' i =
      if homeOf hf b (n + 1) data i = n then t else homeOf hf b (n + 1) data i := by
  have hdata : homeOf hf b' n data' i = homeOf hf b' n data i := by rw [homeOf, hi, homeOf]
  rw [hdata]
  split
  · rename_i h
    rw [homeOf_shrink_of_eq hlen hb hn h, ← ht, homeOf_shrink_of_eq hlen hb hn hhome]
  · exact homeOf_shrink_of_ne hlen hb ‹_›

theorem Chained.absorbMove (C : Chained hf b (n + 1) slots data) (data' : ℕ → HashLink R)
    (hlen : LengthOk n b') (hb : growLength n b' = b) (hn : 0 < n) (hs : slots n)
    (hhome : homeOf hf b (n + 1) data n = n) {t : ℕ} (ht : homeOf hf b' n data n = t)
    (hfree : ¬ slots t) (hslots : ∀ i, slots' i ↔ (slots i ∧ i ≠ n) ∨ i = t)
    (hkeep : ∀ i, slots i → i ≠ n → data' i = data i) (hnew : data' t = data n) :
    Chained hf b' n slots' data' := by
  obtain ⟨chain, F⟩ := C
  obtain ⟨r, hr⟩ := F.chain_eq_cons hs hhome
  refine ⟨_, F.moveChain hr hfree hslots ?_ ?_ ?_ ?_⟩
  · intro i hi hin
    exact homeOf_shrink hlen hb hn hhome ht (by rw [hkeep i hi hin])
  · rw [homeOf, hnew]
    exact ht
  · intro i hi hin
    rw [nextOf, hkeep i hi hin, nextOf]
  · rw [nextOf, hnew, nextOf]

theorem Chained.absorbMerge (C : Chained hf b (n + 1) slots data) (slots' : ℕ → Prop)
    (hlen : LengthOk n b') (hb : growLength n b' = b) (hn : 0 < n) (hs : slots n)
    (hhome : homeOf hf b (n + 1) data n = n) {t e m : ℕ} (ht : homeOf hf b' n data n = t)
    (htt : homeOf hf b' n data t = t) (hst : slots t) (he : ¬ slots e) (hm : ∀ i, slots i → i < m)
    (hslots : ∀ i, slots' i ↔ (slots i ∧ i ≠ n) ∨ i = e) (htn : t ≠ n) :
    ∃ data2, movelink (if homeOf hf b (n + 1) data n = homeOf hf b (n + 1) data t then some t
          else none) (data t).next m (update data e (data n)) e = some data2 ∧
      Chained hf b' n slots' (update data2 t { data2 t with next := some e }) ∧
      ∀ i, (data2 i).data = (update data e (data n) i).data := by
  obtain ⟨chain, F⟩ := C
  obtain ⟨r, hr⟩ := F.chain_eq_cons hs hhome
  have hmem : ∀ i, i ∈ n :: r ↔ slots i ∧ homeOf hf b (n + 1) data i = n := by
    intro i
    rw [← hr]
    exact F.mem_iff _ _
  have hseg := F.seg n
  have hnd := F.nodup n
  rw [hr] at hseg hnd
  have hte : t ≠ e := fun h => he (h ▸ hst)
  have hne : n ≠ e := fun h => he (h ▸ hs)
  have hlen' := length_le_of_nodup_lt hnd fun i hi => hm i ((hmem i).mp hi).1
  -- the slot `e` stands for the last slot before the rest of its chain
  have hwalk : ∀ w t', Segment (nextOf data) (n :: w) t' → (∀ x ∈ w, x ∈ r) →
      Segment (nextOf (update data e (data n))) (e :: w) t' := by
    intro w t' hw hsub
    refine ⟨?_, hw.2.congr fun x hx => ?_⟩
    · rw [nextOf, update_self]
      exact hw.1
    have hxe : x ≠ e := by
      rintro rfl
      exact he ((hmem x).mp (mem_cons_of_mem n (hsub x hx))).1
    rw [nextOf, update_of_ne hxe, nextOf]
  have her : e ∉ r := fun h => he ((hmem e).mp (mem_cons_of_mem n h)).1
  rw [hhome]
  by_cases hsame : homeOf hf b (n + 1) data t = n
  · -- slot `t` is itself a member of the chain of the last slot
    have htr : t ∈ r := by
      have := (hmem t).mpr ⟨hst, hsame⟩
      simpa [htn] using this
    obtain ⟨l, q, rfl⟩ := append_of_mem htr
    rw [if_pos hsame.symm]
    rw [← cons_append, segment_append] at hseg
    have htl : t ∉ l := by grind
    obtain ⟨data2, hmove, hseg2, hkeep, hdata⟩ := movelink_segment m (w := e :: l) (data t).next
      (hwalk l _ hseg.1 (by simp +contextual)) (by grind) (by grind) rfl
      (by simp at hlen' ⊢; omega)
    have hkeep' : ∀ i, i ≠ t → i ∉ e :: l →
        update data2 t { data2 t with next := some e } i = data i := by
      intro i hit hi
      rw [update_of_ne hit, hkeep i hi, update_of_ne (by grind)]
    refine ⟨data2, by simpa using hmove,
      ⟨_, F.mergeMember (l := l) (r := q) hr he hslots ?_ ?_ ?_ ?_ ?_⟩, hdata⟩
    · intro i hi _
      have hie : i ≠ e := fun h => he (h ▸ hi)
      refine homeOf_shrink hlen hb hn hhome ht ?_
      rw [update_next_data, hdata, update_of_ne hie]
    · rw [homeOf, update_next_data, hdata, update_self]
      exact ht
    · intro i hi hin
      have hie : i ≠ e := fun h => he (h ▸ hi)
      have hir : i ∉ l ++ t :: q := fun h => hin ((hmem i).mp (mem_cons_of_mem n h)).2
      rw [nextOf, hkeep' i (by grind) (by grind), nextOf]
    · rw [nextOf, update_self]
    · rw [← cons_append, segment_append]
      have hq := hseg.2
      rw [segment_cons] at hq
      refine ⟨?_, hq.2.congr fun x hx => ?_⟩
      · rw [← hq.1]
        refine hseg2.congr fun x hx => ?_
        rw [nextOf, update_of_ne (by grind), nextOf]
      · rw [nextOf, hkeep' x (by grind) (by grind), nextOf]
  · -- two different chains
    rw [if_neg (Ne.symm hsame)]
    have htt' : homeOf hf b (n + 1) data t = t := by rw [← homeOf_shrink_of_ne hlen hb hsame, htt]
    obtain ⟨q, hq⟩ := F.chain_eq_cons hst htt'
    have htr : t ∉ r := fun h => hsame ((hmem t).mp (mem_cons_of_mem n h)).2
    obtain ⟨data2, hmove, hseg2, hkeep, hdata⟩ := movelink_segment m (w := e :: r) (data t).next
      (hwalk r _ hseg fun _ hx => hx) (by grind) (by grind) rfl (by simpa using hlen')
    refine ⟨data2, hmove, ⟨_, F.mergeHead hr hq (Ne.symm htn) he hslots ?_ ?_ ?_ ?_ ?_⟩, hdata⟩
    · intro i hi _
      have hie : i ≠ e := fun h => he (h ▸ hi)
      refine homeOf_shrink hlen hb hn hhome ht ?_
      rw [update_next_data, hdata, update_of_ne hie]
    · rw [homeOf, update_next_data, hdata, update_self]
      exact ht
    · intro i hi hin hit
      have hie : i ≠ e := fun h => he (h ▸ hi)
      have hir : i ∉ r := fun h => hin ((hmem i).mp (mem_cons_of_mem n h)).2
      rw [nextOf, update_of_ne hit, hkeep i (by grind), update_of_ne hie, nextOf]
    · rw [nextOf, update_self]
    · refine hseg2.congr fun x hx => ?_
      rw [nextOf, update_of_ne (by grind), nextOf]

end Shrink

theorem contents_last {n empty : ℕ} (hempty : empty < n) (data : ℕ → HashLink R) :
    contents ((Finset.range (n + 1)).erase empty) data =
      (data n).data ::ₘ contents ((Finset.range n).erase empty) data := by
  have hmem : n ∈ (Finset.range (n + 1)).erase empty := by
    simp only [Finset.mem_erase, Finset.mem_range]
    omega
  rw [contents_erase hmem]
  refine congrArg _ (congrArg (contents · data) ?_)
  ext i
  simp only [Finset.mem_erase, Finset.mem_range]
  omega

/-- The second half of `my_hash_delete`, from a table of `hash.records + 1` slots of the
old length `b` of which `empty` is free. -/
theorem moveLast_spec (hash : Hash R) (mem : R → List UInt8) {b empty : ℕ}
    {data : ℕ → HashLink R} (hlen : LengthOk hash.records hash.blength)
    (hb : growLength hash.records hash.blength = b) (hempty : empty < hash.records + 1)
    (C : Chained (recHashnr hash mem) b (hash.records + 1)
      (fun i => i < hash.records + 1 ∧ i ≠ empty) data) :
    ∃ array, moveLast hash mem b data empty = some array ∧
      Chained (recHashnr hash mem) hash.blength hash.records (· < hash.records) array ∧
      contents (Finset.range hash.records) array =
        contents ((Finset.range (hash.records + 1)).erase empty) data := by
  set n := hash.records
  set b' := hash.blength
  set hf := recHashnr hash mem
  by_cases hlast : empty = n
  · refine ⟨data, by rw [moveLast, if_pos hlast], C.shrink hlen hb ?_ ?_, ?_⟩
    · intro i
      omega
    · exact fun h => h.1.2 hlast.symm
    refine congrArg (contents · data) ?_
    ext i
    simp only [Finset.mem_erase, Finset.mem_range]
    omega
  have hen : empty < n := by omega
  have hn : 0 < n := by omega
  have hsn : n < n + 1 ∧ n ≠ empty := by omega
  rw [contents_last hen]
  set pos := homeOf hf b' n data n with hpos
  have hposlt : pos < n := myHashMask_lt hlen hn _
  by_cases hpe : pos = empty
  · -- the free slot is the new position of the last record
    refine ⟨update data empty (data n), ?_, ?_, ?_⟩
    · rw [moveLast, if_neg hlast]
      exact if_pos hpe
    · have hhome : homeOf hf b (n + 1) data n = n := by
        by_contra hne
        obtain ⟨chain, F⟩ := C
        have := (F.home_home hsn).1.2
        rw [← homeOf_shrink_of_ne hlen hb hne] at this
        exact this hpe
      refine C.absorbMove _ hlen hb hn hsn hhome (hpos.symm.trans hpe) (fun h => h.2 rfl)
        (by intro i; omega) ?_ (update_self _ _ _)
      rintro i ⟨-, hi⟩ -
      exact update_of_ne hi _ _
    · rw [contents_replace data (Finset.mem_range.mpr hen), update_self]
      intro i _ hi
      rw [update_of_ne hi]
  have hspos : pos < n + 1 ∧ pos ≠ empty := ⟨by omega, hpe⟩
  by_cases hpos3 : pos = homeOf hf b' n data pos
  · -- the occupant stays: both chains are at the same position of the shorter table
    have hd1 : update data empty (data n) pos = data pos := update_of_ne hpe _ _
    have hcontents : ∀ array : ℕ → HashLink R,
        (∀ i, (array i).data = (update data empty (data n) i).data) →
        contents (Finset.range n) array =
          (data n).data ::ₘ contents ((Finset.range n).erase empty) data := by
      intro array harray
      rw [contents_replace data (Finset.mem_range.mpr hen), harray, update_self]
      intro i _ hi
      rw [harray, update_of_ne hi]
    by_cases hin : homeOf hf b (n + 1) data n = n
    · obtain ⟨data2, hmove, C', hdata⟩ := C.absorbMerge (· < n) hlen hb hn hsn hin
        hpos.symm hpos3.symm hspos (m := n + 2) (fun h => h.2 rfl) (fun i hi => by omega)
        (by intro i; omega) hposlt.ne
      refine ⟨_, ?_, C', hcontents _ fun i => by rw [update_next_data, hdata]⟩
      rw [moveLast, if_neg hlast]
      refine (if_neg hpe).trans ((if_neg (not_not.mpr hpos3)).trans ((if_neg ?_).trans ?_))
      · exact fun h => h.2 hin
      · rw [← hd1] at hmove
        exact congrArg (Option.bind · _) hmove
    -- the last slot is a later member of the chain at its position
    have hhome : homeOf hf b (n + 1) data n = pos := (homeOf_shrink_of_ne hlen hb hin).symm
    obtain ⟨a, ⟨-, hae⟩, -, -, hmove, C'⟩ := C.relocate (m := n + 2) (· < n)
      (update data empty (data n)) hsn (e := empty) (fun h => h.2 rfl) hin
      (fun i hi => by omega) (by intro i; omega)
      (by
        rintro i ⟨-, hi⟩ -
        exact update_of_ne hi _ _)
    have hsame : homeOf hf b (n + 1) data n = homeOf hf b (n + 1) data pos := by
      obtain ⟨chain, F⟩ := C
      have := (F.home_home hsn).2
      rw [hhome] at this ⊢
      exact this.symm
    refine ⟨_, ?_, C'.shrink hlen hb (fun _ => Iff.rfl) (fun h => lt_irrefl n h.1), ?_⟩
    · rw [moveLast, if_neg hlast]
      refine (if_neg hpe).trans ((if_neg (not_not.mpr hpos3)).trans ((if_pos ?_).trans ?_))
      · exact ⟨hsame, hin⟩
      · rw [hhome] at hmove
        exact hmove
    · refine hcontents _ fun i => ?_
      by_cases hia : i = a
      · rw [hia, update_self, update_of_ne hae]
      · rw [update_of_ne hia]
  -- the occupant belongs elsewhere and makes room
  have hhome : homeOf hf b (n + 1) data n = n := by
    by_contra hne
    have hpos' : homeOf hf b (n + 1) data n = pos := (homeOf_shrink_of_ne hlen hb hne).symm
    obtain ⟨chain, F⟩ := C
    have := (F.home_home hsn).2
    rw [hpos'] at this
    exact hpos3 ((homeOf_shrink_of_ne hlen hb (by omega)).trans this).symm
  have hpn : homeOf hf b (n + 1) data pos ≠ n := by
    intro h
    refine hpos3 (hpos.trans ?_)
    rw [homeOf_shrink_of_eq hlen hb hn hhome, homeOf_shrink_of_eq hlen hb hn h]
  have hold := homeOf_shrink_of_ne hlen hb hpn
  set data1 := update data empty (data pos) with hdata1
  have hd1 : data1 n = data n := update_of_ne hsn.2 _ _
  obtain ⟨a, ⟨-, hae⟩, hap, hahome, hmove, C'⟩ := C.relocate (m := n + 2)
    (fun i => i < n + 1 ∧ i ≠ pos) (update data1 pos (data1 n))
    hspos (e := empty) (fun h => h.2 rfl) (fun h => hpos3 (hold.trans h).symm)
    (fun i hi => by omega) (by intro i; omega)
    (by
      rintro i ⟨-, hi⟩ hip
      rw [update_of_ne hip, hdata1, update_of_ne hi])
  have han : a ≠ n := by
    rintro rfl
    exact hpn (hahome.symm.trans hhome)
  have hn3 : update data1 a { data a with next := some empty } n = data n := by
    rw [update_of_ne han.symm, hd1]
  refine ⟨_, ?_, C'.absorbMove (t := pos) (update (update data1 pos (data1 n)) a
      { data a with next := some empty }) hlen hb hn ⟨Nat.lt_succ_self n, hposlt.ne'⟩ ?_ ?_
      (fun h => h.2 rfl) (by intro i; omega) ?_ ?_, ?_⟩
  · rw [moveLast, if_neg hlast]
    refine (if_neg hpe).trans ((if_pos hpos3).trans ?_)
    rw [← hold] at hmove
    exact hmove
  · rw [homeOf, hn3]
    exact hhome
  · rw [homeOf, hn3]
    exact hpos.symm
  · rintro i ⟨-, hip⟩ -
    by_cases hia : i = a
    · rw [hia, update_self, update_self]
    · rw [update_of_ne hia, update_of_ne hia, update_of_ne hip]
  · rw [hn3, update_of_ne hap.symm, update_self, hd1]
  · rw [contents_move data (s := pos) (Finset.mem_range.mpr hposlt)
      (Finset.mem_range.mpr hen) hpe, update_of_ne hap.symm, update_self, hd1]
    · rw [update_of_ne hae.symm, update_of_ne (Ne.symm hpe), hdata1, update_self]
    intro i _ hip hie
    by_cases hia : i = a
    · rw [hia, update_self]
    · rw [update_of_ne hia, update_of_ne hip, hdata1, update_of_ne hie]

/-- `my_hash_delete` returns on every valid table. It removes one occurrence of a stored
record, and it reports a record that is not stored and changes nothing. -/
theorem HashInv.myHashDelete [DecidableEq R] {hash : Hash R} {mem : R → List UInt8}
    {stored : Multiset R} (I : HashInv hash mem stored) (record : R) :
    (record ∉ stored ∧ myHashDelete hash mem record = some (hash, true)) ∨
    ∃ hash' stored', stored = record ::ₘ stored' ∧
      myHashDelete hash mem record = some (hash', false) ∧ HashInv hash' mem stored' := by
  have hstored : (∀ i < hash.records, (hash.array i).data ≠ record) → record ∉ stored := by
    intro h hmem
    rw [← I.stored_eq, mem_contents] at hmem
    obtain ⟨i, hi, hrec⟩ := hmem
    exact h i (Finset.mem_range.mp hi) hrec
  unfold LibSources.myHashDelete
  rcases Nat.eq_zero_or_pos hash.records with hn | hn
  · exact .inl ⟨hstored fun i hi => by omega, if_pos hn⟩
  rw [if_neg hn.ne']
  have hlt := myHashMask_lt I.length hn (recHashnr hash mem record)
  rcases I.chained.findRecord rfl hlt with ⟨chain, ls, p, r, F, hc, hp, hfind⟩ | ⟨hno, hfind⟩
  · obtain ⟨data, empty, hunlink, hempty, C, hcont, -⟩ := F.unlink hc
    have hsucc : hash.records - 1 + 1 = hash.records := Nat.sub_add_cancel hn
    obtain ⟨hlen, hgrow⟩ := LengthOk.shrink (n := hash.records - 1) (hsucc.symm ▸ I.length)
    rw [← hsucc] at hempty C hcont
    obtain ⟨array, hmove, C', hcont'⟩ := moveLast_spec
      { hash with
        records := hash.records - 1
        blength := if hash.records - 1 < hash.blength >>> 1 then hash.blength >>> 1
                   else hash.blength } mem hlen hgrow hempty C
    refine .inr ⟨_, contents ((Finset.range (hash.records - 1 + 1)).erase empty) data, ?_,
      by simp only [hfind, hunlink, hmove, bind_eq_bind, bind_some]; rfl, ?_⟩
    · rw [← I.stored_eq, ← hp, ← hcont, hsucc]
    exact {
      length := hlen
      elements_eq := congrArg (· - 1) I.elements_eq
      chained := C'
      stored_eq := hcont' }
  · refine .inl ⟨hstored hno, ?_⟩
    simp only [hfind]
    rfl

end LibSources
