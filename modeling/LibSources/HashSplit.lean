import LibSources.HashWalk

/-!
# Splitting a Chain in Place

When the table grows by one slot, `my_hash_insert` first distributes the records of one chain
over two: those that stay keep the old head slot, the others get the new one. The loop writes a
link only when the chain it belongs to continues elsewhere than in the old chain, and it leaves
the last slot of each new chain pending.

`Pending` describes one of the two chains under construction and `SplitInv` the whole loop.
By `splitChain_spec`, the table is then chained for one more slot, with one slot free and the
same records.
-/

namespace LibSources

open Function List

open scoped List

variable {R : Type}

/-! ### A chain under construction -/

section

variable (data : ℕ → HashLink R)

/-- The slots `l` hold the records `recs` in order, except that the contents of the last
slot `g` are still to be written: its record is `rec_`. -/
def Pending (l : List ℕ) (g : ℕ) (rec_ : R) (recs : List R) : Prop :=
  (l = [] ∧ recs = []) ∨ ∃ l₀, l = l₀ ++ [g] ∧ Segment (nextOf data) l₀ (some g) ∧
      recs = l₀.map (fun i => (data i).data) ++ [rec_]

variable (g : ℕ) (rec_ : R)

theorem pending_nil : Pending data [] g rec_ [] := .inl ⟨rfl, rfl⟩

theorem pending_singleton : Pending data [g] g rec_ [rec_] := .inr ⟨[], rfl, trivial, rfl⟩

end

variable {rec_ : R} {l : List ℕ} {g : ℕ} {recs : List R} {data data' : ℕ → HashLink R}

theorem Pending.mem (h : Pending data l g rec_ recs) (hl : l ≠ []) : g ∈ l := by
  rcases h with ⟨h, -⟩ | ⟨l0, rfl, -⟩
  · exact absurd h hl
  · simp

theorem Pending.eq_nil (h : Pending data [] g rec_ recs) : recs = [] := by
  rcases h with ⟨-, h⟩ | ⟨l0, h, -⟩
  · exact h
  · simp at h

theorem Pending.congr (h : Pending data l g rec_ recs) (hnd : l.Nodup)
    (hdata : ∀ i ∈ l, i ≠ g → data' i = data i) : Pending data' l g rec_ recs := by
  rcases h with h | ⟨l0, rfl, hseg, rfl⟩
  · exact .inl h
  have heq : ∀ i ∈ l0, data' i = data i := by
    intro i hi
    refine hdata i (mem_append_left _ hi) ?_
    rintro rfl
    simp [nodup_append] at hnd
    exact hnd.2 i hi rfl
  refine .inr ⟨l0, rfl, hseg.congr fun i hi => ?_, ?_⟩
  · simp only [nextOf, heq i hi]
  · exact congrArg (· ++ [rec_]) (map_congr_left fun i hi => by rw [heq i hi])

theorem Pending.extend {pos : ℕ} (h : Pending data l g rec_ recs) (hl : l ≠ []) (hnd : l.Nodup)
    (hdata : ∀ i ∈ l, i ≠ g → data' i = data i) (hg : data' g = ⟨some pos, rec_⟩) (rec' : R) :
    Pending data' (l ++ [pos]) pos rec' (recs ++ [rec']) := by
  rcases h.congr hnd hdata with ⟨h, -⟩ | ⟨l0, rfl, hseg, rfl⟩
  · exact absurd h hl
  refine .inr ⟨l0 ++ [g], rfl, ?_, by simp [hg]⟩
  rw [segment_append]
  exact ⟨hseg, by simp [nextOf, hg]⟩

theorem Pending.finish (h : Pending data l g rec_ recs) (hnd : l.Nodup)
    (hdata : ∀ i ∈ l, i ≠ g → data' i = data i) (hg : l ≠ [] → data' g = ⟨none, rec_⟩) :
    Segment (nextOf data') l none ∧ l.map (fun i => (data' i).data) = recs := by
  rcases h.congr hnd hdata with ⟨rfl, rfl⟩ | ⟨l0, rfl, hseg, rfl⟩
  · exact ⟨trivial, rfl⟩
  have hg := hg (by simp)
  rw [segment_append]
  exact ⟨⟨hseg, by simp [nextOf, hg]⟩, by simp [hg]⟩

/-! ### The invariant of the loop -/

/-- The state of the loop after the slots `P` of the chain, with the slots `Q` to come.
The staying records are in the slots `lo`, the moving ones in the slots `hi`; `t` is the
head of the chain and `x` the new slot. -/
structure SplitInv (orig : ℕ → HashLink R) (low : R → Bool) (t x : ℕ) (P Q : List ℕ)
    (st : Split R) (lo hi : List ℕ) : Prop where
  perm : (st.empty :: (lo ++ hi)).Perm (x :: P)
  lowFind : st.flag.lowFind = !lo.isEmpty
  highFind : st.flag.highFind = !hi.isEmpty
  lowUsed : st.flag.lowUsed = true →
    lo ≠ [] ∧ P.getLast? = some st.gpos ∧ st.data st.gpos = orig st.gpos ∧
      (orig st.gpos).data = st.ptrToRec
  highUsed : st.flag.highUsed = true →
    hi ≠ [] ∧ P.getLast? = some st.gpos2 ∧ st.data st.gpos2 = orig st.gpos2 ∧
      (orig st.gpos2).data = st.ptrToRec2
  headLo : ∀ a, lo.head? = some a → a = t
  headHi : ∀ a, hi.head? = some a → a = x
  emptyHead : lo = [] → hi ≠ [] → st.empty = t
  emptyNew : hi = [] → st.empty = x
  pendLo : Pending st.data lo st.gpos st.ptrToRec ((P.map fun i => (orig i).data).filter low)
  pendHi : Pending st.data hi st.gpos2 st.ptrToRec2
    ((P.map fun i => (orig i).data).filter fun r => !low r)
  keep : ∀ i, i ∉ x :: P → st.data i = orig i

namespace SplitInv

variable {orig : ℕ → HashLink R} {low : R → Bool} {t x : ℕ} {P Q : List ℕ} {st : Split R}
  {lo hi : List ℕ} {pos : ℕ}

section

variable (I : SplitInv orig low t x P Q st lo hi)
include I

/-- The slots in play are the new slot and those already visited. -/
theorem mem_iff (i : ℕ) : i ∈ x :: P ↔ i = st.empty ∨ i ∈ lo ∨ i ∈ hi := by
  rw [← I.perm.mem_iff]
  simp

theorem nodup (hnd : (x :: P).Nodup) : (st.empty :: (lo ++ hi)).Nodup := I.perm.nodup_iff.mpr hnd

end

theorem init (orig : ℕ → HashLink R) (low : R → Bool) (t x : ℕ) (Q : List ℕ) (record : R) :
    SplitInv orig low t x [] Q
      ⟨orig, ⟨false, false, false, false⟩, x, 0, record, 0, record⟩ [] [] where
  perm := List.Perm.refl _
  lowFind := rfl
  highFind := rfl
  lowUsed h := by cases h
  highUsed h := by cases h
  headLo a h := by cases h
  headHi a h := by cases h
  emptyHead _ h := absurd rfl h
  emptyNew _ := rfl
  pendLo := pending_nil _ _ _
  pendHi := pending_nil _ _ _
  keep _ _ := rfl

theorem next_of_last {orig : ℕ → HashLink R} {P Q : List ℕ} {pos : ℕ}
    (hseg : Segment (nextOf orig) (P ++ pos :: Q) none) (hlast : P.getLast? = some g) :
    (orig g).next = some pos := by
  obtain ⟨P', rfl⟩ := getLast?_eq_some_iff.mp hlast
  rw [append_assoc, segment_append] at hseg
  simpa [nextOf] using hseg.2.1

section

variable (I : SplitInv orig low t x P (pos :: Q) st lo hi) (hnd : (x :: (P ++ pos :: Q)).Nodup)
  (hseg : Segment (nextOf orig) (P ++ pos :: Q) none) (hfirst : P = [] → pos = t)
include I hnd hseg hfirst

theorem stepLow (hlow : low (orig pos).data = true) :
    ∃ lo', SplitInv orig low t x (P ++ [pos]) Q (splitLow st pos) lo' hi := by
  have hposP : pos ∉ x :: P := by grind
  have hpos : st.data pos = orig pos := I.keep pos hposP
  have hnd' := I.nodup (by grind : (x :: P).Nodup)
  have hmem := I.mem_iff
  have hrecs : ((P ++ [pos]).map fun i => (orig i).data).filter low =
      ((P.map fun i => (orig i).data).filter low) ++ [(orig pos).data] := by
    simp [hlow]
  have hrecs' : ((P ++ [pos]).map fun i => (orig i).data).filter (fun r => !low r) =
      ((P.map fun i => (orig i).data).filter fun r => !low r) := by
    simp [hlow]
  unfold splitLow
  simp only [hpos]
  by_cases hlo : lo = []
  · subst hlo
    have hlf : st.flag.lowFind = false := by simpa using I.lowFind
    by_cases hhi : hi = []
    · -- the first record of the chain stays where it is
      subst hhi
      have hhf : st.flag.highFind = false := by simpa using I.highFind
      obtain rfl : P = [] := by simpa using I.perm.length_eq.symm
      obtain rfl := hfirst rfl
      simp only [hlf, hhf, Bool.not_false, if_true]
      refine ⟨[pos], ?_, rfl, rfl, ?_, by simp, by simp, by simp, by simp, ?_, ?_, ?_, ?_⟩
      · rw [I.emptyNew rfl]
        exact List.Perm.refl _
      · simp [hpos]
      · exact fun _ => I.emptyNew rfl
      · rw [hrecs]
        exact pending_singleton _ _ _
      · rw [hrecs']
        exact I.pendHi
      · exact fun i hi => I.keep i (by grind)
    -- the first record that stays moves to the head slot, which is free by now
    have hhf : st.flag.highFind = true := by rw [I.highFind]; simpa using hhi
    have hempty := I.emptyHead rfl hhi
    have hnil : (P.map fun i => (orig i).data).filter low = [] := I.pendLo.eq_nil
    simp only [hlf, hhf, Bool.not_false, if_true]
    refine ⟨[t], ?_, rfl, hhf.symm.trans I.highFind, by simp, by simp, by simp, I.headHi, by simp, ?_,
      ?_, ?_, ?_⟩
    · have := I.perm
      rw [hempty] at this
      calc pos :: ([t] ++ hi) = pos :: (t :: ([] ++ hi)) := rfl
        _ ~ pos :: (x :: P) := this.cons pos
        _ ~ x :: (pos :: P) := List.Perm.swap _ _ _
        _ ~ x :: (P ++ [pos]) := (perm_append_singleton pos P).symm.cons x
    · exact fun h => absurd h hhi
    · rw [hrecs, hnil, hempty]
      exact pending_singleton _ _ _
    · rw [hrecs']
      exact I.pendHi
    · exact fun i hi => I.keep i (by grind)
  have hlf : st.flag.lowFind = true := by rw [I.lowFind]; simpa using hlo
  have hg := I.pendLo.mem hlo
  have hperm : (st.empty :: ((lo ++ [pos]) ++ hi)).Perm (x :: (P ++ [pos])) := by
    calc st.empty :: ((lo ++ [pos]) ++ hi) ~ (st.empty :: (lo ++ hi)) ++ [pos] := by
          rw [cons_append, append_assoc, append_assoc]
          exact ((perm_append_comm).append_left lo).cons _
      _ ~ (x :: P) ++ [pos] := I.perm.append_right [pos]
      _ = x :: (P ++ [pos]) := rfl
  have hhead : ∀ a, (lo ++ [pos]).head? = some a → a = t := by
    rw [head?_append_of_ne_nil _ hlo]
    exact I.headLo
  by_cases hused : st.flag.lowUsed = true
  · -- the previous record that stays is linked to this slot already
    obtain ⟨-, hlast, hdata, hrec⟩ := I.lowUsed hused
    simp only [hlf, hused, Bool.not_true, Bool.false_eq_true, if_false]
    refine ⟨lo ++ [pos], hperm, by simp [hlf], I.highFind, ?_, ?_, hhead, I.headHi, by simp,
      I.emptyNew, ?_, ?_, ?_⟩
    · simp [hpos]
    · intro hhigh
      obtain ⟨hne, hlast', -⟩ := I.highUsed hhigh
      have := I.pendHi.mem hne
      grind
    · rw [hrecs]
      refine I.pendLo.extend hlo (by grind) (fun _ _ _ => rfl) ?_ _
      rw [hdata, ← hrec, ← next_of_last hseg hlast]
    · rw [hrecs']
      exact I.pendHi
    · exact fun i hi => I.keep i (by grind)
  · simp only [hlf, hused, Bool.not_true, Bool.not_false, Bool.false_eq_true, if_false, if_true]
    refine ⟨lo ++ [pos], hperm, by simp, I.highFind, ?_, by simp, hhead, I.headHi, by simp,
      I.emptyNew, ?_, ?_, ?_⟩
    · have hne : pos ≠ st.gpos := by grind
      simp [update_of_ne hne, hpos]
    · rw [hrecs]
      refine I.pendLo.extend hlo (by grind) (fun i _ hi => ?_) ?_ _
      · exact update_of_ne hi _ _
      · exact update_self _ _ _
    · rw [hrecs']
      refine I.pendHi.congr (by grind) fun i hi _ => update_of_ne ?_ _ _
      grind
    · intro i hi
      have hne : i ≠ st.gpos := by grind
      exact (update_of_ne hne _ _).trans (I.keep i (by grind))

theorem stepHigh (hhigh : low (orig pos).data = false) :
    ∃ hi', SplitInv orig low t x (P ++ [pos]) Q (splitHigh st pos) lo hi' := by
  have hposP : pos ∉ x :: P := by grind
  have hpos : st.data pos = orig pos := I.keep pos hposP
  have hnd' := I.nodup (by grind : (x :: P).Nodup)
  have hmem := I.mem_iff
  have hrecs : ((P ++ [pos]).map fun i => (orig i).data).filter (fun r => !low r) =
      ((P.map fun i => (orig i).data).filter fun r => !low r) ++ [(orig pos).data] := by
    simp [hhigh]
  have hrecs' : ((P ++ [pos]).map fun i => (orig i).data).filter low =
      ((P.map fun i => (orig i).data).filter low) := by
    simp [hhigh]
  unfold splitHigh
  simp only [hpos]
  by_cases hhi : hi = []
  · -- the first record that moves gets the new slot, and its own slot becomes free
    subst hhi
    have hhf : st.flag.highFind = false := by simpa using I.highFind
    have hempty := I.emptyNew rfl
    have hnil : (P.map fun i => (orig i).data).filter (fun r => !low r) = [] := I.pendHi.eq_nil
    simp only [hhf, Bool.not_false, if_true]
    refine ⟨[x], ?_, I.lowFind, rfl, by simp, by simp, I.headLo, by simp, ?_, by simp, ?_, ?_, ?_⟩
    · have := I.perm
      rw [hempty, append_nil, perm_cons] at this
      calc pos :: (lo ++ [x]) ~ pos :: (x :: lo) := (perm_append_singleton x lo).cons pos
        _ ~ x :: (pos :: lo) := List.Perm.swap _ _ _
        _ ~ x :: (pos :: P) := (this.cons pos).cons x
        _ ~ x :: (P ++ [pos]) := (perm_append_singleton pos P).symm.cons x
    · rintro rfl -
      refine hfirst ?_
      simpa using I.perm.length_eq.symm
    · rw [hrecs']
      exact I.pendLo
    · rw [hrecs, hnil, hempty]
      exact pending_singleton _ _ _
    · exact fun i hi => I.keep i (by grind)
  have hhf : st.flag.highFind = true := by rw [I.highFind]; simpa using hhi
  have hg := I.pendHi.mem hhi
  have hperm : (st.empty :: (lo ++ (hi ++ [pos]))).Perm (x :: (P ++ [pos])) := by
    rw [← append_assoc]
    exact I.perm.append_right [pos]
  have hhead : ∀ a, (hi ++ [pos]).head? = some a → a = x := by
    rw [head?_append_of_ne_nil _ hhi]
    exact I.headHi
  by_cases hused : st.flag.highUsed = true
  · -- the previous record that moves is linked to this slot already
    obtain ⟨-, hlast, hdata, hrec⟩ := I.highUsed hused
    simp only [hhf, hused, Bool.not_true, Bool.false_eq_true, if_false]
    refine ⟨hi ++ [pos], hperm, I.lowFind, by simp [hhf], ?_, ?_, I.headLo, hhead, ?_, by simp,
      ?_, ?_, ?_⟩
    · intro hlow
      obtain ⟨hne, hlast', -⟩ := I.lowUsed hlow
      have := I.pendLo.mem hne
      grind
    · simp [hpos]
    · exact fun h _ => I.emptyHead h hhi
    · rw [hrecs']
      exact I.pendLo
    · rw [hrecs]
      refine I.pendHi.extend hhi (by grind) (fun _ _ _ => rfl) ?_ _
      rw [hdata, ← hrec, ← next_of_last hseg hlast]
    · exact fun i hi => I.keep i (by grind)
  · simp only [hhf, hused, Bool.not_true, Bool.not_false, Bool.false_eq_true, if_false, if_true]
    refine ⟨hi ++ [pos], hperm, I.lowFind, by simp, by simp, ?_, I.headLo, hhead, ?_, by simp,
      ?_, ?_, ?_⟩
    · have hne : pos ≠ st.gpos2 := by grind
      simp [update_of_ne hne, hpos]
    · exact fun h _ => I.emptyHead h hhi
    · rw [hrecs']
      refine I.pendLo.congr (by grind) fun i hi _ => update_of_ne ?_ _ _
      grind
    · rw [hrecs]
      refine I.pendHi.extend hhi (by grind) (fun i _ hi => ?_) ?_ _
      · exact update_of_ne hi _ _
      · exact update_self _ _ _
    · intro i hi
      have hne : i ≠ st.gpos2 := by grind
      exact (update_of_ne hne _ _).trans (I.keep i (by grind))

end

/-- A round for a staying record does not write the slot it visits. -/
theorem splitLow_data (I : SplitInv orig low t x P Q st lo hi) (hpos : pos ∉ x :: P) :
    (splitLow st pos).data pos = orig pos := by
  unfold splitLow
  split_ifs with h1 h2 h3
  · exact I.keep pos hpos
  · exact I.keep pos hpos
  · have hlo : lo ≠ [] := by
      rintro rfl
      simp [I.lowFind] at h1
    have hne : pos ≠ st.gpos := fun h => hpos ((I.mem_iff _).mpr (by simp [h, I.pendLo.mem hlo]))
    exact (update_of_ne hne _ _).trans (I.keep pos hpos)
  · exact I.keep pos hpos

/-- A round for a moving record does not write the slot it visits. -/
theorem splitHigh_data (I : SplitInv orig low t x P Q st lo hi) (hpos : pos ∉ x :: P) :
    (splitHigh st pos).data pos = orig pos := by
  unfold splitHigh
  split_ifs with h1 h2
  · exact I.keep pos hpos
  · have hhi : hi ≠ [] := by
      rintro rfl
      simp [I.highFind] at h1
    have hne : pos ≠ st.gpos2 := fun h => hpos ((I.mem_iff _).mpr (by simp [h, I.pendHi.mem hhi]))
    exact (update_of_ne hne _ _).trans (I.keep pos hpos)
  · exact I.keep pos hpos

/-- One round, for either kind of record. -/
theorem step (I : SplitInv orig low t x P (pos :: Q) st lo hi)
    (hnd : (x :: (P ++ pos :: Q)).Nodup) (hseg : Segment (nextOf orig) (P ++ pos :: Q) none)
    (hfirst : P = [] → pos = t) {c : Prop} [Decidable c] (hc : c ↔ low (orig pos).data = true) :
    ∃ lo' hi', SplitInv orig low t x (P ++ [pos]) Q
        (if c then splitLow st pos else splitHigh st pos) lo' hi' ∧
      (if c then splitLow st pos else splitHigh st pos).data pos = orig pos := by
  have hposP : pos ∉ x :: P := by grind
  by_cases h : c
  · rw [if_pos h]
    obtain ⟨lo', I'⟩ := I.stepLow hnd hseg hfirst (hc.mp h)
    exact ⟨lo', hi, I', I.splitLow_data hposP⟩
  rw [if_neg h]
  obtain ⟨hi', I'⟩ := I.stepHigh hnd hseg hfirst (by simpa [hc] using h)
  exact ⟨lo, hi', I', I.splitHigh_data hposP⟩

theorem splitLoop_eq (info : Hash R) (mem : R → List UInt8) {halfbuff : ℕ} {fuel : ℕ}
    (I : SplitInv orig low t x P (pos :: Q) st lo hi)
    (hnd : (x :: (P ++ pos :: Q)).Nodup) (hseg : Segment (nextOf orig) (P ++ pos :: Q) none)
    (hfirst : P = [] → pos = t)
    (hmask : ∀ i ∈ pos :: Q,
      myHashMask (recHashnr info mem (orig i).data) info.blength info.records = t)
    (hlow : ∀ i ∈ pos :: Q,
      (recHashnr info mem (orig i).data &&& halfbuff = 0 ↔ low (orig i).data = true))
    (hfuel : Q.length < fuel) :
    ∃ st' lo' hi', splitLoop info mem halfbuff t fuel st pos = some st' ∧
      SplitInv orig low t x (P ++ pos :: Q) [] st' lo' hi' := by
  induction Q generalizing P pos st lo hi fuel with
  | nil =>
    obtain ⟨fuel, rfl⟩ : ∃ f, fuel = f + 1 := ⟨fuel - 1, by simp at hfuel; omega⟩
    have hpos : st.data pos = orig pos := I.keep pos (by grind)
    have hnext : (orig pos).next = none := by
      rw [segment_append] at hseg
      simpa [nextOf] using hseg.2.1
    obtain ⟨lo', hi', I', hdata⟩ := I.step hnd hseg hfirst (hlow pos mem_cons_self)
    rw [splitLoop, hpos, if_neg (fun h => h.2 (hmask pos mem_cons_self))]
    simp only [hdata, hnext]
    exact ⟨_, lo', hi', rfl, I'⟩
  | cons pos' Q ih =>
    obtain ⟨fuel, rfl⟩ : ∃ f, fuel = f + 1 := ⟨fuel - 1, by simp at hfuel; omega⟩
    have hpos : st.data pos = orig pos := I.keep pos (by grind)
    have hnext : (orig pos).next = some pos' := by
      rw [segment_append] at hseg
      simpa [nextOf] using hseg.2.1
    obtain ⟨lo', hi', I', hdata⟩ := I.step hnd hseg hfirst (hlow pos mem_cons_self)
    rw [splitLoop, hpos, if_neg (fun h => h.2 (hmask pos mem_cons_self))]
    simp only [hdata, hnext]
    have happ : P ++ pos :: pos' :: Q = (P ++ [pos]) ++ pos' :: Q := by simp
    rw [happ] at hnd hseg ⊢
    exact ih I' hnd hseg (by simp) (fun i hi => hmask i (mem_cons_of_mem pos hi))
      (fun i hi => hlow i (mem_cons_of_mem pos hi)) (by simpa using hfuel)

theorem last_eq {P : List ℕ} (hseg : Segment (nextOf orig) P none) (hlast : P.getLast? = some g) :
    (orig g).next = none := by
  obtain ⟨P', rfl⟩ := getLast?_eq_some_iff.mp hlast
  rw [segment_append] at hseg
  simpa [nextOf] using hseg.2.1

/-- The slot array after the writes that follow the loop: the pending slots end their
chains and nothing else changes. -/
theorem splitFinish_data (I : SplitInv orig low t x P [] st lo hi) (hnd : (x :: P).Nodup)
    (hseg : Segment (nextOf orig) P none) :
    (lo ≠ [] → (splitFinish st).data st.gpos = ⟨none, st.ptrToRec⟩) ∧
      (hi ≠ [] → (splitFinish st).data st.gpos2 = ⟨none, st.ptrToRec2⟩) ∧
      ∀ i, (lo ≠ [] → i ≠ st.gpos) → (hi ≠ [] → i ≠ st.gpos2) →
        (splitFinish st).data i = st.data i := by
  have hnd' := I.nodup hnd
  have hlf := I.lowFind
  have hhf := I.highFind
  have hlu : st.flag.lowUsed = true → st.data st.gpos = ⟨none, st.ptrToRec⟩ := by
    intro h
    obtain ⟨-, hlast, hdata, hrec⟩ := I.lowUsed h
    rw [hdata, ← hrec, ← last_eq hseg hlast]
  have hhu : st.flag.highUsed = true → st.data st.gpos2 = ⟨none, st.ptrToRec2⟩ := by
    intro h
    obtain ⟨-, hlast, hdata, hrec⟩ := I.highUsed h
    rw [hdata, ← hrec, ← last_eq hseg hlast]
  have hne : lo ≠ [] → hi ≠ [] → st.gpos ≠ st.gpos2 := by
    intro h1 h2 heq
    have := I.pendLo.mem h1
    have := I.pendHi.mem h2
    grind
  cases lo with
  | nil =>
    cases hi with
    | nil => simp [splitFinish, hlf, hhf]
    | cons c hi =>
      by_cases hu : st.flag.highUsed = true
      · simp [splitFinish, hlf, hhf, hu, hhu hu]
      · simp [splitFinish, hlf, hhf, hu]
        exact fun i hi => update_of_ne hi _ _
  | cons d lo =>
    cases hi with
    | nil =>
      by_cases hu : st.flag.lowUsed = true
      · simp [splitFinish, hlf, hhf, hu, hlu hu]
      · simp [splitFinish, hlf, hhf, hu]
        exact fun i hi => update_of_ne hi _ _
    | cons c hi =>
      have hne := hne (by simp) (by simp)
      by_cases hu : st.flag.lowUsed = true <;> by_cases hu' : st.flag.highUsed = true
      · simp [splitFinish, hlf, hhf, hu, hu', hlu hu, hhu hu']
      · simp [splitFinish, hlf, hhf, hu, hu', hlu hu, update_of_ne hne]
        exact fun i _ hi => update_of_ne hi _ _
      · simp [splitFinish, hlf, hhf, hu, hu', hhu hu', update_of_ne hne.symm]
        exact fun i hi _ => update_of_ne hi _ _
      · simp [splitFinish, hlf, hhf, hu, hu', update_of_ne hne]
        intro i hi hi'
        rw [update_of_ne hi', update_of_ne hi]

theorem finish (I : SplitInv orig low t x P [] st lo hi) (hnd : (x :: P).Nodup)
    (hseg : Segment (nextOf orig) P none) :
    Segment (nextOf (splitFinish st).data) lo none ∧
      Segment (nextOf (splitFinish st).data) hi none ∧
      lo.map (fun i => ((splitFinish st).data i).data) = (P.map fun i => (orig i).data).filter low ∧
      hi.map (fun i => ((splitFinish st).data i).data) =
        ((P.map fun i => (orig i).data).filter fun r => !low r) ∧
      ∀ i, i ∉ x :: P → (splitFinish st).data i = orig i := by
  have hnd' := I.nodup hnd
  have hg := I.pendLo.mem
  have hg2 := I.pendHi.mem
  obtain ⟨hlo, hhi, hkeep⟩ := I.splitFinish_data hnd hseg
  obtain ⟨hslo, hmlo⟩ := I.pendLo.finish (by grind)
    (fun i hi hne => hkeep i (fun _ => hne) (by grind)) hlo
  obtain ⟨hshi, hmhi⟩ := I.pendHi.finish (by grind)
    (fun i hi hne => hkeep i (by grind) (fun _ => hne)) hhi
  refine ⟨hslo, hshi, hmlo, hmhi, fun i hi => ?_⟩
  have hmem := I.mem_iff i
  rw [hkeep i (by grind) (by grind)]
  exact I.keep i hi

end SplitInv

theorem splitFinish_empty (st : Split R) : (splitFinish st).empty = st.empty := by
  unfold splitFinish
  dsimp only
  split_ifs <;> rfl

variable (info : Hash R) (mem : R → List UInt8) (record : R)

theorem splitChain_eq {t : ℕ}
    (ht : t = info.records - info.blength >>> 1) (hne : t ≠ info.records) :
    splitChain info mem record = (splitLoop info mem (info.blength >>> 1) t (info.records + 1)
        ⟨info.array, ⟨false, false, false, false⟩, info.elements, 0, record, 0, record⟩ t).map
        fun st => ((splitFinish st).data, (splitFinish st).empty) := by
  subst ht
  unfold splitChain
  rw [if_pos hne]
  cases splitLoop info mem (info.blength >>> 1) (info.records - info.blength >>> 1)
    (info.records + 1) ⟨info.array, ⟨false, false, false, false⟩, info.elements, 0, record, 0,
      record⟩ (info.records - info.blength >>> 1) <;> rfl

theorem contents_split {n e : ℕ} {P lo hi : List ℕ} (low : R → Bool) (hP : ∀ i ∈ P, i < n)
    (hnd : (n :: P).Nodup) (hperm : (e :: (lo ++ hi)).Perm (n :: P))
    (hlo : lo.map (fun i => (data' i).data) = (P.map fun i => (data i).data).filter low)
    (hhi : hi.map (fun i => (data' i).data) = (P.map fun i => (data i).data).filter fun r => !low r)
    (hkeep : ∀ i, i ∉ n :: P → data' i = data i) :
    contents ((Finset.range (n + 1)).erase e) data' = contents (Finset.range n) data := by
  have hnd' : (e :: (lo ++ hi)).Nodup := hperm.nodup_iff.mpr hnd
  have hmem : ∀ i, i ∈ e :: (lo ++ hi) ↔ i ∈ n :: P := fun i => hperm.mem_iff
  have hS' : ((Finset.range (n + 1)).erase e).val =
      ↑(lo ++ hi) + ((Finset.range n).filter (· ∉ P)).val := by
    refine (Multiset.Nodup.ext (Finset.nodup _) ?_).mpr ?_
    · refine (Multiset.Nodup.add_iff (Multiset.coe_nodup.mpr (by grind)) (Finset.nodup _)).mpr ?_
      rw [Multiset.disjoint_left]
      intro i hi
      have := hmem i
      simp only [Multiset.mem_coe, Finset.mem_val, Finset.mem_filter, Finset.mem_range] at hi ⊢
      grind
    · intro i
      have := hmem i
      simp only [Finset.mem_val, Finset.mem_erase, Finset.mem_range, Multiset.mem_add,
        Multiset.mem_coe, Finset.mem_filter]
      grind
  have hS : (Finset.range n).val = ↑P + ((Finset.range n).filter (· ∉ P)).val := by
    refine (Multiset.Nodup.ext (Finset.nodup _) ?_).mpr ?_
    · refine (Multiset.Nodup.add_iff (Multiset.coe_nodup.mpr (by grind)) (Finset.nodup _)).mpr ?_
      rw [Multiset.disjoint_left]
      intro i hi
      simp only [Multiset.mem_coe, Finset.mem_val, Finset.mem_filter] at hi ⊢
      tauto
    · intro i
      simp only [Finset.mem_val, Finset.mem_range, Multiset.mem_add, Multiset.mem_coe,
        Finset.mem_filter]
      grind
  unfold contents
  rw [hS', hS, Multiset.map_add, Multiset.map_add]
  congr 1
  · rw [Multiset.map_coe, Multiset.map_coe, map_append, hlo, hhi]
    exact Multiset.coe_eq_coe.mpr (filter_append_perm _ _)
  · refine Multiset.map_congr rfl fun i hi => ?_
    rw [hkeep i (by grind)]

theorem splitChain_spec
    (hlen : LengthOk info.records info.blength) (hel : info.elements = info.records)
    (C : Chained (recHashnr info mem) info.blength info.records (· < info.records) info.array) :
    ∃ data empty, splitChain info mem record = some (data, empty) ∧ empty < info.records + 1 ∧
      Chained (recHashnr info mem) info.blength (info.records + 1)
        (fun i => i < info.records + 1 ∧ i ≠ empty) data ∧
      contents ((Finset.range (info.records + 1)).erase empty) data =
        contents (Finset.range info.records) info.array := by
  obtain ⟨chain, F⟩ := C
  set n := info.records with hn
  set b := info.blength with hb
  set hf := recHashnr info mem with hhf
  have hhalf : b >>> 1 = b / 2 := Nat.shiftRight_one b
  -- positions for `n + 1` slots
  have hhome : ∀ data : ℕ → HashLink R, ∀ i, homeOf hf b (n + 1) data i =
      if hf (data i).data % b = n then n else homeOf hf b n data i :=
    fun data i => myHashMask_succ hlen _
  have hstay : contents ((Finset.range (n + 1)).erase n) info.array =
      contents (Finset.range n) info.array := by
    rw [Finset.range_add_one, Finset.erase_insert Finset.notMem_range_self]
  rcases Nat.eq_zero_or_pos n with h0 | hpos
  · -- the table is empty: there is nothing to split
    refine ⟨info.array, n, ?_, Nat.lt_succ_self n, ⟨chain, F.congr ?_ ?_ ?_⟩, hstay⟩
    · simp [splitChain, ← hn, h0, hel]
    · intro i; omega
    · intro i hi; omega
    · intro i hi; rfl
  set t := n - b / 2 with ht
  have htn : t < n := by
    have := hlen.2
    obtain ⟨k, hk, h1, -⟩ := hlen.exists_half hpos
    have : 0 < 2 ^ k := by positivity
    rw [hk, pow_succ] at ht
    omega
  have hsplit : ∀ h, h % b = n → myHashMask h b n = t := fun h => myHashMask_of_split hlen hpos
  have hne : t ≠ n := htn.ne
  by_cases hhead : homeOf hf b n info.array t = t
  · -- slot `t` heads its chain, which is split
    obtain ⟨Q, hQ⟩ := F.chain_eq_cons htn hhead
    have hmem : ∀ i, i ∈ t :: Q ↔ i < n ∧ homeOf hf b n info.array i = t := by
      intro i
      rw [← hQ]
      exact F.mem_iff t i
    have hnd : (n :: ([] ++ t :: Q)).Nodup := by
      refine nodup_cons.mpr ⟨fun h => lt_irrefl n ((hmem n).mp h).1, ?_⟩
      exact hQ ▸ F.nodup t
    have hseg : Segment (nextOf info.array) ([] ++ t :: Q) none := hQ ▸ F.seg t
    have hfuel : Q.length < n + 1 := by
      have := length_le_of_nodup_lt (hQ ▸ F.nodup t) fun i hi => ((hmem i).mp hi).1
      simp only [length_cons] at this
      omega
    obtain ⟨st, lo, hi, hloop, I⟩ := (SplitInv.init info.array (fun r => decide (hf r % b ≠ n))
      t n (t :: Q) record).splitLoop_eq info mem hnd hseg (fun _ => rfl)
      (fun i hi => ((hmem i).mp hi).2)
      (fun i hi => by
        rw [decide_eq_true_iff]
        exact and_halfbuff_eq_zero_iff hlen hpos ((hmem i).mp hi).2) hfuel
    obtain ⟨hslo, hshi, hmlo, hmhi, hkeep⟩ := I.finish hnd hseg
    have hlt : st.empty < n + 1 := by
      have := (I.mem_iff st.empty).mpr (.inl rfl)
      grind
    refine ⟨(splitFinish st).data, st.empty, ?_, hlt, ?_,
      contents_split _ (fun i hi => ((hmem i).mp hi).1) hnd I.perm hmlo hmhi hkeep⟩
    · rw [splitChain_eq info mem record (hhalf ▸ ht) hne, hel, hloop, Option.map_some,
        splitFinish_empty]
    have hlo : ∀ i ∈ lo, homeOf hf b (n + 1) (splitFinish st).data i = t := by
      intro i hi
      have hr := List.mem_map_of_mem (f := fun i => ((splitFinish st).data i).data) hi
      rw [hmlo] at hr
      obtain ⟨hr, hlow⟩ := mem_filter.mp hr
      obtain ⟨p, hp, heq⟩ := List.mem_map.mp hr
      rw [hhome, if_neg (by simpa using hlow)]
      unfold homeOf
      rw [← heq]
      exact ((hmem p).mp hp).2
    have hhi : ∀ i ∈ hi, homeOf hf b (n + 1) (splitFinish st).data i = n := by
      intro i hi
      have hr := List.mem_map_of_mem (f := fun i => ((splitFinish st).data i).data) hi
      rw [hmhi] at hr
      rw [hhome, if_pos (by simpa using (mem_filter.mp hr).2)]
    have hold : ∀ i, i ∉ n :: ([] ++ t :: Q) → i < n + 1 →
        i < n ∧ homeOf hf b (n + 1) (splitFinish st).data i = homeOf hf b n info.array i ∧
          homeOf hf b n info.array i ≠ t ∧ homeOf hf b n info.array i < n := by
      intro i hi hlt
      have hin : i < n := by grind
      have hnt : homeOf hf b n info.array i ≠ t := by
        intro h
        have := (hmem i).mpr ⟨hin, h⟩
        grind
      refine ⟨hin, ?_, hnt, (F.home_home hin).1⟩
      rw [hhome, hkeep i hi, if_neg fun h => hnt (hsplit _ h)]
      unfold homeOf
      rw [hkeep i hi]
    have hnodup := I.nodup hnd
    have hperm := I.mem_iff
    have hupd : update (update chain t lo) n hi t = lo := by rw [update_of_ne hne, update_self]
    refine ⟨update (update chain t lo) n hi,
      F.of_changed (fun h => h = t ∨ h = n) ?_ ?_ ?_ ?_ ?_ ?_ ?_⟩
    · intro h hh
      rw [update_of_ne (by tauto), update_of_ne (by tauto)]
    · intro i hi hh
      have hout : i ∉ n :: ([] ++ t :: Q) := by
        have := hmem i
        grind
      refine ⟨⟨by omega, by grind⟩, (hold i hout (by omega)).2.1, ?_⟩
      unfold nextOf
      rw [hkeep i hout]
    · rintro i ⟨hlt, hie⟩ hh
      have hout : i ∉ n :: ([] ++ t :: Q) := by grind
      exact ⟨(hold i hout hlt).1, (hold i hout hlt).2.1.symm⟩
    · rintro h (rfl | rfl)
      · rw [hupd]; exact hslo
      · rw [update_self]; exact hshi
    · rintro h (rfl | rfl)
      · rw [hupd]; grind
      · rw [update_self]; grind
    · have hcases : ∀ i, i < n + 1 → i ≠ st.empty → i ∈ lo ∨ i ∈ hi ∨ i ∉ n :: ([] ++ t :: Q) := by
        intro i _ hie
        rw [hperm]
        tauto
      have hin : ∀ i, i ∈ lo ∨ i ∈ hi → i < n + 1 ∧ i ≠ st.empty := by
        intro i hi
        have hi' := (hperm i).mpr (.inr hi)
        grind
      rintro h i (rfl | rfl)
      · rw [hupd]
        refine ⟨fun h => ⟨hin i (.inl h), hlo i h⟩, fun ⟨⟨hlt, hie⟩, hh⟩ => ?_⟩
        rcases hcases i hlt hie with h | h | h
        · exact h
        · exact absurd ((hhi i h).symm.trans hh) hne.symm
        · exact absurd ((hold i h hlt).2.1.symm.trans hh) (hold i h hlt).2.2.1
      rw [update_self]
      refine ⟨fun h => ⟨hin i (.inr h), hhi i h⟩, fun ⟨⟨hlt, hie⟩, hh⟩ => ?_⟩
      rcases hcases i hlt hie with h | h | h
      · exact absurd ((hlo i h).symm.trans hh) hne
      · exact h
      · exact absurd ((hold i h hlt).2.1.symm.trans hh) (hold i h hlt).2.2.2.ne
    · rintro h i l (rfl | rfl) hl
      · rw [hupd] at hl; exact I.headLo i (by rw [hl]; rfl)
      · rw [update_self] at hl; exact I.headHi i (by rw [hl]; rfl)
  · -- slot `t` is occupied by a record of another chain: no record has to move
    have hno : ∀ i < n, hf (info.array i).data % b ≠ n := by
      intro i hi hmod
      have := F.home_home hi
      rw [show homeOf hf b n info.array i = t from hsplit _ hmod] at this
      exact hhead this.2
    refine ⟨info.array, n, ?_, Nat.lt_succ_self n, ⟨chain, F.congr ?_ ?_ ?_⟩, hstay⟩
    · rw [splitChain_eq info mem record (hhalf ▸ ht) hne, hel, splitLoop, if_pos ⟨rfl, hhead⟩]
      rfl
    · intro i; omega
    · intro i hi
      rw [hhome, if_neg (hno i hi)]
    · intro i hi; rfl

end LibSources
