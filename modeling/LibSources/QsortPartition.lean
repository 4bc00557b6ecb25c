import LibSources.Qsort

/-!
# The Parts of `my_qsort`

The median, the insertion sort and the partition of a segment, for a comparison function that is
a total preorder. All of them stay within the segment.
-/

namespace LibSources

open Option

structure Comparison (α : Type) where
  cmp : α → α → ℤ
  pos_iff : ∀ a b, 0 < cmp a b ↔ cmp b a < 0
  trans : ∀ a b c, cmp a b ≤ 0 → cmp b c ≤ 0 → cmp a c ≤ 0

variable {α : Type} (c : Comparison α) {count : ℕ}

def Comparison.Le (a b : α) : Prop := c.cmp a b ≤ 0

section

variable {c}

theorem Comparison.Le.trans {a b d : α} (h : c.Le a b) (h' : c.Le b d) : c.Le a d :=
  c.trans a b d h h'

theorem Comparison.le_of_not_neg {a b : α} (h : ¬ c.cmp a b < 0) : c.Le b a :=
  not_lt.mp fun hpos => h ((c.pos_iff b a).mp hpos)

theorem Comparison.le_of_pos {a b : α} (h : 0 < c.cmp a b) : c.Le b a := ((c.pos_iff a b).mp h).le

theorem Comparison.le_refl (c : Comparison α) (a : α) : c.Le a a :=
  not_lt.mp fun hpos => absurd ((c.pos_iff a a).mp hpos) (not_lt.mpr hpos.le)

end

/-! ### Access -/

def InArray (count : ℕ) (i : ℤ) : Prop := 0 ≤ i ∧ i < count

section

variable {arr : ℤ → α} {i j : ℤ}

theorem elementAt_of_mem (hi : InArray count i) : elementAt count arr i = some (arr i) := if_pos hi

theorem swapElements_of_mem (hi : InArray count i) (hj : InArray count j) :
    swapElements count arr i j = some (exchange arr i j) := by
  rw [swapElements, elementAt_of_mem hi, elementAt_of_mem hj]
  rfl

theorem compareAt_of_mem (cmp : α → α → ℤ) (hi : InArray count i) (hj : InArray count j) :
    compareAt cmp count arr i j = some (cmp (arr i) (arr j)) := by
  rw [compareAt, elementAt_of_mem hi, elementAt_of_mem hj]
  rfl

end

section

variable (arr : ℤ → α)

theorem swapIfLess_spec {low high : ℤ} (hlow : InArray count low)
    (hhigh : InArray count high) (hle : low ≤ high) :
    ∃ arr', swapIfLess c.cmp count arr high low = some arr' ∧ Rearranged arr arr' low high ∧
      c.Le (arr' low) (arr' high) := by
  rw [swapIfLess, compareAt_of_mem _ hhigh hlow, bind_eq_bind, bind_some]
  by_cases hneg : c.cmp (arr high) (arr low) < 0
  · rw [if_pos hneg, swapElements_of_mem hhigh hlow]
    refine ⟨_, rfl, Rearranged.swap arr ⟨hle, le_rfl⟩ ⟨le_rfl, hle⟩, ?_⟩
    rw [exchange_left, exchange_right]
    exact hneg.le
  · rw [if_neg hneg]
    exact ⟨arr, rfl, Rearranged.refl .., Comparison.le_of_not_neg hneg⟩

theorem median_spec {low mid high : ℤ} (hlow : InArray count low)
    (hmid : InArray count mid) (hhigh : InArray count high) (hlt : low < mid) (hlt' : mid < high) :
    ∃ arr', median c.cmp count arr low mid high = some arr' ∧ Rearranged arr arr' low high ∧
      c.Le (arr' low) (arr' mid) ∧ c.Le (arr' mid) (arr' high) := by
  obtain ⟨arr1, harr1, hre, hle⟩ := swapIfLess_spec c arr hlow hhigh (by omega)
  rw [median, harr1, bind_eq_bind, bind_some, compareAt_of_mem _ hmid hlow, bind_eq_bind, bind_some]
  by_cases hneg : c.cmp (arr1 mid) (arr1 low) < 0
  · rw [if_pos hneg, swapElements_of_mem hmid hlow]
    refine ⟨_, rfl, hre.trans (Rearranged.swap arr1 ⟨by omega, by omega⟩ ⟨le_rfl, by omega⟩),
      ?_, ?_⟩
    · rw [exchange_left, exchange_right]
      exact hneg.le
    · rw [exchange_left, exchange_of_ne (by omega) (by omega)]
      exact hle
  rw [if_neg hneg, compareAt_of_mem _ hhigh hmid, bind_some]
  have hle' := Comparison.le_of_not_neg hneg
  by_cases hneg' : c.cmp (arr1 high) (arr1 mid) < 0
  · rw [if_pos hneg', swapElements_of_mem hmid hhigh]
    refine ⟨_, rfl, hre.trans (Rearranged.swap arr1 ⟨by omega, by omega⟩ ⟨by omega, le_rfl⟩),
      ?_, ?_⟩
    · rw [exchange_left, exchange_of_ne (by omega) (by omega)]
      exact hle
    · rw [exchange_left, exchange_right]
      exact hneg'.le
  · rw [if_neg hneg']
    exact ⟨arr1, rfl, hre, hle', Comparison.le_of_not_neg hneg'⟩

/-! ### Insertion sort -/

def SortedOn (lo hi : ℤ) : Prop := ∀ i j, lo ≤ i → i < j → j ≤ hi → c.Le (arr i) (arr j)

end

/-- The elements from `lo` to `hi` are in order except for the one at `ptr`, which is not greater
than those behind it. -/
structure Inserting (arr : ℤ → α) (lo hi ptr : ℤ) : Prop where
  others : ∀ i j, lo ≤ i → i < j → j ≤ hi → i ≠ ptr → j ≠ ptr → c.Le (arr i) (arr j)
  behind : ∀ j, ptr < j → j ≤ hi → c.Le (arr ptr) (arr j)

section

variable {c} {arr : ℤ → α}

theorem Inserting.step {lo hi ptr : ℤ} (h : Inserting c arr lo hi ptr)
    (hlo : lo < ptr) (hpos : 0 < c.cmp (arr (ptr - 1)) (arr ptr)) :
    Inserting c (exchange arr ptr (ptr - 1)) lo hi (ptr - 1) := by
  have hleft : exchange arr ptr (ptr - 1) ptr = arr (ptr - 1) := exchange_left ..
  have hright : exchange arr ptr (ptr - 1) (ptr - 1) = arr ptr := exchange_right ..
  refine ⟨fun i j hi hij hj hne hne' => ?_, fun j hj hj' => ?_⟩
  · by_cases hi' : i = ptr
    · rw [hi', hleft, exchange_of_ne (by omega) hne']
      exact h.others _ _ (by omega) (by omega) hj (by omega) (by omega)
    rw [exchange_of_ne hi' hne]
    by_cases hj' : j = ptr
    · rw [hj', hleft]
      exact h.others _ _ hi (by omega) (by omega) hi' (by omega)
    · rw [exchange_of_ne hj' hne']
      exact h.others _ _ hi hij hj hi' hj'
  · rw [hright]
    by_cases heq : j = ptr
    · rw [heq, hleft]
      exact Comparison.le_of_pos hpos
    · rw [exchange_of_ne heq (by omega)]
      exact h.behind j (by omega) hj'

theorem Inserting.sorted {lo hi ptr : ℤ} (h : Inserting c arr lo hi ptr)
    (hlo : lo ≤ ptr) (hplace : lo < ptr → c.Le (arr (ptr - 1)) (arr ptr)) :
    SortedOn c arr lo hi := by
  intro i j hi hij hj
  by_cases hi' : i = ptr
  · rw [hi'] at hij ⊢
    exact h.behind j hij hj
  by_cases hj' : j = ptr
  · rw [hj'] at hij hj ⊢
    have hbefore := hplace (by omega)
    by_cases heq : i = ptr - 1
    · rwa [heq]
    · exact (h.others i (ptr - 1) hi (by omega) (by omega) hi' (by omega)).trans hbefore
  · exact h.others i j hi hij hj hi' hj'

end

theorem insertDown_spec {low : ℤ} {n k : ℕ} (hn : n ≤ k) (hlow : 0 ≤ low) (hk : low + k < count)
    {arr : ℤ → α} (h : Inserting c arr low (low + k) (low + n)) :
    ∃ arr', insertDown c.cmp count low n arr = some arr' ∧
      Rearranged arr arr' low (low + k) ∧ SortedOn c arr' low (low + k) := by
  induction n generalizing arr with
  | zero =>
    refine ⟨arr, rfl, Rearranged.refl .., h.sorted (by omega) fun hlt => ?_⟩
    exact absurd hlt (by omega)
  | succ n ih =>
    have hmem : InArray count (low + n) := ⟨by omega, by omega⟩
    have hmem' : InArray count (low + (n + 1)) := ⟨by omega, by omega⟩
    have hprev : low + (n + 1) - 1 = low + (n : ℤ) := by ring
    rw [Nat.cast_succ] at h
    rw [insertDown, compareAt_of_mem _ hmem hmem', bind_eq_bind, bind_some]
    by_cases hpos : 0 < c.cmp (arr (low + n)) (arr (low + (n + 1)))
    · have hstep := h.step (by omega) (by rwa [hprev])
      rw [hprev] at hstep
      obtain ⟨arr', heq, hre, hsorted⟩ := ih (by omega) hstep
      rw [if_pos hpos, swapElements_of_mem hmem' hmem, bind_eq_bind, bind_some]
      refine ⟨arr', heq, Rearranged.trans ?_ hre, hsorted⟩
      exact Rearranged.swap arr ⟨by omega, by omega⟩ ⟨by omega, by omega⟩
    · rw [if_neg hpos]
      refine ⟨arr, rfl, Rearranged.refl .., h.sorted (by omega) fun _ => ?_⟩
      rw [hprev]
      exact not_lt.mp hpos

theorem insertSort_spec {low : ℤ} (n : ℕ) (hlow : 0 ≤ low) (hn : low + n < count) (arr : ℤ → α) :
    ∃ arr', insertSort c.cmp count low n arr = some arr' ∧
      Rearranged arr arr' low (low + n) ∧ SortedOn c arr' low (low + n) := by
  induction n with
  | zero => exact ⟨arr, rfl, Rearranged.refl .., fun i j hi hij hj => absurd hij (by omega)⟩
  | succ n ih =>
    obtain ⟨arr1, heq, hre, hsorted⟩ := ih (by omega)
    have hinserting : Inserting c arr1 low (low + (n + 1 : ℕ)) (low + (n + 1 : ℕ)) := by
      refine ⟨fun i j hi hij hj hne hne' => ?_, fun j hj hj' => absurd hj (by omega)⟩
      exact hsorted i j hi hij (by omega)
    obtain ⟨arr', heq', hre', hsorted'⟩ := insertDown_spec c le_rfl hlow hn hinserting
    rw [insertSort, heq, bind_eq_bind, bind_some]
    exact ⟨arr', heq', (hre.mono le_rfl (by omega)).trans hre', hsorted'⟩

/-! ### Partition -/

section

variable (pivot : α) (arr : ℤ → α) {i stop : ℤ}

theorem scanUp_spec (hi : 0 ≤ i) (hle : i ≤ stop)
    (hstop : stop < count) (hpivot : c.Le pivot (arr stop)) (n : ℕ) (hn : stop - i < n) :
    ∃ k, scanUp c.cmp count pivot arr n i = some k ∧ i ≤ k ∧ k ≤ stop ∧ c.Le pivot (arr k) ∧
      ∀ j, i ≤ j → j < k → c.Le (arr j) pivot := by
  induction n generalizing i with
  | zero => exact absurd hn (by omega)
  | succ n ih =>
    have hmem : InArray count i := ⟨hi, by omega⟩
    rw [scanUp, elementAt_of_mem hmem, bind_eq_bind, bind_some]
    by_cases hneg : c.cmp (arr i) pivot < 0
    · have hne : i ≠ stop := by
        rintro rfl
        exact absurd ((c.pos_iff pivot (arr i)).mpr hneg) (not_lt.mpr hpivot)
      obtain ⟨k, heq, hik, hk, hge, hbelow⟩ := ih (i := i + 1) (by omega) (by omega) (by omega)
      rw [if_pos hneg]
      refine ⟨k, heq, by omega, hk, hge, fun j hj hjk => ?_⟩
      by_cases hji : j = i
      · rw [hji]
        exact hneg.le
      · exact hbelow j (by omega) hjk
    · rw [if_neg hneg]
      exact ⟨i, rfl, le_rfl, hle, Comparison.le_of_not_neg hneg, fun j hj hjk => by omega⟩

theorem scanDown_spec (hi : i < count) (hle : stop ≤ i)
    (hstop : 0 ≤ stop) (hpivot : c.Le (arr stop) pivot) (n : ℕ) (hn : i - stop < n) :
    ∃ k, scanDown c.cmp count pivot arr n i = some k ∧ k ≤ i ∧ stop ≤ k ∧ c.Le (arr k) pivot ∧
      ∀ j, k < j → j ≤ i → c.Le pivot (arr j) := by
  induction n generalizing i with
  | zero => exact absurd hn (by omega)
  | succ n ih =>
    have hmem : InArray count i := ⟨by omega, hi⟩
    rw [scanDown, elementAt_of_mem hmem, bind_eq_bind, bind_some]
    by_cases hneg : c.cmp pivot (arr i) < 0
    · have hne : i ≠ stop := by
        rintro rfl
        exact absurd ((c.pos_iff (arr i) pivot).mpr hneg) (not_lt.mpr hpivot)
      obtain ⟨k, heq, hki, hk, hle', habove⟩ := ih (i := i - 1) (by omega) (by omega) (by omega)
      rw [if_pos hneg]
      refine ⟨k, heq, by omega, hk, hle', fun j hj hji => ?_⟩
      by_cases heq' : j = i
      · rw [heq']
        exact hneg.le
      · exact habove j hj (by omega)
    · rw [if_neg hneg]
      exact ⟨i, rfl, le_rfl, hle, Comparison.le_of_not_neg hneg, fun j hj hji => by omega⟩

end

/-- The segment from `low` to `high` while it is partitioned: what is before `lowPtr` is not
above the pivot, what is behind `highPtr` is not below it, and both scans find where to stop. -/
structure Partitioning (pivot : α) (low high : ℤ) (arr : ℤ → α) (lowPtr highPtr : ℤ) : Prop where
  before : ∀ i, low ≤ i → i < lowPtr → c.Le (arr i) pivot
  behind : ∀ i, highPtr < i → i ≤ high → c.Le pivot (arr i)
  stop_up : ∃ i, lowPtr ≤ i ∧ i ≤ high ∧ c.Le pivot (arr i)
  stop_down : ∃ i, low ≤ i ∧ i ≤ highPtr ∧ c.Le (arr i) pivot

structure Partitioned (pivot : α) (low high : ℤ) (arr : ℤ → α) (lowPtr highPtr : ℤ) : Prop where
  before : ∀ i, low ≤ i → i < lowPtr → c.Le (arr i) pivot
  behind : ∀ i, highPtr < i → i ≤ high → c.Le pivot (arr i)
  lt : highPtr < lowPtr
  low_lt : low < lowPtr
  lt_high : highPtr < high
  low_le : low - 1 ≤ highPtr
  le_high : lowPtr ≤ high + 1

section

variable {c} {pivot : α} {low high lo hi : ℤ} {arr : ℤ → α}

theorem Partitioning.exchange (hlo : low ≤ lo) (hlt : lo < hi) (hhi : hi ≤ high)
    (hbefore : ∀ i, low ≤ i → i < lo → c.Le (arr i) pivot)
    (hbehind : ∀ i, hi < i → i ≤ high → c.Le pivot (arr i)) (hup : c.Le pivot (arr lo))
    (hdown : c.Le (arr hi) pivot) :
    Partitioning c pivot low high (LibSources.exchange arr lo hi) (lo + 1) (hi - 1) := by
  have hleft : LibSources.exchange arr lo hi lo = arr hi := exchange_left ..
  have hright : LibSources.exchange arr lo hi hi = arr lo := exchange_right ..
  refine ⟨fun i hi1 hi2 => ?_, fun i hi1 hi2 => ?_, ⟨hi, by omega, hhi, ?_⟩,
    ⟨lo, hlo, by omega, ?_⟩⟩
  · by_cases heq : i = lo
    · rw [heq, hleft]
      exact hdown
    · rw [exchange_of_ne heq (by omega)]
      exact hbefore i hi1 (by omega)
  · by_cases heq : i = hi
    · rw [heq, hright]
      exact hup
    · rw [exchange_of_ne (by omega) heq]
      exact hbehind i (by omega) hi2
  · rw [hright]
    exact hup
  · rw [hleft]
    exact hdown

end

theorem partitionLoop_spec (pivot : α) {low high : ℤ} (hlow : 0 ≤ low) (hhigh : high < count)
    (n : ℕ) {arr : ℤ → α} {lowPtr highPtr : ℤ} (hlo : low ≤ lowPtr) (hhi : highPtr ≤ high)
    (hn : highPtr - lowPtr < 2 * n) (hle : lowPtr ≤ highPtr)
    (h : Partitioning c pivot low high arr lowPtr highPtr) :
    ∃ arr' lowPtr' highPtr', partitionLoop c.cmp count pivot n arr lowPtr highPtr =
        some (arr', lowPtr', highPtr') ∧ Rearranged arr arr' low high ∧
      Partitioned c pivot low high arr' lowPtr' highPtr' := by
  induction n generalizing arr lowPtr highPtr with
  | zero => exact absurd hn (by omega)
  | succ n ih =>
    obtain ⟨u, hu, hu', hup⟩ := h.stop_up
    obtain ⟨d, hd, hd', hdown⟩ := h.stop_down
    obtain ⟨lo, hscan, hlo', hlou, hge, hbelow⟩ :=
      scanUp_spec c pivot arr (by omega) hu (show u < count by omega) hup (count + 1) (by omega)
    obtain ⟨hi, hscan', hhi', hhid, hle', habove⟩ :=
      scanDown_spec c pivot arr (show highPtr < count by omega) hd' (by omega) hdown (count + 1)
        (by omega)
    have hbefore : ∀ i, low ≤ i → i < lo → c.Le (arr i) pivot := by
      intro i hi1 hi2
      by_cases hlt : i < lowPtr
      · exact h.before i hi1 hlt
      · exact hbelow i (by omega) hi2
    have hbehind : ∀ i, hi < i → i ≤ high → c.Le pivot (arr i) := by
      intro i hi1 hi2
      by_cases hlt : highPtr < i
      · exact h.behind i hlt hi2
      · exact habove i hi1 (by omega)
    rw [partitionLoop, hscan, bind_eq_bind, bind_some, hscan', bind_eq_bind, bind_some]
    rcases lt_trichotomy lo hi with hlt | rfl | hgt
    · have hstep := Partitioning.exchange (by omega) hlt (by omega) hbefore hbehind hge hle'
      have hswap : Rearranged arr (exchange arr lo hi) low high :=
        Rearranged.swap arr ⟨by omega, by omega⟩ ⟨by omega, by omega⟩
      rw [if_pos hlt, swapElements_of_mem ⟨by omega, by omega⟩ ⟨by omega, by omega⟩, bind_some]
      by_cases hmore : lo + 1 ≤ hi - 1
      · obtain ⟨arr', lowPtr', highPtr', heq, hre, hdone⟩ :=
          ih (by omega) (by omega) (by omega) hmore hstep
        rw [if_pos hmore]
        exact ⟨arr', lowPtr', highPtr', heq, hswap.trans hre, hdone⟩
      · rw [if_neg hmore]
        exact ⟨_, _, _, rfl, hswap, hstep.before, hstep.behind, by omega, by omega, by omega,
          by omega, by omega⟩
    · -- The scans meet at an element that is neither above nor below the pivot.
      rw [if_neg (lt_irrefl lo), if_pos rfl]
      refine ⟨_, _, _, rfl, Rearranged.refl .., fun i hi1 hi2 => ?_, fun i hi1 hi2 => ?_,
        by omega, by omega, by omega, by omega, by omega⟩
      · by_cases heq : i = lo
        · rwa [heq]
        · exact hbefore i hi1 (by omega)
      by_cases heq : i = lo
      · rwa [heq]
      · exact hbehind i (by omega) hi2
    · rw [if_neg (by omega), if_neg hgt.ne']
      exact ⟨_, _, _, rfl, Rearranged.refl .., hbefore, hbehind, hgt, by omega, by omega,
        by omega, by omega⟩

theorem choosePivot_spec {low high : ℤ} (hlow : 0 ≤ low) (hhigh : high < count)
    (hlarge : 10 ≤ high - low + 1) (arr : ℤ → α) :
    ∃ arr' mid lowPtr highPtr, choosePivot c.cmp count arr low high (high - low + 1) =
        some (arr', mid, lowPtr, highPtr) ∧ Rearranged arr arr' low high ∧
      low < mid ∧ mid < high ∧ low ≤ lowPtr ∧ lowPtr ≤ highPtr ∧ highPtr ≤ high ∧
      Partitioning c (arr' mid) low high arr' lowPtr highPtr := by
  have hmem : ∀ {i}, low ≤ i → i ≤ high → InArray count i := fun hi hi' =>
    ⟨by omega, by omega⟩
  rw [choosePivot]
  by_cases hforty : 40 < high - low + 1
  · obtain ⟨arr1, heq1, hre1, -⟩ := median_spec c arr (hmem le_rfl (by omega))
      (hmem (i := low + (high - low + 1) / 8) (by omega) (by omega))
      (hmem (i := low + (high - low + 1) / 8 * 2) (by omega) (by omega)) (by omega) (by omega)
    obtain ⟨arr2, heq2, hre2, -⟩ := median_spec c arr1
      (hmem (i := low + (high - low + 1) / 2 - (high - low + 1) / 8) (by omega) (by omega))
      (hmem (i := low + (high - low + 1) / 2) (by omega) (by omega))
      (hmem (i := low + (high - low + 1) / 2 + (high - low + 1) / 8) (by omega) (by omega))
      (by omega) (by omega)
    obtain ⟨arr3, heq3, hre3, -⟩ := median_spec c arr2
      (hmem (i := high - 2 * ((high - low + 1) / 8)) (by omega) (by omega))
      (hmem (i := high - (high - low + 1) / 8) (by omega) (by omega)) (hmem (by omega) le_rfl)
      (by omega) (by omega)
    obtain ⟨arr4, heq4, hre4, -⟩ := median_spec c arr3
      (hmem (i := low + (high - low + 1) / 8) (by omega) (by omega))
      (hmem (i := low + (high - low + 1) / 2) (by omega) (by omega))
      (hmem (i := high - (high - low + 1) / 8) (by omega) (by omega)) (by omega) (by omega)
    have hre : Rearranged arr arr4 low high :=
      (((hre1.mono (by omega) (by omega)).trans (hre2.mono (by omega) (by omega))).trans
        (hre3.mono (by omega) (by omega))).trans (hre4.mono (by omega) (by omega))
    rw [if_pos hforty]
    dsimp only
    rw [heq1, bind_eq_bind, bind_some, heq2, bind_some, heq3, bind_some, heq4, bind_some]
    refine ⟨_, _, _, _, rfl, hre, by omega, by omega, le_rfl, by omega, le_rfl, ?_⟩
    exact ⟨fun i hi hi' => absurd hi' (by omega), fun i hi hi' => absurd hi' (by omega),
      ⟨low + (high - low + 1) / 2, by omega, by omega, c.le_refl _⟩,
      ⟨low + (high - low + 1) / 2, by omega, by omega, c.le_refl _⟩⟩
  · obtain ⟨arr', heq, hre, hle, hle'⟩ := median_spec c arr (hmem le_rfl (by omega))
      (hmem (i := low + (high - low + 1) / 2) (by omega) (by omega)) (hmem (by omega) le_rfl)
      (by omega) (by omega)
    rw [if_neg hforty, heq, bind_eq_bind, bind_some]
    refine ⟨_, _, _, _, rfl, hre, by omega, by omega, by omega, by omega, by omega, ?_⟩
    refine ⟨fun i hi hi' => ?_, fun i hi hi' => ?_,
      ⟨low + (high - low + 1) / 2, by omega, by omega, c.le_refl _⟩,
      ⟨low + (high - low + 1) / 2, by omega, by omega, c.le_refl _⟩⟩
    · rwa [show i = low by omega]
    · rwa [show i = high by omega]

end LibSources
