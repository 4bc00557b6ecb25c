import LibSources.QsortPartition

/-!
# `my_qsort` Sorts

The run of the main loop over the pending partitions.

## Main results

* `myQsort_sorts`
-/

namespace LibSources

open List Option

variable {α : Type} (c : Comparison α) {count size sizeofLong : ℕ}

def partLength (p : ℤ × ℤ) : ℤ := p.2 - p.1 + 1

/-- A pair of positions lies in a partition. -/
def Covers (p : ℤ × ℤ) (i j : ℤ) : Prop := p.1 ≤ i ∧ j ≤ p.2

/-- The stack is small: what is `k` entries above its bottom has at most a fraction `1 / 2 ^ k` of
the elements. -/
def StackBound (count : ℕ) : List (ℤ × ℤ) → Prop
  | [] => True
  | p :: stack => partLength p * 2 ^ stack.length ≤ count ∧ StackBound count stack

/-- What bounds the number of rounds that are left. -/
def weight : List (ℤ × ℤ) → ℤ
  | [] => 0
  | p :: stack => 2 * partLength p - 1 + weight stack

/-- The array and the pending partitions: elements are in order unless they lie in the same
pending partition. -/
structure Pendings (arr : ℤ → α) (pending : List (ℤ × ℤ)) (count : ℕ) : Prop where
  bounds : ∀ p ∈ pending, 0 ≤ p.1 ∧ p.1 < p.2 ∧ p.2 < count
  disjoint : pending.Pairwise fun p q => p.2 < q.1 ∨ q.2 < p.1
  stack : StackBound count pending
  ordered : ∀ i j : ℤ, 0 ≤ i → i < j → j < count →
    (∃ p ∈ pending, Covers p i j) ∨ c.Le (arr i) (arr j)

section

variable {c} {arr arr' : ℤ → α} {low high : ℤ} {stack parts : List (ℤ × ℤ)}

/-- A partition is rearranged and replaced by parts of it: the elements in it that do not lie in
one part are in order. -/
theorem Pendings.replace (h : Pendings c arr ((low, high) :: stack) count)
    (hre : Rearranged arr arr' low high)
    (hbounds : ∀ p ∈ parts, low ≤ p.1 ∧ p.1 < p.2 ∧ p.2 ≤ high)
    (hdisjoint : parts.Pairwise fun p q => p.2 < q.1 ∨ q.2 < p.1)
    (hstack : StackBound count (parts ++ stack))
    (hordered : ∀ i j, low ≤ i → i < j → j ≤ high →
      (∃ p ∈ parts, Covers p i j) ∨ c.Le (arr' i) (arr' j)) :
    Pendings c arr' (parts ++ stack) count := by
  obtain ⟨hcross, hrest⟩ := pairwise_cons.mp h.disjoint
  obtain ⟨hlow, hlt, hhigh⟩ := h.bounds (low, high) mem_cons_self
  refine ⟨fun p hp => ?_, pairwise_append.mpr ⟨hdisjoint, hrest, fun p hp q hq => ?_⟩,
    hstack, fun i j hi hij hj => ?_⟩
  · rcases mem_append.mp hp with hp | hp
    · have hpart := hbounds p hp
      omega
    · exact h.bounds p (mem_cons_of_mem _ hp)
  · have hpart := hbounds p hp
    have hout := hcross q hq
    omega
  -- No other partition has elements of this one.
  have hfar : ∀ p ∈ stack, ∀ k k', Covers p k k' → k < k' → k < low ∧ k' < low ∨
      high < k ∧ high < k' := by
    intro p hp k k' hcovers hk
    have hout := hcross p hp
    obtain ⟨h1, h2⟩ := hcovers
    omega
  by_cases hi' : low ≤ i ∧ i ≤ high
  · by_cases hj' : j ≤ high
    · rcases hordered i j hi'.1 hij hj' with ⟨p, hp, hcovers⟩ | hle
      · exact .inl ⟨p, mem_append_left _ hp, hcovers⟩
      · exact .inr hle
    right
    have hbelow : ∀ k, low ≤ k → k ≤ high → c.Le (arr k) (arr j) := by
      intro k hk hk'
      rcases h.ordered k j (by omega) (by omega) hj with ⟨p, hp, hcovers⟩ | hle
      · rcases mem_cons.mp hp with rfl | hp
        · exact absurd hcovers.2 hj'
        · have hfar' := hfar p hp k j hcovers (by omega)
          omega
      · exact hle
    rw [hre.outside (.inr (by omega) : j < low ∨ high < j)]
    exact hre.forall_mem (P := fun x => c.Le x (arr j)) hbelow i hi'.1 hi'.2
  by_cases hj' : low ≤ j ∧ j ≤ high
  · right
    have habove : ∀ k, low ≤ k → k ≤ high → c.Le (arr i) (arr k) := by
      intro k hk hk'
      rcases h.ordered i k hi (by omega) (by omega) with ⟨p, hp, hcovers⟩ | hle
      · rcases mem_cons.mp hp with rfl | hp
        · have hcovers' := hcovers.1
          omega
        · have hfar' := hfar p hp i k hcovers (by omega)
          omega
      · exact hle
    rw [hre.outside (show i < low ∨ high < i by omega)]
    exact hre.forall_mem (P := fun x => c.Le (arr i) x) habove j hj'.1 hj'.2
  · rw [hre.outside (show i < low ∨ high < i by omega),
      hre.outside (show j < low ∨ high < j by omega)]
    rcases h.ordered i j hi hij hj with ⟨p, hp, hcovers⟩ | hle
    · rcases mem_cons.mp hp with rfl | hp
      · obtain ⟨h1, h2⟩ := hcovers
        dsimp only at h1 h2
        omega
      · exact .inl ⟨p, mem_append_right _ hp, hcovers⟩
    · exact .inr hle

end

/-! ### The parts of a partition -/

theorem toInt32_distance_le_iff (hsize : 0 < size) (hbytes : count * size < 2 ^ 31)
    (hcount : 0 < count) {d : ℤ} (hlo : -1 ≤ d) (hhi : d ≤ count) :
    toInt32 (d * size) ≤ 0 ↔ d ≤ 0 := by
  have hsize' : (0 : ℤ) < size := by exact_mod_cast hsize
  have hle : d * size ≤ count * size := mul_le_mul_of_nonneg_right hhi hsize'.le
  have hge : -1 * (size : ℤ) ≤ d * size := mul_le_mul_of_nonneg_right hlo hsize'.le
  have hone : 1 * (size : ℤ) ≤ count * size :=
    mul_le_mul_of_nonneg_right (by exact_mod_cast hcount) hsize'.le
  rw [toInt32_of_mem (by omega) (by omega)]
  constructor
  · intro h
    by_contra hpos
    have hmul : 0 < d * size := mul_pos (by omega) hsize'
    omega
  · exact fun h => mul_nonpos_of_nonpos_of_nonneg h hsize'.le

theorem length_lt_stackSize (hsize : 0 < size) (hbytes : count * size < 2 ^ 31)
    (hlong : 4 ≤ sizeofLong) {p : ℤ × ℤ} {stack : List (ℤ × ℤ)} (hlarge : 10 ≤ partLength p)
    (hstack : StackBound count (p :: stack)) : stack.length + 1 < stackSize sizeofLong := by
  have hcount : count < 2 ^ 31 := (Nat.le_mul_of_pos_right count hsize).trans_lt hbytes
  have hlength : stack.length < 28 := by
    by_contra hlong
    have hpow : (2 : ℤ) ^ 28 ≤ 2 ^ stack.length := pow_le_pow_right₀ (by norm_num) (by omega)
    have hbound := hstack.1
    nlinarith
  rw [stackSize]
  omega

section

variable {low high lowPtr highPtr : ℤ} {stack : List (ℤ × ℤ)}

theorem StackBound.part {p : ℤ × ℤ} (hstack : StackBound count ((low, high) :: stack))
    (hle : partLength p ≤ partLength (low, high)) : StackBound count (p :: stack) := by
  have hpow : (0 : ℤ) < 2 ^ stack.length := by positivity
  exact ⟨(mul_le_mul_of_nonneg_right hle hpow.le).trans hstack.1, hstack.2⟩

theorem StackBound.parts {p q : ℤ × ℤ} (hstack : StackBound count ((low, high) :: stack))
    (hle : partLength p ≤ partLength q)
    (hsum : partLength p + partLength q ≤ partLength (low, high)) (hpos : 0 ≤ partLength p) :
    StackBound count (p :: q :: stack) := by
  refine ⟨?_, hstack.part (by omega)⟩
  have hpow : (0 : ℤ) < 2 ^ stack.length := by positivity
  have hbound := hstack.1
  rw [length_cons, pow_succ]
  nlinarith

theorem nextPartitions_spec (hsize : 0 < size) (hbytes : count * size < 2 ^ 31)
    (hlong : 4 ≤ sizeofLong) (hlow : 0 ≤ low) (hhigh : high < count)
    (hlarge : 10 ≤ partLength (low, high)) (hstack : StackBound count ((low, high) :: stack))
    (hlt : highPtr < lowPtr) (hlow' : low < lowPtr) (hhigh' : highPtr < high)
    (hge : low - 1 ≤ highPtr) (hle : lowPtr ≤ high + 1) :
    ∃ parts, nextPartitions size sizeofLong low high lowPtr highPtr stack = some (parts ++ stack) ∧
      (∀ p ∈ parts, low ≤ p.1 ∧ p.1 < p.2 ∧ p.2 ≤ high) ∧
      parts.Pairwise (fun p q => p.2 < q.1 ∨ q.2 < p.1) ∧
      StackBound count (parts ++ stack) ∧ weight (parts ++ stack) < weight ((low, high) :: stack) ∧
      (low < highPtr → (low, highPtr) ∈ parts) ∧ (lowPtr < high → (lowPtr, high) ∈ parts) := by
  have hlen : partLength (low, high) = high - low + 1 := rfl
  have hlenL : partLength (low, highPtr) = highPtr - low + 1 := rfl
  have hlenR : partLength (lowPtr, high) = high - lowPtr + 1 := rfl
  have hroom := length_lt_stackSize hsize hbytes hlong hlarge hstack
  have hcount : 0 < count := by omega
  have hsize' : (0 : ℤ) < size := by exact_mod_cast hsize
  have hleft := toInt32_distance_le_iff hsize hbytes hcount (d := highPtr - low) (by omega)
    (by omega)
  have hright := toInt32_distance_le_iff hsize hbytes hcount (d := high - lowPtr) (by omega)
    (by omega)
  rw [nextPartitions]
  by_cases hl : highPtr - low ≤ 0
  · rw [if_pos (hleft.mpr hl)]
    by_cases hr : high - lowPtr ≤ 0
    · rw [if_pos (hright.mpr hr)]
      refine ⟨[], rfl, by simp, List.Pairwise.nil, hstack.2, ?_, fun h => absurd h (by omega),
        fun h => absurd h (by omega)⟩
      rw [nil_append, weight]
      omega
    rw [if_neg fun h => hr (hright.mp h)]
    refine ⟨[(lowPtr, high)], rfl, ?_, pairwise_singleton _ _, hstack.part (by omega), ?_,
      fun h => absurd h (by omega), fun _ => mem_singleton_self _⟩
    · rintro p hp
      rw [mem_singleton.mp hp]
      exact ⟨by omega, by omega, le_rfl⟩
    · rw [singleton_append, weight, weight]
      omega
  rw [if_neg fun h => hl (hleft.mp h)]
  by_cases hr : high - lowPtr ≤ 0
  · rw [if_pos (hright.mpr hr)]
    refine ⟨[(low, highPtr)], rfl, ?_, pairwise_singleton _ _, hstack.part (by omega), ?_,
      fun _ => mem_singleton_self _, fun h => absurd h (by omega)⟩
    · rintro p hp
      rw [mem_singleton.mp hp]
      exact ⟨le_rfl, by omega, by omega⟩
    · rw [singleton_append, weight, weight]
      omega
  rw [if_neg fun h => hr (hright.mp h), push, push, if_pos hroom, if_pos hroom]
  by_cases hsmaller : (high - lowPtr) * size < (highPtr - low) * size
  · have hsmaller' : high - lowPtr < highPtr - low := lt_of_mul_lt_mul_right hsmaller hsize'.le
    rw [if_pos hsmaller]
    refine ⟨[(lowPtr, high), (low, highPtr)], rfl, ?_, ?_,
      hstack.parts (by omega) (by omega) (by omega), ?_, fun _ => by simp, fun _ => by simp⟩
    · intro p hp
      rcases mem_pair.mp hp with rfl | rfl
      · exact ⟨by omega, by omega, le_rfl⟩
      · exact ⟨le_rfl, by omega, by omega⟩
    · exact pairwise_pair.mpr (.inr hlt)
    · rw [cons_append, singleton_append, weight, weight, weight]
      omega
  have hlarger : highPtr - low ≤ high - lowPtr := le_of_mul_le_mul_right (not_lt.mp hsmaller) hsize'
  rw [if_neg hsmaller]
  refine ⟨[(low, highPtr), (lowPtr, high)], rfl, ?_, ?_,
    hstack.parts (by omega) (by omega) (by omega), ?_, fun _ => by simp, fun _ => by simp⟩
  · intro p hp
    rcases mem_pair.mp hp with rfl | rfl
    · exact ⟨le_rfl, by omega, by omega⟩
    · exact ⟨by omega, by omega, le_rfl⟩
  · exact pairwise_pair.mpr (.inl hlt)
  · rw [cons_append, singleton_append, weight, weight, weight]
    omega

end

theorem qsortRound_spec (hsize : 0 < size) (hbytes : count * size < 2 ^ 31)
    (hlong : 4 ≤ sizeofLong) {arr : ℤ → α} {low high : ℤ} {stack : List (ℤ × ℤ)}
    (h : Pendings c arr ((low, high) :: stack) count) :
    ∃ arr' pending, qsortRound c.cmp count size sizeofLong arr low high stack =
        some (arr', pending) ∧ Rearranged arr arr' low high ∧
      Pendings c arr' pending count ∧ weight pending < weight ((low, high) :: stack) := by
  obtain ⟨hlow, hlt, hhigh⟩ := h.bounds (low, high) mem_cons_self
  have hlen : partLength (low, high) = high - low + 1 := rfl
  have hcount : (high - low) * size / size + 1 = high - low + 1 := by
    rw [Int.mul_ediv_cancel _ (by exact_mod_cast hsize.ne')]
  rw [qsortRound, hcount]
  by_cases hsmall : high - low + 1 < thresholdForInsertSort
  · obtain ⟨n, hn⟩ : ∃ n : ℕ, high = low + n := ⟨(high - low).toNat, by omega⟩
    obtain ⟨arr', heq, hre, hsorted⟩ := insertSort_spec c n hlow (show low + n < count by omega) arr
    rw [← hn] at hre hsorted
    rw [if_pos hsmall, show (high - low).toNat = n by omega, heq, bind_eq_bind, bind_some]
    refine ⟨arr', stack, rfl, hre, ?_, ?_⟩
    · exact h.replace hre (forall_mem_nil _) List.Pairwise.nil h.stack.2
        fun i j hi hij hj => .inr (hsorted i j hi hij hj)
    · rw [weight]
      omega
  have hlarge : 10 ≤ high - low + 1 := not_lt.mp hsmall
  obtain ⟨arr1, mid, lowPtr1, highPtr1, hpivot, hre1, hmid, hmid', hlo, hle, hhi,
    hpartitioning⟩ := choosePivot_spec c hlow hhigh hlarge arr
  obtain ⟨arr', lowPtr, highPtr, hpartition, hre2, hdone⟩ :=
    partitionLoop_spec c (arr1 mid) hlow hhigh count hlo hhi (by omega) hle hpartitioning
  obtain ⟨parts, hnext, hbounds, hpair, hstack, hweight, hleft, hright⟩ :=
    nextPartitions_spec hsize hbytes hlong hlow hhigh hlarge h.stack hdone.lt hdone.low_lt
      hdone.lt_high hdone.low_le hdone.le_high
  rw [if_neg hsmall, hpivot, bind_eq_bind, bind_some]
  dsimp only
  rw [elementAt_of_mem ⟨by omega, by omega⟩, bind_eq_bind, bind_some, hpartition,
    bind_eq_bind, bind_some, hnext, bind_eq_bind, bind_some]
  refine ⟨arr', _, rfl, hre1.trans hre2, ?_, hweight⟩
  refine h.replace (hre1.trans hre2) hbounds hpair hstack fun i j hi hij hj => ?_
  by_cases hj' : j ≤ highPtr
  · exact .inl ⟨_, hleft (by omega), hi, hj'⟩
  by_cases hi' : lowPtr ≤ i
  · exact .inl ⟨_, hright (by omega), hi', hj⟩
  · exact .inr ((hdone.before i hi (by omega)).trans (hdone.behind j (by omega) hj))

theorem weight_nonneg {pending : List (ℤ × ℤ)} (h : ∀ p ∈ pending, p.1 < p.2) :
    0 ≤ weight pending := by
  induction pending with
  | nil => exact le_rfl
  | cons p stack ih =>
    have hp := h p mem_cons_self
    have hrest := ih fun q hq => h q (mem_cons_of_mem _ hq)
    rw [weight, partLength]
    omega

theorem qsortLoop_spec (hsize : 0 < size) (hbytes : count * size < 2 ^ 31)
    (hlong : 4 ≤ sizeofLong) (n : ℕ) {arr : ℤ → α} {pending : List (ℤ × ℤ)}
    (h : Pendings c arr pending count) (hn : weight pending ≤ n) :
    ∃ arr', qsortLoop c.cmp count size sizeofLong n arr pending = some arr' ∧
      Rearranged arr arr' 0 (count - 1) ∧ SortedOn c arr' 0 (count - 1) := by
  induction n generalizing arr pending with
  | zero =>
    cases pending with
    | nil =>
      refine ⟨arr, rfl, Rearranged.refl .., fun i j hi hij hj => ?_⟩
      rcases h.ordered i j hi hij (by omega) with ⟨p, hp, -⟩ | hle
      · exact absurd hp not_mem_nil
      · exact hle
    | cons p stack =>
      have hp := h.bounds p mem_cons_self
      have hrest := weight_nonneg fun q hq => (h.bounds q (mem_cons_of_mem p hq)).2.1
      rw [weight, partLength] at hn
      omega
  | succ n ih =>
    cases pending with
    | nil =>
      refine ⟨arr, rfl, Rearranged.refl .., fun i j hi hij hj => ?_⟩
      rcases h.ordered i j hi hij (by omega) with ⟨p, hp, -⟩ | hle
      · exact absurd hp not_mem_nil
      · exact hle
    | cons p stack =>
      obtain ⟨low, high⟩ := p
      obtain ⟨hlow, -, hhigh⟩ := h.bounds (low, high) mem_cons_self
      obtain ⟨arr1, pending, hround, hre, hpendings, hweight⟩ :=
        qsortRound_spec c hsize hbytes hlong h
      obtain ⟨arr', hloop, hre', hsorted⟩ := ih hpendings (by omega)
      rw [qsortLoop, hround, bind_eq_bind, bind_some]
      exact ⟨arr', hloop, (hre.mono hlow (by omega)).trans hre', hsorted⟩

/-- `my_qsort` ends for every array and every comparison function that is a total preorder, without
an access outside the array and without an overflow of its stack. The elements are the same
ones, in order. -/
theorem myQsort_sorts (hsize : 0 < size) (hbytes : count * size < 2 ^ 31)
    (hlong : 4 ≤ sizeofLong) (arr : ℤ → α) :
    ∃ arr', myQsort c.cmp count size sizeofLong arr = some arr' ∧
      Rearranged arr arr' 0 (count - 1) ∧
      ∀ i j : ℤ, 0 ≤ i → i ≤ j → j < count → c.cmp (arr' i) (arr' j) ≤ 0 := by
  rw [myQsort]
  by_cases hcount : count ≤ 1
  · rw [if_pos hcount]
    refine ⟨arr, rfl, Rearranged.refl .., fun i j hi hij hj => ?_⟩
    rw [show i = j by omega]
    exact c.le_refl _
  have hstart : Pendings c arr [(0, count - 1)] count := by
    refine ⟨fun p hp => ?_, pairwise_singleton _ _, ⟨?_, trivial⟩, fun i j hi hij hj => ?_⟩
    · rw [mem_singleton.mp hp]
      omega
    · rw [partLength, length_nil, pow_zero, mul_one]
      omega
    · exact .inl ⟨_, mem_singleton_self _, hi, by omega⟩
  have hweight : weight [((0 : ℤ), (count : ℤ) - 1)] ≤ (2 * count : ℕ) := by
    rw [weight, weight, partLength]
    omega
  obtain ⟨arr', hloop, hre, hsorted⟩ := qsortLoop_spec c hsize hbytes hlong _ hstart hweight
  rw [if_neg hcount]
  refine ⟨arr', hloop, hre, fun i j hi hij hj => ?_⟩
  by_cases heq : i = j
  · rw [heq]
    exact c.le_refl _
  · exact hsorted i j hi (by omega) (by omega)

def intComparison : Comparison ℤ where
  cmp a b := a - b
  pos_iff a b := by omega
  trans a b d hab hbd := by omega

theorem myQsort_sorts_thirty :
    ∃ arr', myQsort intComparison.cmp 30 4 8 (fun i => -i) = some arr' ∧
      Rearranged (fun i => -i) arr' 0 ((30 : ℕ) - 1) ∧
      ∀ i j : ℤ, 0 ≤ i → i ≤ j → j < (30 : ℕ) → intComparison.cmp (arr' i) (arr' j) ≤ 0 :=
  myQsort_sorts intComparison (by decide) (by decide) (by decide) _

end LibSources
